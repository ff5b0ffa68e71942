import SystemProgramming.Shell.Syntax

/-!
# What becomes of a line

The four things that `parser_pop_next` can come to on a list of tokens: a word that is empty, a
line that is closed, a redirection to a newline, or tokens that are skipped up to the next newline.
-/

namespace SystemProgramming.Shell

/-! ## The tokens of a buffer -/

theorem Body.plain_token {d w r : List UInt8} {t : Token} (h : Body d w r t) : t.Plain := by
  induction h with
  | join _ ih => exact ih
  | escape _ _ ih => exact ih
  | plain _ _ ih => exact ih
  | quoted => exact fun h => absurd rfl h
  | blank => exact fun h => absurd rfl h
  | stop => exact fun h => absurd rfl h
  | comment => exact fun _ => rfl
  | doubled => exact fun _ => rfl
  | single => exact fun _ => rfl

theorem Lexeme.plain_token {w r : List UInt8} {t : Token} (h : Lexeme w r t) : t.Plain := by
  induction h with
  | skip _ _ _ ih => exact ih
  | newLine => exact fun _ => rfl
  | body _ hb => exact hb.plain_token

theorem Stream.plain {s : List UInt8} {ts : List Item} {e : Option Fault} (h : Stream s ts e) :
    ∀ t ∈ ts.map Prod.snd, t.Plain := by
  induction h with
  | more => simp
  | stuck => simp
  | token hs _ ih =>
    rcases parseToken_eq_some_iff.mp hs with ⟨w, r, -, -, hlex⟩
    intro u hu
    rw [List.map_cons, List.mem_cons] at hu
    rcases hu with rfl | hu
    · exact hlex.plain_token
    · exact ih u hu

/-! ## The token loop -/

variable {e : Option Fault}

theorem lineTokens_reads {line line' : CommandLine} {us : List Item}
    (h : Reads line (us.map Prod.snd) line') (k : Nat) (vs : List Item) :
    lineTokens e line k (us ++ vs) = lineTokens e line' (k + width us) vs := by
  induction us generalizing line k with
  | nil =>
    cases h
    rfl
  | cons nt us ih =>
    cases h with
    | cons htake hrest =>
      rw [List.cons_append, lineTokens, htake, width_cons, ← Nat.add_assoc]
      exact ih hrest (k + nt.1)

/-- The loop stops at the end of the tokens or at a token that it does not read. -/
theorem reads_split (line : CommandLine) (ts : List Item) :
    ∃ (us vs : List Item) (line' : CommandLine), ts = us ++ vs ∧
      Reads line (us.map Prod.snd) line' ∧
      (vs = [] ∨ ∃ n t ws, vs = (n, t) :: ws ∧ ∀ line'', line'.take t ≠ .read line'') := by
  induction ts generalizing line with
  | nil => exact ⟨[], [], line, rfl, .nil line, .inl rfl⟩
  | cons nt ts ih =>
    by_cases hread : ∃ line', line.take nt.2 = .read line'
    · rcases hread with ⟨line', hread⟩
      rcases ih line' with ⟨us, vs, line'', rfl, hus, hstop⟩
      exact ⟨nt :: us, vs, line'', rfl, .cons hread hus, hstop⟩
    · exact ⟨[], nt :: ts, line, rfl, .nil line,
        .inr ⟨nt.1, nt.2, ts, rfl, fun line' h => hread ⟨line', h⟩⟩⟩

/-! ## The tokens that close a line -/

/-- A closed line of `n` bytes: returned if it ends in a command. -/
def closeOutcome (line : CommandLine) (n : Nat) : Outcome :=
  match line.exprs.getLast? with
  | none => .fault .parserPopNext
  | some (.command _) => .returned n .none (some line)
  | some _ => .returned n .endsNotWithACommand none

def Token.IsRedirect (t : Token) : Prop := t = ⟨.outNew, []⟩ ∨ t = ⟨.outAppend, []⟩

/-- Tokens of items that are given one by one. -/
theorem map_snd_cons {us : List Item} {t : Token} {ts : List Token}
    (h : us.map Prod.snd = t :: ts) : ∃ n us', us = (n, t) :: us' ∧ us'.map Prod.snd = ts := by
  rcases List.map_eq_cons_iff.mp h with ⟨⟨n, t'⟩, us', rfl, rfl, hrest⟩
  exact ⟨n, us', rfl, hrest⟩

theorem backgroundTokens_closing {line : CommandLine} (hline : line.isBackground = false)
    {t : Token} {us : List Item} {b : Bool} (h : t :: us.map Prod.snd = closingTokens none b)
    (k : Nat) (vs : List Item) : backgroundTokens e line t k (us ++ vs) =
      closeOutcome { line with isBackground := b } (k + width us) := by
  cases b with
  | false =>
    have hsplit := List.cons.inj (show t :: us.map Prod.snd = [newLineToken] from h)
    obtain rfl : us = [] := List.map_eq_nil_iff.mp hsplit.2
    have hsame : { line with isBackground := false } = line := by
      rw [← hline]
    rw [hsplit.1, hsame]
    rfl
  | true =>
    have hsplit := List.cons.inj
      (show t :: us.map Prod.snd = [⟨.background, []⟩, newLineToken] from h)
    rcases map_snd_cons hsplit.2 with ⟨n, us', rfl, hnil⟩
    obtain rfl : us' = [] := List.map_eq_nil_iff.mp hnil
    rw [hsplit.1]
    rfl

theorem closingTokens_none (b : Bool) : ∃ t ts, closingTokens none b = t :: ts ∧
    t.type ≠ .outNew ∧ t.type ≠ .outAppend := by
  cases b with
  | false => exact ⟨newLineToken, [], rfl, by decide, by decide⟩
  | true => exact ⟨⟨.background, []⟩, [newLineToken], rfl, by decide, by decide⟩

theorem redirectTokens_file {line : CommandLine} (hline : line.isBackground = false) {t : Token}
    (ht : t.IsRedirect) {us : List Item} {file : Word} {b : Bool}
    (h : us.map Prod.snd = file.token :: closingTokens none b) (k : Nat) (vs : List Item) :
    redirectTokens e line t k (us ++ vs) =
      closeOutcome { line.redirect t file.bytes with isBackground := b } (k + width us) := by
  rcases closingTokens_none b with ⟨v, rest, hv, -, -⟩
  rcases map_snd_cons h with ⟨n, us', rfl, hus'⟩
  rcases map_snd_cons (hus'.trans hv) with ⟨m, us'', rfl, hus''⟩
  have hout : t.type = .outNew ∨ t.type = .outAppend := by
    rcases ht with rfl | rfl
    · exact .inl rfl
    · exact .inr rfl
  have hline' : (line.redirect t file.bytes).isBackground = false := hline
  have hclosing : v :: us''.map Prod.snd = closingTokens none b := by rw [hus'', hv]
  unfold redirectTokens
  simp only [hout, if_true, List.cons_append, Word.token, ne_eq, not_true_eq_false, if_false,
    file.ne_nil, width_cons]
  rw [backgroundTokens_closing hline' hclosing, Nat.add_assoc, Nat.add_assoc]

theorem redirectTokens_closing {l : Pipeline} {t : Token} {us : List Item}
    {r : Option Redirect} {b : Bool} (h : t :: us.map Prod.snd = closingTokens r b) (k : Nat)
    (vs : List Item) : redirectTokens e l.line t k (us ++ vs) =
      closeOutcome (l.line.close r b) (k + width us) := by
  cases r with
  | none =>
    rcases closingTokens_none b with ⟨v, rest, hv, hnew, happend⟩
    rw [← (List.cons.inj (h.trans hv)).1] at hnew happend
    unfold redirectTokens
    rw [if_neg (by simp [hnew, happend])]
    exact backgroundTokens_closing rfl h k vs
  | some r =>
    cases r with
    | new file =>
      have hsplit := List.cons.inj
        (show t :: us.map Prod.snd = ⟨.outNew, []⟩ :: file.token :: closingTokens none b from h)
      rw [hsplit.1]
      exact redirectTokens_file rfl (.inl rfl) hsplit.2 k vs
    | append file =>
      have hsplit := List.cons.inj
        (show t :: us.map Prod.snd = ⟨.outAppend, []⟩ :: file.token :: closingTokens none b from h)
      rw [hsplit.1]
      exact redirectTokens_file rfl (.inr rfl) hsplit.2 k vs

/-! ## The ways in which a line goes on after the loop -/

theorem skipTokens_other {err : ParserError} {t : Token} (h : t.type ≠ .newLine) (k n : Nat)
    (ts : List Item) : skipTokens e err k ((n, t) :: ts) = skipTokens e err (k + n) ts := by
  rw [skipTokens, if_neg h]

theorem Token.Plain.eq {t : Token} (h : t.Plain) {type : TokenType} (ht : t.type = type)
    (hstr : type ≠ .str) : t = ⟨type, []⟩ := by
  have hdata := h (by rw [ht]; exact hstr)
  rw [← ht, ← hdata]

/-- The background mark and the newline are there, or the rest of the line is skipped. -/
theorem backgroundTokens_cases (e : Option Fault) (line : CommandLine) {t : Token}
    {ts : List Item} (ht : t.Plain)
    (hts : ∀ u ∈ ts.map Prod.snd, u.Plain) (k : Nat) :
    (∃ us vs b, ts = us ++ vs ∧ t :: us.map Prod.snd = closingTokens none b) ∨
      t.type ≠ .newLine ∧
        backgroundTokens e line t k ts = skipTokens e .tooLateArguments k ts := by
  by_cases hbg : t.type = .background
  · obtain rfl := ht.eq hbg (by decide)
    cases ts with
    | nil => exact .inr ⟨by decide, rfl⟩
    | cons nu us =>
      rcases nu with ⟨n, u⟩
      by_cases hnl : u.type = .newLine
      · obtain rfl : u = newLineToken := (hts u (by simp)).eq hnl (by decide)
        exact .inl ⟨[(n, newLineToken)], us, true, rfl, rfl⟩
      · refine .inr ⟨by decide, ?_⟩
        rw [skipTokens_other hnl, backgroundTokens, if_pos rfl]
        show newLineTokens e _ u (k + n) us = _
        rw [newLineTokens, if_neg hnl]
  · by_cases hnl : t.type = .newLine
    · obtain rfl : t = newLineToken := ht.eq hnl (by decide)
      exact .inl ⟨[], ts, false, rfl, rfl⟩
    · refine .inr ⟨hnl, ?_⟩
      unfold backgroundTokens
      rw [if_neg hbg, newLineTokens, if_neg hnl]

/-- What is left to read once the loop is left with a token: the tokens that close the line, an
empty word or a newline for a file, or tokens to skip. -/
theorem redirectTokens_cases (e : Option Fault) (line : CommandLine) {t : Token}
    {ts : List Item} (ht : t.Plain)
    (hts : ∀ u ∈ ts.map Prod.snd, u.Plain) (k : Nat) :
    (∃ us vs r b, ts = us ++ vs ∧ t :: us.map Prod.snd = closingTokens r b) ∨
      t.IsRedirect ∧ (∃ n us, ts = (n, ⟨.str, []⟩) :: us) ∨
      t.IsRedirect ∧ (∃ n us, ts = (n, newLineToken) :: us) ∨
      t.type ≠ .newLine ∧ ∃ err, err ≠ .none ∧
        redirectTokens e line t k ts = skipTokens e err k ts := by
  by_cases hout : t.type = .outNew ∨ t.type = .outAppend
  · -- a redirect takes the next word, if there is one with bytes in it
    have hredirect : t.IsRedirect := by
      rcases hout with h | h
      · exact .inl (ht.eq h (by decide))
      · exact .inr (ht.eq h (by decide))
    have hne : t.type ≠ .newLine := by rcases hredirect with rfl | rfl <;> decide
    cases ts with
    | nil =>
      -- the line ends with the redirect
      refine .inr (.inr (.inr ⟨hne, .outputRedirectBadArg, by decide, ?_⟩))
      rw [redirectTokens, if_pos hout]
      rfl
    | cons nu us =>
      rcases nu with ⟨n, u⟩
      by_cases hstr : u.type = .str
      · rcases u with ⟨type, data⟩
        obtain rfl : type = .str := hstr
        have hword : (Token.mk .str data).type ≠ .newLine := TokenType.noConfusion
        by_cases hdata : data = []
        · -- an empty word takes the place of the file name
          exact .inr (.inl ⟨hredirect, n, us, by rw [hdata]⟩)
        · cases us with
          | nil =>
            refine .inr (.inr (.inr ⟨hne, .tooLateArguments, by decide, ?_⟩))
            rw [redirectTokens, if_pos hout, skipTokens_other hword]
            simp [hdata, skipTokens]
          | cons mv vs =>
            rcases mv with ⟨m, v⟩
            have hv : v.Plain := hts v (by simp)
            have hvs : ∀ u ∈ vs.map Prod.snd, u.Plain := by
              intro u hu
              exact hts u (List.mem_cons_of_mem _ (List.mem_cons_of_mem _ hu))
            have hstep : redirectTokens e line t k ((n, ⟨.str, data⟩) :: (m, v) :: vs) =
                backgroundTokens e (line.redirect t data) v (k + n + m) vs := by
              rw [redirectTokens, if_pos hout]
              simp [hdata]
            rcases backgroundTokens_cases e (line.redirect t data) hv hvs (k + n + m) with
              ⟨us, ws, b, rfl, hclosing⟩ | ⟨hnl, hskip⟩
            · -- the word is the file
              have hitems : ((n, Token.mk .str data) :: (m, v) :: us).map Prod.snd =
                  ⟨.str, data⟩ :: closingTokens none b := by
                rw [← hclosing]
                rfl
              refine .inl ⟨(n, ⟨.str, data⟩) :: (m, v) :: us, ws, ?_⟩
              rw [hitems]
              rcases hredirect with rfl | rfl
              · exact ⟨some (.new ⟨data, hdata⟩), b, rfl, rfl⟩
              · exact ⟨some (.append ⟨data, hdata⟩), b, rfl, rfl⟩
            · refine .inr (.inr (.inr ⟨hne, .tooLateArguments, by decide, ?_⟩))
              rw [hstep, hskip, skipTokens_other hword, skipTokens_other hnl]
      · by_cases hnl : u.type = .newLine
        · -- the end of the line is taken for the file name
          obtain rfl : u = newLineToken := (hts u (by simp)).eq hnl (by decide)
          exact .inr (.inr (.inl ⟨hredirect, n, us, rfl⟩))
        · -- the next token is no word
          refine .inr (.inr (.inr ⟨hne, .outputRedirectBadArg, by decide, ?_⟩))
          unfold redirectTokens
          rw [if_pos hout, skipTokens_other hnl]
          simp [hstr]
  · -- no redirect: the line ends here or after `&`
    rcases backgroundTokens_cases e line ht hts k with ⟨us, vs, b, hsplit, hclosing⟩ | ⟨hnl, hskip⟩
    · exact .inl ⟨us, vs, none, b, hsplit, hclosing⟩
    · refine .inr (.inr (.inr ⟨hnl, .tooLateArguments, by decide, ?_⟩))
      unfold redirectTokens
      rw [if_neg hout, hskip]

/-! ## What becomes of the tokens -/

/-- The empty word is where a command, an argument or the file of a redirection is read. -/
def AtEmptyWord (ts : List Token) : Prop :=
  ∃ (k : Nat) (l : Pipeline), ts = blankLines k ++ l.tokens ++ [⟨.str, []⟩] ∨
    ∃ t, t.IsRedirect ∧ ts = blankLines k ++ l.tokens ++ [t, ⟨.str, []⟩]

/-- A line that is closed, well-formed or not. -/
def AtClose (l : Pipeline) (r : Option Redirect) (b : Bool) (ts : List Token) : Prop :=
  (l = .empty → r ≠ none ∨ b = true) ∧
    ∃ k, ts = blankLines k ++ l.tokens ++ closingTokens r b

/-- The file of a redirection is a newline. -/
def AtBareRedirect (ts : List Token) : Prop :=
  ∃ (k : Nat) (l : Pipeline) (t : Token), t.IsRedirect ∧
    ts = blankLines k ++ l.tokens ++ [t, newLineToken]

/-- Empty lines and a line that has not come to its newline. -/
def Unfinished (ts : List Token) : Prop :=
  ∃ (k : Nat) (us : List Token), ts = blankLines k ++ us ∧ newLineToken ∉ us

/-- What `parser_pop_next` can come to. -/
inductive Parses (e : Option Fault) : List Item → Outcome → Prop
  | emptyWord {us vs : List Item} (h : AtEmptyWord (us.map Prod.snd)) :
      Parses e (us ++ vs) (.fault .tokenStrdup)
  | close {us vs : List Item} {l : Pipeline} {r : Option Redirect} {b : Bool}
      (h : AtClose l r b (us.map Prod.snd)) :
      Parses e (us ++ vs) (closeOutcome (l.line.close r b) (width us))
  | bareRedirect {us vs : List Item} (h : AtBareRedirect (us.map Prod.snd)) :
      Parses e (us ++ vs) (skipTokens e .outputRedirectBadArg (width us) vs)
  | skip {us vs : List Item} {err : ParserError} (h : Unfinished (us.map Prod.snd))
      (herr : err ≠ .none) (hfirst : ∀ k, us.map Prod.snd = blankLines k → vs = []) :
      Parses e (us ++ vs) (skipTokens e err (width us) vs)

theorem redirectTokens_emptyWord {line : CommandLine} {t : Token} (ht : t.IsRedirect) (k n : Nat)
    (us : List Item) :
    redirectTokens e line t k ((n, ⟨.str, []⟩) :: us) = .fault .tokenStrdup := by
  rcases ht with rfl | rfl <;> rfl

theorem redirectTokens_newLine {line : CommandLine} {t : Token} (ht : t.IsRedirect) (k n : Nat)
    (us : List Item) : redirectTokens e line t k ((n, newLineToken) :: us) =
      skipTokens e .outputRedirectBadArg (k + n) us := by
  rcases ht with rfl | rfl <;> rfl

theorem mem_simple {c : Simple} {t : Token} (h : t ∈ c.tokens) : ∃ w : Word, t = w.token := by
  rw [Simple.tokens, List.mem_cons, List.mem_map] at h
  rcases h with h | ⟨w, -, h⟩
  · exact ⟨c.exe, h⟩
  · exact ⟨w, h.symm⟩

/-- A pipeline is made of words and operators. -/
theorem mem_pipeline {l : Pipeline} {t : Token} (h : t ∈ l.tokens) :
    (∃ w : Word, t = w.token) ∨ ∃ op : Op, t = op.token := by
  rw [Pipeline.tokens, joinedTokens, List.mem_append, List.mem_flatMap] at h
  rcases h with ⟨c, -, h⟩ | h
  · rw [List.mem_append, List.mem_singleton] at h
    rcases h with h | h
    · exact .inl (mem_simple h)
    · exact .inr ⟨c.2, h⟩
  · cases hl : l.last with
    | none => simp [hl] at h
    | some c => exact .inl (mem_simple (c := c) (by simpa [hl] using h))

theorem newLine_not_mem_pipeline (l : Pipeline) : newLineToken ∉ l.tokens := by
  intro h
  rcases mem_pipeline h with ⟨w, h⟩ | ⟨op, h⟩
  · cases h
  · cases op <;> cases h

theorem take_error_type {line : CommandLine} {t : Token} {err : ParserError}
    (h : line.take t = .error err) : t.type ≠ .newLine := by
  intro hnl
  unfold CommandLine.take at h
  rw [hnl] at h
  by_cases hline : line.exprs = [] <;> simp [hline] at h

theorem take_emptyWord {l : Pipeline} {t : Token} (ht : t.Plain)
    (h : l.line.take t = .emptyWord) : t = ⟨.str, []⟩ := by
  rcases plain_cases ht with ⟨w, rfl⟩ | rfl | rfl | ⟨op, rfl⟩ | rfl | rfl | rfl
  · rw [take_word] at h
    cases h
  · rfl
  · rw [take_newLine] at h
    by_cases hl : l = .empty <;> simp [hl] at h
  · rw [take_op] at h
    cases hl : l.last <;> simp [hl] at h
  · cases h
  · cases h
  · cases h

section

variable {us ws : List Item} {k n : Nat} {l : Pipeline} {t : Token}
  (htokens : us.map Prod.snd = blankLines k ++ l.tokens)

include htokens

theorem map_snd_next (us' : List Item) : (us ++ (n, t) :: us').map Prod.snd =
    blankLines k ++ l.tokens ++ (t :: us'.map Prod.snd) := by
  rw [List.map_append, htokens]
  rfl

/-- A token in the line that is followed by skipping. -/
theorem skip_parses (hnl : t.type ≠ .newLine) {err : ParserError} (herr : err ≠ .none) :
    Parses e (us ++ (n, t) :: ws) (skipTokens e err (width us + n) ws) := by
  have hne : newLineToken ≠ t := fun h => hnl (by rw [← h]; rfl)
  have hmap := map_snd_next (n := n) (t := t) htokens []
  have hwidth : width us + n = width (us ++ [(n, t)]) := by simp
  rw [show us ++ (n, t) :: ws = (us ++ [(n, t)]) ++ ws by simp, hwidth]
  refine .skip ⟨k, l.tokens ++ [t], ?_, ?_⟩ herr fun k' hblank => ?_
  · rw [hmap, List.append_assoc]
    rfl
  · simpa using ⟨newLine_not_mem_pipeline l, hne⟩
  · -- the token is no newline
    have hmem : t ∈ blankLines k' := by rw [← hblank, hmap]; simp
    exact absurd (List.eq_of_mem_replicate hmem).symm hne

/-- The part of a line that comes after the token loop. -/
theorem close_parses (ht : t.Plain) (hws : ∀ u ∈ ws.map Prod.snd, u.Plain)
    (hclose : l.line.take t = .close) :
    Parses e (us ++ (n, t) :: ws) (redirectTokens e l.line t (width us + n) ws) := by
  have hassoc : ∀ us' vs : List Item,
      us ++ (n, t) :: (us' ++ vs) = (us ++ (n, t) :: us') ++ vs := by simp
  have hwidth : ∀ us' : List Item, width us + n + width us' = width (us ++ (n, t) :: us') := by
    simp [Nat.add_assoc]
  rcases redirectTokens_cases e l.line ht hws (width us + n) with
    ⟨us', vs, r, b, rfl, hclosing⟩ | ⟨hredirect, m, vs, rfl⟩ | ⟨hredirect, m, vs, rfl⟩ |
    ⟨hnl, err, herr, hskip⟩
  · rw [redirectTokens_closing hclosing, hwidth, hassoc]
    refine .close ⟨fun hempty => ?_, k, ?_⟩
    · -- a newline alone would have been an empty line
      by_contra hnone
      rw [not_or, not_not, Bool.not_eq_true] at hnone
      rw [hnone.1, hnone.2] at hclosing
      have hnl := (List.cons.inj (show t :: us'.map Prod.snd = [newLineToken] from hclosing)).1
      rw [hnl, take_newLine, if_pos hempty] at hclose
      cases hclose
    · rw [map_snd_next htokens, hclosing]
  · rw [redirectTokens_emptyWord hredirect, show (m, Token.mk .str []) :: vs =
      [(m, Token.mk .str [])] ++ vs from rfl, hassoc]
    exact .emptyWord ⟨k, l, .inr ⟨t, hredirect, map_snd_next htokens _⟩⟩
  · have hone := hwidth [(m, newLineToken)]
    rw [width_cons, width_nil, Nat.add_zero] at hone
    rw [redirectTokens_newLine hredirect, show (m, newLineToken) :: vs =
      [(m, newLineToken)] ++ vs from rfl, hassoc, hone]
    exact .bareRedirect ⟨k, l, t, hredirect, map_snd_next htokens _⟩
  · rw [hskip]
    exact skip_parses htokens hnl herr

end

theorem lineTokens_parses {ts : List Item} (hplain : ∀ t ∈ ts.map Prod.snd, t.Plain) :
    Parses e ts (lineTokens e .empty 0 ts) := by
  rcases reads_split .empty ts with ⟨us, vs, line, rfl, hreads, hstop⟩
  rw [List.map_append] at hplain
  have hus : ∀ t ∈ us.map Prod.snd, t.Plain := fun t ht => hplain t (List.mem_append_left _ ht)
  rw [lineTokens_reads hreads, Nat.zero_add]
  rcases (reads_iff hus).mp hreads with ⟨k, l, htokens, rfl⟩
  rcases hstop with rfl | ⟨n, t, ws, rfl, hstop⟩
  · have herr : ParserError.tooLateArguments ≠ .none := by decide
    exact .skip ⟨k, l.tokens, htokens, newLine_not_mem_pipeline l⟩ herr fun _ _ => rfl
  · have ht : t.Plain := hplain t (by simp)
    have hws : ∀ u ∈ ws.map Prod.snd, u.Plain := fun u hu => hplain u (by simp [hu])
    unfold lineTokens
    cases htake : l.line.take t with
    | read line' => exact absurd htake (hstop line')
    | error err => exact skip_parses htokens (take_error_type htake) (take_error htake)
    | emptyWord =>
      obtain rfl := take_emptyWord ht htake
      rw [show (n, Token.mk .str []) :: ws = [(n, Token.mk .str [])] ++ ws from rfl,
        ← List.append_assoc]
      exact .emptyWord ⟨k, l, .inl (map_snd_next htokens [])⟩
    | close => exact close_parses htokens ht hws htake

/-! ## Tokens of a known shape -/

theorem map_snd_append {us : List Item} {ts ts' : List Token}
    (h : us.map Prod.snd = ts ++ ts') : ∃ us₁ us₂, us = us₁ ++ us₂ ∧ us₁.map Prod.snd = ts ∧
      us₂.map Prod.snd = ts' :=
  List.map_eq_append_iff.mp h

theorem lineTokens_pipeline {us : List Item} {k : Nat} {l : Pipeline}
    (h : us.map Prod.snd = blankLines k ++ l.tokens) (vs : List Item) :
    lineTokens e .empty 0 (us ++ vs) = lineTokens e l.line (width us) vs := by
  have hreads : Reads .empty (us.map Prod.snd) l.line := by
    rw [h]
    exact (reads_blankLines k).append (reads_pipeline l)
  rw [lineTokens_reads hreads, Nat.zero_add]

theorem take_redirect {line : CommandLine} {t : Token} (ht : t.IsRedirect) :
    line.take t = .close := by
  rcases ht with rfl | rfl <;> rfl

theorem lineTokens_emptyWord {us : List Item} (h : AtEmptyWord (us.map Prod.snd))
    (vs : List Item) : lineTokens e .empty 0 (us ++ vs) = .fault .tokenStrdup := by
  rcases h with ⟨k, l, h | ⟨t, ht, h⟩⟩
  · rcases map_snd_append h with ⟨us₁, us₂, rfl, h₁, h₂⟩
    rcases map_snd_cons h₂ with ⟨n, us₃, rfl, -⟩
    rw [List.append_assoc, lineTokens_pipeline h₁]
    rfl
  · rcases map_snd_append h with ⟨us₁, us₂, rfl, h₁, h₂⟩
    rcases map_snd_cons h₂ with ⟨n, us₃, rfl, h₃⟩
    rcases map_snd_cons h₃ with ⟨m, us₄, rfl, -⟩
    rw [List.append_assoc, lineTokens_pipeline h₁, List.cons_append, lineTokens, take_redirect ht]
    exact redirectTokens_emptyWord ht _ m _

theorem lineTokens_bareRedirect {us : List Item} (h : AtBareRedirect (us.map Prod.snd))
    (vs : List Item) : lineTokens e .empty 0 (us ++ vs) =
      skipTokens e .outputRedirectBadArg (width us) vs := by
  rcases h with ⟨k, l, t, ht, h⟩
  rcases map_snd_append h with ⟨us₁, us₂, rfl, h₁, h₂⟩
  rcases map_snd_cons h₂ with ⟨n, us₃, rfl, h₃⟩
  rcases map_snd_cons h₃ with ⟨m, us₄, rfl, hnil⟩
  obtain rfl : us₄ = [] := List.map_eq_nil_iff.mp hnil
  rw [List.append_assoc, lineTokens_pipeline h₁, List.cons_append, lineTokens, take_redirect ht,
    width_append, width_cons, width_cons, width_nil, Nat.add_zero, ← Nat.add_assoc]
  exact redirectTokens_newLine ht _ m vs

theorem take_closing {l : Pipeline} {r : Option Redirect} {b : Bool}
    (hl : l = .empty → r ≠ none ∨ b = true) {t : Token} {ts : List Token}
    (h : closingTokens r b = t :: ts) : l.line.take t = .close := by
  cases r with
  | some r => cases r <;> (cases h; rfl)
  | none =>
    cases b with
    | true =>
      cases h
      rfl
    | false =>
      cases h
      have hne : l ≠ .empty := fun hempty => by simpa using hl hempty
      exact (take_newLine l).trans (if_neg hne)

theorem lineTokens_close {us : List Item} {l : Pipeline} {r : Option Redirect} {b : Bool}
    (h : AtClose l r b (us.map Prod.snd)) (vs : List Item) :
    lineTokens e .empty 0 (us ++ vs) = closeOutcome (l.line.close r b) (width us) := by
  rcases h with ⟨hl, k, h⟩
  rcases map_snd_append h with ⟨us₁, us₂, rfl, h₁, h₂⟩
  rcases hclosing : closingTokens r b with _ | ⟨t, ts⟩
  · have hne : closingTokens r b ≠ [] := by simp [closingTokens]
    exact absurd hclosing hne
  · rcases map_snd_cons (h₂.trans hclosing) with ⟨n, us₃, rfl, h₃⟩
    rw [List.append_assoc, lineTokens_pipeline h₁, List.cons_append, lineTokens,
      take_closing hl hclosing, width_append, width_cons, ← Nat.add_assoc]
    exact redirectTokens_closing (h₂ : t :: us₃.map Prod.snd = _) _ vs

/-! ## Where a line ends -/

/-- The position after the next newline. -/
def lineEnd (k : Nat) : List Item → Option Nat
  | [] => none
  | (n, t) :: ts => if t.type = .newLine then some (k + n) else lineEnd (k + n) ts

theorem skipTokens_eq (err : ParserError) (k : Nat) (ts : List Item) : skipTokens e err k ts =
    match lineEnd k ts with
    | some n => .returned n err none
    | none => atEnd e := by
  induction ts generalizing k with
  | nil => rfl
  | cons nt ts ih =>
    unfold skipTokens lineEnd
    by_cases hnl : nt.2.type = .newLine
    · rw [if_pos hnl, if_pos hnl]
    · rw [if_neg hnl, if_neg hnl, ih]

end SystemProgramming.Shell
