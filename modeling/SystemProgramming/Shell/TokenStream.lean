import SystemProgramming.Shell.Grammar
import SystemProgramming.Shell.Parser

/-!
# The parser on a stream of tokens

`parser_pop_next` asks the tokenizer for one token after the other.  Seen from above, it reads a
list of tokens, each with the number of bytes it takes, that ends because more input is needed or
because the tokenizer is stuck.  The parser on such a list needs neither a buffer nor fuel; it is
shown here to be what `parser_pop_next` computes.
-/

open Fallible

namespace SystemProgramming.Shell

/-- A token and the number of bytes `parse_token` returns with it. -/
abbrev Item := Nat × Token

/-- The tokens that repeated `parse_token` finds in `s`, and the assertion that ends them if it is
not the end of the input. -/
inductive Stream : List UInt8 → List Item → Option Fault → Prop
  | more {s : List UInt8} : parseToken s = .ok none → Stream s [] none
  | stuck {s : List UInt8} {e : Fault} : parseToken s = .error e → Stream s [] (some e)
  | token {s : List UInt8} {n : Nat} {t : Token} {ts : List Item} {e : Option Fault} :
      parseToken s = .ok (some (n, t)) → Stream (s.drop n) ts e → Stream s ((n, t) :: ts) e

theorem Stream.exists (s : List UInt8) : ∃ ts e, Stream s ts e := by
  induction hn : s.length using Nat.strong_induction_on generalizing s with
  | _ n ih =>
    cases h : parseToken s with
    | error e => exact ⟨[], some e, .stuck h⟩
    | ok o =>
      cases o with
      | none => exact ⟨[], none, .more h⟩
      | some nt =>
        rcases nt with ⟨k, t⟩
        have hk := parseToken_used h
        have hlt : (s.drop k).length < n := by
          rw [List.length_drop]
          omega
        rcases ih _ hlt (s.drop k) rfl with ⟨ts, e, hts⟩
        exact ⟨(k, t) :: ts, e, .token h hts⟩

/-- The bytes that a list of tokens takes. -/
def width (ts : List Item) : Nat := (ts.map Prod.fst).sum

@[simp] theorem width_nil : width [] = 0 := rfl

@[simp] theorem width_cons (n : Nat) (t : Token) (ts : List Item) :
    width ((n, t) :: ts) = n + width ts := by
  simp [width]

@[simp] theorem width_append (ts us : List Item) : width (ts ++ us) = width ts + width us := by
  simp [width]

/-! ## The parser on tokens -/

/-- What comes of reading the tokens: nothing yet, an assertion, or a result for the first `n`
bytes. -/
inductive Outcome
  | noLine
  | fault (e : Fault)
  | returned (n : Nat) (err : ParserError) (line : Option CommandLine)
  deriving DecidableEq

def atEnd : Option Fault → Outcome
  | none => .noLine
  | some e => .fault e

variable (e : Option Fault)

def skipTokens (err : ParserError) : Nat → List Item → Outcome
  | _, [] => atEnd e
  | k, (n, t) :: ts =>
    if t.type = .newLine then .returned (k + n) err none else skipTokens err (k + n) ts

def newLineTokens (line : CommandLine) (t : Token) (k : Nat) (ts : List Item) : Outcome :=
  if t.type = .newLine then
    match line.exprs.getLast? with
    | none => .fault .parserPopNext
    | some (.command _) => .returned k .none (some line)
    | some _ => .returned k .endsNotWithACommand none
  else skipTokens e .tooLateArguments k ts

def backgroundTokens (line : CommandLine) (t : Token) (k : Nat) (ts : List Item) : Outcome :=
  if t.type = .background then
    match ts with
    | [] => atEnd e
    | (n, u) :: us => newLineTokens e { line with isBackground := true } u (k + n) us
  else newLineTokens e line t k ts

/-- The file that a redirection names, from its two tokens. -/
def CommandLine.redirect (line : CommandLine) (t : Token) (file : List UInt8) : CommandLine :=
  { line with
    outType := if t.type = TokenType.outNew then .fileNew else .fileAppend
    outFile := some (file ++ [0]) }

def redirectTokens (line : CommandLine) (t : Token) (k : Nat) (ts : List Item) : Outcome :=
  if t.type = .outNew ∨ t.type = .outAppend then
    match ts with
    | [] => atEnd e
    | (n, u) :: us =>
      if u.type ≠ .str then skipTokens e .outputRedirectBadArg (k + n) us
      else if u.data = [] then .fault .tokenStrdup
      else match us with
        | [] => atEnd e
        | (m, v) :: vs => backgroundTokens e (line.redirect t u.data) v (k + n + m) vs
  else backgroundTokens e line t k ts

/-- What the token loop does with a token: read it into the line, give the line up, fail in
`token_strdup`, or leave for `close_and_return`. -/
inductive Taken
  | read (line : CommandLine)
  | error (err : ParserError)
  | emptyWord
  | close
  deriving DecidableEq

def Taken.ofExcept : Except ParserError CommandLine → Taken
  | .ok line => .read line
  | .error err => .error err

def CommandLine.addWord (line : CommandLine) (s : List UInt8) : CommandLine :=
  match line.exprs.getLast? with
  | some (.command cmd) => line.setTail (.command (cmd.appendArg s))
  | _ => line.append (.command ⟨s, []⟩)

def CommandLine.take (line : CommandLine) (t : Token) : Taken :=
  match t.type with
  | .str => if t.data = [] then .emptyWord else .read (line.addWord (t.data ++ [0]))
  | .newLine => if line.exprs = [] then .read line else .close
  | .pipe => .ofExcept (appendPipe line)
  | .and => .ofExcept (appendAnd line)
  | .or => .ofExcept (appendOr line)
  | .outNew | .outAppend | .background => .close

def lineTokens : CommandLine → Nat → List Item → Outcome
  | _, _, [] => atEnd e
  | line, k, (n, t) :: ts =>
    match line.take t with
    | .read line => lineTokens line (k + n) ts
    | .error err => skipTokens e err (k + n) ts
    | .emptyWord => .fault .tokenStrdup
    | .close => redirectTokens e line t (k + n) ts

/-! ## It is what `parser_pop_next` computes -/

variable {e}

/-- The result of the call for an outcome. -/
def Outcome.result (p : Parser) : Outcome → Run (Parser × ParserError × Option CommandLine)
  | .noLine => .ok (p, .none, none)
  | .fault e => .error e
  | .returned n err line => .ok ({ p with buffer := p.buffer.drop n }, err, line)

/-- A step that asks for a token when there is none left. -/
theorem Stream.pull_nil {p : Parser} {s : List UInt8} (h : Stream s [] e)
    (k : Option (Nat × Token) → Run (Parser × ParserError × Option CommandLine))
    (hk : k none = .ok (p, .none, none)) : (parseToken s >>= k) = (atEnd e).result p := by
  cases h with
  | more hs =>
    rw [hs, ok_bind, hk]
    rfl
  | stuck hs =>
    rw [hs, error_bind]
    rfl

/-- A step that asks for a token and gets the next one. -/
theorem Stream.pull_cons {s : List UInt8} {n : Nat} {t : Token} {ts : List Item}
    (h : Stream s ((n, t) :: ts) e) {α : Type} (k : Option (Nat × Token) → Run α) :
    (parseToken s >>= k) = k (some (n, t)) := by
  cases h with
  | token hs _ => rw [hs, ok_bind]

theorem Stream.rest {s : List UInt8} {n : Nat} {t : Token} {ts : List Item}
    (h : Stream s ((n, t) :: ts) e) : Stream (s.drop n) ts e := by
  cases h with
  | token _ hrest => exact hrest

theorem Stream.used {s : List UInt8} {n : Nat} {t : Token} {ts : List Item}
    (h : Stream s ((n, t) :: ts) e) : 0 < n ∧ n ≤ s.length := by
  cases h with
  | token hs _ => exact parseToken_used hs

theorem Stream.of_nil {ts : List Item} (h : Stream [] ts e) : ts = [] ∧ e = none := by
  cases h with
  | more => exact ⟨rfl, rfl⟩
  | stuck hs =>
    rw [parseToken_nil] at hs
    cases hs
  | token hs _ =>
    rw [parseToken_nil] at hs
    cases hs

theorem parserConsume_eq {p : Parser} {size : Nat} (h : size ≤ p.buffer.length) :
    parserConsume p size = .ok { p with buffer := p.buffer.drop size } := by
  rw [parserConsume, if_pos h]

theorem Stream.drop_used {buffer : List UInt8} {pos n : Nat} {t : Token} {ts : List Item}
    (h : Stream (buffer.drop pos) ((n, t) :: ts) e) :
    pos < pos + n ∧ pos + n ≤ buffer.length ∧ Stream (buffer.drop (pos + n)) ts e := by
  have hused := h.used
  have hrest := h.rest
  rw [List.length_drop] at hused
  rw [List.drop_drop] at hrest
  exact ⟨by omega, by omega, hrest⟩

theorem returnError_eq (p : Parser) (err : ParserError) {ts : List Item} {pos fuel : Nat}
    (h : Stream (p.buffer.drop pos) ts e) (hpos : pos ≤ p.buffer.length)
    (hfuel : p.buffer.length < pos + fuel) :
    returnError p err fuel pos = (skipTokens e err pos ts).result p := by
  induction fuel generalizing pos ts with
  | zero => omega
  | succ fuel ih =>
    unfold returnError
    by_cases hlt : pos < p.buffer.length
    · rw [if_pos hlt]
      cases ts with
      | nil => exact h.pull_nil _ rfl
      | cons nt ts =>
        have hnext := h.drop_used
        rw [h.pull_cons]
        unfold skipTokens
        by_cases hnl : nt.2.type = .newLine
        · simp only [hnl, if_true, parserConsume_eq hnext.2.1, ok_bind]
          rfl
        · simp only [hnl, if_false]
          exact ih hnext.2.2 hnext.2.1 (by omega)
    · rw [List.drop_eq_nil_of_le (by omega)] at h
      rw [if_neg hlt, h.of_nil.1, h.of_nil.2]
      rfl

theorem closeNewLine_eq (p : Parser) (t : Token) (line : CommandLine) {ts : List Item} {pos : Nat}
    (h : Stream (p.buffer.drop pos) ts e) (hpos : pos ≤ p.buffer.length) :
    closeNewLine p t pos line = (newLineTokens e line t pos ts).result p := by
  unfold closeNewLine newLineTokens
  by_cases hnl : t.type = .newLine
  · rw [if_pos hnl, if_pos hnl]
    cases line.exprs.getLast? with
    | none => rfl
    | some x =>
      rw [parserConsume_eq hpos]
      cases x <;> rfl
  · rw [if_neg hnl, if_neg hnl]
    exact returnError_eq p _ h hpos (by omega)

/-- What has to be known about the rest of `parser_pop_next` when a part of it is entered. -/
def Continues (p : Parser) (e : Option Fault)
    (k : Token → Nat → CommandLine → Run (Parser × ParserError × Option CommandLine))
    (next : CommandLine → Token → Nat → List Item → Outcome) : Prop :=
  ∀ (t : Token) (pos : Nat) (line : CommandLine) (ts : List Item),
    Stream (p.buffer.drop pos) ts e → pos ≤ p.buffer.length →
      k t pos line = (next line t pos ts).result p

theorem closeBackground_eq (p : Parser) : Continues p e
    (fun t pos line => do
      let exit ← closeBackground p.buffer t pos line
      exit.bind p fun t pos line => closeNewLine p t pos line)
    (backgroundTokens e) := by
  intro t pos line ts h hpos
  unfold closeBackground backgroundTokens
  by_cases hbg : t.type = .background
  · simp only [hbg, if_true, bind_assoc]
    cases ts with
    | nil => exact h.pull_nil _ rfl
    | cons nt ts =>
      have hnext := h.drop_used
      rw [h.pull_cons]
      exact closeNewLine_eq p _ _ hnext.2.2 hnext.2.1
  · simp only [hbg, if_false, ok_bind]
    exact closeNewLine_eq p t line h hpos

theorem closeRedirect_eq (p : Parser)
    {k : Token → Nat → CommandLine → Run (Parser × ParserError × Option CommandLine)}
    (hk : Continues p e k (backgroundTokens e)) : Continues p e
    (fun t pos line => do
      let exit ← closeRedirect p.buffer t pos line
      exit.bind p k)
    (redirectTokens e) := by
  intro t pos line ts h hpos
  unfold closeRedirect redirectTokens
  by_cases hout : t.type = .outNew ∨ t.type = .outAppend
  · simp only [hout, if_true, bind_assoc]
    cases ts with
    | nil => exact h.pull_nil _ rfl
    | cons nu us =>
      have hnext := h.drop_used
      rw [h.pull_cons]
      by_cases hstr : nu.2.type = .str
      · simp only [hstr, ne_eq, not_true_eq_false, if_false, tokenStrdup]
        by_cases hdata : nu.2.data = []
        · simp only [hdata, if_true, error_bind]
          rfl
        · simp only [hdata, if_false, ok_bind, bind_assoc]
          cases us with
          | nil => exact hnext.2.2.pull_nil _ rfl
          | cons mv vs =>
            have hlast := hnext.2.2.drop_used
            rw [hnext.2.2.pull_cons]
            exact hk _ _ _ _ hlast.2.2 hlast.2.1
      · simp only [hstr, ne_eq, not_false_eq_true, if_true]
        exact returnError_eq p _ hnext.2.2 hnext.2.1 (by omega)
  · simp only [hout, if_false, ok_bind]
    exact hk t pos line ts h hpos

theorem appendStr_eq (line : CommandLine) {t : Token} (ht : t.type = .str) :
    appendStr line t = if t.data = [] then .error .tokenStrdup
      else .ok (line.addWord (t.data ++ [0])) := by
  simp only [appendStr, tokenStrdup, CommandLine.addWord, ht, ne_eq, not_true_eq_false, if_false]
  by_cases hdata : t.data = []
  · simp only [hdata, if_true, error_bind]
  · simp only [hdata, if_false, ok_bind]
    cases line.exprs.getLast? with
    | none => rfl
    | some x => cases x <;> rfl

theorem tokenLoop_eq (p : Parser)
    {k : Token → Nat → CommandLine → Run (Parser × ParserError × Option CommandLine)}
    (hk : Continues p e k (redirectTokens e)) {ts : List Item} {line : CommandLine}
    {pos fuel : Nat} (h : Stream (p.buffer.drop pos) ts e) (hpos : pos ≤ p.buffer.length)
    (hfuel : p.buffer.length < pos + fuel) :
    (tokenLoop p.buffer fuel pos line >>= fun exit => exit.bind p k) =
      (lineTokens e line pos ts).result p := by
  induction fuel generalizing pos ts line with
  | zero => omega
  | succ fuel ih =>
    unfold tokenLoop
    by_cases hlt : pos < p.buffer.length
    · rw [if_pos hlt, bind_assoc]
      cases ts with
      | nil => exact h.pull_nil _ rfl
      | cons nt ts =>
        have hnext := h.drop_used
        have hloop : ∀ line, (tokenLoop p.buffer fuel (pos + nt.1) line >>=
            fun exit => exit.bind p k) = (lineTokens e line (pos + nt.1) ts).result p :=
          fun line => ih hnext.2.2 hnext.2.1 (by omega)
        have hskip : ∀ err, returnError p err (p.buffer.length + 1) (pos + nt.1) =
            (skipTokens e err (pos + nt.1) ts).result p :=
          fun err => returnError_eq p err hnext.2.2 hnext.2.1 (by omega)
        have hclose := fun line => hk nt.2 (pos + nt.1) line ts hnext.2.2 hnext.2.1
        rw [h.pull_cons]
        simp only [lineTokens, CommandLine.take]
        cases ht : nt.2.type with
        | str =>
          simp only [appendStr_eq line ht]
          -- an empty word fails the assertion of `append_str`
          by_cases hdata : nt.2.data = []
          · simp only [hdata, if_true, error_bind]
            rfl
          · simp only [hdata, if_false, ok_bind]
            exact hloop _
        | newLine =>
          -- an empty line is passed over
          by_cases hline : line.exprs = []
          · simp only [hline, if_true]
            exact hloop line
          · simp only [hline, if_false]
            exact hclose line
        | pipe =>
          cases appendPipe line with
          | ok line => exact hloop line
          | error err => exact hskip err
        | and =>
          cases appendAnd line with
          | ok line => exact hloop line
          | error err => exact hskip err
        | or =>
          cases appendOr line with
          | ok line => exact hloop line
          | error err => exact hskip err
        | outNew => exact hclose line
        | outAppend => exact hclose line
        | background => exact hclose line
    · rw [List.drop_eq_nil_of_le (by omega)] at h
      rw [if_neg hlt, h.of_nil.1, h.of_nil.2]
      rfl

/-- `parser_pop_next` is the parser on the tokens of the buffer. -/
theorem parserPopNext_eq {p : Parser} {ts : List Item} (h : Stream p.buffer ts e) :
    parserPopNext p = (lineTokens e .empty 0 ts).result p :=
  tokenLoop_eq p (closeRedirect_eq p (closeBackground_eq p)) h (Nat.zero_le _) (by omega)

/-! ## More tokens change nothing that is decided -/

theorem skipTokens_append {err : ParserError} {k : Nat} {ts : List Item}
    (h : skipTokens none err k ts ≠ .noLine) (us : List Item) :
    skipTokens e err k (ts ++ us) = skipTokens none err k ts := by
  induction ts generalizing k with
  | nil => exact absurd rfl h
  | cons nt ts ih =>
    simp only [List.cons_append, skipTokens] at h ⊢
    by_cases hnl : nt.2.type = .newLine
    · simp only [hnl, if_true]
    · simp only [hnl, if_false] at h ⊢
      exact ih h

theorem newLineTokens_append {line : CommandLine} {t : Token} {k : Nat} {ts : List Item}
    (h : newLineTokens none line t k ts ≠ .noLine) (us : List Item) :
    newLineTokens e line t k (ts ++ us) = newLineTokens none line t k ts := by
  unfold newLineTokens at h ⊢
  by_cases hnl : t.type = .newLine
  · simp only [hnl, if_true]
  · simp only [hnl, if_false] at h ⊢
    exact skipTokens_append h us

theorem backgroundTokens_append {line : CommandLine} {t : Token} {k : Nat} {ts : List Item}
    (h : backgroundTokens none line t k ts ≠ .noLine) (us : List Item) :
    backgroundTokens e line t k (ts ++ us) = backgroundTokens none line t k ts := by
  unfold backgroundTokens at h ⊢
  by_cases hbg : t.type = .background
  · simp only [hbg, if_true] at h ⊢
    cases ts with
    | nil => exact absurd rfl h
    | cons nu ts => exact newLineTokens_append h us
  · simp only [hbg, if_false] at h ⊢
    exact newLineTokens_append h us

theorem redirectTokens_append {line : CommandLine} {t : Token} {k : Nat} {ts : List Item}
    (h : redirectTokens none line t k ts ≠ .noLine) (us : List Item) :
    redirectTokens e line t k (ts ++ us) = redirectTokens none line t k ts := by
  unfold redirectTokens at h ⊢
  by_cases hout : t.type = .outNew ∨ t.type = .outAppend
  · simp only [hout, if_true] at h ⊢
    cases ts with
    | nil => exact absurd rfl h
    | cons nu ts =>
      simp only [List.cons_append] at h ⊢
      by_cases hstr : nu.2.type = .str
      · by_cases hdata : nu.2.data = []
        · simp only [hstr, hdata, ne_eq, not_true_eq_false, if_false, if_true]
        · simp only [hstr, hdata, ne_eq, not_true_eq_false, if_false] at h ⊢
          cases ts with
          | nil => exact absurd rfl h
          | cons mv ts => exact backgroundTokens_append h us
      · simp only [hstr, ne_eq, not_false_eq_true, if_true] at h ⊢
        exact skipTokens_append h us
  · simp only [hout, if_false] at h ⊢
    exact backgroundTokens_append h us

theorem lineTokens_append {line : CommandLine} {k : Nat} {ts : List Item}
    (h : lineTokens none line k ts ≠ .noLine) (us : List Item) :
    lineTokens e line k (ts ++ us) = lineTokens none line k ts := by
  induction ts generalizing line k with
  | nil => exact absurd rfl h
  | cons nt ts ih =>
    simp only [List.cons_append, lineTokens] at h ⊢
    cases htake : line.take nt.2 with
    | read line' =>
      simp only [htake] at h ⊢
      exact ih h
    | error err =>
      simp only [htake] at h ⊢
      exact skipTokens_append h us
    | emptyWord => rfl
    | close =>
      simp only [htake] at h ⊢
      exact redirectTokens_append h us

/-! ## What a call can return -/

/-- An outcome between two positions: what is returned is a line or an error, not both, and an
assertion is one of the parser or the one that ends the tokens. -/
def Outcome.Between (e : Option Fault) (lo hi : Nat) : Outcome → Prop
  | .noLine => True
  | .fault f => e = some f ∨ f = .tokenStrdup ∨ f = .parserPopNext
  | .returned n err line => lo ≤ n ∧ n ≤ hi ∧ (err = .none ↔ line ≠ none)

theorem atEnd_between (lo hi : Nat) : (atEnd e).Between e lo hi := by
  cases e with
  | none => trivial
  | some f => exact .inl rfl

theorem Outcome.Between.mono {o : Outcome} {lo hi lo' hi' : Nat} (h : o.Between e lo hi)
    (hlo : lo' ≤ lo) (hhi : hi ≤ hi') : o.Between e lo' hi' := by
  cases o with
  | returned n err line => exact ⟨hlo.trans h.1, h.2.1.trans hhi, h.2.2⟩
  | noLine => trivial
  | fault f => exact h

theorem skipTokens_between {err : ParserError} (herr : err ≠ .none) (k : Nat) (ts : List Item) :
    (skipTokens e err k ts).Between e k (k + width ts) := by
  induction ts generalizing k with
  | nil => exact atEnd_between _ _
  | cons nt ts ih =>
    rw [width_cons]
    unfold skipTokens
    by_cases hnl : nt.2.type = .newLine
    · rw [if_pos hnl]
      exact ⟨by omega, by omega, by simp [herr]⟩
    · rw [if_neg hnl]
      exact (ih (k + nt.1)).mono (by omega) (by omega)

theorem newLineTokens_between (line : CommandLine) (t : Token) (k : Nat) (ts : List Item) :
    (newLineTokens e line t k ts).Between e k (k + width ts) := by
  unfold newLineTokens
  by_cases hnl : t.type = .newLine
  · rw [if_pos hnl]
    cases line.exprs.getLast? with
    | none => exact .inr (.inr rfl)
    | some x => cases x <;> exact ⟨le_refl _, by omega, by simp⟩
  · rw [if_neg hnl]
    exact skipTokens_between (by decide) k ts

theorem backgroundTokens_between (line : CommandLine) (t : Token) (k : Nat) (ts : List Item) :
    (backgroundTokens e line t k ts).Between e k (k + width ts) := by
  unfold backgroundTokens
  by_cases hbg : t.type = .background
  · rw [if_pos hbg]
    cases ts with
    | nil => exact atEnd_between _ _
    | cons nu ts =>
      rw [width_cons]
      exact (newLineTokens_between _ _ (k + nu.1) ts).mono (by omega) (by omega)
  · rw [if_neg hbg]
    exact newLineTokens_between line t k ts

theorem redirectTokens_between (line : CommandLine) (t : Token) (k : Nat) (ts : List Item) :
    (redirectTokens e line t k ts).Between e k (k + width ts) := by
  unfold redirectTokens
  by_cases hout : t.type = .outNew ∨ t.type = .outAppend
  · rw [if_pos hout]
    cases ts with
    | nil => exact atEnd_between _ _
    | cons nu ts =>
      rw [width_cons]
      by_cases hstr : nu.2.type = .str
      · by_cases hdata : nu.2.data = []
        · simp only [hstr, hdata, ne_eq, not_true_eq_false, if_false, if_true]
          exact .inr (.inl rfl)
        · simp only [hstr, hdata, ne_eq, not_true_eq_false, if_false]
          cases ts with
          | nil => exact atEnd_between _ _
          | cons mv ts =>
            rw [width_cons]
            exact (backgroundTokens_between _ _ (k + nu.1 + mv.1) ts).mono (by omega) (by omega)
      · simp only [hstr, ne_eq, not_false_eq_true, if_true]
        exact (skipTokens_between (by decide) (k + nu.1) ts).mono (by omega) (by omega)
  · rw [if_neg hout]
    exact backgroundTokens_between line t k ts

theorem take_error {line : CommandLine} {t : Token} {err : ParserError}
    (h : line.take t = .error err) : err ≠ .none := by
  have hop : ∀ x a b, Taken.ofExcept (appendOperator line x a b) = .error err →
      a ≠ .none → b ≠ .none → err ≠ .none := by
    intro x a b hx ha hb
    unfold appendOperator at hx
    cases hlast : line.exprs.getLast? with
    | none =>
      simp only [hlast, Taken.ofExcept, Taken.error.injEq] at hx
      exact hx ▸ ha
    | some y =>
      cases y <;> simp only [hlast, Taken.ofExcept, Taken.error.injEq, reduceCtorEq] at hx <;>
        exact hx ▸ hb
  unfold CommandLine.take at h
  cases ht : t.type with
  | str =>
    simp only [ht] at h
    by_cases hdata : t.data = [] <;> simp [hdata] at h
  | newLine =>
    simp only [ht] at h
    by_cases hline : line.exprs = [] <;> simp [hline] at h
  | pipe =>
    simp only [ht] at h
    exact hop _ _ _ h (by decide) (by decide)
  | and =>
    simp only [ht] at h
    exact hop _ _ _ h (by decide) (by decide)
  | or =>
    simp only [ht] at h
    exact hop _ _ _ h (by decide) (by decide)
  | outNew => simp [ht] at h
  | outAppend => simp [ht] at h
  | background => simp [ht] at h

/-- The next token at least is used up by what the loop returns. -/
theorem lineTokens_between (line : CommandLine) (k n : Nat) (t : Token) (ts : List Item) :
    (lineTokens e line k ((n, t) :: ts)).Between e (k + n) (k + n + width ts) := by
  induction ts generalizing line k n t with
  | nil =>
    unfold lineTokens
    cases htake : line.take t with
    | read line' => exact atEnd_between _ _
    | error err => exact skipTokens_between (take_error htake) (k + n) []
    | emptyWord => exact .inr (.inl rfl)
    | close => exact redirectTokens_between line t (k + n) []
  | cons nu ts ih =>
    unfold lineTokens
    cases htake : line.take t with
    | read line' =>
      rw [width_cons]
      exact (ih line' (k + n) nu.1 nu.2).mono (by omega) (by omega)
    | error err => exact skipTokens_between (take_error htake) (k + n) (nu :: ts)
    | emptyWord => exact .inr (.inl rfl)
    | close => exact redirectTokens_between line t (k + n) (nu :: ts)

theorem Stream.width_le {s : List UInt8} {ts : List Item} (h : Stream s ts e) :
    width ts ≤ s.length := by
  induction h with
  | more => exact Nat.zero_le _
  | stuck => exact Nat.zero_le _
  | token hs _ ih =>
    have hused := parseToken_used hs
    rw [List.length_drop] at ih
    rw [width_cons]
    omega

theorem Stream.between {s : List UInt8} {ts : List Item} (h : Stream s ts e) :
    (lineTokens e .empty 0 ts).Between e 1 s.length := by
  cases ts with
  | nil => exact atEnd_between _ _
  | cons nt ts =>
    have hused := h.used
    have hwidth := h.width_le
    rw [width_cons] at hwidth
    exact (lineTokens_between .empty 0 nt.1 nt.2 ts).mono (by omega) (by omega)

theorem Stream.fault {s : List UInt8} {ts : List Item} {f : Fault} (h : Stream s ts (some f)) :
    f = .parseToken := by
  generalize he : some f = e at h
  induction h with
  | more => cases he
  | stuck hs =>
    cases he
    exact (parseToken_eq_error_iff.mp hs).1
  | token _ _ ih => exact ih he

/-- The three ways in which `parser_pop_next` ends. -/
theorem parserPopNext_cases (p : Parser) :
    parserPopNext p = .ok (p, .none, none) ∨
      (∃ f, (f = .parseToken ∨ f = .tokenStrdup ∨ f = .parserPopNext) ∧
        parserPopNext p = .error f) ∨
      ∃ n err line, 0 < n ∧ n ≤ p.buffer.length ∧ (err = .none ↔ line ≠ none) ∧
        parserPopNext p = .ok ({ p with buffer := p.buffer.drop n }, err, line) := by
  rcases Stream.exists p.buffer with ⟨ts, e, hts⟩
  rw [parserPopNext_eq hts]
  have hbetween := hts.between
  cases hout : lineTokens e .empty 0 ts with
  | noLine => exact .inl rfl
  | fault f =>
    rw [hout] at hbetween
    rcases hbetween with rfl | hf
    · exact .inr (.inl ⟨f, .inl hts.fault, rfl⟩)
    · exact .inr (.inl ⟨f, .inr hf, rfl⟩)
  | returned n err line =>
    rw [hout] at hbetween
    exact .inr (.inr ⟨n, err, line, hbetween.1, hbetween.2.1, hbetween.2.2, rfl⟩)

/-! ## More bytes change nothing that is decided -/

theorem Stream.append_stuck {s : List UInt8} {ts : List Item} {f : Fault}
    (h : Stream s ts (some f)) (u : List UInt8) : Stream (s ++ u) ts (some f) := by
  generalize he : some f = e at h
  induction h with
  | more => cases he
  | @stuck s e hs =>
    refine .stuck ?_
    rw [parseToken_append (by rw [hs]; exact fun hne => by cases hne), hs]
  | @token s n t ts e hs _ ih =>
    refine .token (n := n) ?_ ?_
    · rw [parseToken_append (by rw [hs]; exact fun hne => by cases hne), hs]
    · rw [List.drop_append_of_le_length (parseToken_used hs).2]
      exact ih he

theorem Stream.append_more {s : List UInt8} {ts : List Item} (h : Stream s ts none)
    (u : List UInt8) : ∃ us e, Stream (s ++ u) (ts ++ us) e := by
  generalize he : none = e at h
  induction h with
  | @more s _ => exact Stream.exists (s ++ u)
  | stuck => cases he
  | @token s n t ts e hs _ ih =>
    rcases ih he with ⟨us, e', hrest⟩
    refine ⟨us, e', .token (n := n) ?_ ?_⟩
    · rw [parseToken_append (by rw [hs]; exact fun hne => by cases hne), hs]
    · rw [List.drop_append_of_le_length (parseToken_used hs).2]
      exact hrest

theorem Outcome.result_append {o : Outcome} {p q : Parser} {u : List UInt8} {lo : Nat}
    (hq : q.buffer = p.buffer ++ u) (hbetween : o.Between e lo p.buffer.length)
    (h : o ≠ .noLine) :
    o.result q = (o.result p).map fun r => ({ q with buffer := r.1.buffer ++ u }, r.2) := by
  cases o with
  | noLine => exact absurd rfl h
  | fault f => rfl
  | returned n err line =>
    have hdrop : q.buffer.drop n = p.buffer.drop n ++ u := by
      rw [hq, List.drop_append_of_le_length hbetween.2.1]
    simp only [Outcome.result, Except.map, hdrop]

/-- A line, an error or a failed assertion stays what it is when more bytes arrive. -/
theorem parserPopNext_append {p q : Parser} {u : List UInt8} (hq : q.buffer = p.buffer ++ u)
    (h : parserPopNext p ≠ .ok (p, .none, none)) :
    parserPopNext q = (parserPopNext p).map
      fun r => ({ q with buffer := r.1.buffer ++ u }, r.2) := by
  rcases Stream.exists p.buffer with ⟨ts, e, hts⟩
  rw [parserPopNext_eq hts] at h ⊢
  have hdecided : lineTokens e .empty 0 ts ≠ .noLine := by
    intro hnone
    rw [hnone] at h
    exact h rfl
  rw [← Outcome.result_append hq hts.between hdecided]
  cases e with
  | none =>
    rcases hts.append_more u with ⟨us, e', hmore⟩
    rw [← hq] at hmore
    rw [parserPopNext_eq hmore, lineTokens_append hdecided]
  | some f =>
    have hstuck := hts.append_stuck u
    rw [← hq] at hstuck
    exact parserPopNext_eq hstuck

end SystemProgramming.Shell
