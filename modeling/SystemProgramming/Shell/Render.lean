import SystemProgramming.Shell.Assertions

/-!
# Rendering a statement

A statement is written with every word between double quotes and one space between two pieces.
Parsing that text gives the statement back.
-/

namespace SystemProgramming.Shell

/-- A backslash before each double quote and each backslash. -/
def escape (w : List UInt8) : List UInt8 :=
  w.flatMap fun c => if c = doubleQuote ∨ c = backslash then [backslash, c] else [c]

def Word.render (w : Word) : List UInt8 := doubleQuote :: (escape w.bytes ++ [doubleQuote])

def Simple.pieces (c : Simple) : List (List UInt8) := (c.exe :: c.args).map Word.render

def Op.render : Op → List UInt8
  | .pipe => [bar]
  | .and => [ampersand, ampersand]
  | .or => [bar, bar]

def Redirect.pieces : Redirect → List (List UInt8)
  | .new file => [[greater], file.render]
  | .append file => [[greater, greater], file.render]

def Statement.pieces (st : Statement) : List (List UInt8) :=
  (st.joined.flatMap fun c => c.1.pieces ++ [c.2.render]) ++ st.last.pieces ++
    (st.redirect.map Redirect.pieces).getD [] ++
    (if st.isBackground then [[ampersand]] else [])

def Statement.render (st : Statement) : List UInt8 :=
  [space].intercalate st.pieces ++ [newline]

/-! ## One piece -/

theorem quoted_escape (w : List UInt8) : Quoted doubleQuote (escape w) w := by
  induction w with
  | nil => exact .nil
  | cons c w ih =>
    rw [escape, List.flatMap_cons]
    by_cases hc : c = doubleQuote ∨ c = backslash
    · rw [if_pos hc]
      exact .escape rfl hc.symm ih
    · rw [if_neg hc]
      exact .plain (fun h => hc (.inl h)) (fun _ h => hc (.inr h)) ih

/-- The bytes are the token whenever a space or a newline follows. -/
def Written (b : List UInt8) (t : Token) : Prop :=
  ∀ c r, c = space ∨ c = newline → Lexeme b (c :: r) t

theorem word_written (w : Word) : Written w.render w.token := by
  intro c r _
  have hbody : Body [] w.render (c :: r) ⟨.str, [] ++ w.bytes⟩ :=
    .quoted (by decide) (quoted_escape w.bytes)
  refine .body ?_ hbody
  intro b hb
  cases hb
  decide

theorem doubled_written {c : UInt8} (hc : isOperator c = true) (hspace : isSpace c = false) :
    Written [c, c] ⟨doubledOperator c, []⟩ := by
  intro b r _
  refine .body ?_ (.doubled hc)
  intro b hb
  cases hb
  exact hspace

theorem single_written {c : UInt8} (hc : isOperator c = true) (hspace : isSpace c = false) :
    Written [c] ⟨singleOperator c, []⟩ := by
  intro b r hb
  have hne : b ≠ c := by
    rintro rfl
    rcases hb with rfl | rfl <;> revert hc <;> decide
  refine .body ?_ (.single hc hne)
  intro b hb
  cases hb
  exact hspace

theorem op_written (op : Op) : Written op.render op.token := by
  cases op with
  | pipe => exact single_written (by decide) (by decide)
  | and => exact doubled_written (by decide) (by decide)
  | or => exact doubled_written (by decide) (by decide)

/-! ## The pieces of a statement -/

theorem simple_written (c : Simple) : List.Forall₂ Written c.pieces c.tokens := by
  unfold Simple.pieces Simple.tokens
  rw [← List.map_cons, List.forall₂_map_left_iff, List.forall₂_map_right_iff, List.forall₂_same]
  exact fun w _ => word_written w

theorem redirect_written (r : Redirect) : List.Forall₂ Written r.pieces r.tokens := by
  cases r with
  | new file =>
    exact .cons (single_written (by decide) (by decide)) (.cons (word_written file) .nil)
  | append file =>
    exact .cons (doubled_written (by decide) (by decide)) (.cons (word_written file) .nil)

/-- The tokens of a statement without its newline. -/
def Statement.openTokens (st : Statement) : List Token :=
  joinedTokens st.joined ++ st.last.tokens ++ (st.redirect.map Redirect.tokens).getD [] ++
    (if st.isBackground then [⟨.background, []⟩] else [])

theorem statement_written (st : Statement) :
    List.Forall₂ Written st.pieces st.openTokens := by
  have hjoined : List.Forall₂ Written (st.joined.flatMap fun c => c.1.pieces ++ [c.2.render])
      (joinedTokens st.joined) := by
    induction st.joined with
    | nil => exact .nil
    | cons c cs ih =>
      rw [List.flatMap_cons, joinedTokens, List.flatMap_cons]
      exact List.rel_append (List.rel_append (simple_written c.1) (.cons (op_written c.2) .nil)) ih
  have hredirect : List.Forall₂ Written ((st.redirect.map Redirect.pieces).getD [])
      ((st.redirect.map Redirect.tokens).getD []) := by
    cases st.redirect with
    | none => exact .nil
    | some r => exact redirect_written r
  have hbackground : List.Forall₂ Written (if st.isBackground then [[ampersand]] else [])
      (if st.isBackground then [⟨.background, []⟩] else []) := by
    cases st.isBackground with
    | false => exact .nil
    | true => exact .cons (single_written (by decide) (by decide)) .nil
  exact List.rel_append (List.rel_append (List.rel_append hjoined (simple_written st.last))
    hredirect) hbackground

theorem Lexes.space {s r : List UInt8} {t : Token} {ts : List Token} (h : Lexes s (t :: ts) r) :
    Lexes (Shell.space :: s) (t :: ts) r := by
  cases h with
  | cons hlex hrest => exact .cons (.skip (by decide) (by decide) hlex) hrest

theorem pieces_lex {bs : List (List UInt8)} {ts : List Token} (h : List.Forall₂ Written bs ts)
    (hne : bs ≠ []) :
    Lexes ([space].intercalate bs ++ [newline]) (ts ++ [newLineToken]) [] := by
  induction h with
  | nil => exact absurd rfl hne
  | @cons b t bs ts hb hbs ih =>
    cases hbs with
    | nil =>
      have htext : [space].intercalate [b] ++ [newline] = b ++ [newline] := by
        simp [List.intercalate]
      rw [htext]
      exact .cons (hb newline [] (.inr rfl)) (.cons (w := [newline]) .newLine (.nil []))
    | @cons b' t' bs ts hb' hbs =>
      have htext : [space].intercalate (b :: b' :: bs) ++ [newline] =
          b ++ space :: ([space].intercalate (b' :: bs) ++ [newline]) := by
        simp [List.intercalate]
      rw [htext]
      exact .cons (hb space _ (.inl rfl)) (ih (List.cons_ne_nil b' bs)).space

/-! ## Parsing the text -/

/-- An empty parser takes any text whose length is an `uint32_t`. -/
theorem parserFeed_new {s : List UInt8} (h : s.length < 2 ^ 32) :
    ∃ capacity, parserFeed parserNew s = .ok ⟨s, capacity⟩ := by
  have hlen : s.length % 2 ^ 32 = s.length := Nat.mod_eq_of_lt h
  unfold parserFeed parserNew
  simp only [List.length_nil, List.nil_append, Nat.zero_add, hlen]
  by_cases hempty : s.length = 0
  · simp [hempty]
  · have hroom : (2 ^ 32 + 0 - 0) % 2 ^ 32 < s.length := by omega
    rw [if_pos hroom]
    by_cases hlong : (2 ^ 32 + 1 * 2 % 2 ^ 32 - 0) % 2 ^ 32 < s.length
    · rw [if_pos hlong, if_pos (le_refl _)]
      exact ⟨_, rfl⟩
    · rw [if_neg hlong, if_pos (by omega)]
      exact ⟨_, rfl⟩

/-- Feeding the text of a statement to an empty parser and popping once gives exactly its command
line, and nothing is left in the buffer. -/
theorem parse_render (st : Statement) (h : st.render.length < 2 ^ 32) :
    ∃ p, parserFeed parserNew st.render = .ok p ∧
      parserPopNext p = .ok ({ p with buffer := [] }, .none, some st.commandLine) := by
  rcases parserFeed_new h with ⟨capacity, hfeed⟩
  have hne : st.pieces ≠ [] := by simp [Statement.pieces, Simple.pieces]
  rcases (pieces_lex (statement_written st) hne).stream with ⟨us, hus, hdrop, hstream⟩
  have hts := hstream [] none (.more parseToken_nil)
  have htokens : us.map Prod.snd = blankLines 0 ++ Pipeline.tokens ⟨st.joined, some st.last⟩ ++
      closingTokens st.redirect st.isBackground := by
    rw [hus]
    simp only [Statement.openTokens, Pipeline.tokens, closingTokens, blankLines, List.replicate_zero,
      List.nil_append, Option.map_some, Option.getD_some, List.append_assoc]
  have hcommand : (⟨st.joined, some st.last⟩ : Pipeline) ≠ .empty := fun hempty =>
    Option.some_ne_none _ (congrArg Pipeline.last hempty)
  have hclose : AtClose ⟨st.joined, some st.last⟩ st.redirect st.isBackground
      (us.map Prod.snd) := ⟨fun hempty => absurd hempty hcommand, 0, htokens⟩
  have hlast : st.commandLine.exprs.getLast? = some (.command st.last.command) :=
    getLast?_exprs ⟨st.joined, some st.last⟩
  have houtcome : lineTokens none .empty 0 (us ++ []) =
      .returned (width us) .none (some st.commandLine) := by
    rw [lineTokens_close hclose, closeOutcome, show ((Pipeline.line ⟨st.joined, some st.last⟩).close
      st.redirect st.isBackground) = st.commandLine from rfl, hlast]
  refine ⟨⟨st.render, capacity⟩, hfeed, ?_⟩
  rw [parserPopNext_eq (p := ⟨st.render, capacity⟩) hts, houtcome]
  show Except.ok (Parser.mk (st.render.drop (width us)) capacity, _, _) = _
  rw [show st.render.drop (width us) = [] from hdrop]

/-- Two commands with `||`, words of special bytes, appended to a file and in the background. -/
theorem parse_render_pipe :
    ∃ p, parserFeed parserNew (Statement.render
        ⟨[(⟨⟨[97, 34, 124], by decide⟩, []⟩, .or)], ⟨⟨[32, 10], by decide⟩, []⟩,
          some (.append ⟨[92], by decide⟩), true⟩) = .ok p ∧
      parserPopNext p = .ok ({ p with buffer := [] }, .none,
        some (Statement.commandLine
          ⟨[(⟨⟨[97, 34, 124], by decide⟩, []⟩, .or)], ⟨⟨[32, 10], by decide⟩, []⟩,
            some (.append ⟨[92], by decide⟩), true⟩)) :=
  parse_render _ (by decide)

end SystemProgramming.Shell
