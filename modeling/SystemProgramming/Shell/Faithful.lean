import SystemProgramming.Shell.Line

/-!
# A line is what was consumed

What `parser_pop_next` returns as a command line is the command line of a syntax tree, and the bytes
that it takes out of the buffer are tokenized to empty lines and the tokens of that tree.
-/

namespace SystemProgramming.Shell

/-- Repeated calls of `parse_token` find the tokens and get from the one input to the other. -/
inductive Tokenizes : List UInt8 → List Token → List UInt8 → Prop
  | nil (s : List UInt8) : Tokenizes s [] s
  | cons {s r : List UInt8} {n : Nat} {t : Token} {ts : List Token} :
      parseToken s = .ok (some (n, t)) → Tokenizes (s.drop n) ts r → Tokenizes s (t :: ts) r

/-! ## A token needs the byte after it at most -/

theorem Body.take {d w r : List UInt8} {t : Token} (h : Body d w r t) {m : Nat}
    (hm : 0 < m ∨ t.type = .newLine) : Body d w (r.take m) t := by
  induction h with
  | join _ ih => exact .join (ih hm)
  | escape hc _ ih => exact .escape hc (ih hm)
  | plain hc _ ih => exact .plain hc (ih hm)
  | quoted hq hw => exact .quoted hq hw
  | blank hd hc => exact .blank hd hc
  | stop hd hc =>
    rcases hm with hm | hm
    · rw [List.take_cons hm]
      exact .stop hd hc
    · cases hm
  | comment hw => exact .comment hw
  | doubled hc => exact .doubled hc
  | @single b c r hc hb =>
    rcases hm with hm | hm
    · rw [List.take_cons hm]
      exact .single hc hb
    · have hne : singleOperator c ≠ .newLine := by
        unfold singleOperator
        split <;> [decide; split <;> decide]
      exact absurd hm hne

theorem Lexeme.take {w r : List UInt8} {t : Token} (h : Lexeme w r t) {m : Nat}
    (hm : 0 < m ∨ t.type = .newLine) : Lexeme w (r.take m) t := by
  induction h with
  | skip hc hn _ ih => exact .skip hc hn (ih hm)
  | newLine => exact .newLine
  | @body w r t hs hb =>
    have hw := hb.pos rfl
    rw [List.head?_append_of_ne_nil _ hw] at hs
    refine .body ?_ (hb.take hm)
    rw [List.head?_append_of_ne_nil _ hw]
    exact hs

theorem width_pos {s : List UInt8} {us vs : List Item} {e : Option Fault}
    (h : Stream s (us ++ vs) e) (hus : us ≠ []) : 0 < width us := by
  cases us with
  | nil => exact absurd rfl hus
  | cons nt us =>
    rw [width_cons]
    have hused := h.used
    omega

/-- The bytes of the tokens up to a newline have these tokens by themselves. -/
theorem Stream.tokenizes {s : List UInt8} {us vs : List Item} {e : Option Fault}
    (h : Stream s (us ++ vs) e)
    (hlast : us.getLast?.map (fun nt => nt.2.type) = some .newLine) :
    Tokenizes (s.take (width us)) (us.map Prod.snd) [] := by
  induction us generalizing s with
  | nil => cases hlast
  | cons nt us ih =>
    rcases nt with ⟨n, t⟩
    cases h with
    | token hs hrest =>
      rcases parseToken_eq_some_iff.mp hs with ⟨w, r, rfl, rfl, hlex⟩
      rw [List.drop_left] at hrest
      have hnext : 0 < width us ∨ t.type = .newLine := by
        cases us with
        | nil => exact .inr (Option.some.inj hlast)
        | cons mu us => exact .inl (width_pos hrest (List.cons_ne_nil mu us))
      have htake : (w ++ r).take (width ((w.length, t) :: us)) = w ++ r.take (width us) := by
        rw [width_cons, List.take_length_add_append]
      rw [htake]
      refine .cons (parseToken_eq_some_iff.mpr ⟨w, _, rfl, rfl, hlex.take hnext⟩) ?_
      rw [List.drop_left]
      cases us with
      | nil => exact .nil []
      | cons mu us => exact ih hrest hlast

/-! ## The line that is returned -/

theorem skipTokens_not_line {e : Option Fault} {p p' : Parser} {err err' : ParserError}
    {line : CommandLine} {k : Nat} {ts : List Item} :
    (skipTokens e err k ts).result p ≠ .ok (p', err', some line) := by
  rw [skipTokens_eq]
  intro h
  cases hend : lineEnd k ts with
  | some n =>
    rw [hend] at h
    cases h
  | none =>
    rw [hend] at h
    cases e <;> cases h

theorem getLast?_closing {us : List Item} {ts : List Token} {r : Option Redirect} {b : Bool}
    (h : us.map Prod.snd = ts ++ closingTokens r b) :
    us.getLast?.map (fun nt => nt.2.type) = some .newLine := by
  have hlast : (us.map Prod.snd).getLast? = some newLineToken := by
    rw [h, closingTokens, ← List.append_assoc, List.getLast?_concat]
  rw [List.getLast?_map] at hlast
  cases hus : us.getLast? with
  | none =>
    rw [hus] at hlast
    cases hlast
  | some nt =>
    rw [hus] at hlast
    exact congrArg (Option.map Token.type) hlast

theorem background_mem_closing (r : Option Redirect) (b : Bool) :
    ⟨.background, []⟩ ∈ closingTokens r b ↔ b = true := by
  rcases r with _ | ⟨file⟩ | ⟨file⟩ <;> cases b <;>
    simp [closingTokens, Redirect.tokens, Word.token, newLineToken]

/-- The background mark is among the tokens exactly if the statement runs in the background. -/
theorem Statement.background_mem_iff (st : Statement) (k : Nat) :
    ⟨.background, []⟩ ∈ blankLines k ++ st.tokens ↔ st.isBackground = true := by
  have hblank : (⟨.background, []⟩ : Token) ∉ blankLines k := by
    intro h
    cases List.eq_of_mem_replicate h
  have hpipeline : (⟨.background, []⟩ : Token) ∉ Pipeline.tokens ⟨st.joined, some st.last⟩ := by
    intro h
    rcases mem_pipeline h with ⟨w, h⟩ | ⟨op, h⟩
    · cases h
    · cases op <;> cases h
  rw [← background_mem_closing st.redirect st.isBackground,
    show st.tokens = Pipeline.tokens ⟨st.joined, some st.last⟩ ++
      closingTokens st.redirect st.isBackground from rfl, List.mem_append, List.mem_append]
  simp only [hblank, hpipeline, false_or]

/-- A line that `parser_pop_next` returns is the command line of a statement, and the bytes that it
consumes are, token by token, empty lines and that statement. -/
theorem popped_line_faithful {p p' : Parser} {err : ParserError} {line : CommandLine}
    (h : parserPopNext p = .ok (p', err, some line)) :
    err = .none ∧ ∃ (consumed : List UInt8) (k : Nat) (st : Statement),
      p.buffer = consumed ++ p'.buffer ∧
      Tokenizes consumed (blankLines k ++ st.tokens) [] ∧
      line = st.commandLine ∧
      (line.outFile = none ↔ line.outType = .stdout) ∧
      (line.isBackground = true ↔ ⟨.background, []⟩ ∈ blankLines k ++ st.tokens) := by
  rcases Stream.exists p.buffer with ⟨ts, e, hts⟩
  have hparses := lineTokens_parses (e := e) hts.plain
  rw [parserPopNext_eq hts] at h
  generalize lineTokens e .empty 0 ts = o at h hparses
  cases hparses with
  | emptyWord _ => cases h
  | bareRedirect _ => exact absurd h skipTokens_not_line
  | skip _ _ _ => exact absurd h skipTokens_not_line
  | @close us vs l r b hclose =>
    rcases hclose with ⟨-, k, htokens⟩
    unfold closeOutcome at h
    rw [show (l.line.close r b).exprs = l.exprs from rfl, getLast?_exprs] at h
    rcases l with ⟨joined, last⟩
    cases last with
    | none =>
      -- the line ends in an operator, or it has no command
      exfalso
      cases hj : joined.getLast? with
      | none => simp [hj, Outcome.result] at h
      | some c => rcases c with ⟨c, op⟩; cases op <;> simp [hj, Op.expr, Outcome.result] at h
    | some c =>
      cases h
      refine ⟨rfl, p.buffer.take (width us), k, ⟨joined, c, r, b⟩, ?_, ?_, rfl, ?_, ?_⟩
      · exact (List.take_append_drop _ _).symm
      · rw [show blankLines k ++ Statement.tokens ⟨joined, c, r, b⟩ = us.map Prod.snd by
          rw [htokens, List.append_assoc]; rfl]
        exact hts.tokenizes (getLast?_closing htokens)
      · exact Statement.outFile_eq_none_iff ⟨joined, c, r, b⟩
      · exact (Statement.background_mem_iff ⟨joined, c, r, b⟩ k).symm

/-- `a|b c>>d&` between two newlines, and one more byte. -/
theorem popped_line_faithful_pipe :
    ParserError.none = .none ∧ ∃ (consumed : List UInt8) (k : Nat) (st : Statement),
      [10, 97, 124, 98, 32, 99, 62, 62, 100, 38, 10, 101] = consumed ++ [101] ∧
      Tokenizes consumed (blankLines k ++ st.tokens) [] ∧
      (⟨[.command ⟨[97, 0], []⟩, .pipe, .command ⟨[98, 0], [[99, 0]]⟩], .fileAppend,
        some [100, 0], true⟩ : CommandLine) = st.commandLine ∧
      ((some [100, 0] : Option (List UInt8)) = none ↔ OutputType.fileAppend = .stdout) ∧
      (true = true ↔ ⟨.background, []⟩ ∈ blankLines k ++ st.tokens) :=
  @popped_line_faithful ⟨[10, 97, 124, 98, 32, 99, 62, 62, 100, 38, 10, 101], 12⟩ ⟨[101], 12⟩ _ _
    (by decide +kernel)

end SystemProgramming.Shell
