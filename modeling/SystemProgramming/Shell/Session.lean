import SystemProgramming.Lib.Incremental
import SystemProgramming.Shell.TokenStream

/-!
# Feeding the parser in chunks

A session feeds the input chunk by chunk and, after each chunk, pops until there is nothing to pop.
The parser is an incremental decoder, so a session does not depend on where the input is cut.
-/

open Incremental

namespace SystemProgramming.Shell

/-- What a call of `parser_pop_next` yields. -/
abbrev Popped := ParserError × Option CommandLine

/-- Call `parser_pop_next` until it returns `PARSER_ERR_NONE` and no line. -/
def popAll : Nat → Parser → List Popped × Run Parser
  | 0, _ => ([], .error .endless)
  | fuel + 1, p =>
    match parserPopNext p with
    | .error f => ([], .error f)
    | .ok (p, err, line) =>
      if err = .none ∧ line = none then ([], .ok p)
      else
        let rest := popAll fuel p
        ((err, line) :: rest.1, rest.2)

/-- Feed each chunk, and pop all there is after each of them. -/
def session (p : Parser) : List (List UInt8) → List Popped × Run Parser
  | [] => ([], .ok p)
  | c :: cs =>
    match parserFeed p c with
    | .error f => ([], .error f)
    | .ok p =>
      match popAll (p.buffer.length + 1) p with
      | (outs, .error f) => (outs, .error f)
      | (outs, .ok p) =>
        let rest := session p cs
        (outs ++ rest.1, rest.2)

/-- The faults that are failed assertions. -/
def Fault.IsAssertion (f : Fault) : Prop :=
  f = .tokenStrdup ∨ f = .parseToken ∨ f = .parserConsume ∨ f = .parserPopNext

/-! ## The parser as a decoder -/

def popVerdict (s : List UInt8) : Verdict Popped Fault :=
  match parserPopNext ⟨s, s.length⟩ with
  | .error f => .abort f
  | .ok (p, err, line) =>
    if err = .none ∧ line = none then .wait else .emit (err, line) (s.length - p.buffer.length)

/-- The verdict on the buffer says what `parser_pop_next` does, whatever the capacity. -/
theorem popVerdict_cases (p : Parser) :
    (popVerdict p.buffer = .wait ∧ parserPopNext p = .ok (p, .none, none)) ∨
      (∃ f, f.IsAssertion ∧ popVerdict p.buffer = .abort f ∧ parserPopNext p = .error f) ∨
      ∃ n err line, 0 < n ∧ n ≤ p.buffer.length ∧ ¬ (err = .none ∧ line = none) ∧
        popVerdict p.buffer = .emit (err, line) n ∧
        parserPopNext p = .ok ({ p with buffer := p.buffer.drop n }, err, line) := by
  rcases Stream.exists p.buffer with ⟨ts, e, hts⟩
  have hbetween := hts.between
  have hpop := parserPopNext_eq hts
  have hsame : parserPopNext ⟨p.buffer, p.buffer.length⟩ =
      (lineTokens e .empty 0 ts).result ⟨p.buffer, p.buffer.length⟩ := parserPopNext_eq hts
  unfold popVerdict
  rw [hpop, hsame]
  cases hout : lineTokens e .empty 0 ts with
  | noLine => exact .inl ⟨rfl, rfl⟩
  | fault f =>
    refine .inr (.inl ⟨f, ?_, rfl, rfl⟩)
    rw [hout] at hbetween
    -- The assertions that a line can fail are those of its tokens or of the line itself.
    rcases hbetween with rfl | rfl | rfl
    · exact .inr (.inl hts.fault)
    · exact .inl rfl
    · exact .inr (.inr (.inr rfl))
  | returned n err line =>
    rw [hout] at hbetween
    have hlo := hbetween.1
    have hhi := hbetween.2.1
    have hret : ¬ (err = .none ∧ line = none) := fun h => hbetween.2.2.mp h.1 h.2
    refine .inr (.inr ⟨n, err, line, by omega, hhi, hret, ?_, rfl⟩)
    simp only [Outcome.result, hret, if_false, List.length_drop]
    congr 1
    omega

theorem popVerdict_nil : popVerdict [] = .wait := by
  rcases popVerdict_cases ⟨[], 0⟩ with h | ⟨f, -, -, h⟩ | ⟨n, err, line, hn, hlen, -⟩
  · exact h.1
  · rw [parserPopNext_eq (.more parseToken_nil)] at h
    cases h
  · exact absurd hn (Nat.not_lt.mpr hlen)

theorem popVerdict_append {s : List UInt8} (h : popVerdict s ≠ .wait) (u : List UInt8) :
    popVerdict (s ++ u) = popVerdict s := by
  have hmore := parserPopNext_append (p := ⟨s, s.length⟩)
    (q := ⟨s ++ u, (s ++ u).length⟩) rfl
  unfold popVerdict at h ⊢
  rcases parserPopNext_cases ⟨s, s.length⟩ with hp | ⟨f, -, hp⟩ | ⟨n, err, line, -, hn, hret, hp⟩
  · rw [hp] at h
    exact absurd rfl h
  · rw [hmore (by simp [hp]), hp]
    rfl
  · have hsome : ¬ (err = .none ∧ line = none) := fun hnone => hret.mp hnone.1 hnone.2
    have hpopped : parserPopNext ⟨s, s.length⟩ ≠ .ok (⟨s, s.length⟩, .none, none) := by
      rw [hp]
      intro heq
      exact hsome (Prod.mk.inj (Prod.mk.inj (Except.ok.inj heq)).2)
    rw [hmore hpopped, hp]
    simp only [Except.map, hsome, if_false, List.length_append, List.length_drop]
    congr 1
    omega

def popDecoder : Decoder UInt8 Popped Fault where
  decide := popVerdict
  wait_nil := popVerdict_nil
  progress := by
    intro s out n h
    rcases popVerdict_cases ⟨s, 0⟩ with hp | ⟨f, -, hp, -⟩ | ⟨m, err, line, hm, hlen, -, hp, -⟩
    · rw [hp.1] at h
      cases h
    · rw [hp] at h
      cases h
    · rw [hp] at h
      cases h
      exact ⟨hm, hlen⟩
  stable := popVerdict_append

/-! ## A session is a run of the decoder -/

/-- The parser that is left, or the fault, for the way a run of the decoder ends. -/
def endOf (capacity : Nat) : End UInt8 Fault → Run Parser
  | .rest s => .ok ⟨s, capacity⟩
  | .abort f => .error f

theorem popAll_eq_drain (fuel : Nat) (p : Parser) (h : p.buffer.length < fuel) :
    popAll fuel p =
      ((popDecoder.drain p.buffer).1, endOf p.capacity (popDecoder.drain p.buffer).2) := by
  induction fuel generalizing p with
  | zero => omega
  | succ fuel ih =>
    unfold popAll
    rcases popVerdict_cases p with ⟨hv, hp⟩ | ⟨f, -, hv, hp⟩ | ⟨n, err, line, hn, hlen, hret, hv, hp⟩
    · rw [hp, Decoder.drain_wait hv]
      rfl
    · rw [hp, Decoder.drain_abort hv]
      rfl
    · have hrest := ih ⟨p.buffer.drop n, p.capacity⟩ (by rw [List.length_drop]; omega)
      rw [hp, Decoder.drain_emit hv]
      simp only [hret, if_false, hrest]
      rfl

/-- A buffer within its capacity, and the capacity within an `uint32_t`. -/
def Parser.Fits (p : Parser) : Prop := p.buffer.length ≤ p.capacity ∧ p.capacity < 2 ^ 32

theorem parserNew_fits : parserNew.Fits := ⟨le_refl _, by decide⟩

/-- What a feed needs of the state it starts from: room for the string, or a capacity that can be
doubled within an `uint32_t`, or one that wraps to no less than the bytes in use. -/
def Roomy (size capacity len : Nat) : Prop :=
  size + len ≤ capacity ∨ capacity + 1 < 2 ^ 31 ∨ size + 2 ^ 32 ≤ 2 * (capacity + 1)

theorem parserFeed_roomy {p : Parser} (h : p.Fits) {str : List UInt8}
    (hlen : p.buffer.length + str.length < 2 ^ 32)
    (hroomy : Roomy p.buffer.length p.capacity str.length) :
    ∃ capacity, parserFeed p str = .ok ⟨p.buffer ++ str, capacity⟩ ∧
      (Parser.mk (p.buffer ++ str) capacity).Fits := by
  have hle := h.1
  have hlt := h.2
  have hcap : (2 ^ 32 + p.capacity - p.buffer.length) % 2 ^ 32 =
      p.capacity - p.buffer.length := by omega
  unfold parserFeed Parser.Fits
  simp only [hcap, List.length_append]
  by_cases hgrow : p.capacity - p.buffer.length < str.length
  · -- without room, doubling has to lead to no less than the bytes in use
    obtain ⟨double, hdouble⟩ : ∃ double, double = (p.capacity + 1) * 2 % 2 ^ 32 := ⟨_, rfl⟩
    have hbelow : p.buffer.length ≤ double := by
      rcases hroomy with hroom | hsmall | hwrap <;> omega
    have hfree : (2 ^ 32 + double - p.buffer.length) % 2 ^ 32 = double - p.buffer.length := by
      omega
    have hsum : (p.buffer.length + str.length) % 2 ^ 32 = p.buffer.length + str.length := by omega
    simp only [hgrow, if_true, ← hdouble, hfree, hsum]
    by_cases hmore : double - p.buffer.length < str.length
    · simp only [hmore, if_true, le_refl]
      exact ⟨_, rfl, le_refl _, hlen⟩
    · have hfits : p.buffer.length + str.length ≤ double := by omega
      simp only [hmore, if_false, hfits, if_true]
      exact ⟨_, rfl, hfits, by omega⟩
  · have hfits : p.buffer.length + str.length ≤ p.capacity := by omega
    simp only [hgrow, if_false, hfits, if_true]
    exact ⟨_, rfl, hfits, hlt⟩

/-- Otherwise the doubled capacity wraps below the bytes in use, and the test for a capacity that
is too small wraps as well. -/
theorem parserFeed_crowded {p : Parser} (h : p.Fits) {str : List UInt8}
    (hlen : p.buffer.length + str.length < 2 ^ 32)
    (hcrowded : ¬ Roomy p.buffer.length p.capacity str.length) :
    parserFeed p str = .error .overrun := by
  have hle := h.1
  have hlt := h.2
  have hnot : ¬ p.buffer.length + str.length ≤ p.capacity ∧ ¬ p.capacity + 1 < 2 ^ 31 ∧
      ¬ p.buffer.length + 2 ^ 32 ≤ 2 * (p.capacity + 1) := by
    simpa only [Roomy, not_or] using hcrowded
  have hcap : (2 ^ 32 + p.capacity - p.buffer.length) % 2 ^ 32 =
      p.capacity - p.buffer.length := by omega
  have hgrow : p.capacity - p.buffer.length < str.length := by omega
  obtain ⟨double, hdouble⟩ : ∃ double, double = (p.capacity + 1) * 2 % 2 ^ 32 := ⟨_, rfl⟩
  have hbelow : double < p.buffer.length := by omega
  have hfree : (2 ^ 32 + double - p.buffer.length) % 2 ^ 32 =
      2 ^ 32 + double - p.buffer.length := by omega
  have hmissed : ¬ 2 ^ 32 + double - p.buffer.length < str.length := by omega
  have hover : ¬ p.buffer.length + str.length ≤ double := by omega
  unfold parserFeed
  simp only [hcap, hgrow, if_true, ← hdouble, hfree, hmissed, if_false, hover]

/-- Below half of the range of the sizes nothing wraps. -/
theorem parserFeed_fits {p : Parser} (h : p.Fits) {str : List UInt8}
    (hlen : p.buffer.length + str.length < 2 ^ 31) :
    ∃ capacity, parserFeed p str = .ok ⟨p.buffer ++ str, capacity⟩ ∧
      (Parser.mk (p.buffer ++ str) capacity).Fits := by
  apply parserFeed_roomy h (by omega)
  unfold Roomy
  omega

/-- With less than `2 ^ 31` bytes in all, a session is the run of the decoder. -/
theorem session_eq_run (cs : List (List UInt8)) (p : Parser) (h : p.Fits)
    (hlen : p.buffer.length + cs.flatten.length < 2 ^ 31) :
    (session p cs).1 = (popDecoder.run p.buffer cs).1 ∧
      ∃ capacity, (session p cs).2 = endOf capacity (popDecoder.run p.buffer cs).2 := by
  induction cs generalizing p with
  | nil => exact ⟨rfl, p.capacity, rfl⟩
  | cons c cs ih =>
    rw [List.flatten_cons, List.length_append] at hlen
    have hroom : p.buffer.length + c.length < 2 ^ 31 := by omega
    rcases parserFeed_fits h hroom with ⟨capacity, hfeed, hfits⟩
    unfold session Decoder.run
    rw [hfeed]
    simp only [popAll_eq_drain _ ⟨p.buffer ++ c, capacity⟩ (Nat.lt_succ_self _)]
    cases hdrain : popDecoder.drain (p.buffer ++ c) with
    | mk outs e =>
      cases e with
      | abort f => exact ⟨rfl, 0, rfl⟩
      | rest r =>
        have hr := Decoder.drain_rest_length hdrain
        have hfits' : (Parser.mk r capacity).Fits := ⟨hr.trans hfits.1, hfits.2⟩
        rw [List.length_append] at hr
        have hshort : r.length + cs.flatten.length < 2 ^ 31 := by omega
        have hrest := ih ⟨r, capacity⟩ hfits' hshort
        exact ⟨congrArg (outs ++ ·) hrest.1, hrest.2⟩

theorem drain_abort_isAssertion {s : List UInt8} {outs : List Popped} {f : Fault}
    (h : popDecoder.drain s = (outs, .abort f)) : f.IsAssertion := by
  rcases Decoder.drain_abort_verdict h with ⟨r, hr⟩
  rcases popVerdict_cases ⟨r, 0⟩ with hv | ⟨g, hg, hv, -⟩ | ⟨n, err, line, -, -, -, hv, -⟩
  · rw [show popDecoder.decide r = _ from hv.1] at hr
    cases hr
  · rw [show popDecoder.decide r = _ from hv] at hr
    cases hr
    exact hg
  · rw [show popDecoder.decide r = _ from hv] at hr
    cases hr

/-- Where the input is cut changes neither what the parser yields nor how the session ends: with the
same bytes in the buffer, or with the same failed assertion. -/
theorem session_cut {s : List UInt8} (hs : s.length < 2 ^ 31) {cs cs' : List (List UInt8)}
    (h : cs.flatten = s) (h' : cs'.flatten = s) :
    (session parserNew cs).1 = (session parserNew cs').1 ∧
      (session parserNew cs).2.map Parser.buffer = (session parserNew cs').2.map Parser.buffer ∧
      ∀ f, (session parserNew cs).2 = .error f → f.IsAssertion := by
  have hrun := session_eq_run cs parserNew parserNew_fits (by simpa [parserNew, h] using hs)
  have hrun' := session_eq_run cs' parserNew parserNew_fits (by simpa [parserNew, h'] using hs)
  have hsame : popDecoder.run parserNew.buffer cs = popDecoder.run parserNew.buffer cs' :=
    Decoder.run_congr (h.trans h'.symm)
  rcases hrun with ⟨houts, capacity, hend⟩
  rcases hrun' with ⟨houts', capacity', hend'⟩
  have hdrain : popDecoder.run parserNew.buffer cs = popDecoder.drain s := by
    rw [Decoder.run_eq_drain popVerdict_nil, h]
    rfl
  rw [houts, houts', hend, hend', ← hsame, hdrain]
  cases hs : popDecoder.drain s with
  | mk outs e =>
    cases e with
    | rest r =>
      refine ⟨rfl, rfl, fun f hf => ?_⟩
      cases hf
    | abort f =>
      refine ⟨rfl, rfl, fun g hg => ?_⟩
      cases hg
      exact drain_abort_isAssertion hs

/-- `a &&b` and a newline, cut in the middle of the operator and not at all. -/
theorem session_cut_operator :
    (session parserNew [[97, 32, 38], [38, 98, 10]]).1 =
        (session parserNew [[97, 32, 38, 38, 98, 10]]).1 ∧
      (session parserNew [[97, 32, 38], [38, 98, 10]]).2.map Parser.buffer =
        (session parserNew [[97, 32, 38, 38, 98, 10]]).2.map Parser.buffer ∧
      ∀ f, (session parserNew [[97, 32, 38], [38, 98, 10]]).2 = .error f → f.IsAssertion :=
  session_cut (s := [97, 32, 38, 38, 98, 10]) (by decide) rfl rfl

end SystemProgramming.Shell
