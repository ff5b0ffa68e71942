import SystemProgramming.Shell.Recovery
import SystemProgramming.Shell.Session

/-!
# The assertions of the parser

Which buffers make an assertion fail, in terms of the grammar of tokens: an empty word where a word
is read, a line that is closed without a command, or a token that is stuck in a line that the call
still reads.  The parser is safe in exactly the runs that never pop such a buffer.
-/

open Fallible

namespace SystemProgramming.Shell

/-- The bytes of the input, token by token, and what is left. -/
inductive Lexes : List UInt8 → List Token → List UInt8 → Prop
  | nil (s : List UInt8) : Lexes s [] s
  | cons {w r s : List UInt8} {t : Token} {ts : List Token} :
      Lexeme w r t → Lexes r ts s → Lexes (w ++ r) (t :: ts) s

/-- The call still reads: no line has ended, or the newline that ended it was taken for the file of
a redirection. -/
def Waiting (ts : List Token) : Prop :=
  Unfinished ts ∨ ∃ us vs, ts = us ++ vs ∧ AtBareRedirect us ∧ newLineToken ∉ vs

/-- The buffers on which an assertion fails. -/
def Fatal (s : List UInt8) : Prop :=
  ∃ ts r, Lexes s ts r ∧
    (AtEmptyWord ts ∨ (∃ redirect b, AtClose .empty redirect b ts) ∨ Waiting ts ∧ Stuck r)

/-! ## The tokens of a buffer, by the grammar -/

theorem Stream.lexes {s : List UInt8} {us vs : List Item} {e : Option Fault}
    (h : Stream s (us ++ vs) e) :
    Lexes s (us.map Prod.snd) (s.drop (width us)) ∧ Stream (s.drop (width us)) vs e := by
  induction us generalizing s with
  | nil => exact ⟨.nil s, h⟩
  | cons nt us ih =>
    rcases nt with ⟨n, t⟩
    cases h with
    | token hs hrest =>
      rcases parseToken_eq_some_iff.mp hs with ⟨w, r, rfl, rfl, hlex⟩
      rw [List.drop_left] at hrest
      have htail := ih hrest
      rw [width_cons, ← List.drop_drop, List.drop_left]
      exact ⟨.cons hlex htail.1, htail.2⟩

theorem Stream.stuck_end {s : List UInt8} {ts : List Item} {f : Fault}
    (h : Stream s ts (some f)) :
    ∃ r, Lexes s (ts.map Prod.snd) r ∧ Stuck r := by
  rw [← List.append_nil ts] at h
  have hlexes := h.lexes
  refine ⟨_, hlexes.1, ?_⟩
  cases hlexes.2 with
  | stuck hs => exact (parseToken_eq_error_iff.mp hs).2

theorem Lexes.stream {s r : List UInt8} {ts : List Token} (h : Lexes s ts r) :
    ∃ us : List Item, us.map Prod.snd = ts ∧ s.drop (width us) = r ∧
      ∀ vs e, Stream r vs e → Stream s (us ++ vs) e := by
  induction h with
  | nil s => exact ⟨[], rfl, rfl, fun vs e hr => hr⟩
  | @cons w r s t ts hlex _ ih =>
    rcases ih with ⟨us, hus, hdrop, hstream⟩
    have hdrop' : (w ++ r).drop (width ((w.length, t) :: us)) = s := by
      rw [width_cons, ← List.drop_drop, List.drop_left, hdrop]
    refine ⟨(w.length, t) :: us, by rw [List.map_cons, hus], hdrop', fun vs e hr => ?_⟩
    refine .token (parseToken_eq_some_iff.mpr ⟨w, r, rfl, rfl, hlex⟩) ?_
    rw [List.drop_left]
    exact hstream vs e hr

theorem lineEnd_eq_none_iff {ts : List Item} (hplain : ∀ t ∈ ts.map Prod.snd, t.Plain) (k : Nat) :
    lineEnd k ts = none ↔ newLineToken ∉ ts.map Prod.snd := by
  induction ts generalizing k with
  | nil => simp [lineEnd]
  | cons nt ts ih =>
    have hrest : ∀ t ∈ ts.map Prod.snd, t.Plain := fun t ht => hplain t (by simp [ht])
    unfold lineEnd
    by_cases hnl : nt.2.type = .newLine
    · have heq : nt.2 = newLineToken := (hplain nt.2 (by simp)).eq hnl (by decide)
      rw [if_pos hnl]
      simp [heq]
    · have hne : newLineToken ≠ nt.2 := fun h => hnl (by rw [← h]; rfl)
      rw [if_neg hnl, ih hrest, List.map_cons, List.mem_cons]
      simp [hne]

/-! ## Which buffers are fatal -/

theorem closeOutcome_fault {l : Pipeline} {r : Option Redirect} {b : Bool} {n : Nat} {f : Fault} :
    closeOutcome (l.line.close r b) n = .fault f ↔ f = .parserPopNext ∧ l = .empty := by
  unfold closeOutcome
  have hnil : (l.line.close r b).exprs.getLast? = none ↔ l = .empty := by
    rw [List.getLast?_eq_none_iff]
    exact exprs_eq_nil_iff l
  cases hlast : (l.line.close r b).exprs.getLast? with
  | none => simp [hnil.mp hlast, eq_comm]
  | some x =>
    have hne : l ≠ .empty := fun h => by rw [hnil.mpr h] at hlast; cases hlast
    cases x <;> simp [hne]

theorem skipTokens_fault {e : Option Fault} {err : ParserError} {k : Nat} {ts : List Item}
    {f : Fault} (hplain : ∀ t ∈ ts.map Prod.snd, t.Plain) :
    skipTokens e err k ts = .fault f ↔ e = some f ∧ newLineToken ∉ ts.map Prod.snd := by
  rw [skipTokens_eq, ← lineEnd_eq_none_iff hplain k]
  cases lineEnd k ts with
  | some n => simp
  | none => cases e <;> simp [atEnd]

theorem newLine_mem_of_firstLine {us : List Item} {n : Nat} (h : firstLine 0 us = some n)
    (hplain : ∀ t ∈ us.map Prod.snd, t.Plain) : ¬ Unfinished (us.map Prod.snd) := by
  intro hopen
  have hskip : firstLine 0 (us ++ []) = lineEnd (width us) [] :=
    firstLine_skip hopen hplain fun _ _ => rfl
  rw [List.append_nil, h] at hskip
  cases hskip

/-- A call on tokens that do not end a line comes to what the end of the tokens comes to, unless
it stops at an empty word. -/
theorem lineTokens_unfinished {us : List Item} {f : Fault}
    (hplain : ∀ t ∈ us.map Prod.snd, t.Plain) (h : Unfinished (us.map Prod.snd)) :
    ∃ g, lineTokens (some f) .empty 0 us = .fault g := by
  have hparses := lineTokens_parses (e := some f) hplain
  generalize hout : lineTokens (some f) .empty 0 us = o at hparses
  have hleft : ∀ us' vs : List Item, us = us' ++ vs → ∀ t ∈ us'.map Prod.snd, t.Plain := by
    rintro us' vs rfl t ht
    exact hplain t (by rw [List.map_append]; exact List.mem_append_left _ ht)
  cases hparses with
  | emptyWord _ => exact ⟨_, rfl⟩
  | @close us' vs l r b hclose =>
    exact absurd h (newLine_mem_of_firstLine (firstLine_close hclose (hleft us' vs rfl) vs) hplain)
  | @bareRedirect us' vs hbare =>
    exact absurd h
      (newLine_mem_of_firstLine (firstLine_bareRedirect hbare (hleft us' vs rfl) vs) hplain)
  | @skip us' vs err hopen herr hfirst =>
    have hnone : firstLine 0 (us' ++ vs ++ []) = lineEnd (width (us' ++ vs)) [] :=
      firstLine_skip h hplain fun _ _ => rfl
    rw [List.append_nil, firstLine_skip hopen (hleft us' vs rfl) hfirst] at hnone
    rw [skipTokens_eq, hnone]
    exact ⟨f, rfl⟩

/-- The buffers on which `parser_pop_next` fails an assertion. -/
theorem pop_fails_iff (p : Parser) : (∃ f, parserPopNext p = .error f) ↔ Fatal p.buffer := by
  constructor
  · rintro ⟨f, hfail⟩
    rcases Stream.exists p.buffer with ⟨ts, e, hts⟩
    have hplain := hts.plain
    have hparses := lineTokens_parses (e := e) hplain
    rw [parserPopNext_eq hts] at hfail
    generalize lineTokens e .empty 0 ts = o at hfail hparses
    -- the call has failed, so one of its cases is a fault
    have hfault : o = .fault f := by
      cases o with
      | noLine => cases hfail
      | fault g =>
        cases hfail
        rfl
      | returned n err line => cases hfail
    have hright : ∀ us vs : List Item, ts = us ++ vs → ∀ t ∈ vs.map Prod.snd, t.Plain := by
      rintro us vs rfl t ht
      exact hplain t (by rw [List.map_append]; exact List.mem_append_right _ ht)
    cases hparses with
    | emptyWord h => exact ⟨_, _, hts.lexes.1, .inl h⟩
    | @close us vs l r b h =>
      obtain rfl : l = .empty := (closeOutcome_fault.mp hfault).2
      exact ⟨_, _, hts.lexes.1, .inr (.inl ⟨r, b, h⟩)⟩
    -- the redirect has eaten the end of the line, and no other one comes
    | @bareRedirect us vs h =>
      have hskip := (skipTokens_fault (hright us vs rfl)).mp hfault
      rw [hskip.1] at hts
      rcases hts.stuck_end with ⟨r, hlexes, hstuck⟩
      rw [List.map_append] at hlexes
      exact ⟨_, r, hlexes, .inr (.inr ⟨.inr ⟨_, _, rfl, h, hskip.2⟩, hstuck⟩)⟩
    -- an error is reported at the end of the line, which does not come
    | @skip us vs err h herr hfirst =>
      have hskip := (skipTokens_fault (hright us vs rfl)).mp hfault
      rw [hskip.1] at hts
      rcases hts.stuck_end with ⟨r, hlexes, hstuck⟩
      rcases h with ⟨k, ws, hus, hws⟩
      rw [List.map_append, hus, List.append_assoc] at hlexes
      refine ⟨_, r, hlexes, .inr (.inr ⟨.inl ⟨k, _, rfl, ?_⟩, hstuck⟩)⟩
      rw [List.mem_append, not_or]
      exact ⟨hws, hskip.2⟩
  · rintro ⟨ts, r, hlexes, hfatal⟩
    rcases hlexes.stream with ⟨us, rfl, -, hstream⟩
    rcases Stream.exists r with ⟨vs, e, hr⟩
    have hts := hstream vs e hr
    rcases hfatal with h | ⟨redirect, b, h⟩ | ⟨hwaiting, hstuck⟩
    · exact ⟨_, by rw [parserPopNext_eq hts, lineTokens_emptyWord h]; rfl⟩
    · refine ⟨.parserPopNext, ?_⟩
      rw [parserPopNext_eq hts, lineTokens_close h, closeOutcome_fault.mpr ⟨rfl, rfl⟩]
      rfl
    · -- the tokens are read up to the place where the tokenizer gets stuck
      have hend := hstream [] _ (.stuck (parseToken_eq_error_iff.mpr ⟨rfl, hstuck⟩))
      rw [List.append_nil] at hend
      rcases hwaiting with hopen | ⟨us₁, vs₁, hsplit, hbare, hvs⟩
      · rcases lineTokens_unfinished hend.plain hopen with ⟨g, hg⟩
        exact ⟨g, by rw [parserPopNext_eq hend, hg]; rfl⟩
      · rcases map_snd_append hsplit with ⟨ws₁, ws₂, rfl, rfl, rfl⟩
        have hplain : ∀ t ∈ ws₂.map Prod.snd, t.Plain := by
          intro t ht
          exact hend.plain t (by rw [List.map_append]; exact List.mem_append_right _ ht)
        refine ⟨.parseToken, ?_⟩
        rw [parserPopNext_eq hend, lineTokens_bareRedirect hbare,
          (skipTokens_fault hplain).mpr ⟨rfl, hvs⟩]
        rfl

/-! ## Runs -/

inductive Call
  | feed (str : List UInt8)
  | pop

def call (p : Parser) : Call → Run Parser
  | .feed str => parserFeed p str
  | .pop => (parserPopNext p).map Prod.fst

def perform (p : Parser) (calls : List Call) : Run Parser := calls.foldlM call p

/-- No call of the run pops a fatal buffer. -/
def Clean : Parser → List Call → Prop
  | _, [] => True
  | p, c :: cs => (c = .pop → ¬ Fatal p.buffer) ∧ ∀ p', call p c = .ok p' → Clean p' cs

/-- The only fault of `parser_feed` is the `memcpy` past the end. -/
theorem parserFeed_fault {p : Parser} {str : List UInt8} {f : Fault}
    (h : parserFeed p str = .error f) : f = .overrun := by
  have hguard : ∀ (c : Prop) [Decidable c] (q : Parser),
      (if c then .ok q else .error .overrun : Run Parser) = .error f → f = .overrun := by
    intro c _ q hq
    by_cases hc : c
    · rw [if_pos hc] at hq
      cases hq
    · rw [if_neg hc] at hq
      cases hq
      rfl
  exact hguard _ _ h

theorem pop_fault {p : Parser} {f : Fault} (h : call p .pop = .error f) :
    f.IsAssertion ∧ Fatal p.buffer := by
  unfold call at h
  rcases parserPopNext_cases p with hp | ⟨g, hg, hp⟩ | ⟨n, err, line, -, -, -, hp⟩
  · rw [hp] at h
    cases h
  · rw [hp] at h
    cases h
    refine ⟨?_, (pop_fails_iff p).mp ⟨_, hp⟩⟩
    rcases hg with hg | hg | hg
    · exact .inr (.inl hg)
    · exact .inl hg
    · exact .inr (.inr (.inr hg))
  · rw [hp] at h
    cases h

theorem pop_ok {p p' : Parser} (h : call p .pop = .ok p') : ¬ Fatal p.buffer := by
  intro hfatal
  rcases (pop_fails_iff p).mpr hfatal with ⟨f, hf⟩
  unfold call at h
  rw [hf] at h
  cases h

theorem perform_clean_iff (p : Parser) (calls : List Call) :
    (∀ f, perform p calls = .error f → ¬ f.IsAssertion) ↔ Clean p calls := by
  induction calls generalizing p with
  | nil =>
    refine ⟨fun _ => trivial, fun _ f hf => ?_⟩
    cases hf
  | cons c cs ih =>
    have hperform : perform p (c :: cs) = call p c >>= fun p' => perform p' cs := by
      unfold perform
      rw [List.foldlM_cons]
    rw [hperform, Clean]
    cases hcall : call p c with
    | ok p' =>
      rw [ok_bind, ih p']
      refine ⟨fun h => ⟨fun hpop => ?_, fun q hq => ?_⟩, fun h => h.2 p' rfl⟩
      · subst hpop
        exact pop_ok hcall
      · cases hq
        exact h
    | error f =>
      rw [error_bind]
      refine ⟨fun h => ⟨fun hpop => ?_, fun q hq => ?_⟩, fun h g hg => ?_⟩
      · subst hpop
        exact absurd (pop_fault hcall).1 (h f rfl)
      · cases hq
      · cases hg
        -- `feed` faults only with an overrun, and `pop` only where `Clean` excludes it.
        cases c with
        | feed str =>
          rw [parserFeed_fault hcall]
          rintro (h | h | h | h) <;> cases h
        | pop => exact absurd (pop_fault hcall).2 (h.1 rfl)

/-- In a run of arbitrary calls none of the assertions fails exactly if no call pops a fatal
buffer. -/
theorem perform_safe_iff (calls : List Call) :
    (∀ f, perform parserNew calls = .error f → ¬ f.IsAssertion) ↔ Clean parserNew calls :=
  perform_clean_iff parserNew calls

/-- `""`, `> f`, and `a \` with an empty line to go on with: three assertions that fail. -/
theorem assertions_fail :
    perform parserNew [.feed [34, 34, 10], .pop] = .error .tokenStrdup ∧
      perform parserNew [.feed [62, 32, 102, 10], .pop] = .error .parserPopNext ∧
      perform parserNew [.feed [97, 32, 92, 10, 32, 10], .pop] = .error .parseToken := by
  decide +kernel

end SystemProgramming.Shell
