import SystemProgramming.Lib.Runs
import SystemProgramming.HeapHelp.State

/-!
# The steps of the heap checker

`Begins` lists what the first step of a call can do, with the block that the program passes to it.
-/

namespace SystemProgramming.HeapHelp

variable {ι : Type} [DecidableEq ι] {s t : State ι} {i : ι}

/-- The checker as a labelled transition system. -/
def Steps (s : State ι) (a : Label ι) (t : State ι) : Prop := step s a = some t

/-- The block that the program passes to the function. -/
def Label.passes : Label ι → Option Nat
  | .realloc _ ptr _ _ _ => ptr
  | .getline _ lineOld _ _ => lineOld
  | .free _ ptr => ptr
  | _ => none

/-- `realloc` has found no memory and left the block as it was. -/
def Label.outOfMemory : Label ι → Bool
  | .realloc _ (some _) _ none released => !released
  | _ => false

/-- The first step of a call of the thread `i`, which passes `passed`; `lost` is set when the block
stays but its record goes. -/
inductive Begins (s : State ι) (i : ι) : (passed : Option Nat) → (lost : Bool) → State ι → Prop
  | nothing {passed : Option Nat} : Begins s i passed false s
  | traced {size ptr : Nat} (hfree : s.live ptr = false) :
      Begins s i none false ((s.setLive ptr true).goto i (.traceNew ptr size))
  | moved {size p q : Nat} (hne : q ≠ p) (hfree : s.live q = false) :
      Begins s i (some p) false
        ((((s.take p).setLive p false).setLive q true).goto i (.free p (.traceNew q size)))
  | released {p : Nat} :
      Begins s i (some p) false (((s.take p).setLive p false).goto i (.free p .return))
  | lost {p : Nat} : Begins s i (some p) true (s.goto i (.free p .return))
  | free {p : Nat} : Begins s i (some p) false ((s.take p).goto i (.free p .defaultFree))
  | fails {passed : Option Nat} {e : Assertion} (he : e = .lineKept ∨ e = .exitNotDone) :
      Begins s i passed false { s with failed := some e }

theorem begins_traced {size ptr : Nat} (h : s.traced i size ptr = some t) :
    Begins s i none false t := by
  rw [State.traced] at h
  split at h
  · cases h
  · next hfree =>
    cases h
    exact .traced (by simpa using hfree)

theorem begins_moved {size p q : Nat} (hne : q ≠ p) (h : s.moved i size p q = some t) :
    Begins s i (some p) false t := by
  rw [State.moved] at h
  split at h
  · cases h
  · next hfree =>
    cases h
    exact .moved hne (by simpa using hfree)

theorem begins_realloc {ptr res : Option Nat} {size : Nat} {released : Bool}
    (h : s.realloc i ptr size res released = some t) :
    Begins s i ptr (Label.realloc i ptr size res released).outOfMemory t := by
  cases ptr with
  | none =>
    cases res with
    | none =>
      cases h
      exact .nothing
    | some q => exact begins_traced h
  | some p =>
    cases res with
    | none =>
      cases released with
      | false =>
        cases h
        exact .lost
      | true =>
        cases h
        exact .released
    | some q =>
      simp only [State.realloc] at h
      split at h
      · cases h
        exact .nothing
      · next hne => exact begins_moved hne h

theorem begins_getline {lineOld line : Option Nat} {length : Nat}
    (h : s.getline i lineOld length line = some t) : Begins s i lineOld false t := by
  cases lineOld with
  | none =>
    cases line with
    | none =>
      cases h
      exact .nothing
    | some q => exact begins_traced h
  | some p =>
    cases line with
    | none =>
      cases h
      exact .fails (.inl rfl)
    | some q =>
      simp only [State.getline] at h
      split at h
      · cases h
        exact .nothing
      · next hne => exact begins_moved hne h

theorem begins_strdup {length : Nat} {res : Option Nat} (h : s.strdup i length res = some t) :
    Begins s i none false t := by
  unfold State.strdup at h
  split at h
  · cases h
    exact .fails (.inr rfl)
  · cases res with
    | none =>
      cases h
      exact .nothing
    | some ptr => exact begins_traced h

omit [DecidableEq ι] in
theorem of_call {u : Option (State ι)} (h : call s i u = some t) :
    s.phase i = .outside ∧ u = some t := by
  rw [call] at h
  split at h
  · next hphase => exact ⟨hphase, h⟩
  · cases h

/-- Every step begins a call, goes on with one or is the beginning of the exit. -/
theorem step_cases {a : Label ι} (h : step s a = some t) : s.failed = none ∧
    ((∃ i, s.phase i = .outside ∧ Begins s i a.passes a.outOfMemory t) ∨
      (∃ i trace, s.go i trace = some t) ∨ t = { s with isExitDone := true }) := by
  unfold step at h
  split at h
  · cases h
  · next hfailed =>
    refine ⟨by simpa using hfailed, ?_⟩
    cases a with
    | malloc i size res =>
      obtain ⟨hphase, h⟩ := of_call h
      refine .inl ⟨i, hphase, ?_⟩
      cases res with
      | none =>
        cases h
        exact .nothing
      | some ptr => exact begins_traced h
    | calloc i num size res =>
      obtain ⟨hphase, h⟩ := of_call h
      refine .inl ⟨i, hphase, ?_⟩
      cases res with
      | none =>
        cases h
        exact .nothing
      | some ptr => exact begins_traced h
    | strdup i length res =>
      obtain ⟨hphase, h⟩ := of_call h
      exact .inl ⟨i, hphase, begins_strdup h⟩
    | realloc i ptr size res released =>
      obtain ⟨hphase, h⟩ := of_call h
      exact .inl ⟨i, hphase, begins_realloc h⟩
    | getline i lineOld length line =>
      obtain ⟨hphase, h⟩ := of_call h
      exact .inl ⟨i, hphase, begins_getline h⟩
    | free i ptr =>
      obtain ⟨hphase, h⟩ := of_call h
      refine .inl ⟨i, hphase, ?_⟩
      cases ptr with
      | none =>
        cases h
        exact .nothing
      | some p =>
        cases h
        exact .free
    | go i trace => exact .inr (.inl ⟨i, trace, h⟩)
    | exit =>
      cases h
      exact .inr (.inr rfl)

end SystemProgramming.HeapHelp
