import Mathlib

/-!
# Lines

A stream is cut into lines at a separator, with the beginning of the first line given: the lines
that are complete, and what there is of the next one.  A line is trimmed by taking from both its
ends the elements that satisfy a predicate.
-/

namespace Lines

universe u

variable {α : Type u} [DecidableEq α] {sep : α}

def cut (sep : α) : List α → List α → List (List α) × List α
  | start, [] => ([], start)
  | start, a :: s =>
    if a = sep then (start :: (cut sep [] s).1, (cut sep [] s).2)
    else cut sep (start ++ [a]) s

/-- The complete lines of a stream. -/
def complete (sep : α) (s : List α) : List (List α) := (cut sep [] s).1

/-- What follows the last separator. -/
def unfinished (sep : α) (s : List α) : List α := (cut sep [] s).2

theorem cut_sep (start s : List α) :
    cut sep start (sep :: s) = (start :: complete sep s, unfinished sep s) := by
  rw [cut, if_pos rfl]
  rfl

theorem cut_ne {a : α} (h : a ≠ sep) (start s : List α) :
    cut sep start (a :: s) = cut sep (start ++ [a]) s := by
  rw [cut, if_neg h]

theorem cut_append (start s t : List α) : cut sep start (s ++ t) =
    ((cut sep start s).1 ++ (cut sep (cut sep start s).2 t).1,
      (cut sep (cut sep start s).2 t).2) := by
  induction s generalizing start with
  | nil => rfl
  | cons a s ih =>
    rw [List.cons_append]
    by_cases h : a = sep
    · rw [h, cut_sep, cut_sep]
      simp only [complete, unfinished, ih, List.cons_append]
    · rw [cut_ne h, cut_ne h]
      exact ih _

theorem complete_append (s t : List α) :
    complete sep (s ++ t) = complete sep s ++ (cut sep (unfinished sep s) t).1 := by
  unfold complete unfinished
  rw [cut_append]

theorem unfinished_append (s t : List α) :
    unfinished sep (s ++ t) = (cut sep (unfinished sep s) t).2 := by
  unfold unfinished
  rw [cut_append]

/-- A complete line is what is unfinished right before a separator. -/
theorem forall_mem_cut {P : List α → Prop} (start s : List α) :
    (∀ l ∈ (cut sep start s).1, P l) ↔ ∀ u v, s = u ++ sep :: v → P (cut sep start u).2 := by
  induction s generalizing start with
  | nil =>
    constructor
    · intro _ u v h
      simp at h
    · intro _ l hl
      cases hl
  | cons a s ih =>
    by_cases ha : a = sep
    · subst ha
      -- a line ends here, and the others begin after it
      rw [cut_sep, List.forall_mem_cons, complete, ih]
      constructor
      · intro h u v huv
        cases u with
        | nil => exact h.1
        | cons b u =>
          obtain ⟨rfl, hs⟩ := List.cons.inj huv
          rw [cut_sep]
          exact h.2 u v hs
      · intro h
        refine ⟨h [] s rfl, fun u v huv => ?_⟩
        have hlater := h (a :: u) v (by rw [huv]; rfl)
        rw [cut_sep] at hlater
        exact hlater
    · -- the line goes on
      rw [cut_ne ha, ih]
      constructor
      · intro h u v huv
        cases u with
        | nil => exact absurd (List.cons.inj huv).1 ha
        | cons b u =>
          obtain ⟨rfl, hs⟩ := List.cons.inj huv
          rw [cut_ne ha]
          exact h u v hs
      · intro h u v huv
        have hlater := h (a :: u) v (by rw [huv]; rfl)
        rw [cut_ne ha] at hlater
        exact hlater

theorem forall_mem_complete {P : List α → Prop} {s : List α} :
    (∀ l ∈ complete sep s, P l) ↔ ∀ u v, s = u ++ sep :: v → P (unfinished sep u) :=
  forall_mem_cut [] s

/-- The elements of a line are its own or those it started with. -/
theorem mem_cut {start s : List α} {a : α}
    (h : (∃ l ∈ (cut sep start s).1, a ∈ l) ∨ a ∈ (cut sep start s).2) : a ∈ start ∨ a ∈ s := by
  induction s generalizing start with
  | nil =>
    rcases h with ⟨l, hl, -⟩ | h
    · cases hl
    · exact .inl h
  | cons b s ih =>
    by_cases hb : b = sep
    · subst hb
      rw [cut_sep] at h
      simp only [List.mem_cons] at h
      rcases h with ⟨l, rfl | hl, ha⟩ | h
      · exact .inl ha
      · right
        rcases ih (.inl ⟨l, hl, ha⟩) with hnil | hs
        · cases hnil
        · exact List.mem_cons_of_mem _ hs
      · right
        rcases ih (.inr h) with hnil | hs
        · cases hnil
        · exact List.mem_cons_of_mem _ hs
    · rw [cut_ne hb] at h
      have hmem := ih h
      simp only [List.mem_append, List.mem_cons] at *
      tauto

/-! ## Trimming -/

omit [DecidableEq α]

def trim (p : α → Bool) (l : List α) : List α := (l.dropWhile p).rdropWhile p

/-- The first element that is not dropped. -/
theorem head_dropWhile {p : α → Bool} {l : List α} : ∀ a ∈ (l.dropWhile p).head?, ¬ p a := by
  intro a ha
  have hhead := List.head?_dropWhile_not p l
  rw [Option.mem_def.mp ha] at hhead
  simpa using hhead

/-- A line is its trimmed text between elements that are taken off.  The text does not begin or
end with such an element, and in a line without text all of them are before it. -/
theorem trim_spec (p : α → Bool) (l : List α) : ∃ before behind,
    l = before ++ trim p l ++ behind ∧ (∀ a ∈ before, p a) ∧ (∀ a ∈ behind, p a) ∧
      (∀ a ∈ (trim p l).head?, ¬ p a) ∧ (∀ a ∈ (trim p l).getLast?, ¬ p a) ∧
      (trim p l = [] → behind = []) := by
  have hparts : l.dropWhile p = trim p l ++ (l.dropWhile p).rtakeWhile p :=
    List.rdropWhile_append_rtakeWhile.symm
  refine ⟨l.takeWhile p, (l.dropWhile p).rtakeWhile p, ?_, ?_, ?_, ?_, ?_, ?_⟩
  · rw [List.append_assoc, ← hparts, List.takeWhile_append_dropWhile]
  · intro a ha
    exact List.mem_takeWhile_imp ha
  · intro a ha
    exact List.mem_rtakeWhile_imp ha
  · intro a ha
    apply head_dropWhile (l := l)
    rw [hparts, Option.mem_def, List.head?_append, Option.mem_def.mp ha]
    rfl
  · intro a ha
    rcases List.mem_getLast?_eq_getLast ha with ⟨hne, rfl⟩
    exact List.rdropWhile_last_not p _ hne
  · intro hnil
    have hall := List.rdropWhile_eq_nil_iff.mp hnil
    cases hdrop : l.dropWhile p with
    | nil => rfl
    | cons a d =>
      have hhead := head_dropWhile (p := p) (l := l) a (by rw [hdrop]; rfl)
      rw [hdrop] at hall
      exact absurd (hall a (List.mem_cons_self)) hhead

end Lines
