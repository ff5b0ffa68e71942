import Mathlib

/-!
# Singly linked lists in a heap

`Chain next hd xs` says that following `next` from `hd` visits exactly the cells `xs` and then ends.
-/

namespace SinglyLinked

variable {α : Type*} {next next' : α → Option α}

def Chain (next : α → Option α) : Option α → List α → Prop
  | hd, [] => hd = none
  | hd, x :: xs => hd = some x ∧ Chain next (next x) xs

@[simp] theorem chain_nil {hd : Option α} : Chain next hd [] ↔ hd = none := Iff.rfl

@[simp] theorem chain_cons {hd : Option α} {x : α} {xs : List α} :
    Chain next hd (x :: xs) ↔ hd = some x ∧ Chain next (next x) xs := Iff.rfl

/-- Links outside the visited cells do not matter. -/
theorem Chain.congr {hd : Option α} {xs : List α} (h : Chain next hd xs)
    (hnext : ∀ x ∈ xs, next' x = next x) : Chain next' hd xs := by
  induction xs generalizing hd with
  | nil => exact h
  | cons x xs ih =>
    refine ⟨h.1, ?_⟩
    rw [hnext x List.mem_cons_self]
    exact ih h.2 fun y hy => hnext y (List.mem_cons_of_mem _ hy)

/-- The visited cells are determined by the head. -/
theorem Chain.unique {hd : Option α} {xs ys : List α} (h : Chain next hd xs)
    (h' : Chain next hd ys) : xs = ys := by
  induction xs generalizing hd ys with
  | nil =>
    cases ys with
    | nil => rfl
    | cons y ys => exact absurd (h'.1.symm.trans h) (Option.some_ne_none y)
  | cons x xs ih =>
    cases ys with
    | nil => exact absurd (h.1.symm.trans h') (Option.some_ne_none x)
    | cons y ys =>
      obtain rfl : x = y := Option.some.inj (h.1.symm.trans h'.1)
      rw [ih h.2 h'.2]

/-- A new head, whose link is the old one. -/
theorem Chain.push {hd : Option α} {x : α} {xs : List α} (h : Chain next hd xs)
    (hx : next' x = hd) (hnext : ∀ y ∈ xs, next' y = next y) : Chain next' (some x) (x :: xs) :=
  ⟨rfl, hx ▸ h.congr hnext⟩

/-- The cell behind `p` is left out. -/
theorem Chain.delete {hd : Option α} {as bs : List α} {p a : α}
    (h : Chain next hd (as ++ p :: a :: bs)) (hp : next' p = next a)
    (hnext : ∀ x ∈ as ++ bs, next' x = next x) : Chain next' hd (as ++ p :: bs) := by
  induction as generalizing hd with
  | nil =>
    obtain ⟨hhead, -, hrest⟩ := h
    refine ⟨hhead, ?_⟩
    rw [hp]
    exact hrest.congr hnext
  | cons x as ih =>
    refine ⟨h.1, ?_⟩
    rw [hnext x (List.mem_append_left _ List.mem_cons_self)]
    exact ih h.2 fun y hy => hnext y (by simpa using Or.inr (List.mem_append.mp hy))

end SinglyLinked
