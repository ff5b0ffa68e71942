import Mathlib
import SystemProgramming.Lib.DoublyLinked
import SystemProgramming.Libcoro.State

/-!
# The list of the coroutines

What `coro_list_add`, `coro_list_delete` and the walks along `next` do to a list that is given by
its pointers.
-/

namespace SystemProgramming.Libcoro

open DoublyLinked

variable {σ κ : Type} {s : State σ κ} {c p : Ptr} {xs : List Ptr}

namespace State

theorem modify_coros (s : State σ κ) (p : Option Ptr) (q : Ptr) (f : Coro σ κ → Coro σ κ) :
    (s.modify p f).coros q = if p = some q then f (s.coros q) else s.coros q := rfl

/-- A field that the assignment does not write. -/
theorem modify_field {β : Type} {g : Coro σ κ → β} {f : Coro σ κ → Coro σ κ}
    (hg : ∀ x, g (f x) = g x) (s : State σ κ) (p : Option Ptr) (q : Ptr) :
    g ((s.modify p f).coros q) = g (s.coros q) := by
  rw [modify_coros]
  split
  · exact hg _
  · rfl

/-- The list is the one that the pointers in memory give. -/
def Chained (s : State σ κ) (xs : List Ptr) : Prop :=
  Linked (fun p => (s.coros p).next) (fun p => (s.coros p).prev) s.coroList xs xs.getLast?

theorem Chained.head_eq (h : s.Chained xs) : s.coroList = xs.head? := Linked.head_eq h

theorem Chained.nodup (h : s.Chained xs) : xs.Nodup := Seg.nodup h

/-- Only the list and its links matter. -/
theorem Chained.congr {t : State σ κ} (h : s.Chained xs) (hhead : t.coroList = s.coroList)
    (hnext : ∀ p ∈ xs, (t.coros p).next = (s.coros p).next)
    (hprev : ∀ p ∈ xs, (t.coros p).prev = (s.coros p).prev) : t.Chained xs := by
  unfold Chained
  rw [hhead]
  exact Seg.congr h hnext hprev

/-- The coroutine before the end of the list has no next one. -/
theorem Chained.next_last {as : List Ptr} (h : s.Chained (as ++ [c])) :
    (s.coros c).next = none := by
  obtain ⟨l, m, -, -, -, hlast⟩ := seg_append.mp h
  exact hlast.1

theorem Chained.next_mid {as bs : List Ptr} (h : s.Chained (as ++ c :: p :: bs)) :
    (s.coros c).next = some p := by
  obtain ⟨l, m, -, -, -, hnext⟩ := seg_append.mp h
  exact hnext.1

/-! ## `coro_list_add` -/

/-- Apart from the links every field is left alone. -/
theorem coroListAdd_field {β : Type} (g : Coro σ κ → β)
    (hg : ∀ x n v, g { x with next := n, prev := v } = g x) (s : State σ κ) (c p : Ptr) :
    g ((s.coroListAdd c).coros p) = g (s.coros p) := by
  have hboth : ∀ x n, g { x with next := n, prev := none } = g x := fun x n => hg x n none
  have hprev : ∀ x v, g { x with prev := v } = g x := fun x v => hg x x.next v
  exact (modify_field (fun x => hprev x _) _ _ p).trans (modify_field (fun x => hboth x _) s _ p)

theorem coroListAdd_next (s : State σ κ) (c p : Ptr) :
    ((s.coroListAdd c).coros p).next = if p = c then s.coroList else (s.coros p).next := by
  simp only [State.coroListAdd, modify_coros, Option.some.injEq, eq_comm]
  split <;> split <;> rfl

theorem coroListAdd_prev (s : State σ κ) (c p : Ptr) :
    ((s.coroListAdd c).coros p).prev =
      if s.coroList = some p then some c else if p = c then none else (s.coros p).prev := by
  simp only [State.coroListAdd, modify_coros, Option.some.injEq, @eq_comm _ c]
  change (if s.coroList = some p then _ else _ : Coro σ κ).prev = _
  split
  · rfl
  · split <;> rfl

theorem Chained.coroListAdd (h : s.Chained xs) (hc : c ∉ xs) :
    (s.coroListAdd c).Chained (c :: xs) := by
  have hhead : s.coroList ≠ some c := by
    rw [h.head_eq]
    exact fun heq => hc (List.mem_of_head? heq)
  have hlast : (c :: xs).getLast? = xs.getLast?.or (some c) := by
    rw [List.getLast?_cons]
    cases xs.getLast? <;> rfl
  unfold Chained
  rw [hlast]
  refine Linked.prepend h ?_ ?_ ?_ ?_ ?_
  · rw [coroListAdd_next, if_pos rfl]
  · rw [coroListAdd_prev, if_neg hhead, if_pos rfl]
  · intro y hy
    rw [coroListAdd_next, if_neg (ne_of_mem_of_not_mem hy hc)]
  · intro y hy
    have hyx : y ∈ xs := List.mem_of_mem_tail hy
    rw [coroListAdd_prev, if_neg, if_neg (ne_of_mem_of_not_mem hyx hc)]
    -- the head is not met again in the tail
    rw [h.head_eq]
    intro heq
    cases xs with
    | nil => cases heq
    | cons x xs =>
      obtain rfl : x = y := by simpa using heq
      exact (List.nodup_cons.mp h.nodup).1 hy
  · intro y hy
    rw [coroListAdd_prev, if_pos hy]

/-! ## `coro_list_delete` -/

theorem coroListDelete_field {β : Type} (g : Coro σ κ → β)
    (hg : ∀ x n v, g { x with next := n, prev := v } = g x) (s : State σ κ) (c p : Ptr) :
    g ((s.coroListDelete c).coros p) = g (s.coros p) := by
  have hnext : ∀ x n, g { x with next := n } = g x := fun x n => hg x n x.prev
  have hprev : ∀ x v, g { x with prev := v } = g x := fun x v => hg x x.next v
  exact (modify_field (fun x => hprev x _) _ _ p).trans (modify_field (fun x => hnext x _) s _ p)

theorem coroListDelete_next (s : State σ κ) (c p : Ptr) :
    ((s.coroListDelete c).coros p).next =
      if (s.coros c).prev = some p then (s.coros c).next else (s.coros p).next := by
  simp only [State.coroListDelete, modify_coros]
  split <;> split <;> rfl

theorem coroListDelete_prev (s : State σ κ) (c p : Ptr) :
    ((s.coroListDelete c).coros p).prev =
      if (s.coros c).next = some p then (s.coros c).prev else (s.coros p).prev := by
  simp only [State.coroListDelete, modify_coros]
  split
  · rfl
  · split <;> rfl

theorem Chained.coroListDelete {as bs : List Ptr} (h : s.Chained (as ++ c :: bs)) :
    (s.coroListDelete c).Chained (as ++ bs) := by
  obtain ⟨l, m, has, rfl, hl, hbs⟩ := seg_append.mp h
  have hprev : (s.coros c).prev = as.getLast? := by
    rw [← Option.or_none (o := as.getLast?), ← Seg.last_eq has]
    exact hl
  -- the list has no field for its last element, which changes if `c` was it
  have hlast : (if bs = [] then (s.coros c).prev else (as ++ c :: bs).getLast?) =
      (as ++ bs).getLast? := by
    rcases List.eq_nil_or_concat' bs with rfl | ⟨ys, y, rfl⟩
    · simp only [reduceIte, List.append_nil, hprev]
    · rw [if_neg (by simp), ← List.cons_append, ← List.append_assoc, List.getLast?_concat,
        ← List.append_assoc, List.getLast?_concat]
  have hhead : (s.coroListDelete c).coroList = if as = [] then (s.coros c).next else s.coroList := by
    refine if_congr ?_ rfl rfl
    rw [hprev, List.getLast?_eq_none_iff]
  unfold Chained
  rw [hhead, ← hlast]
  have hnodup := List.nodup_append.mp h.nodup
  refine Linked.unlink h ?_ ?_ ?_ ?_ ?_ ?_
  · intro y _ hy
    rw [coroListDelete_next, if_neg (Ne.symm hy)]
  · intro y hy
    rw [coroListDelete_next, if_pos hy]
  · intro y hy
    rw [coroListDelete_next]
    refine if_neg fun hpr => ?_
    -- the one before is not among those after
    have hmem : y ∈ as := List.mem_of_getLast? (hprev ▸ hpr)
    exact hnodup.2.2 y hmem y (List.mem_cons_of_mem _ hy) rfl
  · intro y hy
    rw [coroListDelete_prev]
    refine if_neg fun hnx => ?_
    -- the one after is not among those before
    have hmem : y ∈ bs := by
      cases bs with
      | nil => exact absurd (hnx.symm.trans hbs.1) (by simp)
      | cons b bs =>
        obtain rfl : y = b := by simpa [hnx] using hbs.1
        exact List.mem_cons_self
    exact hnodup.2.2 y hy y (List.mem_cons_of_mem _ hmem) rfl
  · intro y _ hy
    rw [coroListDelete_prev, if_neg (Ne.symm hy)]
  · intro y hy
    rw [coroListDelete_prev, if_pos hy]

/-! ## Walking along `next` -/

theorem findFinished_eq {head prev last : Option Ptr} {fuel : Nat}
    (h : Seg (fun p => (s.coros p).next) (fun p => (s.coros p).prev) prev head xs last none)
    (hfuel : xs.length ≤ fuel) :
    s.findFinished fuel head = xs.find? fun p => (s.coros p).isFinished := by
  induction xs generalizing head prev fuel with
  | nil =>
    obtain ⟨rfl, -⟩ := h
    cases fuel <;> rfl
  | cons x xs ih =>
    obtain ⟨rfl, -, htail⟩ := h
    cases fuel with
    | zero => simp at hfuel
    | succ fuel =>
      rw [findFinished, List.find?_cons, ih htail (by simpa using hfuel)]
      cases (s.coros x).isFinished <;> rfl

theorem along_eq {head prev last : Option Ptr} {fuel : Nat}
    (h : Seg (fun p => (s.coros p).next) (fun p => (s.coros p).prev) prev head xs last none)
    (hfuel : xs.length ≤ fuel) : s.along fuel head = xs := by
  induction xs generalizing head prev fuel with
  | nil =>
    obtain ⟨rfl, -⟩ := h
    cases fuel <;> rfl
  | cons x xs ih =>
    obtain ⟨rfl, -, htail⟩ := h
    cases fuel with
    | zero => simp at hfuel
    | succ fuel => rw [along, ih htail (by simpa using hfuel)]

end State

end SystemProgramming.Libcoro
