import Mathlib

/-!
# Wait sets

The threads that are asleep on a condition variable are a finite set.  A signal wakes some of them,
at least one where there is one, and a broadcast wakes all.  Work that is signalled once for each item
is `Covered` as long as nobody sleeps while more items are left than threads are awake to take them.
-/

namespace WaitSets

variable {α : Type*}

/-- At least one sleeper wakes, if there is one. -/
def Signal (W W' : Finset α) : Prop := W' ⊆ W ∧ (W.Nonempty → W' ≠ W)

/-- What a step does to a condition variable. -/
inductive Notice
  | silent
  | signal
  | broadcast
  deriving DecidableEq, Repr

/-- The threads that stay asleep. -/
def Notice.Leaves : Notice → Finset α → Finset α → Prop
  | .silent, W, W' => W' = W
  | .signal, W, W' => Signal W W'
  | .broadcast, _, W' => W' = ∅

theorem Notice.Leaves.subset {n : Notice} {W W' : Finset α} (h : n.Leaves W W') : W' ⊆ W := by
  cases n with
  | silent => exact Finset.subset_of_eq h
  | signal => exact h.1
  | broadcast =>
    rw [show W' = ∅ from h]
    exact Finset.empty_subset W

/-- Without a signal all stay asleep, and others may fall asleep. -/
theorem Notice.Leaves.subset_union [DecidableEq α] {W W' : Finset α}
    (h : Notice.silent.Leaves W W') (V : Finset α) : W ⊆ W' ∪ V := by
  rw [show W' = W from h]
  exact Finset.subset_union_left

/-- A lone sleeper is woken by a signal. -/
theorem Signal.eq_empty {W W' : Finset α} {a : α} (h : Signal W W') (hlone : ∀ b ∈ W, b = a) :
    W' = ∅ := by
  by_contra hne
  obtain ⟨b, hb⟩ := Finset.nonempty_iff_ne_empty.mpr hne
  have hmem := h.1 hb
  refine h.2 ⟨b, hmem⟩ (h.1.antisymm fun c hc => ?_)
  rw [hlone c hc, ← hlone b hmem]
  exact hb

theorem Signal.exists_woken {W W' : Finset α} (h : Signal W W') (hW : W.Nonempty) :
    ∃ a ∈ W, a ∉ W' := by
  by_contra hnone
  apply h.2 hW
  apply h.1.antisymm
  intro a ha
  by_contra hout
  exact hnone ⟨a, ha, hout⟩

/-- A signal can always be given. -/
theorem Notice.exists_leaves (n : Notice) (W : Finset α) : ∃ W', n.Leaves W W' := by
  cases n with
  | silent => exact ⟨W, rfl⟩
  | signal => exact ⟨∅, Finset.empty_subset W, fun hW heq => hW.ne_empty heq.symm⟩
  | broadcast => exact ⟨∅, rfl⟩

/-! ## Items and the threads that take them -/

/-- While a thread sleeps, every one of the `n` items has an awake thread to take it. -/
def Covered (asleep awake : Finset α) (n : ℤ) : Prop := asleep.Nonempty → n ≤ awake.card

section

variable {asleep asleep' awake awake' : Finset α} {n n' : ℤ}

/-- A thread goes to sleep only when nothing is left. -/
theorem Covered.of_nonpos (h : n ≤ 0) : Covered asleep awake n := by
  intro _
  omega

theorem Covered.of_empty : Covered ∅ awake n := fun h => absurd h Finset.not_nonempty_empty

/-- Fewer sleepers, more awake threads and fewer items. -/
theorem Covered.mono (h : Covered asleep awake n) (hasleep : asleep' ⊆ asleep)
    (hawake : awake ⊆ awake') (hn : n' ≤ n) : Covered asleep' awake' n' := by
  intro hne
  have hcard := Finset.card_le_card hawake
  have hle := h (hne.mono hasleep)
  omega

/-- An awake thread takes one item. -/
theorem Covered.take [DecidableEq α] (h : Covered asleep awake n) (a : α) :
    Covered asleep (awake.erase a) (n - 1) := by
  intro hne
  have hle := h hne
  have hcard := Finset.pred_card_le_card_erase (s := awake) (a := a)
  omega

/-- One item more, and a signal for it: the woken thread is there for the new item. -/
theorem Covered.signal [DecidableEq α] (h : Covered asleep awake n) (hsignal : Signal asleep asleep')
    (hdisjoint : Disjoint asleep awake) :
    Covered asleep' (awake ∪ asleep \ asleep') (n + 1) := by
  intro hne
  have hsleeper : asleep.Nonempty := hne.mono hsignal.1
  have hle := h hsleeper
  obtain ⟨a, ha, hout⟩ := hsignal.exists_woken hsleeper
  have hwoken : 1 ≤ (asleep \ asleep').card :=
    Finset.card_pos.mpr ⟨a, Finset.mem_sdiff.mpr ⟨ha, hout⟩⟩
  have hcard : (awake ∪ asleep \ asleep').card = awake.card + (asleep \ asleep').card :=
    Finset.card_union_of_disjoint (hdisjoint.symm.mono_right Finset.sdiff_subset)
  omega

end

end WaitSets
