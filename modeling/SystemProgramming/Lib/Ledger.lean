import Mathlib

/-!
# Ledgers

The numbers `0, 1, …, n - 1` are given out one after the other, and each of them is kept in one
place at a time.  `Ledger n places` says that the list of all that is kept is a permutation of what
was given out: nothing is lost and nothing is kept twice.
-/

namespace Ledgers

def Ledger (n : Nat) (places : List Nat) : Prop := places.Perm (List.range n)

variable {n k : Nat} {places places' : List Nat}

theorem Ledger.nil : Ledger 0 [] := .refl _

/-- Moving numbers from one place to another. -/
theorem Ledger.move (h : Ledger n places) (hperm : places'.Perm places) : Ledger n places' :=
  hperm.trans h

/-- Giving out the next number. -/
theorem Ledger.issue (h : Ledger n places) : Ledger (n + 1) (n :: places) := by
  unfold Ledger
  rw [List.range_succ]
  exact (List.Perm.cons n h).trans (List.perm_append_singleton n _).symm

theorem Ledger.nodup (h : Ledger n places) : places.Nodup := h.nodup_iff.mpr List.nodup_range

theorem Ledger.mem_iff (h : Ledger n places) : k ∈ places ↔ k < n := by
  rw [List.Perm.mem_iff h, List.mem_range]

/-- Every number given out is kept once. -/
theorem Ledger.count (h : Ledger n places) (hk : k < n) : places.count k = 1 :=
  List.count_eq_one_of_mem h.nodup (h.mem_iff.mpr hk)

end Ledgers
