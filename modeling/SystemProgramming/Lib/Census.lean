import Mathlib

/-!
# Counting over threads

`census f phase` adds up `f` over the phases that finitely many threads are in.  One thread moves at
a time, so a step changes one term of the sum.
-/

namespace Censuses

open Finset

variable {ι β : Type*} [Fintype ι] {f : β → ℕ} {phase : ι → β}

def census (f : β → ℕ) (phase : ι → β) : ℕ := ∑ i, f (phase i)

theorem le_census (f : β → ℕ) (phase : ι → β) (i : ι) : f (phase i) ≤ census f phase :=
  single_le_sum (f := fun j => f (phase j)) (fun _ _ => Nat.zero_le _) (mem_univ i)

theorem census_mono {g : β → ℕ} (h : ∀ v, f v ≤ g v) : census f phase ≤ census g phase :=
  sum_le_sum fun _ _ => h _

theorem census_eq_zero (h : ∀ i, f (phase i) = 0) : census f phase = 0 :=
  sum_eq_zero fun i _ => h i

variable [DecidableEq ι]

/-- The thread `i` goes to the phase `v`: what it has counted before is exchanged. -/
theorem census_update (f : β → ℕ) (phase : ι → β) (i : ι) (v : β) :
    census f (Function.update phase i v) + f (phase i) = census f phase + f v := by
  have hothers : ∑ j ∈ univ.erase i, f (Function.update phase i v j) =
      ∑ j ∈ univ.erase i, f (phase j) :=
    sum_congr rfl fun j hj => by rw [Function.update_of_ne (ne_of_mem_erase hj)]
  have hnew := add_sum_erase univ (fun j => f (Function.update phase i v j)) (mem_univ i)
  have hold := add_sum_erase univ (fun j => f (phase j)) (mem_univ i)
  simp only [Function.update_self, hothers] at hnew
  show ∑ j, f (Function.update phase i v j) + f (phase i) = ∑ j, f (phase j) + f v
  omega

/-- Two threads count both. -/
theorem add_le_census (f : β → ℕ) (phase : ι → β) {i j : ι} (hij : i ≠ j) :
    f (phase i) + f (phase j) ≤ census f phase := by
  have hsplit := add_sum_erase univ (fun k => f (phase k)) (mem_univ i)
  have hle : f (phase j) ≤ ∑ k ∈ univ.erase i, f (phase k) :=
    single_le_sum (f := fun k => f (phase k)) (fun _ _ => Nat.zero_le _)
      (mem_erase.mpr ⟨hij.symm, mem_univ j⟩)
  show _ ≤ ∑ k, f (phase k)
  omega

end Censuses
