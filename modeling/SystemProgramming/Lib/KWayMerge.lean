import Mathlib

/-!
# Merging sorted lists

`n` sorted lists are merged by moving, again and again, a head that is not above any other head to
the end of the output.  `Merged all rest out` is what this keeps, when `rest` is left of the lists
`all` and `out` was put out.
-/

namespace KWayMerge

variable {α : Type*} [LinearOrder α] {n : Nat} {all rest : Fin n → List α} {out : List α}

/-- The elements of all lists. -/
def concat (xs : Fin n → List α) : List α := (List.ofFn xs).flatten

omit [LinearOrder α] in
theorem mem_concat {xs : Fin n → List α} {x : α} : x ∈ concat xs ↔ ∃ i, x ∈ xs i := by
  simp only [concat, List.mem_flatten, List.mem_ofFn, exists_exists_eq_and]

theorem count_concat (xs : Fin n → List α) (x : α) : (concat xs).count x = ∑ i, (xs i).count x := by
  rw [concat, List.count_flatten, List.map_ofFn, List.sum_ofFn]
  rfl

structure Merged (all rest : Fin n → List α) (out : List α) : Prop where
  sorted : out.Pairwise (· ≤ ·)
  below : ∀ x ∈ out, ∀ y ∈ concat rest, x ≤ y
  left : ∀ i, (rest i).Pairwise (· ≤ ·)
  perm : (out ++ concat rest).Perm (concat all)

theorem Merged.start (h : ∀ i, (all i).Pairwise (· ≤ ·)) : Merged all all [] :=
  ⟨.nil, fun _ hx => absurd hx List.not_mem_nil, h, .refl _⟩

/-- Taking the head of a list from all of them. -/
theorem concat_update_perm {i : Fin n} {x : α} {xs : List α} (hi : rest i = x :: xs) :
    (concat rest).Perm (x :: concat (Function.update rest i xs)) := by
  refine List.perm_iff_count.mpr fun y => ?_
  have hothers : ∑ j ∈ Finset.univ.erase i, (Function.update rest i xs j).count y =
      ∑ j ∈ Finset.univ.erase i, (rest j).count y := by
    refine Finset.sum_congr rfl fun j hj => ?_
    rw [Function.update_of_ne (Finset.ne_of_mem_erase hj)]
  rw [List.count_cons, count_concat, count_concat, ← Finset.add_sum_erase _ _ (Finset.mem_univ i),
    ← Finset.add_sum_erase _ _ (Finset.mem_univ i), hothers, Function.update_self, hi,
    List.count_cons]
  omega

/-- A head that is not above any head is not above any element that is left. -/
theorem Merged.head_le (h : Merged all rest out) {x : α}
    (hmin : ∀ j y ys, rest j = y :: ys → x ≤ y) : ∀ y ∈ concat rest, x ≤ y := by
  intro y hy
  obtain ⟨j, hj⟩ := mem_concat.mp hy
  cases hrest : rest j with
  | nil =>
    rw [hrest] at hj
    exact absurd hj List.not_mem_nil
  | cons z zs =>
    have hsorted := h.left j
    rw [hrest] at hj hsorted
    have hz := hmin j z zs hrest
    rcases List.mem_cons.mp hj with rfl | hmem
    · exact hz
    · exact hz.trans ((List.pairwise_cons.mp hsorted).1 y hmem)

/-- The step of the merge. -/
theorem Merged.take (h : Merged all rest out) {i : Fin n} {x : α} {xs : List α}
    (hi : rest i = x :: xs) (hmin : ∀ j y ys, rest j = y :: ys → x ≤ y) :
    Merged all (Function.update rest i xs) (out ++ [x]) := by
  have hperm := concat_update_perm hi
  have hle := h.head_le hmin
  refine ⟨?_, fun y hy z hz => ?_, fun j => ?_, ?_⟩
  · refine List.pairwise_append.mpr ⟨h.sorted, List.pairwise_singleton _ _, fun y hy z hz => ?_⟩
    rw [List.mem_singleton.mp hz]
    exact h.below y hy x (hperm.mem_iff.mpr List.mem_cons_self)
  · have hleft := hperm.mem_iff.mpr (List.mem_cons_of_mem x hz)
    rcases List.mem_append.mp hy with hout | hlast
    · exact h.below y hout z hleft
    · rw [List.mem_singleton.mp hlast]
      exact hle z hleft
  · by_cases hj : j = i
    · have hsorted := h.left i
      rw [hi] at hsorted
      rw [hj, Function.update_self]
      exact hsorted.of_cons
    · rw [Function.update_of_ne hj]
      exact h.left j
  · rw [List.append_assoc]
    exact (hperm.symm.append_left out).trans h.perm

/-- The lists get shorter. -/
theorem length_concat_update {i : Fin n} {x : α} {xs : List α} (hi : rest i = x :: xs) :
    (concat (Function.update rest i xs)).length < (concat rest).length := by
  rw [(concat_update_perm hi).length_eq]
  exact Nat.lt_succ_self _

/-- With nothing left the output is the sorted union. -/
theorem Merged.finished (h : Merged all rest out) (hempty : ∀ i, rest i = []) :
    out.Pairwise (· ≤ ·) ∧ out.Perm (concat all) := by
  have hnil : concat rest = [] := by
    refine List.eq_nil_iff_forall_not_mem.mpr fun x hx => ?_
    obtain ⟨i, hi⟩ := mem_concat.mp hx
    rw [hempty i] at hi
    exact List.not_mem_nil hi
  have hperm := h.perm
  rw [hnil, List.append_nil] at hperm
  exact ⟨h.sorted, hperm⟩

end KWayMerge
