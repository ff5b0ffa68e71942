import Mathlib

/-!
# Arrays that are rearranged in place

An array is a function on the integers, of which an algorithm looks at a segment only.
`Rearranged lo hi f g` says that `g` has the elements of `f` in another order inside the segment and
the same elements outside.  The partition of Lomuto is described by `Scanned`, what its loop keeps,
and `Partitioned`, what it leaves; two sorted parts around a pivot make a sorted segment.
-/

namespace InPlace

variable {α : Type*} {lo hi lo' hi' i j : Int} {f g k : Int → α}

/-! ## Rearranging -/

def Rearranged (lo hi : Int) (f g : Int → α) : Prop :=
  ∃ π : Equiv.Perm Int, g = f ∘ π ∧ ∀ x, ¬ (lo ≤ x ∧ x ≤ hi) → π x = x

theorem Rearranged.refl (lo hi : Int) (f : Int → α) : Rearranged lo hi f f :=
  ⟨1, rfl, fun _ _ => rfl⟩

theorem Rearranged.trans (h : Rearranged lo hi f g) (h' : Rearranged lo hi g k) :
    Rearranged lo hi f k := by
  obtain ⟨π, rfl, hπ⟩ := h
  obtain ⟨ρ, rfl, hρ⟩ := h'
  refine ⟨π * ρ, rfl, fun x hx => ?_⟩
  rw [Equiv.Perm.mul_apply, hρ x hx, hπ x hx]

theorem Rearranged.mono (h : Rearranged lo hi f g) (hlo : lo' ≤ lo) (hhi : hi ≤ hi') :
    Rearranged lo' hi' f g := by
  obtain ⟨π, rfl, hπ⟩ := h
  refine ⟨π, rfl, fun x hx => hπ x fun hin => hx ?_⟩
  exact ⟨hlo.trans hin.1, hin.2.trans hhi⟩

/-- Elements outside the segment stay where they are. -/
theorem Rearranged.outside (h : Rearranged lo hi f g) {x : Int} (hx : ¬ (lo ≤ x ∧ x ≤ hi)) :
    g x = f x := by
  obtain ⟨π, rfl, hπ⟩ := h
  rw [Function.comp_apply, hπ x hx]

/-- Elements inside the segment come from inside. -/
theorem Rearranged.inside (h : Rearranged lo hi f g) {x : Int} (hx : lo ≤ x ∧ x ≤ hi) :
    ∃ y, (lo ≤ y ∧ y ≤ hi) ∧ g x = f y := by
  obtain ⟨π, rfl, hπ⟩ := h
  refine ⟨π x, ?_, rfl⟩
  by_contra hout
  -- a point outside is only hit by itself
  have heq : π x = x := π.injective (hπ (π x) hout)
  rw [heq] at hout
  exact hout hx

theorem rearranged_swap (f : Int → α) (hi' : lo ≤ i ∧ i ≤ hi) (hj : lo ≤ j ∧ j ≤ hi) :
    Rearranged lo hi f (f ∘ Equiv.swap i j) := by
  refine ⟨Equiv.swap i j, rfl, fun x hx => Equiv.swap_apply_of_ne_of_ne ?_ ?_⟩
  · rintro rfl
    exact hx hi'
  · rintro rfl
    exact hx hj

/-- The three assignments of a swap. -/
theorem update_update_eq_comp_swap (f : Int → α) (i j : Int) :
    Function.update (Function.update f i (f j)) j (f i) = f ∘ Equiv.swap i j := by
  funext x
  by_cases hxj : x = j
  · subst hxj
    rw [Function.update_self, Function.comp_apply, Equiv.swap_apply_right]
  · rw [Function.update_of_ne hxj]
    by_cases hxi : x = i
    · subst hxi
      rw [Function.update_self, Function.comp_apply, Equiv.swap_apply_left]
    · rw [Function.update_of_ne hxi, Function.comp_apply, Equiv.swap_apply_of_ne_of_ne hxi hxj]

/-! ## The first elements as a list -/

def elements (n : Nat) (f : Int → α) : List α := (List.range n).map fun x : Nat => f x

@[simp] theorem length_elements (n : Nat) (f : Int → α) : (elements n f).length = n := by
  rw [elements, List.length_map, List.length_range]

theorem elements_perm {n : Nat} (h : Rearranged 0 (n - 1) f g) :
    (elements n g).Perm (elements n f) := by
  obtain ⟨π, rfl, hπ⟩ := h
  -- The permutation moves nothing into or out of the range.
  have hmem : ∀ x : Int, 0 ≤ π x ∧ π x ≤ n - 1 ↔ 0 ≤ x ∧ x ≤ n - 1 := by
    intro x
    constructor
    · intro hin
      by_contra hout
      exact hout (hπ x hout ▸ hin)
    · intro hin
      by_contra hout
      have heq : π x = x := π.injective (hπ (π x) hout)
      rw [heq] at hout
      exact hout hin
  have hinj : Function.Injective fun x : Nat => (x : Int) := Nat.cast_injective
  have hperm : ((List.range n).map fun x : Nat => π x).Perm
      ((List.range n).map fun x : Nat => (x : Int)) := by
    refine (List.perm_ext_iff_of_nodup ?_ ?_).mpr fun y => ?_
    · exact List.nodup_range.map (π.injective.comp hinj)
    · exact List.nodup_range.map hinj
    · simp only [List.mem_map, List.mem_range]
      constructor
      · rintro ⟨x, hx, rfl⟩
        have hin := (hmem x).mpr ⟨by omega, by omega⟩
        exact ⟨(π x).toNat, by omega, by omega⟩
      · rintro ⟨x, hx, rfl⟩
        have hback := (hmem (π.symm x)).mp (by rw [Equiv.apply_symm_apply]; omega)
        refine ⟨(π.symm x).toNat, by omega, ?_⟩
        rw [Int.toNat_of_nonneg hback.1, Equiv.apply_symm_apply]
  have hmap := hperm.map f
  rw [List.map_map, List.map_map] at hmap
  exact hmap

/-! ## Sorting -/

variable [LinearOrder α]

def SortedOn (lo hi : Int) (f : Int → α) : Prop :=
  ∀ x y, lo ≤ x → x ≤ y → y ≤ hi → f x ≤ f y

theorem sortedOn_of_le (f : Int → α) (h : hi ≤ lo) : SortedOn lo hi f := by
  intro x y hx hxy hy
  obtain rfl : x = y := by omega
  exact le_refl _

theorem pairwise_elements {n : Nat} (h : SortedOn 0 (n - 1) f) :
    (elements n f).Pairwise (· ≤ ·) := by
  rw [elements, List.pairwise_map]
  refine List.pairwise_lt_range.imp_of_mem fun hx hy hlt => h _ _ ?_ ?_ ?_
  · omega
  · omega
  · rw [List.mem_range] at hy
    omega

/-- The loop of the partition: up to `i` the elements are below the pivot, from there up to `j` they
are not, and the pivot is the last element. -/
structure Scanned (lo hi i j : Int) (pivot : α) (f : Int → α) : Prop where
  small : ∀ x, lo ≤ x → x ≤ i → f x < pivot
  large : ∀ x, i < x → x < j → pivot ≤ f x
  last : f hi = pivot

theorem scanned_start (lo hi : Int) (f : Int → α) : Scanned lo hi (lo - 1) lo (f hi) f :=
  ⟨fun x _ _ => by omega, fun x _ _ => by omega, rfl⟩

/-- The next element is not below the pivot. -/
theorem Scanned.skip {pivot : α} (h : Scanned lo hi i j pivot f) (hj : pivot ≤ f j) :
    Scanned lo hi i (j + 1) pivot f := by
  refine ⟨h.small, fun x hx hxj => ?_, h.last⟩
  rcases Int.lt_add_one_iff.mp hxj |>.lt_or_eq with hlt | rfl
  · exact h.large x hx hlt
  · exact hj

/-- The next element is below the pivot and is swapped to the front. -/
theorem Scanned.swap {pivot : α} (h : Scanned lo hi i j pivot f) (hij : i < j) (hjh : j < hi)
    (hj : f j < pivot) : Scanned lo hi (i + 1) (j + 1) pivot (f ∘ Equiv.swap (i + 1) j) := by
  refine ⟨fun x hx hxi => ?_, fun x hx hxj => ?_, ?_⟩
  · rcases hxi.lt_or_eq with hlt | rfl
    · rw [Function.comp_apply, Equiv.swap_apply_of_ne_of_ne (by omega) (by omega)]
      exact h.small x hx (by omega)
    · rw [Function.comp_apply, Equiv.swap_apply_left]
      exact hj
  · by_cases heq : x = j
    · -- the element that made room
      rw [heq, Function.comp_apply, Equiv.swap_apply_right]
      exact h.large (i + 1) (by omega) (by omega)
    · rw [Function.comp_apply, Equiv.swap_apply_of_ne_of_ne (by omega) heq]
      exact h.large x (by omega) (by omega)
  · rw [Function.comp_apply, Equiv.swap_apply_of_ne_of_ne (by omega) (by omega)]
    exact h.last

/-- The element at `p` is not below those before it and not above those after it. -/
structure Partitioned (lo hi p : Int) (f : Int → α) : Prop where
  before : ∀ x, lo ≤ x → x < p → f x ≤ f p
  after : ∀ x, p < x → x ≤ hi → f p ≤ f x

/-- The last swap brings the pivot between the two parts. -/
theorem Scanned.partitioned {pivot : α} (h : Scanned lo hi i hi pivot f) (hi' : i < hi) :
    Partitioned lo hi (i + 1) (f ∘ Equiv.swap (i + 1) hi) := by
  have hp : (f ∘ Equiv.swap (i + 1) hi) (i + 1) = pivot := by
    rw [Function.comp_apply, Equiv.swap_apply_left, h.last]
  refine ⟨fun x hx hxp => ?_, fun x hx hxh => ?_⟩
  · rw [hp, Function.comp_apply, Equiv.swap_apply_of_ne_of_ne (by omega) (by omega)]
    exact (h.small x hx (by omega)).le
  · rw [hp, Function.comp_apply]
    by_cases heq : x = hi
    · rw [heq, Equiv.swap_apply_right]
      exact h.large (i + 1) (by omega) (by omega)
    · rw [Equiv.swap_apply_of_ne_of_ne (by omega) heq]
      exact h.large x (by omega) (by omega)

/-- Sorting the parts on both sides of the pivot sorts the segment. -/
theorem Partitioned.sortedOn {p : Int} (h : Partitioned lo hi p f) (hp : lo ≤ p ∧ p ≤ hi)
    (hfg : Rearranged lo (p - 1) f g) (hg : SortedOn lo (p - 1) g)
    (hgk : Rearranged (p + 1) hi g k) (hk : SortedOn (p + 1) hi k) : SortedOn lo hi k := by
  -- Neither half moves the pivot, nor anything over to its other side.
  have hpivot : k p = f p := by
    rw [hgk.outside (by omega), hfg.outside (by omega)]
  have hleft : ∀ x, x < p → k x = g x := fun x hx => hgk.outside (by omega)
  have hbefore : ∀ x, lo ≤ x → x < p → k x ≤ f p := by
    intro x hx hxp
    obtain ⟨y, hy, heq⟩ := hfg.inside ⟨hx, by omega⟩
    rw [hleft x hxp, heq]
    exact h.before y hy.1 (by omega)
  have hafter : ∀ x, p < x → x ≤ hi → f p ≤ k x := by
    intro x hx hxh
    obtain ⟨y, hy, heq⟩ := hgk.inside ⟨by omega, hxh⟩
    rw [heq, hfg.outside (by omega)]
    exact h.after y (by omega) hy.2
  intro x y hx hxy hy
  -- Where the two indices lie: left of the pivot, at it, or right of it.
  rcases lt_trichotomy y p with hyp | rfl | hyp
  · rw [hleft x (by omega), hleft y hyp]
    exact hg x y hx hxy (by omega)
  · rcases hxy.lt_or_eq with hlt | rfl
    · rw [hpivot]
      exact hbefore x hx hlt
    · exact le_refl _
  · rcases lt_trichotomy x p with hxp | rfl | hxp
    · exact (hbefore x hx hxp).trans (hafter y hyp hy)
    · rw [hpivot]
      exact hafter y hyp hy
    · exact hk x y (by omega) hxy hy

end InPlace
