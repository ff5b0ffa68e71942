import Mathlib

/-!
# Doubly linked lists in a heap

A heap of cells is seen through its two link functions: `nx p` and `pv p` are the `next` and
`prev` pointers stored at address `p`.  `Seg nx pv pr hd xs la nd` says that following `nx` from
`hd` visits exactly the addresses `xs` and then reaches `nd`, that every `prev` pointer names the
cell before (`pr` for the first one), and that `la` is the last cell visited.

The operations are stated as facts about two pairs of link functions that agree where the
operation does not write, so that a heap update of any shape can use them.
-/

namespace DoublyLinked

variable {α : Type*} {nx pv nx' pv' : α → Option α}

def Seg (nx pv : α → Option α) : Option α → Option α → List α → Option α → Option α → Prop
  | pr, hd, [], la, nd => hd = nd ∧ la = pr
  | pr, hd, x :: xs, la, nd => hd = some x ∧ pv x = pr ∧ Seg nx pv (some x) (nx x) xs la nd

/-- A whole list: no cell before the first and none after the last. -/
abbrev Linked (nx pv : α → Option α) (hd : Option α) (xs : List α) (la : Option α) : Prop :=
  Seg nx pv none hd xs la none

@[simp] theorem seg_nil {pr hd la nd : Option α} :
    Seg nx pv pr hd [] la nd ↔ hd = nd ∧ la = pr := Iff.rfl

@[simp] theorem seg_cons {pr hd la nd : Option α} {x : α} {xs : List α} :
    Seg nx pv pr hd (x :: xs) la nd ↔
      hd = some x ∧ pv x = pr ∧ Seg nx pv (some x) (nx x) xs la nd := Iff.rfl

theorem seg_append {pr hd la nd : Option α} {xs ys : List α} :
    Seg nx pv pr hd (xs ++ ys) la nd ↔
      ∃ l m, Seg nx pv pr hd xs l m ∧ Seg nx pv l m ys la nd := by
  induction xs generalizing pr hd with
  | nil => simp
  | cons x xs ih => simp only [List.cons_append, seg_cons, ih]; aesop

/-- Links outside the visited cells do not matter. -/
theorem Seg.congr {pr hd la nd : Option α} {xs : List α} (h : Seg nx pv pr hd xs la nd)
    (hnx : ∀ x ∈ xs, nx' x = nx x) (hpv : ∀ x ∈ xs, pv' x = pv x) :
    Seg nx' pv' pr hd xs la nd := by
  induction xs generalizing pr hd with
  | nil => exact h
  | cons x xs ih =>
    obtain ⟨h1, h2, h3⟩ := h
    refine ⟨h1, by rw [hpv x (by simp), h2], ?_⟩
    rw [hnx x (by simp)]
    exact ih h3 (fun y hy => hnx y (by simp [hy])) (fun y hy => hpv y (by simp [hy]))

/-- The visited cells are determined by the head. -/
theorem Seg.unique {pr pr' hd la la' : Option α} {xs ys : List α}
    (h : Seg nx pv pr hd xs la none) (h' : Seg nx pv' pr' hd ys la' none) : xs = ys := by
  induction xs generalizing pr pr' hd ys with
  | nil => cases ys <;> simp_all
  | cons x xs ih =>
    cases ys with
    | nil => simp_all
    | cons y ys =>
      obtain ⟨hx, -, h⟩ := h
      obtain ⟨hy, -, h'⟩ := h'
      obtain rfl : x = y := by simpa [hx] using hy
      rw [ih h h']

/-- A list that ends visits no cell twice. -/
theorem Seg.nodup {pr hd la : Option α} {xs : List α}
    (h : Seg nx pv pr hd xs la none) : xs.Nodup := by
  induction xs generalizing pr hd with
  | nil => exact List.nodup_nil
  | cons x xs ih =>
    obtain ⟨-, -, ht⟩ := h
    refine List.nodup_cons.mpr ⟨fun hmem => ?_, ih ht⟩
    -- a second visit to `x` would make the list a proper part of itself
    obtain ⟨as, bs, rfl⟩ := List.append_of_mem hmem
    obtain ⟨l, m, -, hxb⟩ := seg_append.mp ht
    have hlen := congrArg List.length (Seg.unique ht hxb.2.2)
    simp at hlen
    omega

/-- The last pointer is the last visited cell. -/
theorem Seg.last_eq {pr hd la nd : Option α} {xs : List α} (h : Seg nx pv pr hd xs la nd) :
    la = xs.getLast?.or pr := by
  induction xs generalizing pr hd with
  | nil => simpa using h.2
  | cons x xs ih => rw [ih h.2.2]; cases xs <;> simp [List.getLast?_cons]

theorem Linked.head_eq {hd la : Option α} {xs : List α} (h : Linked nx pv hd xs la) :
    hd = xs.head? := by
  cases xs with
  | nil => exact h.1
  | cons x xs => exact h.1

theorem Linked.eq_nil_iff_head {hd la : Option α} {xs : List α} (h : Linked nx pv hd xs la) :
    hd = none ↔ xs = [] := by
  rw [h.head_eq]; simp

theorem Linked.eq_nil_iff_last {hd la : Option α} {xs : List α} (h : Linked nx pv hd xs la) :
    la = none ↔ xs = [] := by
  rw [Seg.last_eq h]; simp

/-- Following `next` `k` times from the head reaches the `k`-th cell, or the end. -/
theorem Seg.iterate_next {pr hd la : Option α} {xs : List α}
    (h : Seg nx pv pr hd xs la none) (k : Nat) (hk : k ≤ xs.length) :
    (fun p => p.bind nx)^[k] hd = xs[k]? := by
  induction k generalizing pr hd xs with
  | zero => cases xs <;> simp_all
  | succ k ih =>
    cases xs with
    | nil => simp at hk
    | cons x xs =>
      obtain ⟨rfl, -, ht⟩ := h
      simpa using ih ht (by simpa using hk)

theorem iterate_bind_none (k : Nat) : (fun p : Option α => p.bind nx)^[k] none = none := by
  induction k with
  | zero => rfl
  | succ k ih => rw [Function.iterate_succ_apply', ih, Option.bind_none]

/-- The cells of a list are those met on the way along `next` from its head. -/
theorem Linked.mem_iff {hd la : Option α} {xs : List α} (h : Linked nx pv hd xs la) (x : α) :
    x ∈ xs ↔ ∃ k, (fun p => p.bind nx)^[k] hd = some x := by
  constructor
  · intro hx
    rcases List.getElem?_of_mem hx with ⟨k, hk⟩
    have hlt := (List.getElem?_eq_some_iff.mp hk).1
    exact ⟨k, by rw [Seg.iterate_next h k hlt.le, hk]⟩
  · rintro ⟨k, hk⟩
    rcases Nat.lt_or_ge xs.length k with hlt | hle
    · -- past the end there is nothing
      obtain ⟨j, rfl⟩ := Nat.exists_eq_add_of_le hlt.le
      rw [Nat.add_comm, Function.iterate_add_apply, Seg.iterate_next h _ (le_refl _),
        List.getElem?_eq_none (le_refl _), iterate_bind_none] at hk
      cases hk
    · rw [Seg.iterate_next h k hle] at hk
      exact List.mem_of_getElem? hk

/-! ## The `prev` links mirror the `next` links -/

theorem Seg.prev_of_next {pr hd la nd : Option α} {xs : List α} (h : Seg nx pv pr hd xs la nd)
    {p q : α} (hp : p ∈ xs) (hn : nx p = some q) (hnd : nd ≠ some q) :
    q ∈ xs ∧ pv q = some p := by
  obtain ⟨as, bs, rfl⟩ := List.append_of_mem hp
  obtain ⟨l, m, -, -, -, hbs⟩ := seg_append.mp h
  rw [hn] at hbs
  cases bs with
  | nil => exact absurd hbs.1.symm hnd
  | cons b bs =>
    obtain ⟨hb, hpb, -⟩ := hbs
    obtain rfl : q = b := by simpa using hb
    exact ⟨by simp, hpb⟩

theorem Seg.next_of_prev {pr hd la nd : Option α} {xs : List α} (h : Seg nx pv pr hd xs la nd)
    {p q : α} (hq : q ∈ xs) (hp : pv q = some p) (hpr : pr ≠ some p) :
    p ∈ xs ∧ nx p = some q := by
  obtain ⟨as, bs, rfl⟩ := List.append_of_mem hq
  obtain ⟨l, m, has, rfl, hl, -⟩ := seg_append.mp h
  rcases List.eq_nil_or_concat' as with rfl | ⟨zs, z, rfl⟩
  · exact absurd (has.2.symm.trans (hl.symm.trans hp)) hpr
  · obtain ⟨l', m', -, -, -, hz, hlz⟩ := seg_append.mp has
    obtain rfl : z = p := by rw [← hl, hp] at hlz; simpa using hlz.symm
    exact ⟨by simp, hz⟩

/-! ## Operations -/

/-- Inserting a cell before the head. -/
theorem Linked.prepend {hd la : Option α} {x : α} {xs : List α} (h : Linked nx pv hd xs la)
    (hx : nx' x = hd) (hpx : pv' x = none) (hnx : ∀ y ∈ xs, nx' y = nx y)
    (hpv : ∀ y ∈ xs.tail, pv' y = pv y) (hhd : ∀ y, hd = some y → pv' y = some x) :
    Linked nx' pv' (some x) (x :: xs) (la.or (some x)) := by
  refine ⟨rfl, hpx, ?_⟩
  rw [hx]
  cases xs with
  | nil => obtain ⟨rfl, rfl⟩ := h; exact ⟨rfl, rfl⟩
  | cons y ys =>
    obtain ⟨rfl, -, ht⟩ := h
    have hla : la.or (some x) = la := by
      rw [Seg.last_eq ht]
      cases ys.getLast? <;> rfl
    refine ⟨rfl, hhd y rfl, ?_⟩
    rw [hnx y (by simp), hla]
    exact Seg.congr ht (fun z hz => hnx z (by simp [hz])) (fun z hz => hpv z (by simpa using hz))

/-- Inserting a cell after the last one. -/
theorem Linked.append {hd la : Option α} {x : α} {xs : List α} (h : Linked nx pv hd xs la)
    (hx : nx' x = none) (hpx : pv' x = la) (hpv : ∀ y ∈ xs, pv' y = pv y)
    (hnx : ∀ y ∈ xs, some y ≠ la → nx' y = nx y) (hla : ∀ y, la = some y → nx' y = some x) :
    Linked nx' pv' (hd.or (some x)) (xs ++ [x]) (some x) := by
  rcases List.eq_nil_or_concat' xs with rfl | ⟨ys, l, rfl⟩
  · obtain ⟨rfl, rfl⟩ := h
    exact ⟨rfl, hpx, by simp [hx]⟩
  · have hnodup := Seg.nodup h
    obtain ⟨m, n, hys, rfl, hm, hn, rfl⟩ := seg_append.mp h
    have hhd : hd.or (some x) = hd := by
      cases ys with
      | nil => obtain ⟨rfl, -⟩ := hys; rfl
      | cons y ys => obtain ⟨rfl, -⟩ := hys; rfl
    rw [hhd, List.append_assoc]
    refine seg_append.mpr ⟨m, some l, Seg.congr hys ?_ (fun y hy => hpv y (by simp [hy])),
      rfl, by rw [hpv l (by simp), hm], by rw [hla l rfl], hpx, by simp [hx]⟩
    intro y hy
    refine hnx y (by simp [hy]) fun hyl => ?_
    obtain rfl : y = l := by simpa using hyl
    exact (List.disjoint_of_nodup_append hnodup hy (by simp)).elim

/-- Cutting the last cell off. -/
theorem Linked.dropLast {hd : Option α} {l : α} {ys : List α}
    (h : Linked nx pv hd (ys ++ [l]) (some l))
    (hpv : ∀ y ∈ ys, pv' y = pv y) (hnx : ∀ y ∈ ys, some y ≠ pv l → nx' y = nx y)
    (hlast : ∀ y, pv l = some y → nx' y = none) :
    Linked nx' pv' (if ys = [] then none else hd) ys (pv l) := by
  have hnodup := Seg.nodup h
  obtain ⟨m, n, hys, hn, hm, -⟩ := seg_append.mp h
  subst hm
  rcases List.eq_nil_or_concat' ys with rfl | ⟨zs, z, rfl⟩
  · exact ⟨rfl, hys.2⟩
  · obtain ⟨m', n', hzs, rfl, hz, -, hml⟩ := seg_append.mp hys
    rw [if_neg (by simp)]
    refine seg_append.mpr ⟨m', some z, Seg.congr hzs ?_ (fun y hy => hpv y (by simp [hy])),
      rfl, by rw [hpv z (by simp), hz], by rw [hlast z hml], hml⟩
    intro y hy
    refine hnx y (by simp [hy]) fun hyz => ?_
    obtain rfl : y = z := by simpa [hml] using hyz
    have hd := (List.nodup_append.mp hnodup).1
    exact (List.disjoint_of_nodup_append hd hy (by simp)).elim

/-- Taking a cell out of the middle, the head or the tail. -/
theorem Linked.unlink {hd la : Option α} {x : α} {as bs : List α}
    (h : Linked nx pv hd (as ++ x :: bs) la)
    (hnx : ∀ y ∈ as, some y ≠ pv x → nx' y = nx y) (hpx : ∀ y, pv x = some y → nx' y = nx x)
    (hnb : ∀ y ∈ bs, nx' y = nx y) (hpa : ∀ y ∈ as, pv' y = pv y)
    (hpb : ∀ y ∈ bs, some y ≠ nx x → pv' y = pv y) (hnn : ∀ y, nx x = some y → pv' y = pv x) :
    Linked nx' pv' (if as = [] then nx x else hd) (as ++ bs)
      (if bs = [] then pv x else la) := by
  have hnodup := Seg.nodup h
  obtain ⟨m, n, has, rfl, rfl, hbs⟩ := seg_append.mp h
  -- The part behind `x`, whose head now looks back past `x`.
  have htail : Seg nx' pv' (pv x) (nx x) bs (if bs = [] then pv x else la) none := by
    cases bs with
    | nil => exact ⟨hbs.1, rfl⟩
    | cons b bs =>
      obtain ⟨hb, -, hbs⟩ := hbs
      have hbnd : (b :: bs).Nodup := (List.nodup_cons.mp (List.nodup_append.mp hnodup).2.1).2
      refine ⟨hb, hnn b hb, ?_⟩
      rw [hnb b (by simp), if_neg (by simp)]
      refine Seg.congr hbs (fun y hy => hnb y (by simp [hy])) fun y hy => ?_
      refine hpb y (by simp [hy]) fun hyb => ?_
      obtain rfl : y = b := by simpa [hb] using hyb
      exact (List.nodup_cons.mp hbnd).1 hy
  -- The part before `x`: its last node, if there is one, now points past `x`.
  rcases List.eq_nil_or_concat' as with rfl | ⟨zs, z, rfl⟩
  · obtain ⟨rfl, hpr⟩ := has
    rw [if_pos rfl]
    exact hpr ▸ htail
  · obtain ⟨m', n', hzs, rfl, hz, hnz, hml⟩ := seg_append.mp has
    rw [if_neg (by simp)]
    refine seg_append.mpr ⟨pv x, nx x, seg_append.mpr ⟨m', some z, Seg.congr hzs ?_ ?_, rfl,
      by rw [hpa z (by simp), hz], by rw [hpx z hml], hml⟩, htail⟩
    · intro y hy
      refine hnx y (by simp [hy]) fun hyz => ?_
      obtain rfl : y = z := by simpa [hml] using hyz
      have hd := (List.nodup_append.mp (List.nodup_append.mp hnodup).1).2.2
      exact hd y hy y (by simp) rfl
    · exact fun y hy => hpa y (by simp [hy])

end DoublyLinked
