import SystemProgramming.UserFs.State

/-!
# The descriptor table and the namespace

An abstract view of the file system that knows nothing of pointers into blocks or of the links of
`file_list`: which file each descriptor slot refers to, the two counters of the table, and the
reference count, ghost flag and name of every file.  The bookkeeping that `ufs_open`, `ufs_close`
and `ufs_delete` do is a handful of operations on this view, and consistency is kept by each.
-/

namespace SystemProgramming.UserFs

structure Entry where
  refs : Int
  isGhost : Bool
  name : List UInt8
  deriving DecidableEq

structure Table where
  slots : List (Option Ptr)
  used : Int
  capacity : Int
  entry : Ptr → Option Entry

structure Table.Consistent (t : Table) : Prop where
  capacity : t.capacity = t.slots.length
  used : t.used = t.slots.countP Option.isSome
  target : ∀ f, some f ∈ t.slots → ∃ e, t.entry f = some e
  refs : ∀ f e, t.entry f = some e → e.refs = t.slots.count (some f)
  names : ∀ f d g e, t.entry f = some d → t.entry g = some e → d.isGhost = false →
    e.isGhost = false → d.name = e.name → f = g
  ghost : ∀ f e, t.entry f = some e → e.isGhost = true → 0 < e.refs

def Table.empty : Table := ⟨[], 0, 0, fun _ => none⟩

/-- Room for `n` more descriptors. -/
def Table.grow (t : Table) (n : Nat) : Table :=
  { t with slots := t.slots ++ List.replicate n none, capacity := t.capacity + n }

/-- A descriptor of `f` in slot `i`. -/
def Table.occupy (t : Table) (i : Nat) (f : Ptr) (e : Entry) : Table :=
  { t with
    slots := t.slots.set i (some f)
    used := t.used + 1
    entry := Function.update t.entry f (some { e with refs := e.refs + 1 }) }

/-- The descriptor of `f` in slot `i` goes. -/
def Table.vacate (t : Table) (i : Nat) (f : Ptr) (e : Entry) : Table :=
  { t with
    slots := t.slots.set i none
    used := t.used - 1
    entry := Function.update t.entry f (some { e with refs := e.refs - 1 }) }

def Table.create (t : Table) (f : Ptr) (name : List UInt8) : Table :=
  { t with entry := Function.update t.entry f (some ⟨0, false, name⟩) }

def Table.hide (t : Table) (f : Ptr) (e : Entry) : Table :=
  { t with entry := Function.update t.entry f (some { e with isGhost := true }) }

def Table.forget (t : Table) (f : Ptr) : Table :=
  { t with entry := Function.update t.entry f none }

variable {t : Table} {f : Ptr} {e : Entry} {i : Nat}

/-! ## Counting slots -/

/-- A slot counts for at most one of its two values. -/
theorem count_set {α : Type} (p : α → Bool) (xs : List α) {i : Nat} {x : α} (y : α)
    (h : xs[i]? = some x) :
    ((xs.set i y).countP p : Int) =
      xs.countP p - (if p x then 1 else 0) + (if p y then 1 else 0) := by
  induction xs generalizing i with
  | nil => simp at h
  | cons z zs ih =>
    cases i with
    | zero =>
      obtain rfl : z = x := by simpa using h
      rw [List.set_cons_zero, List.countP_cons, List.countP_cons]
      split <;> split <;> omega
    | succ i =>
      have hrest := ih (i := i) (by simpa using h)
      rw [List.set_cons_succ, List.countP_cons, List.countP_cons]
      omega

theorem mem_set_none {xs : List (Option Ptr)} {i : Nat} {f : Ptr}
    (h : some f ∈ xs.set i none) : some f ∈ xs := by
  rcases List.mem_or_eq_of_mem_set h with hmem | heq
  · exact hmem
  · cases heq

/-- In a consistent table no descriptor refers to a file whose count is down to zero. -/
theorem Table.Consistent.unreferenced (h : t.Consistent) (he : t.entry f = some e)
    (hrefs : e.refs ≤ 0) : some f ∉ t.slots := by
  have hcount := h.refs f e he
  exact List.count_eq_zero.mp (by omega)

theorem Table.Consistent.used_le (h : t.Consistent) : t.used ≤ t.capacity := by
  rw [h.used, h.capacity]
  exact Int.ofNat_le.mpr List.countP_le_length

/-- As long as the counter is below the capacity there is a free slot. -/
theorem Table.Consistent.exists_free (h : t.Consistent) (hlt : t.used < t.capacity) :
    none ∈ t.slots := by
  by_contra hnone
  have hall : ∀ o ∈ t.slots, o.isSome = true := by
    intro o ho
    cases o with
    | none => exact absurd ho hnone
    | some p => rfl
  have hcount := List.countP_eq_length.mpr hall
  rw [h.used, h.capacity, hcount] at hlt
  exact lt_irrefl _ hlt

/-- At the capacity every slot is taken. -/
theorem Table.Consistent.all_taken (h : t.Consistent) (hge : t.capacity ≤ t.used) :
    t.used = t.slots.length := by
  have hle := h.used_le
  rw [← h.capacity]
  omega

/-! ## Each operation keeps the table consistent -/

theorem Table.Consistent.empty : Table.empty.Consistent where
  capacity := rfl
  used := rfl
  target f hf := by cases hf
  refs f e he := by cases he
  names f d g e hd := by cases hd
  ghost f e he := by cases he

theorem Table.Consistent.grow (h : t.Consistent) (n : Nat) : (t.grow n).Consistent where
  capacity := by
    change t.capacity + n = _
    rw [h.capacity]
    simp [Table.grow]
  used := by
    change t.used = _
    rw [h.used]
    simp [Table.grow, List.countP_replicate]
  target f hf := by
    refine h.target f ?_
    simpa [Table.grow, List.mem_replicate] using hf
  refs f e he := by
    rw [h.refs f e he]
    simp [Table.grow, List.count_replicate]
  names := h.names
  ghost := h.ghost

theorem Table.Consistent.occupy (h : t.Consistent) (hi : t.slots[i]? = some none)
    (he : t.entry f = some e) : (t.occupy i f e).Consistent := by
  have hcount := fun p => count_set p t.slots (some f) hi
  -- every entry is as before up to the reference count of `f`
  have hentry : ∀ g d, (t.occupy i f e).entry g = some d → ∃ d', t.entry g = some d' ∧
      d.isGhost = d'.isGhost ∧ d.name = d'.name ∧
      d.refs = d'.refs + (if g = f then 1 else 0) := by
    intro g d hd
    by_cases hgf : g = f
    · subst hgf
      obtain rfl : { e with refs := e.refs + 1 } = d := by simpa [Table.occupy] using hd
      exact ⟨e, he, rfl, rfl, by simp⟩
    · exact ⟨d, by simpa [Table.occupy, hgf] using hd, rfl, rfl, by simp [hgf]⟩
  refine ⟨?_, ?_, fun g hg => ?_, fun g d hd => ?_, fun g d k d' hd hd' hgd hgd' hn => ?_,
    fun g d hd hghost => ?_⟩
  · rw [Table.occupy, List.length_set]
    exact h.capacity
  · change t.used + 1 = _
    rw [h.used, Table.occupy, hcount]
    simp
  · by_cases hgf : g = f
    · exact ⟨{ e with refs := e.refs + 1 }, by simp [Table.occupy, hgf]⟩
    · rcases List.mem_or_eq_of_mem_set hg with hmem | heq
      · simpa [Table.occupy, hgf] using h.target g hmem
      · exact absurd (Option.some.inj heq) hgf
  · rcases hentry g d hd with ⟨d', hd', -, -, hrefs⟩
    rw [hrefs, h.refs g d' hd', Table.occupy]
    simp only [List.count_eq_countP, hcount]
    by_cases hgf : g = f
    · simp [hgf]
    · simp [hgf, Ne.symm hgf]
  · rcases hentry g d hd with ⟨c, hc, hgc, hnc, -⟩
    rcases hentry k d' hd' with ⟨c', hc', hgc', hnc', -⟩
    exact h.names g c k c' hc hc' (hgc ▸ hgd) (hgc' ▸ hgd') (by rw [← hnc, ← hnc', hn])
  · rcases hentry g d hd with ⟨c, hc, hgc, -, hrefs⟩
    have hpos := h.ghost g c hc (hgc ▸ hghost)
    rw [hrefs]
    split <;> omega

/-- Closing a descriptor; a ghost that this leaves unreferenced has to go with it. -/
theorem Table.Consistent.vacate (h : t.Consistent) (hi : t.slots[i]? = some (some f))
    (he : t.entry f = some e) :
    (if e.refs - 1 ≤ 0 ∧ e.isGhost = true then (t.vacate i f e).forget f
      else t.vacate i f e).Consistent := by
  have hcount := fun p => count_set p t.slots none hi
  -- the references to the file are counted before and after
  have hcountf : ((t.slots.set i none).count (some f) : Int) = e.refs - 1 := by
    rw [h.refs f e he, List.count_eq_countP, hcount]
    simp [List.count_eq_countP]
  -- those to any other file do not change
  have hcountg : ∀ g, g ≠ f → ((t.slots.set i none).count (some g) : Int) =
      t.slots.count (some g) := by
    intro g hgf
    rw [List.count_eq_countP, hcount]
    simp [List.count_eq_countP, Ne.symm hgf]
  have hused : t.used - 1 = ((t.slots.set i none).countP Option.isSome : Int) := by
    rw [h.used, hcount]
    simp
  have hcap : t.capacity = ((t.slots.set i none).length : Int) := by
    rw [List.length_set]
    exact h.capacity
  by_cases hlast : e.refs - 1 ≤ 0 ∧ e.isGhost = true
  · rw [if_pos hlast]
    -- the file goes: what is left was there before
    have hold : ∀ g d, ((t.vacate i f e).forget f).entry g = some d →
        g ≠ f ∧ t.entry g = some d := by
      intro g d hd
      by_cases hgf : g = f
      · simp [Table.forget, hgf] at hd
      · exact ⟨hgf, by simpa [Table.forget, Table.vacate, hgf] using hd⟩
    refine ⟨hcap, hused, fun g hg => ?_, fun g d hd => ?_, fun g d k d' hd hd' => ?_,
      fun g d hd => ?_⟩
    · have hgf : g ≠ f := by
        rintro rfl
        have hpos := List.count_pos_iff.mpr hg
        change 0 < (t.slots.set i none).count (some g) at hpos
        omega
      simpa [Table.forget, Table.vacate, hgf] using h.target g (mem_set_none hg)
    · rw [h.refs g d (hold g d hd).2]
      exact (hcountg g (hold g d hd).1).symm
    · exact h.names g d k d' (hold g d hd).2 (hold k d' hd').2
    · exact h.ghost g d (hold g d hd).2
  · rw [if_neg hlast]
    -- the file stays, with one reference less
    have hentry : ∀ g d, (t.vacate i f e).entry g = some d → ∃ d', t.entry g = some d' ∧
        d.isGhost = d'.isGhost ∧ d.name = d'.name ∧
        (g = f → d.refs = e.refs - 1 ∧ d.isGhost = e.isGhost) ∧ (g ≠ f → d = d') := by
      intro g d hd
      by_cases hgf : g = f
      · subst hgf
        obtain rfl : { e with refs := e.refs - 1 } = d := by simpa [Table.vacate] using hd
        exact ⟨e, he, rfl, rfl, fun _ => ⟨rfl, rfl⟩, fun hne => absurd rfl hne⟩
      · exact ⟨d, by simpa [Table.vacate, hgf] using hd, rfl, rfl, fun heq => absurd heq hgf,
          fun _ => rfl⟩
    refine ⟨hcap, hused, fun g hg => ?_, fun g d hd => ?_, fun g d k d' hd hd' hgd hgd' hn => ?_,
      fun g d hd hghost => ?_⟩
    · by_cases hgf : g = f
      · exact ⟨{ e with refs := e.refs - 1 }, by simp [Table.vacate, hgf]⟩
      · simpa [Table.vacate, hgf] using h.target g (mem_set_none hg)
    · rcases hentry g d hd with ⟨d', hd', -, -, hf, hne⟩
      by_cases hgf : g = f
      · rw [(hf hgf).1, hgf]
        exact hcountf.symm
      · rw [hne hgf, h.refs g d' hd']
        exact (hcountg g hgf).symm
    · rcases hentry g d hd with ⟨c, hc, hgc, hnc, -⟩
      rcases hentry k d' hd' with ⟨c', hc', hgc', hnc', -⟩
      exact h.names g c k c' hc hc' (hgc ▸ hgd) (hgc' ▸ hgd') (by rw [← hnc, ← hnc', hn])
    · rcases hentry g d hd with ⟨d', hd', -, -, hf, hne⟩
      by_cases hgf : g = f
      · have hrefs := (hf hgf).1
        have hge : ¬ e.refs - 1 ≤ 0 := fun hle => hlast ⟨hle, (hf hgf).2 ▸ hghost⟩
        omega
      · rw [hne hgf] at hghost ⊢
        exact h.ghost g d' hd' hghost

theorem Table.Consistent.create (h : t.Consistent) {name : List UInt8} (hnew : t.entry f = none)
    (hname : ∀ g e, t.entry g = some e → e.isGhost = false → e.name ≠ name) :
    (t.create f name).Consistent := by
  -- No descriptor points at a file that is not there, so the new count of zero is right.
  have hslots : some f ∉ t.slots := by
    intro hmem
    rcases h.target f hmem with ⟨e, he⟩
    rw [hnew] at he
    cases he
  have hentry : ∀ g d, (t.create f name).entry g = some d →
      (g = f ∧ d = ⟨0, false, name⟩) ∨ (g ≠ f ∧ t.entry g = some d) := by
    intro g d hd
    by_cases hgf : g = f
    · exact .inl ⟨hgf, by simpa [Table.create, hgf, eq_comm] using hd⟩
    · exact .inr ⟨hgf, by simpa [Table.create, hgf] using hd⟩
  refine ⟨h.capacity, h.used, fun g hg => ?_, fun g d hd => ?_,
    fun g d k d' hd hd' hgd hgd' hn => ?_, fun g d hd hghost => ?_⟩
  · have hgf : g ≠ f := by
      rintro rfl
      exact hslots hg
    simpa [Table.create, hgf] using h.target g hg
  · rcases hentry g d hd with ⟨rfl, rfl⟩ | ⟨-, hold⟩
    · change (0 : Int) = ((t.slots.count (some g) : Nat) : Int)
      rw [List.count_eq_zero.mpr hslots]
      rfl
    · exact h.refs g d hold
  · rcases hentry g d hd with ⟨rfl, rfl⟩ | ⟨-, hold⟩ <;>
      rcases hentry k d' hd' with ⟨rfl, rfl⟩ | ⟨-, hold'⟩
    · rfl
    · exact absurd hn.symm (hname k d' hold' hgd')
    · exact absurd hn (hname g d hold hgd)
    · exact h.names g d k d' hold hold' hgd hgd' hn
  · rcases hentry g d hd with ⟨rfl, rfl⟩ | ⟨-, hold⟩
    · cases hghost
    · exact h.ghost g d hold hghost

theorem Table.Consistent.hide (h : t.Consistent) (he : t.entry f = some e) (hpos : 0 < e.refs) :
    (t.hide f e).Consistent := by
  have hentry : ∀ g d, (t.hide f e).entry g = some d →
      (g = f ∧ d = { e with isGhost := true }) ∨ (g ≠ f ∧ t.entry g = some d) := by
    intro g d hd
    by_cases hgf : g = f
    · exact .inl ⟨hgf, by simpa [Table.hide, hgf, eq_comm] using hd⟩
    · exact .inr ⟨hgf, by simpa [Table.hide, hgf] using hd⟩
  refine ⟨h.capacity, h.used, fun g hg => ?_, fun g d hd => ?_,
    fun g d k d' hd hd' hgd hgd' hn => ?_, fun g d hd hghost => ?_⟩
  · by_cases hgf : g = f
    · exact ⟨{ e with isGhost := true }, by simp [Table.hide, hgf]⟩
    · simpa [Table.hide, hgf] using h.target g hg
  · rcases hentry g d hd with ⟨rfl, rfl⟩ | ⟨-, hold⟩
    · exact h.refs g e he
    · exact h.refs g d hold
  · rcases hentry g d hd with ⟨rfl, rfl⟩ | ⟨-, hold⟩
    · cases hgd
    · rcases hentry k d' hd' with ⟨rfl, rfl⟩ | ⟨-, hold'⟩
      · cases hgd'
      · exact h.names g d k d' hold hold' hgd hgd' hn
  · rcases hentry g d hd with ⟨rfl, rfl⟩ | ⟨-, hold⟩
    · exact hpos
    · exact h.ghost g d hold hghost

theorem Table.Consistent.forget (h : t.Consistent) (hf : some f ∉ t.slots) :
    (t.forget f).Consistent := by
  have hold : ∀ g d, (t.forget f).entry g = some d → t.entry g = some d := by
    intro g d hd
    by_cases hgf : g = f
    · simp [Table.forget, hgf] at hd
    · simpa [Table.forget, hgf] using hd
  refine ⟨h.capacity, h.used, fun g hg => ?_, fun g d hd => h.refs g d (hold g d hd),
    fun g d k d' hd hd' => h.names g d k d' (hold g d hd) (hold k d' hd'),
    fun g d hd => h.ghost g d (hold g d hd)⟩
  have hgf : g ≠ f := by
    rintro rfl
    exact hf hg
  simpa [Table.forget, hgf] using h.target g hg

end SystemProgramming.UserFs
