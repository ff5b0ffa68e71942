import SystemProgramming.FileSort.Program

/-!
# What the coroutines promise each other

Every coroutine keeps the invariant of the shared memory, and leaves alone what another one has
taken: its indices, the arrays at these indices, and what is in them.  What is left to it is to take
the next index, to make an array, and to rearrange an array of its own.
-/

namespace SystemProgramming.FileSort

open Cooperative InPlace

/-! ## The invariant -/

/-- The indices below `cur_unsorted` were taken, each once; every array is at one index; and no access
was outside its array. -/
structure Memory.Inv (paths : List String) (m : Memory) : Prop where
  paths : m.paths = paths
  nonneg : 0 ≤ m.curUnsorted
  le_count : m.curUnsorted ≤ m.count
  claims : m.claims.map Prod.snd = (List.range m.curUnsorted.toNat).map Int.ofNat
  inBounds : m.outOfBounds = false
  notCut : m.loopCut = false
  allocated : ∀ j o, m.filesData j = some o → o < m.allocated
  injective : ∀ j j' o, m.filesData j = some o → m.filesData j' = some o → j = j'

/-- The memory has grown, and the context `p` has what it had. -/
structure Grows (p : Nat) (s t : Memory) : Prop where
  curUnsorted : s.curUnsorted ≤ t.curUnsorted
  claims : ∀ j, (p, j) ∈ t.claims ↔ (p, j) ∈ s.claims
  filesData : ∀ j, (p, j) ∈ s.claims → t.filesData j = s.filesData j

/-- The context has the same in its arrays, too. -/
structure Keeps (p : Nat) (s t : Memory) : Prop extends Grows p s t where
  files : ∀ j o, (p, j) ∈ s.claims → s.filesData j = some o → t.files o = s.files o

/-- The same in its arrays but `arr`. -/
structure Works (p : Nat) (arr : FileId) (s t : Memory) : Prop extends Grows p s t where
  others : ∀ j o, (p, j) ∈ s.claims → s.filesData j = some o → o ≠ arr → t.files o = s.files o
  size : (t.files arr).size = (s.files arr).size

section

variable {paths : List String} {p q : Nat} {arr : FileId} {c : Int} {s t u : Memory}

theorem Memory.Inv.mem_claims (h : s.Inv paths) (j : Int) :
    (∃ p, (p, j) ∈ s.claims) ↔ 0 ≤ j ∧ j < s.curUnsorted := by
  have hmem : (∃ p, (p, j) ∈ s.claims) ↔ j ∈ s.claims.map Prod.snd := by
    rw [List.mem_map]
    constructor
    · rintro ⟨p, hp⟩
      exact ⟨(p, j), hp, rfl⟩
    · rintro ⟨⟨p, _⟩, hp, rfl⟩
      exact ⟨p, hp⟩
  rw [hmem, h.claims, List.mem_map]
  constructor
  · rintro ⟨n, hn, rfl⟩
    rw [List.mem_range] at hn
    exact ⟨Int.natCast_nonneg n, (Int.lt_toNat).mp hn⟩
  · rintro ⟨hj, hlt⟩
    refine ⟨j.toNat, List.mem_range.mpr ?_, Int.toNat_of_nonneg hj⟩
    omega

theorem Memory.Inv.nodup (h : s.Inv paths) : (s.claims.map Prod.snd).Nodup := by
  rw [h.claims]
  exact List.nodup_range.map Int.ofNat_injective

/-- An index was taken by one context. -/
theorem Memory.Inv.claim_unique (h : s.Inv paths) (hp : (p, c) ∈ s.claims)
    (hq : (q, c) ∈ s.claims) : p = q := by
  have heq : (p, c) = (q, c) := List.inj_on_of_nodup_map h.nodup hp hq rfl
  exact congrArg Prod.fst heq

theorem Grows.refl (p : Nat) (s : Memory) : Grows p s s :=
  ⟨le_refl _, fun _ => Iff.rfl, fun _ _ => rfl⟩

theorem Grows.trans (h : Grows p s t) (h' : Grows p t u) : Grows p s u where
  curUnsorted := h.curUnsorted.trans h'.curUnsorted
  claims j := (h'.claims j).trans (h.claims j)
  filesData j hj := (h'.filesData j ((h.claims j).mpr hj)).trans (h.filesData j hj)

theorem Keeps.refl (p : Nat) (s : Memory) : Keeps p s s := ⟨.refl p s, fun _ _ _ _ => rfl⟩

theorem Keeps.trans (h : Keeps p s t) (h' : Keeps p t u) : Keeps p s u where
  toGrows := h.toGrows.trans h'.toGrows
  files j o hj ho := by
    have ho' : t.filesData j = some o := (h.filesData j hj).trans ho
    exact (h'.files j o ((h.claims j).mpr hj) ho').trans (h.files j o hj ho)

theorem Works.refl (p : Nat) (arr : FileId) (s : Memory) : Works p arr s s :=
  ⟨.refl p s, fun _ _ _ _ _ => rfl, rfl⟩

theorem Works.trans (h : Works p arr s t) (h' : Works p arr t u) : Works p arr s u where
  toGrows := h.toGrows.trans h'.toGrows
  others j o hj ho hne := by
    have ho' : t.filesData j = some o := (h.filesData j hj).trans ho
    exact (h'.others j o ((h.claims j).mpr hj) ho' hne).trans (h.others j o hj ho hne)
  size := h'.size.trans h.size

end

/-! ## The contract -/

/-- What a coroutine relies on, as far as the invariant holds. -/
def rely (paths : List String) (p : Nat) (s t : Memory) : Prop :=
  s.Inv paths → t.Inv paths ∧ Keeps p s t

/-- What it promises. -/
def guar (paths : List String) (p : Nat) (s t : Memory) : Prop :=
  s.Inv paths → t.Inv paths ∧ ∀ q, q ≠ p → Keeps q s t

/-- The array at the index has the numbers of its file in order. -/
def Sorted (disk : String → List Int) (m : Memory) (j : Int) : Prop :=
  ∃ path o, m.paths[j.toNat]? = some path ∧ m.filesData j = some o ∧
    (m.files o).contents.Pairwise (· ≤ ·) ∧ (m.files o).contents.Perm (disk path)

/-- Everything that the context has taken is sorted. -/
def AllSorted (disk : String → List Int) (p : Nat) (m : Memory) : Prop :=
  ∀ j, (p, j) ∈ m.claims → Sorted disk m j

section

variable {paths : List String} {disk : String → List Int} {p q : Nat} {arr : FileId} {c : Int}
  {s t u : Memory}

theorem Sorted.congr {j : Int} (h : Sorted disk s j) (hpaths : t.paths = s.paths)
    (hdata : t.filesData j = s.filesData j)
    (hfiles : ∀ o, s.filesData j = some o → t.files o = s.files o) : Sorted disk t j := by
  obtain ⟨path, o, hpath, ho, hsorted, hperm⟩ := h
  refine ⟨path, o, hpaths ▸ hpath, hdata.trans ho, ?_, ?_⟩
  · rw [hfiles o ho]
    exact hsorted
  · rw [hfiles o ho]
    exact hperm

theorem AllSorted.keeps (h : AllSorted disk p s) (hs : s.Inv paths) (ht : t.Inv paths)
    (hkeeps : Keeps p s t) : AllSorted disk p t := by
  intro j hj
  have hj' := (hkeeps.claims j).mp hj
  exact (h j hj').congr (ht.paths.trans hs.paths.symm) (hkeeps.filesData j hj')
    fun o => hkeeps.files j o hj'

/-- The contract of the coroutines: when it returns no file is left, and what it has taken is
sorted. -/
def contract (paths : List String) (disk : String → List Int) : Contract Memory where
  rely := rely paths
  guar := guar paths
  post p _ m := m.Inv paths ∧ m.count ≤ m.curUnsorted ∧ AllSorted disk p m
  rely_refl p s hs := ⟨hs, .refl p s⟩
  rely_trans p s t u h h' hs := by
    obtain ⟨ht, hst⟩ := h hs
    obtain ⟨hu, htu⟩ := h' ht
    exact ⟨hu, hst.trans htu⟩
  rely_of_guar i j s t hij h hs := by
    obtain ⟨ht, hkeeps⟩ := h hs
    exact ⟨ht, hkeeps j hij.symm⟩
  post_stable p v s t h hrely := by
    obtain ⟨hs, hcount, hsorted⟩ := h
    obtain ⟨ht, hkeeps⟩ := hrely hs
    refine ⟨ht, ?_, hsorted.keeps hs ht hkeeps⟩
    have hsame : t.count = s.count := by rw [Memory.count, Memory.count, ht.paths, hs.paths]
    rw [hsame]
    exact hcount.trans hkeeps.curUnsorted

/-! ## What the coroutines do -/

/-- Only times and marks have changed. -/
structure SameStorage (s t : Memory) : Prop where
  paths : t.paths = s.paths
  filesData : t.filesData = s.filesData
  curUnsorted : t.curUnsorted = s.curUnsorted
  files : t.files = s.files
  allocated : t.allocated = s.allocated
  outOfBounds : t.outOfBounds = s.outOfBounds
  loopCut : t.loopCut = s.loopCut
  claims : t.claims = s.claims

theorem SameStorage.inv (h : SameStorage s t) (hs : s.Inv paths) : t.Inv paths where
  paths := h.paths.trans hs.paths
  nonneg := h.curUnsorted ▸ hs.nonneg
  le_count := by
    rw [Memory.count, h.curUnsorted, h.paths]
    exact hs.le_count
  claims := by
    rw [h.claims, h.curUnsorted]
    exact hs.claims
  inBounds := h.outOfBounds.trans hs.inBounds
  notCut := h.loopCut.trans hs.notCut
  allocated := by
    rw [h.filesData, h.allocated]
    exact hs.allocated
  injective := by
    rw [h.filesData]
    exact hs.injective

theorem SameStorage.keeps (h : SameStorage s t) (q : Nat) : Keeps q s t where
  curUnsorted := h.curUnsorted.ge
  claims j := by rw [h.claims]
  filesData j _ := by rw [h.filesData]
  files j o _ _ := by rw [h.files]

theorem SameStorage.guar (h : SameStorage s t) : guar paths p s t :=
  fun hs => ⟨h.inv hs, fun q _ => h.keeps q⟩

/-- The context works on its array. -/
structure Owns (paths : List String) (p : Nat) (c : Int) (arr : FileId) (m : Memory) : Prop where
  inv : m.Inv paths
  claimed : (p, c) ∈ m.claims
  at_index : m.filesData c = some arr

theorem Owns.of_grows (h : Owns paths p c arr s) (ht : t.Inv paths) (hgrows : Grows p s t) :
    Owns paths p c arr t where
  inv := ht
  claimed := (hgrows.claims c).mpr h.claimed
  at_index := (hgrows.filesData c h.claimed).trans h.at_index

/-- What the others keep of its array. -/
theorem Owns.works (h : Owns paths p c arr s) (hkeeps : Keeps p s t) :
    Works p arr s t ∧ t.files arr = s.files arr := by
  have hsame := hkeeps.files c arr h.claimed h.at_index
  exact ⟨⟨hkeeps.toGrows, fun j o hj ho _ => hkeeps.files j o hj ho, by rw [hsame]⟩, hsame⟩

/-- The array of another index is another array. -/
theorem Owns.ne (h : Owns paths p c arr s) {j : Int} {o : FileId} (hj : (q, j) ∈ s.claims)
    (ho : s.filesData j = some o) (hq : q ≠ p) : o ≠ arr := by
  rintro rfl
  obtain rfl : j = c := h.inv.injective j c o ho h.at_index
  exact hq (h.inv.claim_unique hj h.claimed)

/-- A file gets other data. -/
def Memory.setData (arr : FileId) (data : Int → Int) (m : Memory) : Memory :=
  { m with files := Function.update m.files arr ⟨data, (m.files arr).size⟩ }

@[simp] theorem Memory.setData_files (arr : FileId) (data : Int → Int) (m : Memory) :
    (m.setData arr data).files arr = ⟨data, (m.files arr).size⟩ := Function.update_self ..

theorem Memory.setData_other {data : Int → Int} {m : Memory} {o : FileId} (ho : o ≠ arr) :
    (m.setData arr data).files o = m.files o := Function.update_of_ne ho ..

theorem Memory.Inv.setData (h : s.Inv paths) (arr : FileId) (data : Int → Int) :
    (s.setData arr data).Inv paths :=
  ⟨h.paths, h.nonneg, h.le_count, h.claims, h.inBounds, h.notCut, h.allocated, h.injective⟩

theorem Owns.setData (h : Owns paths p c arr s) (data : Int → Int) :
    guar paths p s (s.setData arr data) ∧ Works p arr s (s.setData arr data) := by
  refine ⟨fun hs => ⟨hs.setData arr data, fun q hq => ?_⟩, ?_⟩
  · exact ⟨⟨le_refl _, fun _ => Iff.rfl, fun _ _ => rfl⟩,
      fun j o hj ho => Memory.setData_other (h.ne hj ho hq)⟩
  · refine ⟨⟨le_refl _, fun _ => Iff.rfl, fun _ _ => rfl⟩,
      fun j o _ _ hne => Memory.setData_other hne, ?_⟩
    rw [Memory.setData_files]

end

end SystemProgramming.FileSort
