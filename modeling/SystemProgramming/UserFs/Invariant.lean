import SystemProgramming.UserFs.Chain
import SystemProgramming.UserFs.Table

/-!
# The invariant

Between calls the heap is laid out as `Layout` says and the descriptor table, the reference counts
and the names are consistent.  Here are the building blocks of its preservation: how each kind of
update of the heap moves the layout and the table, and what it leaves of the other files.
-/

open DoublyLinked

namespace SystemProgramming.UserFs

def File.entry (file : File) : Entry := ⟨file.refs, file.isGhost, file.name⟩

def State.table (s : State) : Table where
  slots := s.fileDescriptors.map (Option.map FileDesc.file)
  used := s.fileDescriptorUsed
  capacity := s.fileDescriptorCapacity
  entry p := (s.files p).map File.entry

def Inv (s : State) : Prop := ∃ fl ch, Layout s fl ch ∧ s.table.Consistent

/-- The size of file `f` and its blocks in order. -/
def State.Stores (s : State) (f : Ptr) (size : Nat) (cs : List Cell) : Prop :=
  ∃ F ps, FileChain s f F ps ∧ F.size = size ∧ s.cells ps = cs

/-- From `s` to `s'` file `f` keeps its size and its blocks. -/
def SameFile (s s' : State) (f : Ptr) : Prop :=
  ∀ size cs, s.Stores f size cs → s'.Stores f size cs

variable {s t u : State} {fl gl : List Ptr} {ch kh : Ptr → List Ptr} {f g : Ptr} {F G : File}
  {ps qs : List Ptr}

theorem SameFile.refl (s : State) (f : Ptr) : SameFile s s f := fun _ _ h => h

theorem SameFile.trans (h : SameFile s t f) (h' : SameFile t u f) : SameFile s u f :=
  fun size cs hs => h' size cs (h size cs hs)

/-- A file stores one size and one list of blocks. -/
theorem State.Stores.unique {m n : Nat} {cs ds : List Cell} (h : s.Stores f m cs)
    (h' : s.Stores f n ds) : m = n ∧ cs = ds := by
  rcases h with ⟨F, ps, hF, rfl, rfl⟩
  rcases h' with ⟨G, qs, hG, rfl, rfl⟩
  obtain rfl : F = G := by
    have hfile := hF.file.symm.trans hG.file
    exact Option.some.inj hfile
  rw [Seg.unique hF.linked hG.linked]
  exact ⟨rfl, rfl⟩

/-! ## Files of a layout -/

theorem Layout.fileChain (h : Layout s fl ch) (hF : s.files f = some F) :
    FileChain s f F (ch f) :=
  ⟨hF, h.chain f F hF, h.valid f ((h.alloc f).mpr ⟨F, hF⟩), h.blockBound⟩

theorem Layout.chain_eq (h : Layout s fl ch) (hc : FileChain s f F ps) : ps = ch f :=
  Seg.unique hc.linked (h.chain f F hc.file)

theorem Layout.stores (h : Layout s fl ch) (hF : s.files f = some F) :
    s.Stores f F.size (s.cells (ch f)) :=
  ⟨F, ch f, h.fileChain hF, rfl, rfl⟩

/-- A file whose chain and size are untouched. -/
theorem Layout.sameFile (h : Layout s fl ch) (h' : Layout t gl kh) (hch : kh g = ch g)
    (hsize : (t.files g).map File.size = (s.files g).map File.size)
    (hblocks : ∀ p ∈ ch g, t.blocks p = s.blocks p) : SameFile s t g := by
  intro size cs hs
  rcases hs with ⟨F, ps, hF, rfl, rfl⟩
  obtain rfl := h.chain_eq hF
  rw [hF.file, Option.map_some, Option.map_eq_some_iff] at hsize
  rcases hsize with ⟨G, hG, hGsize⟩
  exact ⟨G, ch g, hch ▸ h'.fileChain hG, hGsize, cells_congr hblocks⟩

/-- Nothing in the layout depends on the error code or on the descriptor table. -/
theorem Layout.congr (h : Layout s fl ch) (hfiles : t.files = s.files)
    (hblocks : t.blocks = s.blocks) (hlist : t.fileList = s.fileList) (hbrk : t.brk = s.brk) :
    Layout t fl ch := by
  refine ⟨⟨h.nodup, ?_, ?_, ?_, ?_, h.apart, ?_⟩, ?_⟩
  · rw [hfiles]
    exact h.alloc
  · rw [hbrk]
    exact h.fileBound
  · unfold State.blockNext State.blockPrev
    rw [hfiles, hblocks]
    exact h.chain
  · rw [hblocks]
    exact h.valid
  · rw [hblocks, hbrk]
    exact h.blockBound
  · unfold State.fileNext State.filePrev
    rw [hfiles, hlist]
    exact h.listed

/-- A file record may change in all but its links. -/
theorem Layout.setFile (h : Layout s fl ch) (hF : s.files f = some F)
    (hfirst : G.firstBlock = F.firstBlock) (hlast : G.lastBlock = F.lastBlock)
    (hnext : G.next = F.next) (hprev : G.prev = F.prev) : Layout (s.setFile f G) fl ch := by
  have hself : (s.setFile f G).files f = some G := store_self _ _ _
  have hne : ∀ g, g ≠ f → (s.setFile f G).files g = s.files g := fun g hg => store_ne _ _ hg
  have hlinks : (s.setFile f G).fileNext = s.fileNext ∧ (s.setFile f G).filePrev = s.filePrev := by
    constructor <;> funext g <;> by_cases hg : g = f
    · subst hg; simp [State.fileNext, hself, hF, hnext]
    · simp [State.fileNext, hne g hg]
    · subst hg; simp [State.filePrev, hself, hF, hprev]
    · simp [State.filePrev, hne g hg]
  refine ⟨⟨h.nodup, fun g => ?_, h.fileBound, fun g K hK => ?_, h.valid, h.apart, h.blockBound⟩, ?_⟩
  · rw [h.alloc]
    by_cases hg : g = f
    · subst hg; simp [hself, hF]
    · rw [hne g hg]
  · by_cases hg : g = f
    · subst hg
      obtain rfl : G = K := by simpa [hself] using hK
      rw [hfirst, hlast]
      exact h.chain g F hF
    · rw [hne g hg] at hK
      exact h.chain g K hK
  · rw [hlinks.1, hlinks.2]
    exact h.listed

/-- A new file at the head of the list, at an address never used before. -/
theorem Layout.create (h : Layout s fl ch) {new : File} (hnew : t.files s.brk = some new)
    (hnext : new.next = s.fileList) (hprev : new.prev = none) (hfirst : new.firstBlock = none)
    (hlast : new.lastBlock = none) (hlist : t.fileList = some s.brk)
    (hbrk : t.brk = s.brk + 1) (hblocks : t.blocks = s.blocks)
    (hold : ∀ g, g ≠ s.brk → t.files g = (s.files g).map fun G =>
      if s.fileList = some g then { G with prev := some s.brk } else G) :
    Layout t (s.brk :: fl) (Function.update ch s.brk []) := by
  have hfresh : s.brk ∉ fl := fun hmem => lt_irrefl _ (h.fileBound _ hmem)
  have hch : ∀ g ∈ fl, Function.update ch s.brk [] g = ch g := by
    intro g hg
    rw [Function.update_of_ne]
    rintro rfl
    exact hfresh hg
  have hchn : Function.update ch s.brk [] s.brk = [] := Function.update_self _ _ _
  -- a file is the new one, or an old one that is not at the new address
  have hcases : ∀ g ∈ s.brk :: fl, g = s.brk ∨ (g ≠ s.brk ∧ g ∈ fl) := by
    intro g hg
    rcases List.mem_cons.mp hg with rfl | hg
    · exact .inl rfl
    · refine .inr ⟨?_, hg⟩
      rintro rfl
      exact hfresh hg
  refine ⟨⟨List.nodup_cons.mpr ⟨hfresh, h.nodup⟩, fun g => ?_, fun g hg => ?_, fun g G hG => ?_,
    fun g hg p hp => ?_, fun g hg k hk p hp hp' => ?_, ?_⟩, ?_⟩
  · by_cases hg : g = s.brk
    · simp [hg, hnew]
    · rw [List.mem_cons, hold g hg, h.alloc]
      simp [hg]
  · rw [hbrk]
    rcases hcases g hg with rfl | ⟨-, hg⟩
    · exact Nat.lt_succ_self _
    · exact (h.fileBound g hg).trans (Nat.lt_succ_self _)
  · by_cases hg : g = s.brk
    · subst hg
      obtain rfl : new = G := by simpa [hnew] using hG
      rw [hchn, hfirst, hlast]
      exact ⟨rfl, rfl⟩
    · rw [hold g hg, Option.map_eq_some_iff] at hG
      rcases hG with ⟨K, hK, hKG⟩
      -- whether or not it was the head, the old file keeps its chain
      have hends : G.firstBlock = K.firstBlock ∧ G.lastBlock = K.lastBlock := by
        rw [← hKG]
        split <;> exact ⟨rfl, rfl⟩
      have hgl : g ∈ fl := (h.alloc g).mpr ⟨K, hK⟩
      rw [hch g hgl, hends.1, hends.2]
      unfold State.blockNext State.blockPrev
      rw [hblocks]
      exact h.chain g K hK
  · rw [hblocks]
    rcases hcases g hg with rfl | ⟨-, hg⟩
    · rw [hchn] at hp
      cases hp
    · rw [hch g hg] at hp
      exact h.valid g hg p hp
  · rcases hcases g hg with rfl | ⟨-, hg⟩
    · rw [hchn] at hp
      cases hp
    · rcases hcases k hk with rfl | ⟨-, hk⟩
      · rw [hchn] at hp'
        cases hp'
      · rw [hch g hg] at hp
        rw [hch k hk] at hp'
        exact h.apart g hg k hk p hp hp'
  · intro p b hb
    rw [hblocks] at hb
    rw [hbrk]
    exact (h.blockBound p b hb).trans (Nat.lt_succ_self _)
  · -- the list of files grows at its head, whose `prev` is the only link written
    have hlisted : Linked t.fileNext t.filePrev (some s.brk) (s.brk :: fl)
        (fl.getLast?.or (some s.brk)) := by
      refine Linked.prepend h.listed ?_ ?_ ?_ ?_ ?_
      · simp [State.fileNext, hnew, hnext]
      · simp [State.filePrev, hnew, hprev]
      · intro g hg
        rcases (h.alloc g).mp hg with ⟨G, hG⟩
        have hgb : g ≠ s.brk := (h.fileBound g hg).ne
        simp only [State.fileNext, hold g hgb, hG, Option.map_some, Option.bind_some]
        split <;> rfl
      · intro g hg
        have hgl : g ∈ fl := List.mem_of_mem_tail hg
        rcases (h.alloc g).mp hgl with ⟨G, hG⟩
        have hgb : g ≠ s.brk := (h.fileBound g hgl).ne
        -- `g` is not the old head
        have hhead : s.fileList ≠ some g := by
          rw [h.listed.head_eq]
          intro heq
          cases fl with
          | nil => cases heq
          | cons x xs =>
            obtain rfl : x = g := by simpa using heq
            exact (List.nodup_cons.mp h.nodup).1 hg
        simp [State.filePrev, hold g hgb, hG, hhead]
      · intro g hg
        have hgl : g ∈ fl := List.mem_of_mem_head? (by rw [← h.listed.head_eq, hg]; rfl)
        rcases (h.alloc g).mp hgl with ⟨G, hG⟩
        have hgb : g ≠ s.brk := (h.fileBound g hgl).ne
        simp [State.filePrev, hold g hgb, hG, hg]
    have hlast : (s.brk :: fl).getLast? = fl.getLast?.or (some s.brk) := by
      rw [List.getLast?_cons]
      cases fl.getLast? <;> rfl
    rw [hlist, hlast]
    exact hlisted

/-- Changing the chain of one file. -/
theorem Layout.relayout (h : Layout s fl ch) (hr : Relayout s t f F G ps qs) :
    Layout t fl (Function.update ch f qs) := by
  obtain rfl := h.chain_eq hr.before
  have hf : f ∈ fl := (h.alloc f).mpr ⟨F, hr.before.file⟩
  have hself : Function.update ch f qs f = qs := Function.update_self _ _ _
  have hne : ∀ g, g ≠ f → Function.update ch f qs g = ch g := fun g hg => Function.update_of_ne hg _ _
  -- the chain of another file is outside the old chain of `f` and so untouched
  have hkeep : ∀ g ∈ fl, g ≠ f → ∀ p ∈ ch g, t.blocks p = s.blocks p := by
    intro g hg hgf p hp
    refine hr.frame p (h.chain_bound hg p hp) fun hpf => hgf ?_
    exact h.apart g hg f hf p hp hpf
  -- nor is it in the new chain, the blocks of which are old ones of `f` or fresh
  have hmixed : ∀ g ∈ fl, g ≠ f → ∀ p ∈ ch g, p ∉ qs := by
    intro g hg hgf p hp hpq
    rcases hr.source p hpq with hpf | hle
    · exact hgf (h.apart g hg f hf p hp hpf)
    · exact absurd (h.chain_bound hg p hp) (not_lt.mpr hle)
  refine ⟨⟨h.nodup, fun g => ?_, fun g hg => (h.fileBound g hg).trans_le hr.brk, fun g K hK => ?_,
    fun g hg p hp => ?_, fun g hg k hk p hp hp' => ?_, hr.after.bound⟩, ?_⟩
  · by_cases hg : g = f
    · simp [hg, hf, hr.after.file]
    · rw [h.alloc, hr.files g hg]
  · by_cases hg : g = f
    · subst hg
      obtain rfl : G = K := by simpa [hr.after.file] using hK
      rw [hself]
      exact hr.after.linked
    · rw [hne g hg]
      rw [hr.files g hg] at hK
      have hgl : g ∈ fl := (h.alloc g).mpr ⟨K, hK⟩
      refine Seg.congr (h.chain g K hK) (fun p hp => ?_) (fun p hp => ?_)
      · simp only [State.blockNext, hkeep g hgl hg p hp]
      · simp only [State.blockPrev, hkeep g hgl hg p hp]
  · by_cases hgf : g = f
    · subst hgf
      rw [hself] at hp
      exact hr.after.valid p hp
    · rw [hne g hgf] at hp
      rw [hkeep g hg hgf p hp]
      exact h.valid g hg p hp
  · -- two files: both are `f`, one of them is, or none
    by_cases hgf : g = f <;> by_cases hkf : k = f
    · rw [hgf, hkf]
    · rw [hgf, hself] at hp
      rw [hne k hkf] at hp'
      exact absurd hp (hmixed k hk hkf p hp')
    · rw [hkf, hself] at hp'
      rw [hne g hgf] at hp
      exact absurd hp' (hmixed g hg hgf p hp)
    · rw [hne g hgf] at hp
      rw [hne k hkf] at hp'
      exact h.apart g hg k hk p hp hp'
  · -- the list of files is not touched
    have hlinks : t.fileNext = s.fileNext ∧ t.filePrev = s.filePrev := by
      have hG := hr.same
      constructor <;> funext g <;> by_cases hg : g = f
      · rw [hg, State.fileNext, State.fileNext, hr.after.file, hr.before.file, hG]
        rfl
      · rw [State.fileNext, State.fileNext, hr.files g hg]
      · rw [hg, State.filePrev, State.filePrev, hr.after.file, hr.before.file, hG]
        rfl
      · rw [State.filePrev, State.filePrev, hr.files g hg]
    rw [hlinks.1, hlinks.2, hr.fileList]
    exact h.listed

theorem Layout.relayout_sameFile (h : Layout s fl ch) (hr : Relayout s t f F G ps qs) (hg : g ≠ f)
    (hgl : g ∈ fl) : SameFile s t g := by
  obtain rfl := h.chain_eq hr.before
  have hf : f ∈ fl := (h.alloc f).mpr ⟨F, hr.before.file⟩
  refine h.sameFile (h.relayout hr) (Function.update_of_ne hg _ _) (by rw [hr.files g hg]) ?_
  intro p hp
  exact hr.frame p (h.chain_bound hgl p hp) fun hpf => hg (h.apart g hgl f hf p hp hpf)

theorem Layout.withoutFile_sameFile (h : Layout s fl ch) (hF : s.files f = some F) (hg : g ≠ f)
    (hgl : g ∈ fl) : SameFile s (UserFs.withoutFile s ch f F) g := by
  have hf : f ∈ fl := (h.alloc f).mpr ⟨F, hF⟩
  refine h.sameFile (h.withoutFile hF) rfl ?_ fun p hp => ?_
  · simp only [UserFs.withoutFile, free_ne _ hg, Option.map_map]
    rfl
  · have hpf : p ∉ ch f := fun hpf => hg (h.apart g hgl f hf p hp hpf)
    simp only [UserFs.withoutFile, if_neg hpf]

/-! ## The table of an updated state -/

theorem table_entry (hF : s.files f = some F) : s.table.entry f = some F.entry := by
  simp [State.table, hF]

theorem table_slots {i : Nat} {o : Option FileDesc} (h : s.fileDescriptors[i]? = some o) :
    s.table.slots[i]? = some (o.map FileDesc.file) := by
  simp [State.table, h]

theorem table_setFile (s : State) (f : Ptr) (G : File) :
    (s.setFile f G).table = { s.table with
      entry := Function.update s.table.entry f (some G.entry) } := by
  simp only [State.table, State.setFile, Table.mk.injEq, true_and]
  funext g
  by_cases hg : g = f
  · simp [hg]
  · simp [store_ne _ _ hg, hg]

theorem table_withoutFile (s : State) (ch : Ptr → List Ptr) (f : Ptr) (F : File) :
    (withoutFile s ch f F).table = s.table.forget f := by
  simp only [State.table, withoutFile, Table.forget, Table.mk.injEq, true_and]
  funext g
  by_cases hg : g = f
  · simp [hg]
  · simp only [free_ne _ hg, Function.update_of_ne hg, Option.map_map]
    rfl

theorem Relayout.table (hr : Relayout s t f F G ps qs) : t.table = s.table := by
  have hG := hr.same
  simp only [State.table, hr.slots, hr.used, hr.capacity, Table.mk.injEq, true_and]
  funext g
  by_cases hg : g = f
  · rw [hg, hr.after.file, hr.before.file, hG]
    rfl
  · rw [hr.files g hg]

theorem Relayout.inv (hr : Relayout s t f F G ps qs) (h : Inv s) : Inv t := by
  rcases h with ⟨fl, ch, hlay, htab⟩
  exact ⟨fl, _, hlay.relayout hr, hr.table ▸ htab⟩

/-- The invariant reads the heap and, of the descriptors, only which file each refers to. -/
theorem Inv.congr (h : Inv s) (hfiles : t.files = s.files) (hblocks : t.blocks = s.blocks)
    (hlist : t.fileList = s.fileList) (hbrk : t.brk = s.brk) (htable : t.table = s.table) :
    Inv t := by
  rcases h with ⟨fl, ch, hlay, htab⟩
  exact ⟨fl, ch, hlay.congr hfiles hblocks hlist hbrk, htable ▸ htab⟩

theorem Inv.fail (h : Inv s) (e : UfsErrorCode) : Inv (fail s e).2 :=
  h.congr rfl rfl rfl rfl rfl

theorem stores_congr (hfiles : t.files = s.files) (hblocks : t.blocks = s.blocks)
    (hbrk : t.brk = s.brk) (f : Ptr) : SameFile s t f := by
  rintro size cs ⟨F, ps, hF, rfl, rfl⟩
  refine ⟨F, ps, ⟨hfiles ▸ hF.file, ?_, ?_, ?_⟩, rfl, cells_congr fun p _ => by rw [hblocks]⟩
  · unfold State.blockNext State.blockPrev
    rw [hblocks]
    exact hF.linked
  · rw [hblocks]
    exact hF.valid
  · rw [hblocks, hbrk]
    exact hF.bound

/-- A descriptor keeps its slot and its file when its offset moves. -/
theorem table_setDesc {i : Nat} {d d' : FileDesc} (h : s.fileDescriptors[i]? = some (some d))
    (hfile : d'.file = d.file) : (s.setDesc i d').table = s.table := by
  simp only [State.table, State.setDesc, Table.mk.injEq, and_true]
  rw [List.map_set, Option.map_some, hfile]
  have hslot := table_slots h
  rcases List.getElem?_eq_some_iff.mp hslot with ⟨hlt, hget⟩
  rw [Option.map_some] at hget
  rw [← hget]
  exact List.set_getElem_self hlt

/-! ## Looking a descriptor up -/

theorem capacity_eq (h : s.table.Consistent) :
    s.fileDescriptorCapacity = s.fileDescriptors.length := by
  simpa [State.table] using h.capacity

theorem lookupDesc_slot (h : s.table.Consistent) {i : Nat} {d : FileDesc}
    (hi : s.fileDescriptors[i]? = some (some d)) :
    lookupDesc s (i + 1) = .ok (some (i, d)) := by
  have hlt := (List.getElem?_eq_some_iff.mp hi).1
  have hcap := capacity_eq h
  have hidx : ((i : Int) + 1 - 1).toNat = i := by omega
  rw [lookupDesc, if_neg (by omega), hidx, hi]

/-- A descriptor number is invalid, or names an occupied slot. -/
theorem lookupDesc_cases (h : s.table.Consistent) (fd : Int) :
    lookupDesc s fd = .ok none ∨
      ∃ (i : Nat) (d : FileDesc), fd = (i : Int) + 1 ∧ s.fileDescriptors[i]? = some (some d) ∧
        lookupDesc s fd = .ok (some (i, d)) := by
  have hcap := capacity_eq h
  by_cases hout : fd - 1 < 0 ∨ fd - 1 ≥ s.fileDescriptorCapacity
  · left
    rw [lookupDesc, if_pos hout]
  · have hlt : (fd - 1).toNat < s.fileDescriptors.length := by omega
    have hget := List.getElem?_eq_getElem hlt
    cases hslot : s.fileDescriptors[(fd - 1).toNat] with
    | none =>
      left
      rw [lookupDesc, if_neg hout, hget, hslot]
    | some d =>
      have hfd : fd = ((fd - 1).toNat : Int) + 1 := by omega
      rw [hslot] at hget
      refine .inr ⟨(fd - 1).toNat, d, hfd, hget, ?_⟩
      rw [lookupDesc, if_neg hout, hget]

/-- The file of an open descriptor is there. -/
theorem Table.Consistent.file (h : s.table.Consistent) {i : Nat} {d : FileDesc}
    (hi : s.fileDescriptors[i]? = some (some d)) : ∃ F, s.files d.file = some F := by
  have hmem : some d.file ∈ s.table.slots := List.mem_of_getElem? (table_slots hi)
  rcases h.target d.file hmem with ⟨e, he⟩
  rcases Option.map_eq_some_iff.mp he with ⟨F, hF, -⟩
  exact ⟨F, hF⟩

end SystemProgramming.UserFs
