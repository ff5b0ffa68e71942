import SystemProgramming.UserFs.Invariant

/-!
# Opening, closing and deleting

`ufs_open`, `ufs_close`, `ufs_delete` and `ufs_destroy` never fault from a state that satisfies the
invariant, keep it, and leave the size and the blocks of every file that survives them alone.
-/

open DoublyLinked Fallible

namespace SystemProgramming.UserFs

variable {s t : State} {fl : List Ptr} {ch : Ptr → List Ptr} {f : Ptr} {F : File} {i : Nat}

/-- Every file that is still there in `t` is as it was in `s`. -/
def SameFiles (s t : State) : Prop := ∀ g G, t.files g = some G → SameFile s t g

theorem SameFile.of_absent (h : s.files f = none) (t : State) : SameFile s t f := by
  rintro size cs ⟨F, ps, hF, -⟩
  rw [hF.file] at h
  cases h

/-! ## `ufs_open` -/

/-- The effect of a successful `ufs_open`: slot `i`, which was free, has a new descriptor of `f`. -/
structure Opened (s t : State) (i : Nat) (f : Ptr) (flags : BitVec 32) : Prop where
  inv : Inv t
  free : ∀ d, s.fileDescriptors[i]? ≠ some (some d)
  slot : t.fileDescriptors[i]? = some (some ⟨f, flags, 0⟩)
  slots : ∀ (j : Nat) d, s.fileDescriptors[j]? = some (some d) →
    t.fileDescriptors[j]? = some (some d)
  same : SameFiles s t

theorem findFree_eq (slots : List (Option FileDesc)) (i count : Nat)
    (hcount : i + count = slots.length) (hfree : none ∈ slots.drop i) :
    ∃ j, findFree slots i count = .ok (some j) ∧ slots[j]? = some none := by
  induction count generalizing i with
  | zero =>
    rw [List.drop_eq_nil_of_le (by omega)] at hfree
    cases hfree
  | succ count ih =>
    have hlt : i < slots.length := by omega
    have hget := List.getElem?_eq_getElem hlt
    rw [List.drop_eq_getElem_cons hlt] at hfree
    cases hslot : slots[i] with
    | none =>
      rw [hslot] at hget
      exact ⟨i, by simp only [findFree, hget], hget⟩
    | some d =>
      rw [hslot] at hget hfree
      have hrest : none ∈ slots.drop (i + 1) := by simpa using hfree
      simp only [findFree, hget]
      exact ih (i + 1) (by omega) hrest

theorem fillSlot_eq (hlay : Layout s fl ch) (htab : s.table.Consistent)
    (hi : s.fileDescriptors[i]? = some none) (hF : s.files f = some F) (flags : BitVec 32) :
    ∃ t, fillSlot s i f flags = .ok ((i : Int) + 1, t) ∧ Inv t ∧
      t.fileDescriptors = s.fileDescriptors.set i (some ⟨f, flags, 0⟩) ∧ SameFiles s t := by
  have hlt := (List.getElem?_eq_some_iff.mp hi).1
  obtain ⟨u, hu⟩ : ∃ u, u = s.setFile f { F with refs := F.refs + 1 } := ⟨_, rfl⟩
  have hulay : Layout u fl ch := hu ▸ hlay.setFile hF rfl rfl rfl rfl
  obtain ⟨t, ht⟩ : ∃ t : State, t = { u with
    fileDescriptors := s.fileDescriptors.set i (some ⟨f, flags, 0⟩)
    fileDescriptorUsed := s.fileDescriptorUsed + 1 } := ⟨_, rfl⟩
  have htlay : Layout t fl ch := by
    rw [ht]
    exact hulay.congr rfl rfl rfl rfl
  -- On the table the step is `occupy`: a slot taken, one more reference.
  have htable : t.table = s.table.occupy i f F.entry := by
    have htu : t.table = { u.table with
        slots := s.table.slots.set i (some f), used := s.table.used + 1 } := by
      rw [ht]
      simp [State.table, List.map_set]
    rw [htu, hu, table_setFile]
    rfl
  have hcons : t.table.Consistent := by
    rw [htable]
    exact htab.occupy (table_slots hi) (table_entry hF)
  refine ⟨t, ?_, ⟨fl, ch, htlay, hcons⟩, by rw [ht], fun g G hG => ?_⟩
  · simp only [fillSlot, if_pos hlt, load_some hF, ok_bind, pure_eq_ok, ht, hu, State.setFile]
  · refine hlay.sameFile htlay rfl ?_ fun p _ => by rw [ht, hu]; rfl
    rw [ht, hu]
    by_cases hg : g = f
    · simp [State.setFile, hg, hF]
    · simp [State.setFile, store_ne _ _ hg]

/-- More room in the descriptor table. -/
theorem Inv.grow (hlay : Layout s fl ch) (htab : s.table.Consistent) (n : Nat)
    (hslots : t.fileDescriptors = s.fileDescriptors ++ List.replicate n none)
    (hcap : t.fileDescriptorCapacity = s.fileDescriptorCapacity + n)
    (hused : t.fileDescriptorUsed = s.fileDescriptorUsed) (hfiles : t.files = s.files)
    (hblocks : t.blocks = s.blocks) (hlist : t.fileList = s.fileList) (hbrk : t.brk = s.brk) :
    Layout t fl ch ∧ t.table.Consistent := by
  have htable : t.table = s.table.grow n := by
    simp [State.table, Table.grow, hslots, hcap, hused, hfiles]
  refine ⟨hlay.congr hfiles hblocks hlist hbrk, ?_⟩
  rw [htable]
  exact htab.grow n

/-- With the table in order, a descriptor is always found. -/
theorem takeDescriptor_eq (hlay : Layout s fl ch) (htab : s.table.Consistent)
    (hF : s.files f = some F) (flags : BitVec 32) :
    ∃ t, ∃ i : Nat, takeDescriptor s f flags = .ok ((i : Int) + 1, t) ∧ Opened s t i f flags := by
  have hcap := capacity_eq htab
  -- the first table of ten slots, if there is none yet
  obtain ⟨u, hu⟩ : ∃ u : State, u = if s.fileDescriptorCapacity ≤ 0 then
      { s with
        fileDescriptors := List.replicate 10 none
        fileDescriptorCapacity := 10
        fileDescriptorUsed := 0 }
      else s := ⟨_, rfl⟩
  have hugrow : ∃ n, u.fileDescriptors = s.fileDescriptors ++ List.replicate n none ∧
      u.fileDescriptorCapacity = s.fileDescriptorCapacity + n ∧ 0 < u.fileDescriptorCapacity ∧
      u.fileDescriptorUsed = s.fileDescriptorUsed ∧ u.files = s.files ∧ u.blocks = s.blocks ∧
      u.fileList = s.fileList ∧ u.brk = s.brk := by
    by_cases hzero : s.fileDescriptorCapacity ≤ 0
    · rw [if_pos hzero] at hu
      have hnil : s.fileDescriptors = [] := List.length_eq_zero_iff.mp (by omega)
      have hused : s.fileDescriptorUsed = 0 := by
        have hcount := htab.used
        simpa [State.table, hnil] using hcount
      rw [hu]
      refine ⟨10, ?_, ?_, by norm_num, hused.symm, rfl, rfl, rfl, rfl⟩
      · rw [hnil]
        rfl
      · rw [hcap, hnil]
        rfl
    · rw [if_neg hzero] at hu
      rw [hu]
      exact ⟨0, by simp, by simp, by omega, rfl, rfl, rfl, rfl, rfl⟩
  rcases hugrow with ⟨n, huslots, hucap, hupos, huused, hufiles, hublocks, hulist, hubrk⟩
  have hugood := Inv.grow hlay htab n huslots hucap huused hufiles hublocks hulist hubrk
  have hulen := capacity_eq hugood.2
  -- whatever table the slot is taken from, it is the old one with free slots added
  have hfill : ∀ (v : State) (m j : Nat), Layout v fl ch → v.table.Consistent →
      v.fileDescriptors = u.fileDescriptors ++ List.replicate m none → v.files = s.files →
      v.blocks = s.blocks → v.brk = s.brk → v.fileDescriptors[j]? = some none →
      ∃ t, ∃ i : Nat, fillSlot v j f flags = .ok ((i : Int) + 1, t) ∧ Opened s t i f flags := by
    intro v m j hvlay hvtab hvslots hvfiles hvblocks hvbrk hj
    -- a descriptor in use is at the index that it had
    have hold : ∀ (k : Nat) d, s.fileDescriptors[k]? = some (some d) →
        v.fileDescriptors[k]? = some (some d) := by
      intro k d hk
      have hlt := (List.getElem?_eq_some_iff.mp hk).1
      rw [hvslots, huslots, List.append_assoc, List.getElem?_append_left hlt, hk]
    have hfree : ∀ d, s.fileDescriptors[j]? ≠ some (some d) := by
      intro d hd
      rw [hold j d hd] at hj
      cases hj
    rcases fillSlot_eq hvlay hvtab hj (hvfiles ▸ hF) flags with ⟨t, ht, hinv, hslots, hsame⟩
    refine ⟨t, j, ht, hinv, hfree, ?_, ?_, fun g G hG => ?_⟩
    · rw [hslots, List.getElem?_set_self (List.getElem?_eq_some_iff.mp hj).1]
    · intro k d hk
      have hkj : j ≠ k := by
        rintro rfl
        exact hfree d hk
      rw [hslots, List.getElem?_set_ne hkj]
      exact hold k d hk
    · exact (stores_congr hvfiles hvblocks hvbrk g).trans (hsame g G hG)
  unfold takeDescriptor
  simp only [← hu]
  by_cases hroom : u.fileDescriptorUsed < u.fileDescriptorCapacity
  · have hnone : none ∈ u.fileDescriptors := by
      have hex := hugood.2.exists_free hroom
      simpa [State.table] using hex
    rcases findFree_eq u.fileDescriptors 0 u.fileDescriptorCapacity.toNat (by omega) hnone
      with ⟨j, hfind, hj⟩
    rw [if_pos hroom, hfind, ok_bind]
    exact hfill u 0 j hugood.1 hugood.2 (by simp) hufiles hublocks hubrk hj
  · -- the table is full, so the counter is the index of the first new slot
    have hfull : u.fileDescriptorUsed = u.fileDescriptors.length := by
      have hall := hugood.2.all_taken (not_lt.mp hroom)
      simpa [State.table] using hall
    rw [if_neg hroom]
    have hvgood := Inv.grow (t := { u with
      fileDescriptors := u.fileDescriptors ++ List.replicate u.fileDescriptorCapacity.toNat none
      fileDescriptorCapacity := u.fileDescriptorCapacity * 2 }) hugood.1 hugood.2
      u.fileDescriptorCapacity.toNat rfl (by dsimp only; omega) rfl rfl rfl rfl rfl
    refine hfill _ u.fileDescriptorCapacity.toNat _ hvgood.1 hvgood.2 rfl hufiles hublocks hubrk ?_
    have hidx : u.fileDescriptorUsed.toNat = u.fileDescriptors.length := by omega
    rw [hidx, List.getElem?_append_right (le_refl _), Nat.sub_self, List.getElem?_replicate,
      if_pos (by omega)]

theorem createFile_eq (hlay : Layout s fl ch) (filename : List UInt8) :
    ∃ t new, createFile s filename = .ok (t, s.brk) ∧ t.files s.brk = some new ∧
      Layout t (s.brk :: fl) (Function.update ch s.brk []) ∧
      t.table = s.table.create s.brk filename ∧
      t.fileDescriptors = s.fileDescriptors ∧ SameFiles s t := by
  obtain ⟨new, hnew⟩ : ∃ new : File, new =
    { name := filename, isGhost := false, refs := 0, size := 0, firstBlock := none,
      lastBlock := none, next := s.fileList, prev := none } := ⟨_, rfl⟩
  have hhead : ∀ g, s.fileList = some g → g ≠ s.brk ∧ ∃ G, s.files g = some G := by
    intro g hg
    have hmem : g ∈ fl := List.mem_of_mem_head? (by rw [← hlay.listed.head_eq, hg]; rfl)
    exact ⟨(hlay.fileBound g hmem).ne, (hlay.alloc g).mp hmem⟩
  obtain ⟨t, ht⟩ : ∃ t : State, t = { s with
    files := fun g => if g = s.brk then some new else (s.files g).map fun G =>
      if s.fileList = some g then { G with prev := some s.brk } else G
    fileList := some s.brk
    brk := s.brk + 1 } := ⟨_, rfl⟩
  have htn : t.files s.brk = some new := by
    rw [ht]
    exact if_pos rfl
  -- of the files that were there, only the head of the list is written
  have hto : ∀ g, g ≠ s.brk → t.files g = (s.files g).map fun G =>
      if s.fileList = some g then { G with prev := some s.brk } else G := by
    intro g hg
    rw [ht]
    exact if_neg hg
  have hfree : s.files s.brk = none := by
    cases hb : s.files s.brk with
    | none => rfl
    | some G => exact absurd (hlay.fileBound s.brk ((hlay.alloc _).mpr ⟨G, hb⟩)) (lt_irrefl _)
  have htlay : Layout t (s.brk :: fl) (Function.update ch s.brk []) :=
    hlay.create htn (by rw [hnew]) (by rw [hnew]) (by rw [hnew]) (by rw [hnew]) (by rw [ht])
      (by rw [ht]) (by rw [ht]) hto
  refine ⟨t, new, ?_, htn, htlay, ?_, by rw [ht], fun g G hG => ?_⟩
  · cases hl : s.fileList with
    | none =>
      have hstore : store s.files s.brk new = t.files := by
        funext g
        by_cases hg : g = s.brk
        · rw [hg, store_self, htn]
        · rw [store_ne _ _ hg, hto g hg, hl]
          simp
      rw [hl] at hnew
      simp only [createFile, hl, State.setFile, pure_eq_ok, ← hnew, hstore, ht]
    | some h =>
      rcases hhead h hl with ⟨hne, H, hH⟩
      have hload : store s.files s.brk new h = some H := by rw [store_ne _ _ hne, hH]
      -- the order of the two writes does not matter, the files being different
      have hstore : store (store s.files s.brk new) h { H with prev := some s.brk } = t.files := by
        funext g
        by_cases hgh : g = h
        · rw [hgh, store_self, hto h hne, hH, hl]
          simp
        · rw [store_ne _ _ hgh]
          by_cases hg : g = s.brk
          · rw [hg, store_self, htn]
          · rw [store_ne _ _ hg, hto g hg, hl]
            have hhg : ¬ some h = some g := fun heq => hgh (Option.some.inj heq).symm
            simp only [hhg, if_false, Option.map_id']
      rw [hl] at hnew
      simp only [createFile, hl, State.setFile, pure_eq_ok, ← hnew, load_some hload, ok_bind,
        hstore, ht]
  · -- what the table shows of a file leaves `prev` out
    have hentry : t.table.entry = (s.table.create s.brk filename).entry := by
      funext g
      by_cases hg : g = s.brk
      · simp [State.table, Table.create, hg, htn, hnew, File.entry]
      · simp only [State.table, Table.create, hto g hg, Function.update_of_ne hg, Option.map_map]
        congr 1
        funext G
        simp only [Function.comp_apply]
        split <;> rfl
    simp only [State.table, Table.create, Table.mk.injEq] at hentry ⊢
    exact ⟨by rw [ht], by rw [ht], by rw [ht], hentry⟩
  · by_cases hg : g = s.brk
    · exact hg ▸ SameFile.of_absent hfree t
    · refine hlay.sameFile htlay (Function.update_of_ne hg _ _) ?_ fun p _ => by rw [ht]
      rw [hto g hg, Option.map_map]
      congr 1
      funext K
      simp only [Function.comp_apply]
      split <;> rfl

/-- The only way for `ufs_open` to fail is that there is no such file and none may be created. -/
theorem ufsOpen_spec (h : Inv s) (filename : List UInt8) (flags : BitVec 32) :
    ufsOpen s filename flags = .ok (fail s .noFile) ∨
      ∃ t, ∃ i : Nat, ∃ f, ufsOpen s filename flags = .ok ((i : Int) + 1, t) ∧
        Opened s t i f (openFlags flags) := by
  rcases h with ⟨fl, ch, hlay, htab⟩
  cases hfind : fl.find? (visible s.files filename) with
  | some f =>
    right
    have hmem := List.mem_of_find?_eq_some hfind
    rcases (hlay.alloc f).mp hmem with ⟨F, hF⟩
    rcases takeDescriptor_eq hlay htab hF (openFlags flags) with ⟨t, i, ht, hopened⟩
    refine ⟨t, i, f, ?_, hopened⟩
    simp only [ufsOpen, hlay.findFile_eq, hfind, ok_bind, ht]
  | none =>
    -- without `UFS_CREATE` a missing file is an error
    by_cases hcreate : openFlags flags &&& ufsCreate = 0
    · left
      simp only [ufsOpen, hlay.findFile_eq, hfind, ok_bind, hcreate, if_true, pure_eq_ok]
    · right
      rcases createFile_eq hlay filename with ⟨u, new, hu, hnew, hulay, hutab, huslots, husame⟩
      have hfree : s.table.entry s.brk = none := by
        cases hb : s.files s.brk with
        | none => simp [State.table, hb]
        | some G => exact absurd (hlay.fileBound s.brk ((hlay.alloc _).mpr ⟨G, hb⟩)) (lt_irrefl _)
      -- the search has shown the name to be free
      have hname : ∀ g e, s.table.entry g = some e → e.isGhost = false → e.name ≠ filename := by
        intro g e he hghost hn
        rcases Option.map_eq_some_iff.mp he with ⟨G, hG, rfl⟩
        have hvis := List.find?_eq_none.mp hfind g ((hlay.alloc g).mpr ⟨G, hG⟩)
        simp only [visible, hG] at hvis
        simp only [File.entry] at hghost hn
        simp [hghost, hn] at hvis
      have hucons : u.table.Consistent := hutab ▸ htab.create hfree hname
      rcases takeDescriptor_eq hulay hucons hnew (openFlags flags) with ⟨t, i, ht, hopened⟩
      refine ⟨t, i, s.brk, ?_, hopened.inv, ?_, hopened.slot, ?_, fun g G hG => ?_⟩
      · simp only [ufsOpen, hlay.findFile_eq, hfind, ok_bind, hcreate, if_false, hu, ht]
      · rw [← huslots]
        exact hopened.free
      · rw [← huslots]
        exact hopened.slots
      · intro size cs hs
        have hus : SameFile s u g := by
          rcases hs with ⟨K, ps, hK, -⟩
          have hmem : g ∈ s.brk :: fl :=
            List.mem_cons_of_mem _ ((hlay.alloc g).mpr ⟨K, hK.file⟩)
          rcases (hulay.alloc g).mp hmem with ⟨L, hL⟩
          exact husame g L hL
        exact hopened.same g G hG size cs (hus size cs hs)

/-! ## `ufs_close` -/

/-- The effect of `ufs_close` on slot `i`. -/
structure Closed (s t : State) (i : Nat) : Prop where
  inv : Inv t
  slots : t.fileDescriptors = s.fileDescriptors.set i none
  same : SameFiles s t

theorem ufsClose_slot (h : Inv s) {d : FileDesc} (hi : s.fileDescriptors[i]? = some (some d)) :
    ∃ t, ufsClose s ((i : Int) + 1) = .ok (0, t) ∧ Closed s t i := by
  rcases h with ⟨fl, ch, hlay, htab⟩
  rcases htab.file hi with ⟨F, hF⟩
  -- one reference less, and the slot is emptied
  obtain ⟨G, hG⟩ : ∃ G : File, G = { F with refs := F.refs - 1 } := ⟨_, rfl⟩
  obtain ⟨u, hu⟩ : ∃ u, u = s.setFile d.file G := ⟨_, rfl⟩
  have huG : u.files d.file = some G := by
    rw [hu]
    exact store_self _ _ _
  have hulay : Layout u fl ch := by
    rw [hu]
    exact hlay.setFile hF (by rw [hG]) (by rw [hG]) (by rw [hG]) (by rw [hG])
  have husame : SameFiles s u := by
    intro g K _
    refine hlay.sameFile hulay rfl ?_ fun p _ => by rw [hu]; rfl
    by_cases hg : g = d.file
    · rw [hg, huG, hF, hG]
      rfl
    · simp only [hu, State.setFile, store_ne _ _ hg]
  have hutable : ∀ v : State, ({ v with
        fileDescriptors := s.fileDescriptors.set i none
        fileDescriptorUsed := s.fileDescriptorUsed - 1 } : State).table =
        { v.table with slots := s.table.slots.set i none, used := s.table.used - 1 } := by
    intro v
    simp [State.table, List.map_set]
  -- in the table of descriptors and files this is `vacate`
  have hvac : { u.table with slots := s.table.slots.set i none, used := s.table.used - 1 } =
      s.table.vacate i d.file F.entry := by
    rw [hu, table_setFile, hG]
    rfl
  have hcons : (if F.refs - 1 ≤ 0 ∧ F.isGhost = true then
      (s.table.vacate i d.file F.entry).forget d.file
      else s.table.vacate i d.file F.entry).Consistent :=
    htab.vacate (table_slots hi) (table_entry hF)
  by_cases hlast : F.refs - 1 ≤ 0 ∧ F.isGhost = true
  · -- the last descriptor of a deleted file: the file goes too
    obtain ⟨v, hv⟩ : ∃ v, v = withoutFile u ch d.file G := ⟨_, rfl⟩
    have hvlay : Layout v (fl.erase d.file) ch := hv ▸ hulay.withoutFile huG
    have hvtable : v.table = u.table.forget d.file := hv ▸ table_withoutFile u ch d.file G
    refine ⟨{ v with
      fileDescriptors := s.fileDescriptors.set i none
      fileDescriptorUsed := s.fileDescriptorUsed - 1 }, ?_, ⟨⟨fl.erase d.file, ch,
        hvlay.congr rfl rfl rfl rfl, ?_⟩, rfl, fun g K hK => ?_⟩⟩
    · have hfree := hulay.unlinkFree_eq huG
      simp only [ufsClose, lookupDesc_slot htab hi, ok_bind, load_some hF, pure_eq_ok]
      rw [if_pos hlast, ← hG, ← hu, ← bind_assoc, hfree, ok_bind, hv, hu]
      rfl
    · rw [if_pos hlast] at hcons
      rw [hutable v, hvtable, Table.forget]
      dsimp only
      rw [← hvac] at hcons
      exact hcons
    · have hgd : g ≠ d.file := by
        rintro rfl
        rw [hv] at hK
        simp [withoutFile] at hK
      have hg : g ∈ fl := List.mem_of_mem_erase ((hvlay.alloc g).mpr ⟨K, hK⟩)
      rcases (hulay.alloc g).mp hg with ⟨L, hL⟩
      -- the files that stay are not touched by the removal
      have huv : SameFile u v g := hv ▸ hulay.withoutFile_sameFile huG hgd hg
      refine ((husame g L hL).trans huv).trans ?_
      refine stores_congr ?_ ?_ ?_ g <;> rfl
  · -- the file stays
    refine ⟨{ u with
      fileDescriptors := s.fileDescriptors.set i none
      fileDescriptorUsed := s.fileDescriptorUsed - 1 }, ?_, ⟨⟨fl, ch,
        hulay.congr rfl rfl rfl rfl, ?_⟩, rfl, fun g K hK => ?_⟩⟩
    · simp only [ufsClose, lookupDesc_slot htab hi, ok_bind, load_some hF, pure_eq_ok]
      rw [if_neg hlast, ← hG, hu]
      rfl
    · rw [if_neg hlast] at hcons
      rw [hutable u, hvac]
      exact hcons
    · refine (husame g K hK).trans ?_
      refine stores_congr ?_ ?_ ?_ g <;> rfl

theorem ufsClose_spec (h : Inv s) (fd : Int) :
    ufsClose s fd = .ok (fail s .noFile) ∨
      ∃ t, ∃ i : Nat, ∃ d, fd = (i : Int) + 1 ∧ s.fileDescriptors[i]? = some (some d) ∧
        ufsClose s fd = .ok (0, t) ∧ Closed s t i := by
  rcases h with ⟨fl, ch, hlay, htab⟩
  rcases lookupDesc_cases htab fd with hnone | ⟨i, d, rfl, hi, -⟩
  · left
    simp only [ufsClose, hnone, ok_bind, pure_eq_ok]
  · right
    rcases ufsClose_slot ⟨fl, ch, hlay, htab⟩ hi with ⟨t, ht, hclosed⟩
    exact ⟨t, i, d, rfl, hi, ht, hclosed⟩

/-! ## `ufs_delete` and `ufs_destroy` -/

theorem ufsDelete_spec (h : Inv s) (filename : List UInt8) :
    ufsDelete s filename = .ok (fail s .noFile) ∨
      ∃ t, ufsDelete s filename = .ok (0, t) ∧ Inv t ∧
        t.fileDescriptors = s.fileDescriptors ∧ SameFiles s t := by
  rcases h with ⟨fl, ch, hlay, htab⟩
  cases hfind : fl.find? (visible s.files filename) with
  | none =>
    left
    simp only [ufsDelete, hlay.findFile_eq, hfind, ok_bind, pure_eq_ok]
  | some f =>
    right
    rcases (hlay.alloc f).mp (List.mem_of_find?_eq_some hfind) with ⟨F, hF⟩
    by_cases hrefs : F.refs ≤ 0
    · -- no descriptor is left, so the file goes at once
      have hcons : (withoutFile s ch f F).table.Consistent := by
        rw [table_withoutFile]
        exact htab.forget (htab.unreferenced (table_entry hF) hrefs)
      refine ⟨withoutFile s ch f F, ?_, ⟨_, _, hlay.withoutFile hF, hcons⟩, rfl, fun g G hG => ?_⟩
      · have hfree := hlay.unlinkFree_eq hF
        simp only [ufsDelete, hlay.findFile_eq, hfind, ok_bind, load_some hF, hrefs, if_true,
          ← bind_assoc, hfree, pure_eq_ok]
      · have hgf : g ≠ f := by
          rintro rfl
          simp [withoutFile] at hG
        have hg : g ∈ fl :=
          List.mem_of_mem_erase (((hlay.withoutFile hF).alloc g).mpr ⟨G, hG⟩)
        exact hlay.withoutFile_sameFile hF hgf hg
    · -- the file becomes a ghost, and its name is free
      have hpos : 0 < F.entry.refs := by
        change 0 < F.refs
        omega
      have htlay := hlay.setFile (G := { F with isGhost := true }) hF rfl rfl rfl rfl
      have hcons : (s.setFile f { F with isGhost := true }).table.Consistent := by
        rw [table_setFile]
        exact htab.hide (table_entry hF) hpos
      refine ⟨s.setFile f { F with isGhost := true }, ?_, ⟨fl, ch, htlay, hcons⟩, rfl,
        fun g G _ => ?_⟩
      · simp only [ufsDelete, hlay.findFile_eq, hfind, ok_bind, load_some hF, hrefs, if_false,
          pure_eq_ok]
      · refine hlay.sameFile htlay rfl ?_ fun p _ => rfl
        by_cases hg : g = f
        · simp [State.setFile, hg, hF]
        · simp [State.setFile, store_ne _ _ hg]

/-- The loop of `ufs_destroy` frees every file on the list. -/
theorem freeFiles_seg (fuel : Nat) (hown : Owns s fl ch) {pr hd la : Option Ptr}
    (hseg : Seg s.fileNext s.filePrev pr hd fl la none) (hfuel : fl.length ≤ fuel) :
    ∃ t, freeFiles fuel s hd = .ok t ∧ Owns t [] ch ∧ t.fileDescriptors = s.fileDescriptors ∧
      t.fileDescriptorUsed = s.fileDescriptorUsed ∧
      t.fileDescriptorCapacity = s.fileDescriptorCapacity := by
  induction fl generalizing fuel s pr hd with
  | nil =>
    refine ⟨s, ?_, hown, rfl, rfl, rfl⟩
    rw [hseg.1]
    cases fuel <;> rfl
  | cons f fl ih =>
    have hnodup := hown.nodup
    obtain ⟨rfl, -, ht⟩ := hseg
    cases fuel with
    | zero => simp at hfuel
    | succ fuel =>
      rcases (hown.alloc f).mp (by simp) with ⟨F, hF⟩
      have hfree := hown.free (f := f) (by simp)
      rw [List.erase_cons_head] at hfree
      have hnext : s.fileNext f = F.next := by simp [State.fileNext, hF]
      have hne : ∀ g ∈ fl, g ≠ f := fun g hg hgf => (List.nodup_cons.mp hnodup).1 (hgf ▸ hg)
      rw [hnext] at ht
      rcases ih fuel hfree (Seg.congr ht
        (fun g hg => by simp only [State.fileNext, free_ne _ (hne g hg)])
        (fun g hg => by simp only [State.filePrev, free_ne _ (hne g hg)]))
        (by simpa using hfuel) with ⟨t, hloop, htown, hslots, hused, hcap⟩
      refine ⟨t, ?_, htown, hslots, hused, hcap⟩
      simp only [freeFiles, load_some hF, ok_bind, ufsFreeFile_eq hown hF, hloop]

theorem ufsDestroy_spec (h : Inv s) :
    ∃ t, ufsDestroy s = .ok t ∧ Inv t ∧ t.fileDescriptors = [] ∧ ∀ g, t.files g = none := by
  rcases h with ⟨fl, ch, hlay, -⟩
  have hlen : fl.length ≤ s.brk := length_le_of_bound hlay.nodup hlay.fileBound
  have hlay' : Layout { s with
      fileDescriptors := [], fileDescriptorCapacity := 0, fileDescriptorUsed := 0 } fl ch :=
    hlay.congr rfl rfl rfl rfl
  rcases freeFiles_seg s.brk hlay'.toOwns hlay'.listed hlen with
    ⟨t, hloop, htown, hslots, hused, hcap⟩
  have hnone : ∀ g, t.files g = none := by
    intro g
    cases hg : t.files g with
    | none => rfl
    | some G => cases (htown.alloc g).mpr ⟨G, hg⟩
  refine ⟨{ t with fileList := none }, ?_, ⟨[], ch, ⟨⟨htown.nodup, htown.alloc, htown.fileBound,
    htown.chain, htown.valid, htown.apart, htown.blockBound⟩, ⟨rfl, rfl⟩⟩, ?_⟩, hslots, hnone⟩
  · simp only [ufsDestroy, hloop, ok_bind, pure_eq_ok]
  · have htable : ({ t with fileList := none } : State).table = Table.empty := by
      simp only [State.table, Table.empty, hslots, hused, hcap, List.map_nil, Table.mk.injEq,
        true_and]
      funext g
      rw [hnone g]
      rfl
    rw [htable]
    exact .empty

end SystemProgramming.UserFs
