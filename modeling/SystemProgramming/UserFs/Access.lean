import SystemProgramming.UserFs.Namespace

/-!
# Writing and reading through a descriptor

`ufs_write` and `ufs_read` in terms of the blocks that the file of the descriptor stores: which
bytes and which offset come back, and that nothing but this file and this descriptor changes.
-/

open DoublyLinked Fallible

namespace SystemProgramming.UserFs

variable {s t : State} {fl : List Ptr} {ch : Ptr → List Ptr} {f g : Ptr} {F G : File} {i : Nat}
  {d : FileDesc} {ps qs : List Ptr} {m : Malloc}

/-- Only the recorded size of the file changes. -/
theorem FileChain.setSize (h : FileChain s f F ps) (n : Nat) :
    Relayout s (s.setFile f { F with size := n }) f F { F with size := n } ps ps := by
  refine ⟨h, ⟨store_self _ _ _, h.linked, h.valid, h.bound⟩, rfl, rfl, rfl, rfl, rfl, ?_, le_refl _,
    fun _ _ _ => rfl, fun _ hp => .inl hp⟩
  intro g hg
  exact store_ne _ _ hg

/-- A call moved the offset of the descriptor in slot `i`, and did nothing else to the table. -/
def MovesOffset (s t : State) (i : Nat) (d : FileDesc) : Prop :=
  ∃ o, t.fileDescriptors = s.fileDescriptors.set i (some { d with offset := o })

theorem MovesOffset.ne {j : Nat} (h : MovesOffset s t i d) (hij : i ≠ j) :
    t.fileDescriptors[j]? = s.fileDescriptors[j]? := by
  rcases h with ⟨o, ho⟩
  rw [ho, List.getElem?_set_ne hij]

theorem setDesc_self (hi : s.fileDescriptors[i]? = some (some d)) : s.setDesc i d = s := by
  rcases List.getElem?_eq_some_iff.mp hi with ⟨hlt, hget⟩
  rw [State.setDesc, ← hget, List.set_getElem_self hlt]

theorem Inv.setDesc {d' : FileDesc} (h : Inv s) (hi : s.fileDescriptors[i]? = some (some d))
    (hfile : d'.file = d.file) : Inv (s.setDesc i d') :=
  h.congr rfl rfl rfl rfl (table_setDesc hi hfile)

theorem setDesc_sameFile (s : State) (i : Nat) (d : FileDesc) (g : Ptr) :
    SameFile s (s.setDesc i d) g := by
  refine stores_congr ?_ ?_ ?_ g <;> rfl

/-! ## `ufs_write` -/

/-- The write that passes every check, in terms of the blocks of the chain. -/
theorem ufsWrite_slot (hlay : Layout s fl ch) (htab : s.table.Consistent)
    (hi : s.fileDescriptors[i]? = some (some d)) (hmay : mayWrite d.openFlags = true)
    (hF : s.files d.file = some F) {buf : List UInt8} (hbuf : buf ≠ [])
    (hmax : (F.size + buf.length) % 2 ^ 64 ≤ maxFileSize)
    (hoff : d.offset / blockSize ≤ (ch d.file).length) (m : Malloc) :
    ∃ t G qs, ufsWrite m s ((i : Int) + 1) buf =
        .ok (toSsize buf.length, t.setDesc i { d with offset := d.offset + buf.length }) ∧
      Relayout s t d.file F G (ch d.file) qs ∧ G.size = max F.size (d.offset + buf.length) ∧
      t.cells qs = writeCells (freshMemory m s (ch d.file)) buf.length (s.cells (ch d.file))
        (d.offset / blockSize) buf d.offset := by
  have hchain := hlay.fileChain hF
  have hlen : buf.length ≠ 0 := fun h => hbuf (List.length_eq_zero_iff.mp h)
  have hmax' : ¬ (F.size + buf.length) % 2 ^ 64 > maxFileSize := not_lt.mpr hmax
  have hskip := skipBlocks_seg hchain.linked (fun p hp => (hchain.valid p hp).imp fun _ hb => hb.1) hoff
  rcases writeLoop_eq hchain m (le_refl buf.length) (d.offset / blockSize) d.offset with
    ⟨t, G, qs, hloop, hrel, hsize, hcells⟩
  obtain ⟨u, hu⟩ : ∃ u : State, u = if d.offset + buf.length > G.size then
      t.setFile d.file { G with size := d.offset + buf.length } else t := ⟨_, rfl⟩
  have hwrite : ufsWrite m s ((i : Int) + 1) buf =
      .ok (toSsize buf.length, u.setDesc i { d with offset := d.offset + buf.length }) := by
    simp only [ufsWrite, lookupDesc_slot htab hi, ok_bind, hmay, Bool.not_true, Bool.false_eq_true,
      if_false, hlen, load_some hF, hmax', hskip, hloop, load_some hrel.after.file, pure_eq_ok, hu]
  -- The size is stored after the loop, and only when the write went past it.
  by_cases hgrow : d.offset + buf.length > G.size
  · rw [if_pos hgrow] at hu
    refine ⟨u, _, qs, hwrite, hu ▸ hrel.trans (hrel.after.setSize _), ?_, hu ▸ hcells⟩
    rw [max_eq_right (hsize ▸ hgrow.le)]
  · rw [if_neg hgrow] at hu
    refine ⟨u, G, qs, hwrite, hu ▸ hrel, ?_, hu ▸ hcells⟩
    rw [max_eq_left (hsize ▸ not_lt.mp hgrow), hsize]

/-- Past the end of the chain the walk of `ufs_write` goes through a null pointer. -/
theorem ufsWrite_short (hlay : Layout s fl ch) (htab : s.table.Consistent)
    (hi : s.fileDescriptors[i]? = some (some d)) (hmay : mayWrite d.openFlags = true)
    (hF : s.files d.file = some F) {buf : List UInt8} (hbuf : buf ≠ [])
    (hmax : (F.size + buf.length) % 2 ^ 64 ≤ maxFileSize)
    (hoff : (ch d.file).length < d.offset / blockSize) (m : Malloc) :
    ufsWrite m s ((i : Int) + 1) buf = .error .nullPointer := by
  have hchain := hlay.fileChain hF
  have hlen : buf.length ≠ 0 := fun h => hbuf (List.length_eq_zero_iff.mp h)
  have hmax' : ¬ (F.size + buf.length) % 2 ^ 64 > maxFileSize := not_lt.mpr hmax
  have hskip := skipBlocks_short hchain.linked
    (fun p hp => (hchain.valid p hp).imp fun _ hb => hb.1) hoff
  simp only [ufsWrite, lookupDesc_slot htab hi, ok_bind, hmay, Bool.not_true, Bool.false_eq_true,
    if_false, hlen, load_some hF, hmax', hskip]
  rfl

/-- The checks of `ufs_write`: it fails or does nothing, or goes on to write. -/
theorem ufsWrite_cases (htab : s.table.Consistent) (m : Malloc) (fd : Int) (buf : List UInt8) :
    (∃ r e, ufsWrite m s fd buf = .ok (r, { s with ufsErrorCode := e })) ∨
    ∃ (j : Nat) (d : FileDesc) (F : File), fd = (j : Int) + 1 ∧
      s.fileDescriptors[j]? = some (some d) ∧ mayWrite d.openFlags = true ∧
      s.files d.file = some F ∧ buf ≠ [] ∧ (F.size + buf.length) % 2 ^ 64 ≤ maxFileSize := by
  rcases lookupDesc_cases htab fd with hnone | ⟨j, d, rfl, hj, hlook⟩
  · left
    exact ⟨-1, .noFile, by simp only [ufsWrite, hnone, ok_bind, pure_eq_ok]; rfl⟩
  rcases htab.file hj with ⟨F, hF⟩
  by_cases hmay : mayWrite d.openFlags = true
  · by_cases hbuf : buf = []
    · left
      refine ⟨0, s.ufsErrorCode, ?_⟩
      simp only [ufsWrite, hlook, ok_bind, hmay, hbuf, List.length_nil, if_true, pure_eq_ok]
      rfl
    · by_cases hmax : (F.size + buf.length) % 2 ^ 64 ≤ maxFileSize
      · exact .inr ⟨j, d, F, rfl, hj, hmay, hF, hbuf, hmax⟩
      · left
        have hlen : buf.length ≠ 0 := fun h => hbuf (List.length_eq_zero_iff.mp h)
        have hmax' : (F.size + buf.length) % 2 ^ 64 > maxFileSize := not_le.mp hmax
        refine ⟨-1, .noMem, ?_⟩
        simp only [ufsWrite, hlook, ok_bind, hmay, Bool.not_true, Bool.false_eq_true, if_false,
          hlen, load_some hF, hmax', if_true, pure_eq_ok]
        rfl
  · left
    refine ⟨-1, .noPermission, ?_⟩
    simp only [ufsWrite, hlook, ok_bind, hmay, Bool.not_false, if_true, pure_eq_ok]
    rfl

/-- A call of `ufs_write` that returns keeps the invariant, every other file and every other
descriptor. -/
theorem ufsWrite_frame (h : Inv s) {fd r : Int} {buf : List UInt8}
    (hok : ufsWrite m s fd buf = .ok (r, t)) : Inv t ∧
      ((t.fileDescriptors = s.fileDescriptors ∧ SameFiles s t) ∨
        ∃ (j : Nat) (d : FileDesc), fd = (j : Int) + 1 ∧ s.fileDescriptors[j]? = some (some d) ∧
          MovesOffset s t j d ∧ ∀ g G, g ≠ d.file → t.files g = some G → SameFile s t g) := by
  rcases h with ⟨fl, ch, hlay, htab⟩
  rcases ufsWrite_cases htab m fd buf with ⟨r', e, hkeep⟩ | ⟨j, d, F, rfl, hj, hmay, hF, hbuf, hmax⟩
  · rw [hkeep] at hok
    cases hok
    refine ⟨Inv.fail ⟨fl, ch, hlay, htab⟩ e, .inl ⟨rfl, fun g _ _ => ?_⟩⟩
    refine stores_congr ?_ ?_ ?_ g <;> rfl
  · by_cases hoff : d.offset / blockSize ≤ (ch d.file).length
    · rcases ufsWrite_slot hlay htab hj hmay hF hbuf hmax hoff m with
        ⟨u, G, qs, hwrite, hrel, -, -⟩
      have hres := Prod.mk.inj (Except.ok.inj (hwrite.symm.trans hok))
      obtain ⟨-, rfl⟩ := hres
      have huslot : u.fileDescriptors[j]? = some (some d) := by rw [hrel.slots, hj]
      have huinv : Inv u := hrel.inv ⟨fl, ch, hlay, htab⟩
      refine ⟨huinv.setDesc huslot rfl, .inr ⟨j, d, rfl, hj, ⟨d.offset + buf.length, ?_⟩,
        fun g K hg hK => ?_⟩⟩
      · rw [State.setDesc, hrel.slots]
      · have hgl : g ∈ fl := ((hlay.relayout hrel).alloc g).mpr ⟨K, hK⟩
        exact (hlay.relayout_sameFile hrel hg hgl).trans (setDesc_sameFile u j _ g)
    · rw [ufsWrite_short hlay htab hj hmay hF hbuf hmax (not_le.mp hoff) m] at hok
      cases hok

/-! ## `ufs_read` -/

/-- What `ufs_read` copies, and the offset it ends at, from a file of `size` bytes in the blocks
`cs`. -/
def readFrom (size : Nat) (cs : List Cell) (offset n : Nat) : Run (List UInt8 × Nat) :=
  if offset / blockSize ≤ cs.length ∧ offset < size then
    readCells n (cs.drop (offset / blockSize)) [] offset
  else .ok ([], offset)

/-- `ufs_read` depends on nothing but its descriptor and what the file stores. -/
theorem ufsRead_slot (htab : s.table.Consistent) (hi : s.fileDescriptors[i]? = some (some d))
    (hmay : mayRead d.openFlags = true) {size : Nat} {cs : List Cell}
    (hstores : s.Stores d.file size cs) (n : Nat) :
    ufsRead s ((i : Int) + 1) n = (readFrom size cs d.offset n >>= fun r =>
      .ok ((r.1.length : Int), r.1, s.setDesc i { d with offset := r.2 })) := by
  rcases hstores with ⟨F, ps, hF, rfl, rfl⟩
  have halloc : ∀ p ∈ ps, ∃ b, s.blocks p = some b := fun p hp =>
    (hF.valid p hp).imp fun _ hb => hb.1
  have hskip := skipToBlock_seg hF.linked halloc (d.offset / blockSize)
  have hself : s.setDesc i { d with offset := d.offset } = s := setDesc_self hi
  simp only [ufsRead, lookupDesc_slot htab hi, ok_bind, hmay, Bool.not_true, Bool.false_eq_true,
    if_false, load_some hF.file, hskip, readFrom, cells_length]
  by_cases hshort : d.offset / blockSize ≤ ps.length
  · by_cases hend : d.offset ≥ F.size
    · -- at the end of the file nothing is read
      have hno : ¬ (d.offset / blockSize ≤ ps.length ∧ d.offset < F.size) := fun h => by omega
      simp only [if_pos hshort, if_pos hend, if_neg hno, ok_bind, hself, pure_eq_ok,
        List.length_nil, Nat.cast_zero]
    · have hyes : d.offset / blockSize ≤ ps.length ∧ d.offset < F.size :=
        ⟨hshort, not_le.mp hend⟩
      -- the chain from the block of the offset on
      have hsplit : Linked s.blockNext s.blockPrev F.firstBlock
          (ps.take (d.offset / blockSize) ++ ps.drop (d.offset / blockSize)) F.lastBlock := by
        rw [List.take_append_drop]
        exact hF.linked
      rcases seg_append.mp hsplit with ⟨l, hd, -, hrest⟩
      -- the walk has stopped at this block
      have hhd : hd = ps[d.offset / blockSize]? := by
        rw [← List.head?_drop]
        cases hdrop : ps.drop (d.offset / blockSize) with
        | nil =>
          rw [hdrop] at hrest
          exact hrest.1
        | cons p ps' =>
          rw [hdrop] at hrest
          exact hrest.1
      have hread : readLoop s.blocks n s.brk hd [] d.offset =
          readCells n (s.cells (ps.drop (d.offset / blockSize))) [] d.offset := readLoop_seg hrest
        (fun p hp => halloc p (List.mem_of_mem_drop hp))
        (by rw [List.length_drop]; exact (Nat.sub_le _ _).trans hF.length_le) [] d.offset
      rw [hhd] at hread
      simp only [if_pos hshort, if_neg hend, if_pos hyes, hread, cells_drop, pure_eq_ok]
  · -- behind the last block neither
    have hno : ¬ (d.offset / blockSize ≤ ps.length ∧ d.offset < F.size) := fun h => hshort h.1
    simp only [if_neg hshort, if_neg hno, ok_bind, hself, pure_eq_ok, List.length_nil,
      Nat.cast_zero]

theorem ufsRead_denied (htab : s.table.Consistent) (hi : s.fileDescriptors[i]? = some (some d))
    (hmay : mayRead d.openFlags = false) (n : Nat) :
    ufsRead s ((i : Int) + 1) n = .ok (-1, [], { s with ufsErrorCode := .noPermission }) := by
  simp only [ufsRead, lookupDesc_slot htab hi, ok_bind, hmay, Bool.not_false, if_true, pure_eq_ok]

/-- A call of `ufs_read` that returns moves one offset at most. -/
theorem ufsRead_frame (h : Inv s) {fd r : Int} {n : Nat} {bytes : List UInt8}
    (hok : ufsRead s fd n = .ok (r, bytes, t)) : Inv t ∧ SameFiles s t ∧
      (t.fileDescriptors = s.fileDescriptors ∨
        ∃ (j : Nat) (d : FileDesc), fd = (j : Int) + 1 ∧ s.fileDescriptors[j]? = some (some d) ∧
          MovesOffset s t j d) := by
  rcases h with ⟨fl, ch, hlay, htab⟩
  rcases lookupDesc_cases htab fd with hnone | ⟨j, d, rfl, hj, -⟩
  · simp only [ufsRead, hnone, ok_bind, pure_eq_ok, Except.ok.injEq, Prod.mk.injEq] at hok
    rcases hok with ⟨-, -, rfl⟩
    refine ⟨Inv.fail ⟨fl, ch, hlay, htab⟩ _, fun g _ _ => ?_, .inl rfl⟩
    refine stores_congr ?_ ?_ ?_ g <;> rfl
  rcases htab.file hj with ⟨F, hF⟩
  cases hmay : mayRead d.openFlags with
  | false =>
    rw [ufsRead_denied htab hj hmay] at hok
    cases hok
    refine ⟨Inv.fail ⟨fl, ch, hlay, htab⟩ _, fun g _ _ => ?_, .inl rfl⟩
    refine stores_congr ?_ ?_ ?_ g <;> rfl
  | true =>
    rw [ufsRead_slot htab hj hmay (hlay.stores hF)] at hok
    rcases bind_eq_ok.mp hok with ⟨res, -, hres⟩
    cases hres
    exact ⟨Inv.setDesc ⟨fl, ch, hlay, htab⟩ hj rfl, fun g _ _ => setDesc_sameFile s j _ g,
      .inr ⟨j, d, rfl, hj, _, rfl⟩⟩

end SystemProgramming.UserFs
