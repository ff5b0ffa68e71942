import SystemProgramming.UserFs.Access

/-!
# Resizing

`ufs_resize` cuts blocks off the end of the chain or adds cleared ones.  Both directions are shown
to move the chain of the file alone; cutting also moves back the descriptors of that file.
-/

open DoublyLinked Fallible

namespace SystemProgramming.UserFs

variable {s t : State} {fl : List Ptr} {ch : Ptr → List Ptr} {f g : Ptr} {F G : File} {i : Nat}
  {d : FileDesc} {ps qs : List Ptr} {m : Malloc} {n : Nat}

theorem lastOccupied_bounds (n : Nat) : 1 ≤ lastOccupied n ∧ lastOccupied n ≤ blockSize := by
  have hlt : n % blockSize < blockSize := Nat.mod_lt _ (by decide)
  unfold lastOccupied
  by_cases hzero : n % blockSize = 0
  · rw [if_pos hzero]
    exact ⟨by decide, le_refl _⟩
  · rw [if_neg hzero]
    omega

theorem Cell.Valid.setOccupied {c : Cell} (h : c.Valid) (n : Nat) :
    ({ c with occupied := lastOccupied n } : Cell).Valid := by
  have hb := lastOccupied_bounds n
  refine ⟨h.memory, Int.natCast_nonneg _, ?_⟩
  change ((lastOccupied n : Nat) : Int) ≤ (blockSize : Nat)
  omega

/-! ## Cutting -/

/-- One round of the cutting loop takes the last block off the chain. -/
theorem truncateBlocks_step {blocks : Heap Block} {hd : Option Ptr} {l : Ptr} {xs : List Ptr}
    (h : Linked (fun p => (blocks p).bind Block.next) (fun p => (blocks p).bind Block.prev) hd
      (xs ++ [l]) (some l))
    (halloc : ∀ p ∈ xs ++ [l], ∃ b, blocks p = some b) :
    ∃ rest : Heap Block,
      (∀ n, truncateBlocks (n + 1) blocks (some l) = truncateBlocks n rest xs.getLast?) ∧
      Linked (fun p => (rest p).bind Block.next) (fun p => (rest p).bind Block.prev)
        (if xs = [] then none else hd) xs xs.getLast? ∧
      (∀ p ∈ xs, (rest p).map Block.cell = (blocks p).map Block.cell) ∧ rest l = none ∧
      ∀ p, p ∉ xs ++ [l] → rest p = blocks p := by
  have hnodup := Seg.nodup h
  have hlx : l ∉ xs := fun hmem =>
    (List.disjoint_of_nodup_append hnodup hmem (by simp)).elim
  rcases halloc l (by simp) with ⟨b, hb⟩
  rcases seg_append.mp h with ⟨k, m, hxs, -, hbk, -⟩
  -- the loop goes back by `prev`
  have hprev : b.prev = xs.getLast? := by
    have hlast := Seg.last_eq hxs
    rw [Option.or_none] at hlast
    simpa [hb, hlast] using hbk
  cases hq : xs.getLast? with
  | none =>
    -- the only block of the chain
    obtain rfl : xs = [] := by simpa using hq
    refine ⟨free blocks l, fun n => ?_, ⟨rfl, rfl⟩, by simp, free_self _ _, fun p hp => ?_⟩
    · rw [hq] at hprev
      simp only [truncateBlocks, load_some hb, ok_bind, hprev, pure_eq_ok]
    · exact free_ne _ (by simpa using hp)
  | some q =>
    -- there is a block before it, which becomes the last one
    have hqx : q ∈ xs := List.mem_of_getLast? hq
    have hql : q ≠ l := fun heq => hlx (heq ▸ hqx)
    rcases halloc q (by simp [hqx]) with ⟨Q, hQ⟩
    rw [hq] at hprev
    obtain ⟨rest, hrest⟩ : ∃ rest, rest = free (store blocks q { Q with next := none }) l := ⟨_, rfl⟩
    have hrestq : rest q = some { Q with next := none } := by
      rw [hrest, free_ne _ hql, store_self]
    have hreste : ∀ p, p ≠ l → p ≠ q → rest p = blocks p := by
      intro p hpl hpq
      rw [hrest, free_ne _ hpl, store_ne _ _ hpq]
    have hpl : ∀ p ∈ xs, p ≠ l := fun p hp heq => hlx (heq ▸ hp)
    have hpv : (blocks l).bind Block.prev = some q := by rw [hb, Option.bind_some, hprev]
    refine ⟨rest, fun n => ?_, ?_, fun p hp => ?_, by rw [hrest, free_self], fun p hp => ?_⟩
    · simp only [truncateBlocks, load_some hb, ok_bind, hprev, load_some hQ, pure_eq_ok, hrest]
    · have hcut : Linked (fun p => (rest p).bind Block.next) (fun p => (rest p).bind Block.prev)
          (if xs = [] then none else hd) xs ((blocks l).bind Block.prev) := by
        refine Linked.dropLast h (fun p hp => ?_) (fun p hp hne => ?_) (fun p hp => ?_)
        · by_cases hpq : p = q
          · simp [hpq, hrestq, hQ]
          · rw [hreste p (hpl p hp) hpq]
        · have hpq : p ≠ q := fun heq => hne (by rw [hpv, heq])
          rw [hreste p (hpl p hp) hpq]
        · obtain rfl : q = p := by simpa [hpv] using hp
          simp [hrestq]
      rwa [hpv] at hcut
    · by_cases hpq : p = q
      · simp [hpq, hrestq, hQ, Block.cell]
      · rw [hreste p (hpl p hp) hpq]
    · have hp' : p ∉ xs ∧ p ≠ l := by simpa using hp
      exact hreste p hp'.2 fun heq => hp'.1 (heq ▸ hqx)

theorem truncateBlocks_seg {hd : Option Ptr} (ys zs : List Ptr) {blocks : Heap Block}
    (h : Linked (fun p => (blocks p).bind Block.next) (fun p => (blocks p).bind Block.prev) hd
      (ys ++ zs) (ys ++ zs).getLast?)
    (halloc : ∀ p ∈ ys ++ zs, ∃ b, blocks p = some b) :
    ∃ rest : Heap Block,
      truncateBlocks zs.length blocks (ys ++ zs).getLast? = .ok (rest, ys.getLast?) ∧
      Linked (fun p => (rest p).bind Block.next) (fun p => (rest p).bind Block.prev)
        (if ys = [] then none else hd) ys ys.getLast? ∧
      (∀ p ∈ ys, (rest p).map Block.cell = (blocks p).map Block.cell) ∧
      (∀ p ∈ zs, rest p = none) ∧ ∀ p, p ∉ ys ++ zs → rest p = blocks p := by
  induction zs using List.reverseRecOn generalizing blocks hd with
  | nil =>
    rw [List.append_nil] at h halloc ⊢
    refine ⟨blocks, rfl, ?_, fun _ _ => rfl, by simp, fun _ _ => rfl⟩
    by_cases hnil : ys = []
    · subst hnil
      exact ⟨rfl, rfl⟩
    · rwa [if_neg hnil]
  | append_singleton zs l ih =>
    rw [← List.append_assoc] at h halloc ⊢
    have hnodup := Seg.nodup h
    rw [List.getLast?_concat] at h ⊢
    -- the last block is freed, and the rest of the loop runs on what is left
    rcases truncateBlocks_step h halloc with ⟨mid, hstep, hlinked, hcells, hl, hsame⟩
    have hmid : ∀ p ∈ ys ++ zs, ∃ b, mid p = some b := by
      intro p hp
      rcases halloc p (List.mem_append_left _ hp) with ⟨b, hb⟩
      have hcell := hcells p hp
      rw [hb, Option.map_some, Option.map_eq_some_iff] at hcell
      exact hcell.imp fun _ hc => hc.1
    rcases ih hlinked hmid with ⟨rest, hloop, hrlinked, hrcells, hrfreed, hrsame⟩
    -- the loop does not come back to it
    have hlout : l ∉ ys ++ zs := fun hmem =>
      (List.disjoint_of_nodup_append hnodup hmem (by simp)).elim
    refine ⟨rest, ?_, ?_, fun p hp => ?_, fun p hp => ?_, fun p hp => ?_⟩
    · rw [List.length_append, List.length_singleton, hstep, hloop]
    · by_cases hnil : ys = []
      · rwa [if_pos hnil] at hrlinked ⊢
      · rw [if_neg hnil, if_neg (by simp [hnil])] at hrlinked
        rwa [if_neg hnil]
    · rw [hrcells p hp, hcells p (by simp [hp])]
    · rcases List.mem_append.mp hp with hp | hp
      · exact hrfreed p hp
      · rw [List.mem_singleton.mp hp, hrsame l hlout, hl]
    · rw [hrsame p fun hmem => hp (List.mem_append_left _ hmem), hsame p hp]

/-- A chain that is too short makes the cutting loop go through a null pointer. -/
theorem truncateBlocks_short {hd : Option Ptr} (n : Nat) (xs : List Ptr) {blocks : Heap Block}
    (h : Linked (fun p => (blocks p).bind Block.next) (fun p => (blocks p).bind Block.prev) hd xs
      xs.getLast?)
    (halloc : ∀ p ∈ xs, ∃ b, blocks p = some b) :
    truncateBlocks (xs.length + (n + 1)) blocks xs.getLast? = .error .nullPointer := by
  induction xs using List.reverseRecOn generalizing blocks hd with
  | nil => rw [List.length_nil, Nat.zero_add]; rfl
  | append_singleton xs l ih =>
    rw [List.getLast?_concat] at h ⊢
    rcases truncateBlocks_step h halloc with ⟨mid, hstep, hlinked, hcells, -⟩
    have hmid : ∀ p ∈ xs, ∃ b, mid p = some b := by
      intro p hp
      rcases halloc p (List.mem_append_left _ hp) with ⟨b, hb⟩
      have hcell := hcells p hp
      rw [hb, Option.map_some, Option.map_eq_some_iff] at hcell
      exact hcell.imp fun _ hc => hc.1
    have hlen : (xs ++ [l]).length + (n + 1) = xs.length + (n + 1) + 1 := by
      rw [List.length_append, List.length_singleton]
      omega
    rw [hlen, hstep, ih hlinked hmid]

theorem setLast_eq_set (n : Int) {cs : List Cell} {c : Cell} (hc : cs.getLast? = some c) :
    setLast n cs = cs.set (cs.length - 1) { c with occupied := n } := by
  rcases List.eq_nil_or_concat' cs with rfl | ⟨ds, e, rfl⟩
  · cases hc
  · obtain rfl : e = c := by simpa using hc
    rw [setLast_concat, List.length_append, List.length_singleton, Nat.add_sub_cancel,
      List.set_append_right _ _ (le_refl _), Nat.sub_self, List.set_cons_zero]

/-- The number of bytes in the last block is set. -/
theorem FileChain.setLast (h : FileChain s f F ps) {l : Ptr} {b : Block}
    (hl : ps.getLast? = some l) (hb : s.blocks l = some b) (n : Nat) :
    Relayout s (s.setBlock l { b with occupied := lastOccupied n }) f F F ps ps ∧
      (s.setBlock l { b with occupied := lastOccupied n }).cells ps =
        UserFs.setLast (lastOccupied n) (s.cells ps) := by
  have hmem : l ∈ ps := List.mem_of_getLast? hl
  have hbv : b.cell.Valid := by
    rcases h.valid l hmem with ⟨c, hc, hcv⟩
    obtain rfl : b = c := by simpa [hb] using hc
    exact hcv
  refine ⟨h.rewrite hmem hb rfl rfl (hbv.setOccupied n), ?_⟩
  have hidx : ps[ps.length - 1]? = some l := by rw [← List.getLast?_eq_getElem?, hl]
  have hlast : (s.cells ps).getLast? = some b.cell := by
    rw [List.getLast?_eq_getElem?, cells_length, getElem?_cells hidx hb]
  rw [cells_set h.nodup hidx, setLast_eq_set _ hlast, cells_length]
  rfl

/-- Descriptors of the truncated file move back to its end, the others stay. -/
theorem clampOffsets_getElem? (file : Ptr) (n : Nat) (slots : List (Option FileDesc)) (i : Nat) :
    (clampOffsets file n slots)[i]? = slots[i]?.map (Option.map fun d =>
      if d.file = file ∧ d.offset > n then { d with offset := n } else d) := by
  rw [clampOffsets, List.getElem?_map]

theorem clampOffsets_files (file : Ptr) (n : Nat) (slots : List (Option FileDesc)) :
    (clampOffsets file n slots).map (Option.map FileDesc.file) =
      slots.map (Option.map FileDesc.file) := by
  rw [clampOffsets, List.map_map]
  congr 1
  funext o
  cases o with
  | none => rfl
  | some d =>
    simp only [Function.comp_apply, Option.map_some, Option.some.injEq]
    split <;> rfl

/-- How many blocks `ufs_resize` cuts off. -/
def surplus (size newSize : Nat) : Nat := blockCount size - blockCount newSize

/-- Cutting a file down to `newSize` bytes when its chain is long enough. -/
theorem shrinkFile_eq (h : FileChain s f F (ps ++ qs)) (hqs : qs.length = surplus F.size n)
    (hcap : s.fileDescriptorCapacity ≤ s.fileDescriptors.length)
    (hps : ps = [] → n = 0) :
    ∃ t G, shrinkFile s f n = .ok (0, { t with
        fileDescriptors := clampOffsets f n s.fileDescriptors }) ∧
      Relayout s t f F G (ps ++ qs) ps ∧ G.size = n ∧
      t.cells ps = UserFs.setLast (lastOccupied n) (s.cells ps) := by
  have hlast := h.last_eq
  have hlinked := h.linked
  rw [hlast] at hlinked
  -- the loop frees `qs` and leaves `ps`, with its cells
  rcases truncateBlocks_seg ps qs hlinked (fun p hp => (h.valid p hp).imp fun _ hb => hb.1) with
    ⟨rest, hloop, hrlinked, hrcells, hrfreed, hrsame⟩
  -- so no freed block is among those that stay
  have hdisj : ∀ p ∈ ps, p ∉ qs := fun p hp hq =>
    (List.disjoint_of_nodup_append h.nodup hp hq).elim
  have hbound : ∀ p b, rest p = some b → p < s.brk := by
    intro p b hb
    by_cases hmem : p ∈ ps ++ qs
    · exact h.lt_brk p hmem
    · rw [hrsame p hmem] at hb
      exact h.bound p b hb
  have hvalid : ∀ p ∈ ps, ∃ b, rest p = some b ∧ b.cell.Valid := by
    intro p hp
    rcases h.valid p (List.mem_append_left _ hp) with ⟨b, hb, hbv⟩
    have hcell := hrcells p hp
    rw [hb, Option.map_some, Option.map_eq_some_iff] at hcell
    rcases hcell with ⟨c, hc, hcb⟩
    exact ⟨c, hc, hcb ▸ hbv⟩
  -- the cut chain, before the last block is trimmed
  have hcut : ∀ G : File, G = { F with
      firstBlock := if ps = [] then none else F.firstBlock
      lastBlock := ps.getLast?
      size := n } →
      Relayout s (({ s with blocks := rest } : State).setFile f G) f F G (ps ++ qs) ps := by
    intro G hG
    refine ⟨h, ⟨store_self _ _ _, ?_, hvalid, hbound⟩, ?_, rfl, rfl, rfl, rfl,
      fun g hg => store_ne _ _ hg, le_refl _, fun p _ hp => hrsame p hp,
      fun p hp => .inl (List.mem_append_left _ hp)⟩
    · rw [hG]
      exact hrlinked
    · rw [hG]
  have hcells : s.cells ps = ({ s with blocks := rest } : State).cells ps := by
    apply List.map_congr_left
    intro p hp
    rw [← hrcells p hp]
  rw [hqs, surplus] at hloop
  rw [hlast.symm] at hloop
  rcases List.eq_nil_or_concat' ps with rfl | ⟨xs, l, rfl⟩
  · -- every block goes
    obtain rfl : n = 0 := hps rfl
    refine ⟨_, _, ?_, hcut _ rfl, rfl, rfl⟩
    have hzero : blockCount 0 = 0 := by decide
    rw [hzero] at hloop
    simp only [shrinkFile, load_some h.file, ok_bind, hloop, List.getLast?_nil, hzero, and_self,
      if_true, pure_eq_ok, State.setFile, if_pos hcap]
  · have hl : (xs ++ [l]).getLast? = some l := List.getLast?_concat
    rcases hvalid l (by simp) with ⟨b, hb, -⟩
    have hrel := hcut _ rfl
    have hbs : (({ s with blocks := rest } : State).setFile f { F with
      firstBlock := if xs ++ [l] = [] then none else F.firstBlock
      lastBlock := (xs ++ [l]).getLast?
      size := n }).blocks l = some b := hb
    -- the last block that stays is trimmed
    rcases hrel.after.setLast hl hbs n with ⟨hset, hcellset⟩
    refine ⟨_, _, ?_, hrel.trans hset, rfl, ?_⟩
    · have hne : ¬ xs ++ [l] = [] := by simp
      simp only [shrinkFile, load_some h.file, ok_bind, hloop, hl, load_some hb, if_neg hne,
        pure_eq_ok, State.setFile, State.setBlock, if_pos hcap]
    · rw [hcellset, hcells]
      rfl

/-- Cutting runs into a null pointer, or the assertion, when the chain is shorter than the size
says. -/
theorem shrinkFile_fault (h : FileChain s f F ps)
    (hshort : ps.length < surplus F.size n ∨ (ps.length = surplus F.size n ∧ n ≠ 0)) :
    ∃ e, shrinkFile s f n = .error e := by
  have hlast := h.last_eq
  have hlinked := h.linked
  rw [hlast] at hlinked
  have halloc : ∀ p ∈ ps, ∃ b, s.blocks p = some b := fun p hp =>
    (h.valid p hp).imp fun _ hb => hb.1
  rcases hshort with hlt | ⟨heq, hn⟩
  · have hloop := truncateBlocks_short (surplus F.size n - ps.length - 1) ps hlinked halloc
    rw [show ps.length + (surplus F.size n - ps.length - 1 + 1) = surplus F.size n by omega,
      surplus, ← hlast] at hloop
    refine ⟨.nullPointer, ?_⟩
    simp only [shrinkFile, load_some h.file, ok_bind, hloop]
    rfl
  · rcases truncateBlocks_seg [] ps hlinked halloc with ⟨rest, hloop, -⟩
    rw [List.nil_append, heq, surplus, ← hlast] at hloop
    refine ⟨.assertion, ?_⟩
    simp only [shrinkFile, load_some h.file, ok_bind, hloop, List.getLast?_nil, hn, false_and,
      if_false]
    rfl

/-! ## Growing -/

/-- What `ufs_resize` does after the growing loop. -/
def finishGrow (s : State) (p : Ptr) (newSize : Nat) : Run (Int × State) := do
  let file ← load s.files (some p)
  let last ← load s.blocks file.lastBlock
  match file.lastBlock with
  | none => .error .nullPointer
  | some l =>
    let s := s.setBlock l { last with occupied := lastOccupied newSize }
    pure (0, s.setFile p { file with size := newSize })

theorem growFile_eq (hF : s.files f = some F) (m : Malloc) (n : Nat) :
    growFile m s f n = growLoop m f (blockCount n - blockCount F.size) s >>= fun s =>
      finishGrow s f n := by
  simp only [growFile, load_some hF, ok_bind]
  rfl

theorem setBlock_setBlock (s : State) (p : Ptr) (b c : Block) :
    (s.setBlock p b).setBlock p c = s.setBlock p c := by
  simp [State.setBlock, store]

/-- What the last block has in `occupied` before the loop is overwritten by it, or after it. -/
theorem growLoop_forget (hF : s.files f = some F) {l : Ptr} {b : Block} (hl : F.lastBlock = some l)
    (hb : s.blocks l = some b) (hlt : l < s.brk) (o : Int) (m : Malloc) (k n : Nat) :
    (growLoop m f k (s.setBlock l { b with occupied := o }) >>= fun s => finishGrow s f n) =
      growLoop m f k s >>= fun s => finishGrow s f n := by
  have hself : (s.setBlock l { b with occupied := o }).blocks l = some { b with occupied := o } :=
    store_self _ _ _
  have hFl : (s.setBlock l { b with occupied := o }).files f = some F := hF
  cases k with
  | zero =>
    simp only [growLoop, ok_bind, finishGrow, load_some hF, load_some hFl, hl, load_some hb,
      load_some hself, setBlock_setBlock]
  | succ k =>
    -- The first round overwrites `occupied` of the last block, so what it was is lost.
    have hround : growBlock m (s.setBlock l { b with occupied := o }) f = growBlock m s f := by
      have hlb : l ≠ s.brk := hlt.ne
      obtain ⟨new, hnew⟩ : ∃ new : Block, new =
        { memory := List.replicate blockSize 0, occupied := m.occupied s.brk, next := none,
          prev := some l } := ⟨_, rfl⟩
      have hb1 : store s.blocks s.brk new l = some b := by rw [store_ne _ _ hlb, hb]
      have hb2 : store (store s.blocks l { b with occupied := o }) s.brk new l =
          some { b with occupied := o } := by
        rw [store_ne _ _ hlb, store_self]
      have hstore : ∀ c, store (store (store s.blocks l { b with occupied := o }) s.brk new) l c =
          store (store s.blocks s.brk new) l c := by
        intro c
        funext q
        by_cases hql : q = l
        · rw [hql, store_self, store_self]
        · rw [store_ne _ _ hql, store_ne _ _ hql]
          by_cases hqb : q = s.brk
          · rw [hqb, store_self, store_self]
          · rw [store_ne _ _ hqb, store_ne _ _ hqb, store_ne _ _ hql]
      simp only [growBlock, State.setBlock, load_some hF, ok_bind, hl, ← hnew, load_some hb1,
        load_some hb2, pure_eq_ok, State.setFile, hstore]
    simp only [growLoop, hround]

/-- One round of the growing loop, with the new block declared empty for the time being. -/
theorem growBlock_eq (h : FileChain s f F ps) (m : Malloc) :
    ∃ t G b, growBlock m s f = .ok t ∧ G.lastBlock = some s.brk ∧ t.files f = some G ∧
      t.blocks s.brk = some b ∧ s.brk < t.brk ∧ G.size = F.size ∧
      Relayout s (t.setBlock s.brk { b with occupied := 0 }) f F G ps (ps ++ [s.brk]) ∧
      (t.setBlock s.brk { b with occupied := 0 }).cells (ps ++ [s.brk]) =
        UserFs.setLast blockSize (s.cells ps) ++ [⟨List.replicate blockSize 0, 0⟩] := by
  -- the new block, and the file with it at the end of its list
  obtain ⟨new, hnew⟩ : ∃ new : Block, new =
    { memory := List.replicate blockSize 0, occupied := m.occupied s.brk, next := none,
      prev := F.lastBlock } := ⟨_, rfl⟩
  obtain ⟨G, hG⟩ : ∃ G : File, G = { F with
    firstBlock := F.firstBlock.or (some s.brk), lastBlock := some s.brk } := ⟨_, rfl⟩
  have hor : (if F.firstBlock = none then some s.brk else F.firstBlock) =
      F.firstBlock.or (some s.brk) := by
    cases F.firstBlock <;> rfl
  have hempty : ({ new with occupied := 0 } : Block).cell.Valid := by
    rw [hnew]
    exact ⟨List.length_replicate, le_refl _, Int.natCast_nonneg _⟩
  have hcell : ({ new with occupied := 0 } : Block).cell = ⟨List.replicate blockSize 0, 0⟩ := by
    rw [hnew]
    rfl
  -- the last block, if there is one, is linked to the new one and full from now on
  obtain ⟨blocks, hblocks⟩ : ∃ blocks : Heap Block, blocks =
    match F.lastBlock with
    | none => store s.blocks s.brk new
    | some l => match s.blocks l with
      | none => store s.blocks s.brk new
      | some b => store (store s.blocks s.brk new) l
          { b with next := some s.brk, occupied := blockSize } := ⟨_, rfl⟩
  have hlbrk : ∀ l, F.lastBlock = some l → l ≠ s.brk :=
    fun l hl => (h.lt_brk l (h.last_mem hl)).ne
  -- the heap of the blocks by cases: the new one, the old last one, any other
  have hbn : blocks s.brk = some new := by
    rw [hblocks]
    cases hl : F.lastBlock with
    | none => exact store_self _ _ _
    | some l =>
      rcases h.valid l (h.last_mem hl) with ⟨b, hb, -⟩
      simp only [hb]
      rw [store_ne _ _ (hlbrk l hl).symm, store_self]
  have hbl : ∀ l b, F.lastBlock = some l → s.blocks l = some b →
      blocks l = some { b with next := some s.brk, occupied := blockSize } := by
    intro l b hl hb
    rw [hblocks, hl]
    simp only [hb, store_self]
  have hbo : ∀ q, q ≠ s.brk → F.lastBlock ≠ some q → blocks q = s.blocks q := by
    intro q hq hql
    rw [hblocks]
    cases hl : F.lastBlock with
    | none => exact store_ne _ _ hq
    | some l =>
      have hqne : q ≠ l := fun heq => hql (by rw [hl, heq])
      rcases h.valid l (h.last_mem hl) with ⟨b, hb, -⟩
      simp only [hb]
      rw [store_ne _ _ hqne, store_ne _ _ hq]
  obtain ⟨t, ht⟩ : ∃ t : State, t = { s with
    files := store s.files f G, blocks := blocks, brk := s.brk + 1 } := ⟨_, rfl⟩
  have hround : growBlock m s f = .ok t := by
    rw [ht, hblocks]
    cases hl : F.lastBlock with
    | none =>
      rw [hl] at hnew
      simp only [growBlock, load_some h.file, ok_bind, hl, pure_eq_ok, ← hnew, State.setBlock,
        State.setFile, hor, hG]
    | some l =>
      rcases h.valid l (h.last_mem hl) with ⟨b, hb, -⟩
      have hb' : store s.blocks s.brk new l = some b := by rw [store_ne _ _ (hlbrk l hl), hb]
      rw [hl] at hnew
      simp only [growBlock, load_some h.file, ok_bind, hl, pure_eq_ok, ← hnew, State.setBlock,
        State.setFile, hor, hG, load_some hb', hb]
  -- the caller sets `occupied` of the new block, which no other block sees
  have htn : (t.setBlock s.brk { new with occupied := 0 }).blocks s.brk =
      some { new with occupied := 0 } := store_self _ _ _
  have hto : ∀ q, q ≠ s.brk →
      (t.setBlock s.brk { new with occupied := 0 }).blocks q = blocks q := by
    intro q hq
    rw [ht]
    exact store_ne _ _ hq
  refine ⟨t, G, new, hround, by rw [hG], by rw [ht]; exact store_self _ _ _, by rw [ht]; exact hbn,
    by rw [ht]; exact Nat.lt_succ_self _, by rw [hG], ?_, ?_⟩
  · -- the chain is extended by an empty block, and the old last block keeps its memory
    have hext := h.extend (t := t.setBlock s.brk { new with occupied := 0 })
      { new with occupied := 0 } (by rw [ht]; rfl) (by rw [ht, ← hG]; rfl) htn
      (by rw [hnew]) (by rw [hnew]) hempty
      (fun l b hl hb => ⟨{ b with next := some s.brk, occupied := blockSize }, ?_, rfl, rfl, ?_⟩)
      (fun q hq hql => by rw [hto q hq, hbo q hq hql])
    · rwa [← hG] at hext
    · rw [hto l (hlbrk l hl), hbl l b hl hb]
    · rcases h.valid l (h.last_mem hl) with ⟨c, hc, hcv⟩
      obtain rfl : b = c := by simpa [hb] using hc
      exact ⟨hcv.memory, Int.natCast_nonneg _, le_refl _⟩
  · rw [cells_append]
    congr 1
    · -- of the old cells only the last one differs: it counts as full
      rcases List.eq_nil_or_concat' ps with rfl | ⟨xs, l, rfl⟩
      · rfl
      · have hl : F.lastBlock = some l := by
          rw [h.last_eq, List.getLast?_concat]
        rcases h.valid l (by simp) with ⟨b, hb, -⟩
        have hnodup := h.nodup
        have hxs : s.cells xs = (t.setBlock s.brk { new with occupied := 0 }).cells xs := by
          refine (cells_congr fun q hq => ?_).symm
          have hqb : q ≠ s.brk := (h.lt_brk q (by simp [hq])).ne
          have hql : F.lastBlock ≠ some q := by
            rw [hl]
            rintro ⟨⟩
            exact (List.disjoint_of_nodup_append hnodup hq (by simp)).elim
          rw [hto q hqb, hbo q hqb hql]
        have hlt : (t.setBlock s.brk { new with occupied := 0 }).blocks l =
            some { b with next := some s.brk, occupied := blockSize } := by
          rw [hto l (hlbrk l hl), hbl l b hl hb]
        rw [cells_append, cells_append, ← hxs, cells_cons hb, cells_cons hlt, cells_nil, cells_nil,
          setLast_concat]
        rfl
    · rw [cells_cons htn, cells_nil, hcell]

/-- The growing loop and what follows it, when the chain is not empty in the end. -/
theorem growLoop_eq (h : FileChain s f F ps) (m : Malloc) (k n : Nat) (hne : k + ps.length ≠ 0) :
    ∃ t G qs, (growLoop m f k s >>= fun s => finishGrow s f n) = .ok (0, t) ∧
      Relayout s t f F G ps qs ∧ G.size = n ∧
      t.cells qs = UserFs.setLast (lastOccupied n) (growCells k (s.cells ps)) := by
  induction k generalizing s F ps with
  | zero =>
    rcases List.eq_nil_or_concat' ps with rfl | ⟨xs, l, rfl⟩
    · simp at hne
    · have hl : F.lastBlock = some l := by
        rw [h.last_eq, List.getLast?_concat]
      rcases h.valid l (by simp) with ⟨b, hb, -⟩
      rcases h.setLast List.getLast?_concat hb n with ⟨hset, hcells⟩
      refine ⟨_, _, _, ?_, hset.trans (hset.after.setSize n), rfl, hcells⟩
      simp only [growLoop, ok_bind, finishGrow, load_some h.file, hl, load_some hb, pure_eq_ok]
  | succ k ih =>
    rcases growBlock_eq h m with ⟨t, G, b, hround, hGl, htf, htb, hlt, hsize, hrel, hcells⟩
    rcases ih hrel.after (by simp) with ⟨u, H, qs, hloop, hrest, hHsize, hucells⟩
    rw [growLoop_forget htf hGl htb hlt 0 m k n] at hloop
    refine ⟨u, H, qs, ?_, hrel.trans hrest, hHsize, ?_⟩
    · simp only [growLoop, hround, ok_bind]
      exact hloop
    · rw [hucells, hcells, growCells]

/-- Without a block to be the last one, the end of `ufs_resize` goes through a null pointer. -/
theorem growLoop_fault (h : FileChain s f F []) (m : Malloc) (n : Nat) :
    (growLoop m f 0 s >>= fun s => finishGrow s f n) = .error .nullPointer := by
  have hl : F.lastBlock = none := h.linked.2
  simp only [growLoop, ok_bind, finishGrow, load_some h.file, hl]
  rfl

/-! ## `ufs_resize` -/

/-- A call of `ufs_resize` that returns keeps the invariant, every other file, and the descriptors
of other files. -/
theorem ufsResize_frame (h : Inv s) {fd r : Int} (hok : ufsResize m s fd n = .ok (r, t)) :
    Inv t ∧ ((t.fileDescriptors = s.fileDescriptors ∧ SameFiles s t) ∨
      ∃ (j : Nat) (d : FileDesc), fd = (j : Int) + 1 ∧ s.fileDescriptors[j]? = some (some d) ∧
        (t.fileDescriptors = s.fileDescriptors ∨
          t.fileDescriptors = clampOffsets d.file n s.fileDescriptors) ∧
        ∀ g G, g ≠ d.file → t.files g = some G → SameFile s t g) := by
  rcases h with ⟨fl, ch, hlay, htab⟩
  have hinv : Inv s := ⟨fl, ch, hlay, htab⟩
  rcases lookupDesc_cases htab fd with hnone | ⟨j, d, rfl, hj, hlook⟩
  · simp only [ufsResize, hnone, ok_bind, pure_eq_ok] at hok
    cases hok
    refine ⟨hinv.fail _, .inl ⟨rfl, fun g _ _ => ?_⟩⟩
    refine stores_congr ?_ ?_ ?_ g <;> rfl
  rcases htab.file hj with ⟨F, hF⟩
  have hchain := hlay.fileChain hF
  -- a change of the one chain leaves the other files as they are
  have hother : ∀ (u : State) (G : File) (qs : List Ptr), Relayout s u d.file F G (ch d.file) qs →
      ∀ g K, g ≠ d.file → u.files g = some K → SameFile s u g := by
    intro u G qs hrel g K hg hK
    exact hlay.relayout_sameFile hrel hg (((hlay.relayout hrel).alloc g).mpr ⟨K, hK⟩)
  simp only [ufsResize, hlook, ok_bind, load_some hF] at hok
  by_cases heq : n = F.size
  · rw [if_pos heq] at hok
    cases hok
    exact ⟨hinv, .inl ⟨rfl, fun g _ _ => SameFile.refl _ _⟩⟩
  rw [if_neg heq] at hok
  by_cases hlt : n < F.size
  · rw [if_pos hlt] at hok
    have hcap := (capacity_eq htab).le
    by_cases hshort : (ch d.file).length < surplus F.size n ∨
        ((ch d.file).length = surplus F.size n ∧ n ≠ 0)
    · -- a chain that is too short runs into a null pointer
      rcases shrinkFile_fault hchain hshort with ⟨e, he⟩
      rw [he] at hok
      cases hok
    · -- the blocks that stay, and those that go
      obtain ⟨k, hk⟩ : ∃ k, k = (ch d.file).length - surplus F.size n := ⟨_, rfl⟩
      have hsplit := hchain
      rw [← List.take_append_drop k (ch d.file)] at hsplit
      rcases shrinkFile_eq (n := n) hsplit (by rw [List.length_drop]; omega) hcap (fun hnil => by
        have hlen := congrArg List.length hnil
        rw [List.length_take, List.length_nil] at hlen
        by_contra hn
        omega) with ⟨u, G, hshrink, hrel, -, -⟩
      rw [List.take_append_drop] at hrel
      rw [hshrink] at hok
      cases hok
      refine ⟨(hrel.inv hinv).congr rfl rfl rfl rfl ?_, .inr ⟨j, d, rfl, hj, .inr rfl,
        fun g K hg hK => ?_⟩⟩
      · simp only [State.table, clampOffsets_files, hrel.slots]
      · refine (hother u G _ hrel g K hg hK).trans ?_
        refine stores_congr ?_ ?_ ?_ g <;> rfl
  rw [if_neg hlt] at hok
  by_cases hmax : n > maxFileSize
  · rw [if_pos hmax] at hok
    cases hok
    refine ⟨hinv.fail _, .inl ⟨rfl, fun g _ _ => ?_⟩⟩
    refine stores_congr ?_ ?_ ?_ g <;> rfl
  rw [if_neg hmax, growFile_eq hF] at hok
  by_cases hempty : blockCount n - blockCount F.size + (ch d.file).length = 0
  · -- no block at all runs into one as well
    have hnil : ch d.file = [] := List.length_eq_zero_iff.mp (by omega)
    have hzero : blockCount n - blockCount F.size = 0 := by omega
    rw [hzero, growLoop_fault (hnil ▸ hchain)] at hok
    cases hok
  · rcases growLoop_eq hchain m _ n hempty with ⟨u, G, qs, hgrow, hrel, -, -⟩
    rw [hgrow] at hok
    cases hok
    exact ⟨hrel.inv hinv, .inr ⟨j, d, rfl, hj, .inl hrel.slots, hother t G qs hrel⟩⟩

end SystemProgramming.UserFs
