import SystemProgramming.UserFs.Isolation
import SystemProgramming.UserFs.Sizes

/-!
# The chain covers the size and the offsets

The blocks of a file have room for its size and for the offset of every descriptor of it, even
though a write may leave more blocks than the size needs and a partial block in the middle.  This
is what keeps the walks of `ufs_write` and the cutting loop of `ufs_resize` on the chain.
-/

open DoublyLinked Fallible
open Runs (Reachable)

namespace SystemProgramming.UserFs

/-! ## Lengths of lists of blocks -/

variable {fresh : Nat → List UInt8} {cs ds : List Cell} {c : Cell} {buf : List UInt8}

/-- The current block is written to unless it is missing or full. -/
theorem writableCell_cases (fresh : Nat → List UInt8) (cs : List Cell) (k : Nat) :
    writableCell fresh cs k =
        (cs ++ [Cell.fresh (fresh cs.length)], cs.length, Cell.fresh (fresh cs.length)) ∨
      ∃ c, cs[k]? = some c ∧ writableCell fresh cs k = (cs, k, c) := by
  unfold writableCell
  cases hc : cs[k]? with
  | none => exact .inl rfl
  | some c =>
    by_cases hfull : c.occupied = blockSize
    · exact .inl (by simp only [if_pos hfull])
    · exact .inr ⟨c, rfl, by simp only [if_neg hfull]⟩

theorem writableCell_mem (hfresh : ∀ i, (fresh i).length = blockSize) (hcs : ∀ c ∈ cs, c.Valid)
    {k j : Nat} (h : writableCell fresh cs k = (ds, j, c)) :
    cs.length ≤ ds.length ∧ j < ds.length ∧ c.Valid ∧ ∀ e ∈ ds, e.Valid := by
  rcases writableCell_cases fresh cs k with hnew | ⟨e, he, hold⟩
  · rw [hnew, Prod.mk.injEq, Prod.mk.injEq] at h
    rcases h with ⟨rfl, rfl, rfl⟩
    have hvalid := fresh_valid (hfresh cs.length)
    refine ⟨by simp, by simp, hvalid, fun e he => ?_⟩
    rcases List.mem_append.mp he with he | he
    · exact hcs e he
    · rw [List.mem_singleton.mp he]
      exact hvalid
  · rw [hold, Prod.mk.injEq, Prod.mk.injEq] at h
    rcases h with ⟨rfl, rfl, rfl⟩
    exact ⟨le_refl _, (List.getElem?_eq_some_iff.mp he).1, hcs e (List.mem_of_getElem? he), hcs⟩

/-- Writing takes no block away. -/
theorem length_le_writeCells (fresh : Nat → List UInt8) (fuel : Nat) (cs : List Cell) (k : Nat)
    (buf : List UInt8) (offset : Nat) :
    cs.length ≤ (writeCells fresh fuel cs k buf offset).length := by
  induction fuel generalizing cs k buf offset with
  | zero => cases buf <;> exact le_refl _
  | succ fuel ih =>
    by_cases hbuf : buf = []
    · rw [hbuf, writeCells_nil]
    rcases writableCell_cases fresh cs k with hnew | ⟨c, -, hold⟩
    · rw [writeCells_step fuel hbuf hnew rfl]
      refine le_trans ?_ (ih _ _ _ _)
      simp
    · rw [writeCells_step fuel hbuf hold rfl]
      refine le_trans ?_ (ih _ _ _ _)
      simp

/-- What is written ends before the chain does, once the first block to write to is not before the
one of the offset.  The later rounds start behind a full block and so open blocks at the end. -/
theorem writeCells_covers (hfresh : ∀ i, (fresh i).length = blockSize) {fuel : Nat}
    (hcs : ∀ c ∈ cs, c.Valid) {k j offset : Nat} (hbuf : buf ≠ []) (hfuel : buf.length ≤ fuel)
    (hcell : writableCell fresh cs k = (ds, j, c)) (hj : offset / blockSize ≤ j) :
    offset + buf.length ≤ blockSize * (writeCells fresh fuel cs k buf offset).length := by
  induction fuel generalizing cs ds c k j buf offset with
  | zero => exact absurd (List.length_eq_zero_iff.mp (by omega)) hbuf
  | succ fuel ih =>
    obtain ⟨n, hn⟩ : ∃ n, n = min buf.length (blockSize - offset % blockSize) := ⟨_, rfl⟩
    rcases writableCell_mem hfresh hcs hcell with ⟨-, hjlt, hc, hds⟩
    have htake : (buf.take n).length = n := by
      rw [List.length_take]
      omega
    have hmod : offset % blockSize < blockSize := Nat.mod_lt _ (by decide)
    have hfit : offset % blockSize + (buf.take n).length ≤ blockSize := by omega
    -- the round ends in block `j` at the latest
    have hround : offset + n ≤ blockSize * (offset / blockSize + 1) := by
      have hdm := Nat.div_add_mod offset blockSize
      rw [Nat.mul_add, Nat.mul_one]
      omega
    rw [writeCells_step fuel hbuf hcell hn]
    obtain ⟨es, hes⟩ : ∃ es, es = ds.set j (c.write (offset % blockSize) (buf.take n)) := ⟨_, rfl⟩
    have hlen : es.length = ds.length := by rw [hes, List.length_set]
    rw [← hes]
    by_cases hrest : buf.drop n = []
    · -- the buffer ends in this round
      have hall : buf.length ≤ n := List.drop_eq_nil_iff.mp hrest
      rw [hrest, writeCells_nil, hlen]
      calc offset + buf.length ≤ offset + n := Nat.add_le_add_left hall _
        _ ≤ blockSize * (offset / blockSize + 1) := hround
        _ ≤ blockSize * ds.length := Nat.mul_le_mul_left _ (by omega)
    · -- or the round fills the block, and the next one is appended
      have hlt : n < buf.length := by
        rw [List.drop_eq_nil_iff] at hrest
        omega
      have hedge : offset % blockSize + n = blockSize := by omega
      have hfull : ∀ e, es[j]? = some e → e.occupied = blockSize := by
        intro e he
        rw [hes, List.getElem?_set_self hjlt, Option.some.injEq] at he
        rw [← he, Cell.write_occupied, htake, hedge, max_eq_left hc.le]
      have hvalid : ∀ e ∈ es, e.Valid := by
        intro e he
        rw [hes] at he
        rcases List.mem_or_eq_of_mem_set he with he | rfl
        · exact hds e he
        · exact hc.write hfit
      have hnext : (offset + n) / blockSize ≤ es.length := by
        rw [hlen]
        calc (offset + n) / blockSize ≤ offset / blockSize + 1 := by
              rw [Nat.div_le_iff_le_mul_add_pred (by decide)]
              omega
          _ ≤ ds.length := by omega
      have hgo := ih hvalid hrest (by rw [List.length_drop]; omega) (writableCell_new fresh hfull)
        hnext
      rw [List.length_drop] at hgo
      omega

/-- The write loop from the block that the walk of `ufs_write` ends at. -/
theorem writeCells_room (hfresh : ∀ i, (fresh i).length = blockSize) (hcs : ∀ c ∈ cs, c.Valid)
    (hbuf : buf ≠ []) {offset : Nat} (hoff : offset / blockSize ≤ cs.length) :
    offset + buf.length ≤
      blockSize * (writeCells fresh buf.length cs (offset / blockSize) buf offset).length := by
  rcases writableCell_cases fresh cs (offset / blockSize) with hnew | ⟨c, -, hold⟩
  · exact writeCells_covers hfresh hcs hbuf (le_refl _) hnew hoff
  · exact writeCells_covers hfresh hcs hbuf (le_refl _) hold (le_refl _)

theorem copyFrom_ok {src bytes : List UInt8} {off : Int} {n : Nat}
    (h : copyFrom src off n = .ok bytes) : 0 ≤ off ∧ off.toNat + n ≤ src.length := by
  unfold copyFrom at h
  split at h
  · assumption
  · cases h

/-- The `int` arithmetic of `ufs_read` gives the offset in the block, or something negative. -/
theorem blockOffset_eq {offset : Nat} (h : 0 ≤ (toInt offset).tmod blockSize) :
    (toInt offset).tmod blockSize = (offset % blockSize : Nat) := by
  have hcast : ((blockSize : Nat) : Int) = 512 := rfl
  have hint : toInt offset % 4294967296 = (offset : Int) % 4294967296 := Int.bmod_emod
  have hdef := Int.tmod_def (toInt offset) 512
  have hlt := Int.tmod_lt_of_pos (toInt offset) (show (0 : Int) < 512 by decide)
  rw [hcast] at h
  rw [Int.natCast_emod, hcast]
  omega

/-- Reading goes on to the next block only at a block boundary, or stops there. -/
theorem readCells_covers {n : Nat} (hcs : ∀ c ∈ cs, c.Valid) {k offset o : Nat}
    {bytes : List UInt8} (hk : offset / blockSize ≤ k)
    (h : readCells n cs buf offset = .ok (bytes, o)) :
    o ≤ max offset (blockSize * (k + cs.length)) := by
  induction cs generalizing buf offset k with
  | nil =>
    cases h
    exact le_max_left _ _
  | cons c cs ih =>
    have hc := hcs c (by simp)
    rw [readCells] at h
    by_cases hmore : (buf.length : Int) < toSsize n
    · rw [if_pos hmore] at h
      by_cases hend : (toInt offset).tmod blockSize - c.occupied ≥ 0
      · simp only [if_pos hend, pure_eq_ok] at h
        cases h
        exact le_max_left _ _
      · simp only [if_neg hend] at h
        rcases bind_eq_ok.mp h with ⟨copied, hcopy, h⟩
        rcases copyFrom_ok hcopy with ⟨hpos, hfit⟩
        -- The bytes copied end in the block they start in, so the walk goes one block further.
        obtain ⟨l, hl⟩ : ∃ l, l = min (c.occupied - (toInt offset).tmod blockSize).toNat
          (n - buf.length) := ⟨_, rfl⟩
        rw [← hl] at h hfit
        rw [blockOffset_eq hpos, Int.toNat_natCast, hc.memory] at hfit
        have hdm := Nat.div_add_mod offset blockSize
        have hstep : offset + l ≤ blockSize * (k + 1) := by
          calc offset + l ≤ blockSize * (offset / blockSize) + blockSize := by omega
            _ = blockSize * (offset / blockSize + 1) := by rw [Nat.mul_add, Nat.mul_one]
            _ ≤ blockSize * (k + 1) := Nat.mul_le_mul_left _ (by omega)
        have hdiv : (offset + l) / blockSize ≤ k + 1 := Nat.div_le_of_le_mul hstep
        have hrest := ih (fun e he => hcs e (by simp [he])) hdiv h
        have hmono : blockSize * (k + 1) ≤ blockSize * (k + (cs.length + 1)) :=
          Nat.mul_le_mul_left _ (by omega)
        rw [List.length_cons]
        rw [Nat.add_assoc, Nat.add_comm 1] at hrest
        omega
    · rw [if_neg hmore] at h
      cases h
      exact le_max_left _ _

@[simp] theorem length_setLast (n : Int) (cs : List Cell) : (setLast n cs).length = cs.length := by
  rcases List.eq_nil_or_concat' cs with rfl | ⟨ds, c, rfl⟩
  · rfl
  · rw [setLast_concat, List.length_append, List.length_append]
    rfl

@[simp] theorem length_growCells (k : Nat) (cs : List Cell) :
    (growCells k cs).length = cs.length + k := by
  induction k generalizing cs with
  | zero => rfl
  | succ k ih =>
    rw [growCells, ih, List.length_append, length_setLast, List.length_singleton]
    omega

theorem blockCount_le_iff {n k : Nat} : blockCount n ≤ k ↔ n ≤ blockSize * k := by
  simp only [blockCount, blockSize]
  omega

variable {m : Malloc} {s t : State} {f g : Ptr} {F G : File} {size i n : Nat} {d : FileDesc}
  {fd r : Int}

/-! ## Slots -/

/-- A slot of the table after one of them has been filled. -/
theorem slot_set {slots : List (Option FileDesc)} {j : Nat} {e : FileDesc}
    (hi : (slots.set j (some e))[i]? = some (some d)) : d = e ∨ slots[i]? = some (some d) := by
  rw [List.getElem?_set] at hi
  split at hi
  · split at hi
    · cases hi
      exact .inl rfl
    · cases hi
  · exact .inr hi

/-- A slot of the table after a file has been cut. -/
theorem slot_clamp {slots : List (Option FileDesc)}
    (hi : (clampOffsets f n slots)[i]? = some (some d)) :
    (d.file = f ∧ d.offset ≤ n) ∨ (d.file ≠ f ∧ slots[i]? = some (some d)) := by
  rw [clampOffsets_getElem?, Option.map_eq_some_iff] at hi
  rcases hi with ⟨slot, hslot, hmap⟩
  rcases Option.map_eq_some_iff.mp hmap with ⟨e, rfl, rfl⟩
  by_cases hback : e.file = f ∧ e.offset > n
  · rw [if_pos hback]
    exact .inl ⟨hback.1, le_refl _⟩
  · rw [if_neg hback]
    by_cases hfile : e.file = f
    · exact .inl ⟨hfile, not_lt.mp fun hlt => hback ⟨hfile, hlt⟩⟩
    · exact .inr ⟨hfile, hslot⟩

/-! ## What a call leaves alone -/

/-- From `s` to `t` file `g` has kept what it stores, or it is new and empty; its descriptors are
where they were, or at its start. -/
structure KeptFile (s t : State) (g : Ptr) : Prop where
  stores : ∀ size cs, t.Stores g size cs →
    s.Stores g size cs ∨ (s.files g = none ∧ size = 0 ∧ cs = [])
  slots : ∀ (i : Nat) (d : FileDesc), t.fileDescriptors[i]? = some (some d) → d.file = g →
    s.fileDescriptors[i]? = some (some d) ∨ d.offset = 0

/-- No descriptor refers to a file that is not there. -/
theorem Inv.file_ne (hs : Inv s) (hi : s.fileDescriptors[i]? = some (some d))
    (hnone : s.files g = none) : d.file ≠ g := by
  rintro rfl
  rcases hs with ⟨fl, ch, -, htab⟩
  rcases htab.file hi with ⟨F, hF⟩
  rw [hnone] at hF
  cases hF

/-- An empty file without blocks, as `ufs_open` makes it. -/
def File.IsFresh (F : File) : Prop := F.firstBlock = none ∧ F.size = 0

theorem FileChain.eq_nil {ps : List Ptr} (h : FileChain s f F ps) (hfirst : F.firstBlock = none) :
    ps = [] :=
  h.linked.eq_nil_iff_head.mp hfirst

theorem KeptFile.of_same (hs : Inv s) (hsame : ∀ G, t.files g = some G → SameFile s t g)
    (hnew : ∀ G, t.files g = some G → s.files g = none → G.IsFresh)
    (hslots : ∀ (i : Nat) (d : FileDesc), t.fileDescriptors[i]? = some (some d) → d.file = g →
      s.fileDescriptors[i]? = some (some d) ∨ d.offset = 0) : KeptFile s t g := by
  refine ⟨fun size cs hst => ?_, hslots⟩
  rcases id hst with ⟨G, ps, hG, hsize, hcells⟩
  cases hF : s.files g with
  | none =>
    rcases hnew G hG.file hF with ⟨hfirst, hzero⟩
    rw [hG.eq_nil hfirst, cells_nil] at hcells
    exact .inr ⟨rfl, hsize ▸ hzero, hcells.symm⟩
  | some F =>
    rcases hs with ⟨fl, ch, hlay, -⟩
    have hold := hlay.stores hF
    rcases (hsame G hG.file _ _ hold).unique hst with ⟨rfl, rfl⟩
    exact .inl hold

theorem keptFile_fail (hs : Inv s) (e : UfsErrorCode) (g : Ptr) :
    KeptFile s { s with ufsErrorCode := e } g := by
  apply KeptFile.of_same hs
  · intro G hG
    apply stores_congr <;> rfl
  · intro G hG hnone
    rw [show s.files g = some G from hG] at hnone
    cases hnone
  · exact fun i d hi _ => .inl hi

/-- Moving the offset of a descriptor keeps the files that it is not on. -/
theorem setDesc_keptFile {j o : Nat} (hs : Inv s) (hg : g ≠ d.file) :
    KeptFile s (s.setDesc j { d with offset := o }) g := by
  apply KeptFile.of_same hs fun _ _ => setDesc_sameFile s j _ g
  · intro G hG hnone
    rw [show s.files g = some G from hG] at hnone
    cases hnone
  · intro i e hi he
    rcases slot_set hi with rfl | hold
    · exact absurd he.symm hg
    · exact .inl hold

/-- A call that changes the chain of one file keeps the others. -/
theorem Relayout.keptFile {u : State} {ps qs : List Ptr} (hs : Inv s)
    (hrel : Relayout s u f F G ps qs) (hfiles : t.files = u.files) (hblocks : t.blocks = u.blocks)
    (hbrk : t.brk = u.brk) (hg : g ≠ f)
    (hslots : ∀ (i : Nat) (d : FileDesc), t.fileDescriptors[i]? = some (some d) → d.file ≠ f →
      s.fileDescriptors[i]? = some (some d)) : KeptFile s t g := by
  have hsame : SameFile s u g := by
    rcases hs with ⟨fl, ch, hlay, -⟩
    cases hK : s.files g with
    | none => exact SameFile.of_absent hK u
    | some K => exact hlay.relayout_sameFile hrel hg ((hlay.alloc g).mpr ⟨K, hK⟩)
  apply KeptFile.of_same hs fun _ _ => hsame.trans (stores_congr hfiles hblocks hbrk g)
  · intro K hK hnone
    rw [hfiles, hrel.files g hg, hnone] at hK
    cases hK
  · intro i d hi hd
    apply Or.inl (hslots i d hi _)
    rwa [hd]

/-! ## Opening, closing and deleting -/

theorem fillSlot_slots {idx : Nat} {flags : BitVec 32}
    (hok : fillSlot s idx f flags = .ok (r, t))
    (hi : t.fileDescriptors[i]? = some (some d)) :
    s.fileDescriptors[i]? = some (some d) ∨ d.offset = 0 := by
  unfold fillSlot at hok
  split at hok
  · rcases bind_eq_ok.mp hok with ⟨F, -, hok⟩
    cases hok
    rcases slot_set hi with rfl | hold
    · exact .inr rfl
    · exact .inl hold
  · cases hok

theorem takeDescriptor_slots {flags : BitVec 32}
    (hok : takeDescriptor s f flags = .ok (r, t))
    (hi : t.fileDescriptors[i]? = some (some d)) :
    s.fileDescriptors[i]? = some (some d) ∨ d.offset = 0 := by
  rcases takeDescriptor_cases hok with ⟨u, -, hold, hfail | ⟨idx, hfill⟩⟩
  · cases hfail
    exact .inl (hold i d hi)
  · exact (fillSlot_slots hfill hi).imp_left (hold i d)

theorem ufsOpen_slots {filename : List UInt8} {flags : BitVec 32} (hs : Inv s)
    (hok : ufsOpen s filename flags = .ok (r, t))
    (hi : t.fileDescriptors[i]? = some (some d)) :
    s.fileDescriptors[i]? = some (some d) ∨ d.offset = 0 := by
  rcases hs with ⟨fl, ch, hlay, -⟩
  rcases bind_eq_ok.mp hok with ⟨found, -, hok⟩
  cases found with
  | some file => exact takeDescriptor_slots hok hi
  | none =>
    dsimp only at hok
    split at hok
    · cases hok
      exact .inl hi
    · rcases bind_eq_ok.mp hok with ⟨⟨u, file⟩, hcreate, hok⟩
      rcases createFile_eq hlay filename with ⟨v, new, hv, -, -, -, hslots, -⟩
      rw [hv] at hcreate
      cases hcreate
      rw [← hslots]
      exact takeDescriptor_slots hok hi

/-- Taking a descriptor changes neither the chain nor the size of a file. -/
theorem takeDescriptor_files {flags : BitVec 32} (hok : takeDescriptor s f flags = .ok (r, t))
    (hG : t.files g = some G) :
    ∃ F, s.files g = some F ∧ G.firstBlock = F.firstBlock ∧ G.size = F.size := by
  rcases takeDescriptor_cases hok with ⟨u, hfiles, -, hfail | ⟨idx, hfill⟩⟩
  · cases hfail
    rw [← hfiles]
    exact ⟨G, hG, rfl, rfl⟩
  · unfold fillSlot at hfill
    split at hfill
    · rcases bind_eq_ok.mp hfill with ⟨F, hF, hfill⟩
      cases hfill
      rcases load_eq_ok.mp hF with ⟨p, hp, hpF⟩
      cases hp
      rw [← hfiles]
      -- only the reference count of `f` is written
      by_cases hg : g = f
      · subst hg
        obtain rfl : _ = G := Option.some.inj ((store_self _ _ _).symm.trans hG)
        exact ⟨F, hpF, rfl, rfl⟩
      · exact ⟨G, (store_ne _ _ hg).symm.trans hG, rfl, rfl⟩
    · cases hfill

theorem createFile_files {filename : List UInt8} {p : Ptr}
    (hok : createFile s filename = .ok (t, p)) (hG : t.files g = some G)
    (hnone : s.files g = none) : G.IsFresh := by
  -- whatever is written to another file, this one must be the file that has been made
  have hself : ∀ {K : File}, store s.files s.brk K g = some G → G = K := by
    intro K hK
    by_cases hg : g = s.brk
    · subst hg
      exact (Option.some.inj ((store_self _ _ _).symm.trans hK)).symm
    · rw [store_ne _ _ hg, hnone] at hK
      cases hK
  unfold createFile at hok
  cases hl : s.fileList with
  | none =>
    simp only [hl] at hok
    cases hok
    rw [hself hG]
    exact ⟨rfl, rfl⟩
  | some head =>
    simp only [hl] at hok
    rcases bind_eq_ok.mp hok with ⟨old, hold, hok⟩
    cases hok
    rcases load_eq_ok.mp hold with ⟨p, hp, hold⟩
    cases hp
    by_cases hg : g = head
    · subst hg
      obtain rfl : _ = G := Option.some.inj ((store_self _ _ _).symm.trans hG)
      by_cases hbrk : g = s.brk
      · subst hbrk
        obtain rfl : _ = old := Option.some.inj ((store_self _ _ _).symm.trans hold)
        exact ⟨rfl, rfl⟩
      · have hthere : s.files g = some old := (store_ne _ _ hbrk).symm.trans hold
        rw [hnone] at hthere
        cases hthere
    · rw [hself ((store_ne _ _ hg).symm.trans hG)]
      exact ⟨rfl, rfl⟩

theorem ufsOpen_files {filename : List UInt8} {flags : BitVec 32}
    (hok : ufsOpen s filename flags = .ok (r, t)) (hG : t.files g = some G)
    (hnone : s.files g = none) : G.IsFresh := by
  rcases bind_eq_ok.mp hok with ⟨found, -, hok⟩
  cases found with
  | some file =>
    rcases takeDescriptor_files hok hG with ⟨F, hF, -⟩
    rw [hnone] at hF
    cases hF
  | none =>
    dsimp only at hok
    split at hok
    · cases hok
      rw [show s.files g = some G from hG] at hnone
      cases hnone
    · rcases bind_eq_ok.mp hok with ⟨⟨u, file⟩, hcreate, hok⟩
      rcases takeDescriptor_files hok hG with ⟨F, hF, hfirst, hsize⟩
      rcases createFile_files hcreate hF hnone with ⟨hnofirst, hzero⟩
      exact ⟨hfirst.trans hnofirst, hsize.trans hzero⟩

/-- The calls that neither write to a file nor move an offset. -/
def Op.IsQuiet : Op → Prop
  | .open _ _ | .close _ | .delete _ | .destroy => True
  | .write _ _ | .read _ _ | .resize _ _ => False

theorem exec_quiet {op : Op} {reply : Reply} (hs : Inv s) (hop : op.IsQuiet)
    (hexec : exec m s op = .ok (reply, t)) (g : Ptr) : KeptFile s t g := by
  -- a file that is there was there before
  have hself : Sizes (fun g _ => s.files g ≠ none) s.files := by
    intro g G hG
    rw [hG]
    exact nofun
  cases op with
  | «open» filename flags =>
    rcases bind_eq_ok.mp hexec with ⟨⟨r, u⟩, hopen, hres⟩
    cases hres
    rcases ufsOpen_spec hs filename flags with hfail | ⟨v, j, f, hok, hopened⟩
    · rw [hfail] at hopen
      cases hopen
      exact keptFile_fail hs _ g
    · rw [hok] at hopen
      cases hopen
      exact .of_same hs (hopened.same g) (fun G hG hnone => ufsOpen_files hok hG hnone)
        fun i d hi _ => ufsOpen_slots hs hok hi
  | close fd =>
    rcases bind_eq_ok.mp hexec with ⟨⟨r, u⟩, hclose, hres⟩
    cases hres
    have hthere := ufsClose_sizes hself hclose
    rcases ufsClose_spec hs fd with hfail | ⟨v, j, d', -, -, hok, hclosed⟩
    · rw [hfail] at hclose
      cases hclose
      exact keptFile_fail hs _ g
    · rw [hok] at hclose
      cases hclose
      -- the other descriptors stay
      refine .of_same hs (hclosed.same g) (fun G hG hnone => absurd hnone (hthere g G hG))
        fun i d hi _ => .inl ?_
      rw [hclosed.slots] at hi
      by_cases hij : j = i
      · simp [hij, List.getElem?_set] at hi
      · rwa [List.getElem?_set_ne hij] at hi
  | delete filename =>
    rcases bind_eq_ok.mp hexec with ⟨⟨r, u⟩, hdel, hres⟩
    cases hres
    have hthere := ufsDelete_sizes hself hdel
    rcases ufsDelete_spec hs filename with hfail | ⟨v, hok, -, hslots, hsame⟩
    · rw [hfail] at hdel
      cases hdel
      exact keptFile_fail hs _ g
    · rw [hok] at hdel
      cases hdel
      exact .of_same hs (hsame g) (fun G hG hnone => absurd hnone (hthere g G hG))
        fun i d hi _ => .inl (hslots ▸ hi)
  | destroy =>
    rcases bind_eq_ok.mp hexec with ⟨u, hdestroy, hres⟩
    cases hres
    rcases ufsDestroy_spec hs with ⟨v, hok, -, hslots, hnone⟩
    rw [hok] at hdestroy
    cases hdestroy
    -- no file and no descriptor is left
    refine ⟨?_, fun i d hi => ?_⟩
    · rintro size cs ⟨F, ps, hF, -⟩
      have hfile := hF.file
      rw [hnone g] at hfile
      cases hfile
    · rw [hslots] at hi
      cases hi
  | write => exact hop.elim
  | read => exact hop.elim
  | resize => exact hop.elim

/-! ## The invariant -/

/-- The blocks `cs` have room for `size` bytes and for the offset of every descriptor of `f`. -/
structure Room (s : State) (f : Ptr) (size : Nat) (cs : List Cell) : Prop where
  size : size ≤ blockSize * cs.length
  offset : ∀ (i : Nat) (d : FileDesc), s.fileDescriptors[i]? = some (some d) → d.file = f →
    d.offset ≤ blockSize * cs.length

/-- The chain of every file covers its size and the offsets of its descriptors. -/
def Covered (s : State) : Prop := ∀ f size cs, s.Stores f size cs → Room s f size cs

theorem Room.kept (hs : Inv s) (hcov : Covered s) (hkept : KeptFile s t g)
    (hst : t.Stores g size cs) : Room t g size cs := by
  rcases hkept.stores size cs hst with hold | ⟨hnone, rfl, rfl⟩
  · have hroom := hcov g size cs hold
    refine ⟨hroom.size, fun i d hi hd => ?_⟩
    rcases hkept.slots i d hi hd with hi | hzero
    · exact hroom.offset i d hi hd
    · rw [hzero]
      exact Nat.zero_le _
  · refine ⟨Nat.zero_le _, fun i d hi hd => ?_⟩
    rcases hkept.slots i d hi hd with hi | hzero
    · exact absurd hd (hs.file_ne hi hnone)
    · rw [hzero]
      exact Nat.zero_le _

theorem Covered.fail (hs : Inv s) (hcov : Covered s) (e : UfsErrorCode) :
    Covered { s with ufsErrorCode := e } :=
  fun g _ _ => Room.kept hs hcov (keptFile_fail hs e g)

/-! ## Writing, reading and resizing -/

/-- A call that changes the chain of one file only has to leave room in that file. -/
theorem Relayout.covered {u : State} {ps qs : List Ptr} (hs : Inv s)
    (hcov : Covered s) (hrel : Relayout s u f F G ps qs) (hfiles : t.files = u.files)
    (hblocks : t.blocks = u.blocks) (hbrk : t.brk = u.brk)
    (hroom : Room t f G.size (u.cells qs))
    (hslots : ∀ (i : Nat) (d : FileDesc), t.fileDescriptors[i]? = some (some d) → d.file ≠ f →
      s.fileDescriptors[i]? = some (some d)) : Covered t := by
  intro g size cs hst
  by_cases hg : g = f
  · subst hg
    rcases (stores_congr hfiles hblocks hbrk g _ _ ⟨G, qs, hrel.after, rfl, rfl⟩).unique hst with
      ⟨rfl, rfl⟩
    exact hroom
  · exact Room.kept hs hcov (hrel.keptFile hs hfiles hblocks hbrk hg hslots) hst

/-- With the chain covered a call of `ufs_write` comes back, and the chain is covered again. -/
theorem ufsWrite_covered (hs : Inv s) (hcov : Covered s) (m : Malloc) (fd : Int)
    (buf : List UInt8) : ∃ r t, ufsWrite m s fd buf = .ok (r, t) ∧ Covered t := by
  rcases id hs with ⟨fl, ch, hlay, htab⟩
  rcases ufsWrite_cases htab m fd buf with ⟨r, e, hkeep⟩ | ⟨j, d, F, rfl, hj, hmay, hF, hbuf, hmax⟩
  · exact ⟨r, _, hkeep, hcov.fail hs e⟩
  have hstores := hlay.stores hF
  have hroom := hcov _ _ _ hstores
  have hk : d.offset / blockSize ≤ (s.cells (ch d.file)).length :=
    Nat.div_le_of_le_mul (hroom.offset j d hj rfl)
  rw [cells_length] at hk
  rcases ufsWrite_slot hlay htab hj hmay hF hbuf hmax hk m with
    ⟨u, G, qs, hwrite, hrel, hsize, hcells⟩
  have hlen := length_le_writeCells (freshMemory m s (ch d.file)) buf.length
    (s.cells (ch d.file)) (d.offset / blockSize) buf d.offset
  rw [← hcells] at hlen
  have hmul := Nat.mul_le_mul_left blockSize hlen
  -- The blocks of the chain after the write reach as far as its last byte.
  have hend : d.offset + buf.length ≤ blockSize * (u.cells qs).length := by
    rw [hcells]
    exact writeCells_room (freshMemory_length m s (ch d.file)) (hlay.fileChain hF).cells_valid hbuf
      (by rwa [cells_length])
  refine ⟨_, _, hwrite, hrel.covered hs hcov rfl rfl rfl ⟨?_, fun i e hi he => ?_⟩
    fun i e hi he => ?_⟩
  · rw [hsize]
    exact max_le (hroom.size.trans hmul) hend
  · rw [State.setDesc, hrel.slots] at hi
    rcases slot_set hi with rfl | hold
    · exact hend
    · exact (hroom.offset i e hold he).trans hmul
  · rw [State.setDesc, hrel.slots] at hi
    rcases slot_set hi with rfl | hold
    · exact absurd rfl he
    · exact hold

theorem readFrom_covers {size n offset o : Nat} {bytes : List UInt8} (hcs : ∀ c ∈ cs, c.Valid)
    (h : readFrom size cs offset n = .ok (bytes, o)) :
    o ≤ max offset (blockSize * cs.length) := by
  unfold readFrom at h
  split at h
  · rename_i hwalk
    have hread := readCells_covers (fun c hc => hcs c (List.mem_of_mem_drop hc)) (le_refl _) h
    rwa [List.length_drop, Nat.add_sub_of_le hwalk.1] at hread
  · cases h
    exact le_max_left _ _

theorem ufsRead_covered (hs : Inv s) (hcov : Covered s) {r : Int} {bytes : List UInt8}
    (hok : ufsRead s fd n = .ok (r, bytes, t)) : Covered t := by
  rcases id hs with ⟨fl, ch, hlay, htab⟩
  rcases lookupDesc_cases htab fd with hnone | ⟨j, d, rfl, hj, -⟩
  · simp only [ufsRead, hnone, ok_bind, pure_eq_ok] at hok
    cases hok
    exact hcov.fail hs _
  rcases htab.file hj with ⟨F, hF⟩
  have hstores := hlay.stores hF
  cases hmay : mayRead d.openFlags with
  | false =>
    rw [ufsRead_denied htab hj hmay] at hok
    cases hok
    exact hcov.fail hs _
  | true =>
    rw [ufsRead_slot htab hj hmay hstores] at hok
    rcases bind_eq_ok.mp hok with ⟨⟨copied, o⟩, hread, hres⟩
    cases hres
    have hroom := (hcov _ _ _ hstores).offset j d hj rfl
    have ho := readFrom_covers (hlay.fileChain hF).cells_valid hread
    rw [max_eq_right hroom] at ho
    intro g size cs hst
    by_cases hg : g = d.file
    · subst hg
      rcases (setDesc_sameFile s j _ _ _ _ hstores).unique hst with ⟨rfl, rfl⟩
      refine ⟨(hcov _ _ _ hstores).size, fun i e hi he => ?_⟩
      rcases slot_set hi with rfl | hold
      · exact ho
      · exact (hcov _ _ _ hstores).offset i e hold he
    · exact Room.kept hs hcov (setDesc_keptFile hs hg) hst

/-- The copying of `ufs_read` can only fault by leaving the memory of a block. -/
theorem readCells_fault {n offset : Nat} {e : Fault}
    (h : readCells n cs buf offset = .error e) : e = .outOfBounds := by
  induction cs generalizing buf offset with
  | nil => cases h
  | cons c cs ih =>
    rw [readCells] at h
    by_cases hmore : (buf.length : Int) < toSsize n
    · rw [if_pos hmore] at h
      by_cases hend : (toInt offset).tmod blockSize - c.occupied ≥ 0
      · simp only [if_pos hend, pure_eq_ok] at h
        cases h
      · simp only [if_neg hend] at h
        unfold copyFrom at h
        split at h
        · exact ih h
        · cases h
          rfl
    · rw [if_neg hmore] at h
      cases h

/-- The walk of `ufs_read` and the links it follows stay on the chain. -/
theorem ufsRead_fault (hs : Inv s) {e : Fault} (h : ufsRead s fd n = .error e) :
    e = .outOfBounds := by
  rcases hs with ⟨fl, ch, hlay, htab⟩
  rcases lookupDesc_cases htab fd with hnone | ⟨j, d, rfl, hj, -⟩
  · simp only [ufsRead, hnone, ok_bind, pure_eq_ok] at h
    cases h
  rcases htab.file hj with ⟨F, hF⟩
  cases hmay : mayRead d.openFlags with
  | false =>
    rw [ufsRead_denied htab hj hmay] at h
    cases h
  | true =>
    rw [ufsRead_slot htab hj hmay (hlay.stores hF)] at h
    cases hread : readFrom F.size (s.cells (ch d.file)) d.offset n with
    | ok res =>
      rw [hread] at h
      cases h
    | error e' =>
      rw [hread] at h
      cases h
      unfold readFrom at hread
      split at hread
      · exact readCells_fault hread
      · cases hread

/-- Cutting takes away the blocks that the old size needs and the new one does not; with the chain
covered there are as many, and those that the new size needs stay. -/
theorem shrinkFile_cut (hs : Inv s) (hcov : Covered s) {ps : List Ptr} (hF : FileChain s f F ps)
    (hlt : n < F.size) : ∃ u G k,
      shrinkFile s f n = .ok (0, { u with
        fileDescriptors := clampOffsets f n s.fileDescriptors }) ∧
      Relayout s u f F G ps (ps.take k) ∧ G.size = n ∧
      u.cells (ps.take k) = setLast (lastOccupied n) ((s.cells ps).take k) ∧
      k + surplus F.size n = ps.length ∧ blockCount n ≤ k := by
  have hcap : s.fileDescriptorCapacity ≤ s.fileDescriptors.length := by
    rcases hs with ⟨fl, ch, -, htab⟩
    exact (capacity_eq htab).le
  -- the file has blocks enough for its size
  have hold : blockCount F.size ≤ ps.length := by
    rw [blockCount_le_iff, ← cells_length s]
    exact (hcov _ _ _ ⟨F, ps, hF, rfl, rfl⟩).size
  have hmono : blockCount n ≤ blockCount F.size := by
    simp only [blockCount, blockSize]
    omega
  obtain ⟨k, hk⟩ : ∃ k, k = ps.length - surplus F.size n := ⟨_, rfl⟩
  have hsum : k + surplus F.size n = ps.length := by
    rw [hk, surplus]
    omega
  have hnew : blockCount n ≤ k := by
    rw [hk, surplus]
    omega
  have hsplit := hF
  rw [← List.take_append_drop k ps] at hsplit
  -- so it keeps none only for size 0
  have hempty : ps.take k = [] → n = 0 := by
    intro hnil
    have hlen := congrArg List.length hnil
    rw [List.length_take, List.length_nil] at hlen
    have hle := blockCount_le_iff.mp hnew
    simp only [blockSize] at hle
    omega
  have hcut : (ps.drop k).length = surplus F.size n := by
    rw [List.length_drop]
    omega
  rcases shrinkFile_eq (n := n) hsplit hcut hcap hempty with ⟨u, G, hshrink, hrel, hsize, hcells⟩
  rw [List.take_append_drop] at hrel
  refine ⟨u, G, k, hshrink, hrel, hsize, ?_, hsum, hnew⟩
  rw [hcells, State.cells, State.cells, List.map_take]

theorem shrinkFile_covered (hs : Inv s) (hcov : Covered s) (hF : s.files f = some F)
    (hlt : n < F.size) : ∃ t, shrinkFile s f n = .ok (0, t) ∧ Covered t := by
  rcases id hs with ⟨fl, ch, hlay, -⟩
  rcases shrinkFile_cut hs hcov (hlay.fileChain hF) hlt with
    ⟨u, G, k, hshrink, hrel, hsize, -, hsum, hnew⟩
  have hfit : n ≤ blockSize * (u.cells ((ch f).take k)).length := by
    rw [← blockCount_le_iff, cells_length, List.length_take, min_eq_left (by omega)]
    exact hnew
  -- the descriptors are moved back to the new end
  refine ⟨_, hshrink, hrel.covered hs hcov rfl rfl rfl ⟨hsize ▸ hfit, fun j e hj he => ?_⟩
    fun j e hj he => ?_⟩
  · rcases slot_clamp hj with ⟨-, hle⟩ | ⟨hne, -⟩
    · exact hle.trans hfit
    · exact absurd he hne
  · rcases slot_clamp hj with ⟨hfile, -⟩ | ⟨-, hold⟩
    · exact absurd hfile he
    · exact hold

/-- Growing adds the blocks that the new size needs and the old one does not; there is a last block
then, since a file that is not empty has one already. -/
theorem growFile_add (hcov : Covered s) {ps : List Ptr} (hF : FileChain s f F ps)
    (hlt : F.size < n) (m : Malloc) : ∃ u G qs, growFile m s f n = .ok (0, u) ∧
      Relayout s u f F G ps qs ∧ G.size = n ∧ u.cells qs =
        setLast (lastOccupied n) (growCells (blockCount n - blockCount F.size) (s.cells ps)) ∧
      blockCount n ≤ blockCount n - blockCount F.size + ps.length := by
  have hold : blockCount F.size ≤ ps.length := by
    rw [blockCount_le_iff, ← cells_length s]
    exact (hcov _ _ _ ⟨F, ps, hF, rfl, rfl⟩).size
  have hnew : blockCount n ≤ blockCount n - blockCount F.size + ps.length := by omega
  have hne : blockCount n - blockCount F.size + ps.length ≠ 0 := by
    intro hzero
    have hle := blockCount_le_iff.mp (hnew.trans hzero.le)
    simp only [blockSize] at hle
    omega
  rcases growLoop_eq hF m _ n hne with ⟨u, G, qs, hgrow, hrel, hsize, hcells⟩
  exact ⟨u, G, qs, by rw [growFile_eq hF.file, hgrow], hrel, hsize, hcells, hnew⟩

theorem growFile_covered (hs : Inv s) (hcov : Covered s) (hF : s.files f = some F)
    (hlt : F.size < n) (m : Malloc) : ∃ t, growFile m s f n = .ok (0, t) ∧ Covered t := by
  rcases id hs with ⟨fl, ch, hlay, -⟩
  have hroom := hcov _ _ _ (hlay.stores hF)
  rcases growFile_add hcov (hlay.fileChain hF) hlt m with
    ⟨u, G, qs, hgrow, hrel, hsize, hcells, hnew⟩
  have hlen : (u.cells qs).length = (ch f).length + (blockCount n - blockCount F.size) := by
    rw [hcells, length_setLast, length_growCells, cells_length]
  have hmul : blockSize * (s.cells (ch f)).length ≤ blockSize * (u.cells qs).length := by
    apply Nat.mul_le_mul_left
    rw [hlen, cells_length]
    exact Nat.le_add_right _ _
  refine ⟨u, hgrow, hrel.covered hs hcov rfl rfl rfl ⟨?_, fun i d hi hd => ?_⟩ fun i d hi _ => ?_⟩
  · rw [hsize, ← blockCount_le_iff, hlen]
    omega
  · rw [hrel.slots] at hi
    exact (hroom.offset i d hi hd).trans hmul
  · rwa [hrel.slots] at hi

/-- With the chain covered a call of `ufs_resize` comes back, and the chain is covered again. -/
theorem ufsResize_covered (hs : Inv s) (hcov : Covered s) (m : Malloc) (fd : Int) (n : Nat) :
    ∃ r t, ufsResize m s fd n = .ok (r, t) ∧ Covered t := by
  rcases id hs with ⟨fl, ch, hlay, htab⟩
  rcases lookupDesc_cases htab fd with hnone | ⟨j, d, rfl, hj, hlook⟩
  · refine ⟨-1, _, ?_, hcov.fail hs .noFile⟩
    simp only [ufsResize, hnone, ok_bind, pure_eq_ok]
    rfl
  rcases htab.file hj with ⟨F, hF⟩
  simp only [ufsResize, hlook, ok_bind, load_some hF]
  rcases lt_trichotomy n F.size with hlt | heq | hgt
  · rcases shrinkFile_covered hs hcov hF hlt with ⟨t, ht, htcov⟩
    exact ⟨0, t, by rw [if_neg hlt.ne, if_pos hlt, ht], htcov⟩
  · exact ⟨0, s, by rw [if_pos heq]; rfl, hcov⟩
  · by_cases hmax : n > maxFileSize
    · refine ⟨-1, _, ?_, hcov.fail hs .noMem⟩
      rw [if_neg hgt.ne', if_neg (not_lt.mpr hgt.le), if_pos hmax]
      rfl
    · rcases growFile_covered hs hcov hF hgt m with ⟨t, ht, htcov⟩
      exact ⟨0, t, by rw [if_neg hgt.ne', if_neg (not_lt.mpr hgt.le), if_neg hmax, ht], htcov⟩

/-! ## Runs -/

theorem Covered.init : Covered State.init := by
  rintro f size cs ⟨F, ps, hF, -⟩
  have hfile := hF.file
  cases hfile

theorem exec_covered {op : Op} {reply : Reply} (hs : Inv s) (hcov : Covered s)
    (hexec : exec m s op = .ok (reply, t)) : Covered t := by
  have hquiet : op.IsQuiet → Covered t := fun hop g _ _ =>
    Room.kept hs hcov (exec_quiet hs hop hexec g)
  cases op with
  | «open» | close | delete | destroy => exact hquiet trivial
  | write fd buf =>
    rcases bind_eq_ok.mp hexec with ⟨⟨r, u⟩, hwrite, hres⟩
    cases hres
    rcases ufsWrite_covered hs hcov m fd buf with ⟨r', v, hok, hv⟩
    rw [hok] at hwrite
    cases hwrite
    exact hv
  | read fd n =>
    rcases bind_eq_ok.mp hexec with ⟨⟨r, bytes, u⟩, hread, hres⟩
    cases hres
    exact ufsRead_covered hs hcov hread
  | resize fd n =>
    rcases bind_eq_ok.mp hexec with ⟨⟨r, u⟩, hresize, hres⟩
    cases hres
    rcases ufsResize_covered hs hcov m fd n with ⟨r', v, hok, hv⟩
    rw [hok] at hresize
    cases hresize
    exact hv

/-- The invariant of whole runs. -/
theorem Reachable.covered (h : Reachable (Step m) State.init s) : Covered s := by
  have hboth : Inv s ∧ Covered s := by
    refine h.invariant (P := fun u => Inv u ∧ Covered u) ⟨Inv.init, Covered.init⟩ ?_
    rintro u op v ⟨hu, hcov⟩ ⟨reply, hexec⟩
    exact ⟨exec_inv hu hexec, exec_covered hu hcov hexec⟩
  exact hboth.2

/-- In every reachable state the blocks of each file have room for its size and for the offsets of
its descriptors, the walk to the block of a descriptor's offset stays on the chain, and no call of
`ufs_write` or `ufs_resize` meets a null or dangling pointer, writes outside the memory of a block
or fails an assertion; `ufs_read` follows no such pointer either. -/
theorem walks_stay_on_chain (m : Malloc) {s : State} (hs : Reachable (Step m) State.init s) :
    Covered s ∧
    (∀ (i : Nat) (d : FileDesc) (F : File), s.fileDescriptors[i]? = some (some d) →
      s.files d.file = some F →
      ∃ p, skipBlocks s.blocks (d.offset / blockSize) F.firstBlock = .ok p) ∧
    (∀ fd buf, ∃ r t, ufsWrite m s fd buf = .ok (r, t)) ∧
    (∀ fd n, ∃ r t, ufsResize m s fd n = .ok (r, t)) ∧
    ∀ fd n e, ufsRead s fd n = .error e → e = .outOfBounds := by
  have hinv := Reachable.inv hs
  have hcov := Reachable.covered hs
  refine ⟨hcov, fun i d F hi hF => ?_, fun fd buf => ?_, fun fd n => ?_,
    fun fd n e => ufsRead_fault hinv⟩
  · rcases hinv with ⟨fl, ch, hlay, -⟩
    have hchain := hlay.fileChain hF
    have hroom := (hcov _ _ _ (hlay.stores hF)).offset i d hi rfl
    rw [cells_length] at hroom
    exact ⟨_, skipBlocks_seg hchain.linked (fun p hp => (hchain.valid p hp).imp fun _ hb => hb.1)
      (Nat.div_le_of_le_mul hroom)⟩
  · rcases ufsWrite_covered hinv hcov m fd buf with ⟨r, t, hok, -⟩
    exact ⟨r, t, hok⟩
  · rcases ufsResize_covered hinv hcov m fd n with ⟨r, t, hok, -⟩
    exact ⟨r, t, hok⟩

/-- A full block is overwritten through a second descriptor, which leaves one block more than the
size needs; then the file is cut to nothing and one block stays. -/
def strayBlockCalls : List Op :=
  [.open [97] ufsCreate, .write 1 (List.replicate 512 1), .open [97] 0, .write 2 [7],
    .resize 1 0]

theorem walks_stay_on_chain_stray : ∃ s, execAll .zeroed State.init strayBlockCalls = .ok s ∧
    (∃ r t, ufsWrite .zeroed s 2 [7] = .ok (r, t)) ∧
    ∃ r t, ufsResize .zeroed s 1 600 = .ok (r, t) := by
  have hreturns : (execAll .zeroed State.init strayBlockCalls).toBool = true := by decide +kernel
  rcases toBool_eq_true.mp hreturns with ⟨s, hs⟩
  have hwalks := walks_stay_on_chain .zeroed ⟨_, execAll_run hs⟩
  exact ⟨s, hs, hwalks.2.2.1 2 [7], hwalks.2.2.2.1 1 600⟩

end SystemProgramming.UserFs
