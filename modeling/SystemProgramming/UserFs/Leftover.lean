import SystemProgramming.UserFs.Coverage
import SystemProgramming.UserFs.ZeroFill

/-!
# Blocks left over

A write in a full block appends a block that the size does not need, and cutting the file leaves
that many blocks too many.  A file is either well-formed, with its descriptors inside, or it has
been through this: then its first block is full.  So an empty file has no block, or a full one.
-/

open Fallible
open Runs (Reachable)

namespace SystemProgramming.UserFs

/-! ## A full first block -/

variable {fresh : Nat → List UInt8} {cs ds : List Cell} {c : Cell} {buf : List UInt8}

def FullHead (cs : List Cell) : Prop := ∃ c ds, cs = c :: ds ∧ c.occupied = blockSize

theorem FullHead.append (h : FullHead cs) (ds : List Cell) : FullHead (cs ++ ds) := by
  rcases h with ⟨c, es, rfl, hc⟩
  exact ⟨c, es ++ ds, rfl, hc⟩

theorem FullHead.length_pos (h : FullHead cs) : 0 < cs.length := by
  rcases h with ⟨c, es, rfl, -⟩
  exact Nat.succ_pos _

/-- Another block than the first is written to. -/
theorem FullHead.set (h : FullHead cs) {j : Nat} (hj : j ≠ 0) (c : Cell) :
    FullHead (cs.set j c) := by
  rcases h with ⟨e, es, rfl, he⟩
  cases j with
  | zero => exact absurd rfl hj
  | succ j => exact ⟨e, es.set j c, rfl, he⟩

theorem FullHead.setLast (h : FullHead cs) {n : Int} (hn : 2 ≤ cs.length ∨ n = blockSize) :
    FullHead (setLast n cs) := by
  rcases List.eq_nil_or_concat' cs with rfl | ⟨es, e, rfl⟩
  · exact h
  · rw [setLast_concat]
    cases es with
    | nil =>
      rcases hn with hlen | rfl
      · simp at hlen
      · exact ⟨_, [], rfl, rfl⟩
    | cons x xs =>
      rcases h with ⟨c, ds, heq, hc⟩
      cases heq
      exact ⟨x, _, rfl, hc⟩

theorem FullHead.growCells (h : FullHead cs) (k : Nat) : FullHead (growCells k cs) := by
  induction k generalizing cs with
  | zero => exact h
  | succ k ih => exact ih ((h.setLast (.inr rfl)).append _)

/-- The write loop passes over a full block. -/
theorem FullHead.writableCell (h : FullHead cs) {k j : Nat}
    (hcell : writableCell fresh cs k = (ds, j, c)) : FullHead ds ∧ j ≠ 0 := by
  have hpos := h.length_pos
  rcases h with ⟨e, es, rfl, he⟩
  unfold UserFs.writableCell at hcell
  dsimp only at hcell
  split at hcell
  · cases hcell
    exact ⟨⟨e, _, rfl, he⟩, hpos.ne'⟩
  · next c' hk =>
    split at hcell
    · cases hcell
      exact ⟨⟨e, _, rfl, he⟩, hpos.ne'⟩
    · next hroom =>
      cases hcell
      refine ⟨⟨e, es, rfl, he⟩, ?_⟩
      rintro rfl
      cases hk
      exact hroom he

theorem FullHead.writeCells (h : FullHead cs) (fuel k : Nat) (buf : List UInt8) (offset : Nat) :
    FullHead (writeCells fresh fuel cs k buf offset) := by
  induction fuel generalizing cs k buf offset with
  | zero => cases buf <;> exact h
  | succ fuel ih =>
    by_cases hbuf : buf = []
    · rw [hbuf, writeCells_nil]
      exact h
    obtain ⟨cell, hcell⟩ : ∃ cell, UserFs.writableCell fresh cs k = cell := ⟨_, rfl⟩
    rw [writeCells_step fuel hbuf hcell rfl]
    exact ih ((h.writableCell hcell).1.set (h.writableCell hcell).2 _) _ _ _

/-- A write that finds its block missing or full appends one. -/
theorem length_lt_writeCells (fresh : Nat → List UInt8) (hbuf : buf ≠ []) {k : Nat}
    (h : ∀ c, cs[k]? = some c → c.occupied = blockSize) (offset : Nat) :
    cs.length < (writeCells fresh buf.length cs k buf offset).length := by
  obtain ⟨fuel, hfuel⟩ : ∃ fuel, buf.length = fuel + 1 :=
    Nat.exists_eq_succ_of_ne_zero (List.length_pos_iff.mpr hbuf).ne'
  rw [hfuel, writeCells_step fuel hbuf (writableCell_new fresh h) rfl]
  apply lt_of_lt_of_le _ (length_le_writeCells _ _ _ _ _ _)
  simp

/-- A well-formed chain begins with a full block if the file is long enough. -/
theorem WellFormed.fullHead {size : Nat} (h : WellFormed cs size) (hsize : blockSize ≤ size) :
    FullHead cs := by
  cases cs with
  | nil =>
    have hsum := h.sum
    rw [total_nil] at hsum
    simp only [blockSize] at hsize
    omega
  | cons c cs =>
    have hle := (h.valid c List.mem_cons_self).le
    rcases h.uncons with ⟨-, hlast, -⟩ | ⟨hfull, -, -⟩
    · refine ⟨c, cs, rfl, ?_⟩
      simp only [blockSize] at *
      omega
    · exact ⟨c, cs, rfl, hfull⟩

/-- A block that is written to at an offset before the last block of a well-formed file is full. -/
theorem WellFormed.full_at {size offset : Nat} (h : WellFormed cs size)
    (hoff : offset / blockSize < size / blockSize) (hc : cs[offset / blockSize]? = some c) :
    c.occupied = blockSize := by
  have hmul : blockSize * (offset / blockSize) + blockSize ≤ size := by
    calc blockSize * (offset / blockSize) + blockSize = blockSize * (offset / blockSize + 1) := rfl
      _ ≤ blockSize * (size / blockSize) := Nat.mul_le_mul_left _ hoff
      _ ≤ size := Nat.mul_div_le _ _
  rcases h.drop (offset / blockSize) (by omega) with ⟨-, -, hrest⟩
  rcases hrest.fullHead (by omega) with ⟨e, es, hdrop, he⟩
  rw [← List.head?_drop, hdrop] at hc
  cases hc
  exact he

/-! ## Reading -/

/-- Reading a well-formed file does not go past its end. -/
theorem readCells_inside {size n offset o k : Nat} {bytes : List UInt8} (h : WellFormed cs size)
    (hk : offset / blockSize ≤ k) (hle : offset ≤ blockSize * k + size)
    (hread : readCells n cs buf offset = .ok (bytes, o)) : o ≤ blockSize * k + size := by
  induction cs generalizing buf offset k size with
  | nil =>
    cases hread
    exact hle
  | cons c cs ih =>
    have hc := h.valid c List.mem_cons_self
    rw [readCells] at hread
    by_cases hmore : (buf.length : Int) < toSsize n
    · rw [if_pos hmore] at hread
      by_cases hend : (toInt offset).tmod blockSize - c.occupied ≥ 0
      · simp only [if_pos hend, pure_eq_ok] at hread
        cases hread
        exact hle
      · simp only [if_neg hend] at hread
        rcases bind_eq_ok.mp hread with ⟨copied, hcopy, hread⟩
        obtain ⟨l, hl⟩ : ∃ l, l = min (c.occupied - (toInt offset).tmod blockSize).toNat
          (n - buf.length) := ⟨_, rfl⟩
        rw [← hl] at hread
        rw [blockOffset_eq (copyFrom_ok hcopy).1] at hl hend
        -- what is copied ends where the occupied part of the block does
        have hdm := Nat.div_add_mod offset blockSize
        have hmul : blockSize * (offset / blockSize) ≤ blockSize * k := Nat.mul_le_mul_left _ hk
        have hstep : offset + l ≤ blockSize * k + c.occupied.toNat := by omega
        have hnext : blockSize * (k + 1) = blockSize * k + blockSize := rfl
        rcases h.uncons with ⟨rfl, hsize, -⟩ | ⟨hfull, hsize, hrest⟩
        · cases hread
          rw [hsize]
          exact hstep
        · rw [hfull, Int.toNat_natCast] at hstep
          have hdiv : (offset + l) / blockSize ≤ k + 1 := Nat.div_le_of_le_mul (hnext ▸ hstep)
          have hgo := ih hrest hdiv (by omega) hread
          omega
    · rw [if_neg hmore] at hread
      cases hread
      exact hle

theorem readFrom_inside {size n offset o : Nat} {bytes : List UInt8} (h : WellFormed cs size)
    (hoff : offset ≤ size) (hread : readFrom size cs offset n = .ok (bytes, o)) : o ≤ size := by
  have hmul := Nat.mul_div_le offset blockSize
  unfold readFrom at hread
  split at hread
  · have hrest := (h.drop (offset / blockSize) (by omega)).2.2
    have hgo := readCells_inside hrest (le_refl _) (by omega) hread
    omega
  · cases hread
    exact hoff

/-! ## The invariant -/

variable {m : Malloc} {s t : State} {f g : Ptr} {F : File} {size i n : Nat} {d : FileDesc}
  {fd r : Int}

/-- What the blocks of a file can look like. -/
inductive Shape (s : State) (f : Ptr) (size : Nat) (cs : List Cell) : Prop
  | sound (wf : WellFormed cs size)
      (inside : ∀ (i : Nat) (d : FileDesc), s.fileDescriptors[i]? = some (some d) → d.file = f →
        d.offset ≤ size)
  | leftover (full : FullHead cs) (longer : size = 0 ∨ 2 ≤ cs.length)

def Shaped (s : State) : Prop := ∀ f size cs, s.Stores f size cs → Shape s f size cs

theorem Shape.kept (hs : Inv s) (hshaped : Shaped s) (hkept : KeptFile s t g)
    (hst : t.Stores g size cs) : Shape t g size cs := by
  rcases hkept.stores size cs hst with hold | ⟨hnone, rfl, rfl⟩
  · cases hshaped g size cs hold with
    | sound hwf hinside =>
      refine .sound hwf fun i d hi hd => ?_
      rcases hkept.slots i d hi hd with hi | hzero
      · exact hinside i d hi hd
      · rw [hzero]
        exact Nat.zero_le _
    | leftover hfull hlonger => exact .leftover hfull hlonger
  · refine .sound .nil fun i d hi hd => ?_
    rcases hkept.slots i d hi hd with hi | hzero
    · exact absurd hd (hs.file_ne hi hnone)
    · exact hzero.le

theorem Shaped.fail (hs : Inv s) (hshaped : Shaped s) (e : UfsErrorCode) :
    Shaped { s with ufsErrorCode := e } :=
  fun g _ _ => Shape.kept hs hshaped (keptFile_fail hs e g)

/-- A call that changes the chain of one file only has to leave that file in shape. -/
theorem Relayout.shaped {u : State} {G : File} {ps qs : List Ptr} (hs : Inv s)
    (hshaped : Shaped s) (hrel : Relayout s u f F G ps qs) (hfiles : t.files = u.files)
    (hblocks : t.blocks = u.blocks) (hbrk : t.brk = u.brk)
    (hshape : Shape t f G.size (u.cells qs))
    (hslots : ∀ (i : Nat) (d : FileDesc), t.fileDescriptors[i]? = some (some d) → d.file ≠ f →
      s.fileDescriptors[i]? = some (some d)) : Shaped t := by
  intro g size cs hst
  by_cases hg : g = f
  · subst hg
    rcases (stores_congr hfiles hblocks hbrk g _ _ ⟨G, qs, hrel.after, rfl, rfl⟩).unique hst with
      ⟨rfl, rfl⟩
    exact hshape
  · exact Shape.kept hs hshaped (hrel.keptFile hs hfiles hblocks hbrk hg hslots) hst

/-! ## Calls -/

/-- A write at the end of a well-formed file, or in its last block, leaves it well-formed; any other
write appends a block, the first one being full. -/
theorem ufsWrite_shaped (hs : Inv s) (hcov : Covered s) (hshaped : Shaped s) {buf : List UInt8}
    (hok : ufsWrite m s fd buf = .ok (r, t)) : Shaped t := by
  rcases id hs with ⟨fl, ch, hlay, htab⟩
  rcases ufsWrite_cases htab m fd buf with ⟨r', e, hkeep⟩ | ⟨j, d, F, rfl, hj, hmay, hF, hbuf, hmax⟩
  · rw [hkeep] at hok
    cases hok
    exact hshaped.fail hs e
  have hstores := hlay.stores hF
  have hroom := hcov _ _ _ hstores
  have hk : d.offset / blockSize ≤ (s.cells (ch d.file)).length :=
    Nat.div_le_of_le_mul (hroom.offset j d hj rfl)
  have hk' := hk
  rw [cells_length] at hk'
  rcases ufsWrite_slot hlay htab hj hmay hF hbuf hmax hk' m with
    ⟨u, G, qs, hwrite, hrel, hsize, hcells⟩
  obtain rfl : u.setDesc j { d with offset := d.offset + buf.length } = t :=
    (Prod.mk.inj (Except.ok.inj (hwrite.symm.trans hok))).2
  have hfresh := freshMemory_length m s (ch d.file)
  have hlen := length_le_writeCells (freshMemory m s (ch d.file)) buf.length
    (s.cells (ch d.file)) (d.offset / blockSize) buf d.offset
  refine hrel.shaped hs hshaped rfl rfl rfl ?_ fun i e hi he => ?_
  · rw [hsize, hcells]
    cases hshaped _ _ _ hstores with
    | sound hwf hinside =>
      have hoff := hinside j d hj rfl
      rcases Nat.lt_or_ge (d.offset / blockSize) (F.size / blockSize) with hlt | hge
      · -- the block of the offset is full, and not the last one
        have hfirst : blockSize ≤ F.size := by
          by_contra hsmall
          rw [Nat.div_eq_of_lt (not_le.mp hsmall)] at hlt
          exact absurd hlt (Nat.not_lt_zero _)
        have hfull := hwf.fullHead hfirst
        have hmore := length_lt_writeCells (freshMemory m s (ch d.file)) hbuf
          (fun c hc => hwf.full_at hlt hc) d.offset
        refine .leftover (hfull.writeCells _ _ _ _) (.inr ?_)
        have hpos := hfull.length_pos
        omega
      · have hblock : d.offset / blockSize = F.size / blockSize :=
          le_antisymm (Nat.div_le_div_right hoff) hge
        refine .sound (writeCells_inPlace hfresh hwf hoff hblock).1 fun i e hi he => ?_
        rw [State.setDesc, hrel.slots] at hi
        rcases slot_set hi with rfl | hold
        · exact le_max_right _ _
        · exact (hinside i e hold he).trans (le_max_left _ _)
    | leftover hfull hlonger =>
      refine .leftover (hfull.writeCells _ _ _ _) (.inr ?_)
      by_cases hmany : 2 ≤ (s.cells (ch d.file)).length
      · exact hmany.trans hlen
      · -- there is one block, it is full, and no other follows it
        have hpos := hfull.length_pos
        have honly : ∀ c, (s.cells (ch d.file))[d.offset / blockSize]? = some c →
            c.occupied = blockSize := by
          intro c hc
          have hlt := (List.getElem?_eq_some_iff.mp hc).1
          have hzero : d.offset / blockSize = 0 :=
            Nat.lt_one_iff.mp (lt_of_lt_of_le hlt (by omega))
          rcases hfull with ⟨e, es, hcs, he⟩
          rw [hcs, hzero] at hc
          cases hc
          exact he
        have hmore := length_lt_writeCells (freshMemory m s (ch d.file)) hbuf honly d.offset
        omega
  · rw [State.setDesc, hrel.slots] at hi
    rcases slot_set hi with rfl | hold
    · exact absurd rfl he
    · exact hold

theorem ufsRead_shaped (hs : Inv s) (hshaped : Shaped s) {bytes : List UInt8}
    (hok : ufsRead s fd n = .ok (r, bytes, t)) : Shaped t := by
  rcases id hs with ⟨fl, ch, hlay, htab⟩
  rcases lookupDesc_cases htab fd with hnone | ⟨j, d, rfl, hj, -⟩
  · simp only [ufsRead, hnone, ok_bind, pure_eq_ok] at hok
    cases hok
    exact hshaped.fail hs _
  rcases htab.file hj with ⟨F, hF⟩
  have hstores := hlay.stores hF
  cases hmay : mayRead d.openFlags with
  | false =>
    rw [ufsRead_denied htab hj hmay] at hok
    cases hok
    exact hshaped.fail hs _
  | true =>
    rw [ufsRead_slot htab hj hmay hstores] at hok
    rcases bind_eq_ok.mp hok with ⟨⟨copied, o⟩, hread, hres⟩
    cases hres
    intro g size cs hst
    by_cases hg : g = d.file
    · subst hg
      rcases (setDesc_sameFile s j _ _ _ _ hstores).unique hst with ⟨rfl, rfl⟩
      cases hshaped _ _ _ hstores with
      | sound hwf hinside =>
        refine .sound hwf fun i e hi he => ?_
        rcases slot_set hi with rfl | hold
        · exact readFrom_inside hwf (hinside j d hj rfl) hread
        · exact hinside i e hold he
      | leftover hfull hlonger => exact .leftover hfull hlonger
    · exact Shape.kept hs hshaped (setDesc_keptFile hs hg) hst

/-- After a cut one block at most is partial, unless a block is left over. -/
theorem shrinkFile_shaped (hs : Inv s) (hcov : Covered s) (hshaped : Shaped s)
    (hF : s.files f = some F) (hlt : n < F.size) (hok : shrinkFile s f n = .ok (r, t)) :
    Shaped t := by
  rcases id hs with ⟨fl, ch, hlay, -⟩
  have hchain := hlay.fileChain hF
  rcases shrinkFile_cut hs hcov hchain hlt with ⟨u, G, k, hshrink, hrel, hsize, hcells, hsum, hnew⟩
  rw [hshrink] at hok
  cases hok
  have hlen : ((s.cells (ch f)).take k).length = k := by
    rw [List.length_take, cells_length]
    omega
  have hback : ∀ (i : Nat) (d : FileDesc),
      (clampOffsets f n s.fileDescriptors)[i]? = some (some d) → d.file = f → d.offset ≤ n := by
    intro i d hi hd
    rcases slot_clamp hi with ⟨-, hle⟩ | ⟨hne, -⟩
    · exact hle
    · exact absurd hd hne
  refine hrel.shaped hs hshaped rfl rfl rfl ?_ fun i d hi hd => ?_
  · rw [hsize, hcells]
    cases hshaped _ _ _ (hlay.stores hF) with
    | sound hwf _ =>
      have hcount := hwf.blockCount
      have hmono := blockCount_mono hlt.le
      rw [cells_length] at hcount
      obtain rfl : k = blockCount n := by
        rw [surplus] at hsum
        omega
      exact .sound (cut_wellFormed hwf hlt).1 hback
    | leftover hfull _ =>
      by_cases hmany : 2 ≤ k
      · refine .leftover (FullHead.setLast ?_ (.inl (by omega))) (.inr ?_)
        · rcases hfull with ⟨c, ds, hcs, hc⟩
          rw [hcs, show k = (k - 1) + 1 by omega, List.take_succ_cons]
          exact ⟨c, _, rfl, hc⟩
        · rw [length_setLast]
          omega
      rcases hfull with ⟨c, ds, hcs, hc⟩
      have hcvalid : c.Valid := hchain.cells_valid c (hcs ▸ List.mem_cons_self)
      by_cases hone : k = 1
      · subst hone
        rw [hcs, List.take_succ_cons, List.take_zero]
        by_cases hzero : n = 0
        · subst hzero
          exact .leftover ⟨_, [], rfl, rfl⟩ (.inl rfl)
        · -- one block, with all that is left of the file
          have hcount : blockCount n = 0 + 1 := by
            simp only [blockCount, blockSize] at *
            omega
          have hfill := blockCount_sum hcount
          have hb := lastOccupied_bounds n
          have hwf : WellFormed ([] ++ [({ c with occupied := lastOccupied n } : Cell)]) n := by
            apply WellFormed.concat (List.forall_mem_nil _) (hcvalid.setOccupied n)
              (List.forall_mem_nil _) (Int.ofNat_le.mpr hb.1)
            rw [Int.toNat_natCast]
            exact hfill
          exact .sound hwf hback
      · obtain rfl : k = 0 := by omega
        obtain rfl : n = 0 := by
          have hle := blockCount_le_iff.mp hnew
          omega
        exact .sound .nil hback
  · rcases slot_clamp hi with ⟨hfile, -⟩ | ⟨-, hold⟩
    · exact absurd hfile hd
    · exact hold

theorem growFile_shaped (hs : Inv s) (hcov : Covered s) (hshaped : Shaped s)
    (hF : s.files f = some F) (hlt : F.size < n) (hok : growFile m s f n = .ok (r, t)) :
    Shaped t := by
  rcases id hs with ⟨fl, ch, hlay, -⟩
  rcases growFile_add hcov (hlay.fileChain hF) hlt m with
    ⟨u, G, qs, hgrow, hrel, hsize, hcells, hnew⟩
  rw [hgrow] at hok
  cases hok
  refine hrel.shaped hs hshaped rfl rfl rfl ?_ fun i d hi _ => ?_
  · rw [hsize, hcells]
    cases hshaped _ _ _ (hlay.stores hF) with
    | sound hwf hinside =>
      refine .sound (grow_wellFormed hwf hlt).1 fun i d hi hd => ?_
      rw [hrel.slots] at hi
      exact (hinside i d hi hd).trans hlt.le
    | leftover hfull hlonger =>
      have hgrown := hfull.growCells (blockCount n - blockCount F.size)
      have hpos := hfull.length_pos
      -- an empty file gets a block at least
      have hmany : 2 ≤
          (growCells (blockCount n - blockCount F.size) (s.cells (ch f))).length := by
        rw [length_growCells]
        rcases hlonger with hzero | hlong
        · simp only [blockCount, blockSize]
          omega
        · omega
      refine .leftover (hgrown.setLast (.inl hmany)) (.inr ?_)
      rw [length_setLast]
      exact hmany
  · rwa [hrel.slots] at hi

theorem ufsResize_shaped (hs : Inv s) (hcov : Covered s) (hshaped : Shaped s)
    (hok : ufsResize m s fd n = .ok (r, t)) : Shaped t := by
  rcases id hs with ⟨fl, ch, hlay, htab⟩
  rcases lookupDesc_cases htab fd with hnone | ⟨j, d, rfl, hj, hlook⟩
  · simp only [ufsResize, hnone, ok_bind, pure_eq_ok] at hok
    cases hok
    exact hshaped.fail hs _
  rcases htab.file hj with ⟨F, hF⟩
  simp only [ufsResize, hlook, ok_bind, load_some hF] at hok
  split at hok
  · cases hok
    exact hshaped
  · split at hok
    · next hlt => exact shrinkFile_shaped hs hcov hshaped hF hlt hok
    · split at hok
      · cases hok
        exact hshaped.fail hs _
      · exact growFile_shaped hs hcov hshaped hF (by omega) hok

/-! ## Runs -/

theorem Shaped.init : Shaped State.init := by
  rintro f size cs ⟨F, ps, hF, -⟩
  have hfile := hF.file
  cases hfile

theorem exec_shaped {op : Op} {reply : Reply} (hs : Inv s) (hcov : Covered s)
    (hshaped : Shaped s) (hexec : exec m s op = .ok (reply, t)) : Shaped t := by
  have hquiet : op.IsQuiet → Shaped t := fun hop g _ _ =>
    Shape.kept hs hshaped (exec_quiet hs hop hexec g)
  cases op with
  | «open» | close | delete | destroy => exact hquiet trivial
  | write fd buf =>
    rcases bind_eq_ok.mp hexec with ⟨⟨r, u⟩, hwrite, hres⟩
    cases hres
    exact ufsWrite_shaped hs hcov hshaped hwrite
  | read fd n =>
    rcases bind_eq_ok.mp hexec with ⟨⟨r, bytes, u⟩, hread, hres⟩
    cases hres
    exact ufsRead_shaped hs hshaped hread
  | resize fd n =>
    rcases bind_eq_ok.mp hexec with ⟨⟨r, u⟩, hresize, hres⟩
    cases hres
    exact ufsResize_shaped hs hcov hshaped hresize

theorem Reachable.shaped (h : Reachable (Step m) State.init s) : Shaped s := by
  have hall : Inv s ∧ Covered s ∧ Shaped s := by
    refine h.invariant (P := fun u => Inv u ∧ Covered u ∧ Shaped u)
      ⟨Inv.init, Covered.init, Shaped.init⟩ ?_
    rintro u op v ⟨hu, hcov, hshaped⟩ ⟨reply, hexec⟩
    exact ⟨exec_inv hu hexec, exec_covered hu hcov hexec, exec_shaped hu hcov hshaped hexec⟩
  exact hall.2.2

/-- An empty file has no block, or its first block is full. -/
theorem Shaped.empty (h : Shaped s) (hst : s.Stores f 0 cs) : cs = [] ∨ FullHead cs := by
  cases h f 0 cs hst with
  | sound hwf _ =>
    left
    rcases hwf.shape with ⟨-, hsize⟩ | ⟨ds, c, rfl, -, hpos, -, hsize⟩
    · rw [← List.length_eq_zero_iff]
      simp only [blockSize] at hsize
      omega
    · omega
  | leftover hfull _ => exact .inr hfull

end SystemProgramming.UserFs
