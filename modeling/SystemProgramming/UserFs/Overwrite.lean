import SystemProgramming.UserFs.Consistency

/-!
# When a write overwrites in place

A write through a descriptor is meant to replace the bytes from its offset on and to extend the
file where it runs past the end.  `ufs_write` does so exactly when the offset falls in the block
that the file ends in; in an earlier block, which is full, it allocates instead of overwriting.
-/

open Fallible
open Runs (Reachable)

namespace SystemProgramming.UserFs

variable {m : Malloc} {s t : State} {f : Ptr} {F : File} {i : Nat} {d : FileDesc} {size n : Nat}
  {cs : List Cell} {buf : List UInt8}

/-! ## Reading back -/

/-- Reading a well-formed file from an offset in it. -/
theorem readFrom_wellFormed (hn : n < 2 ^ 63) (hwf : WellFormed cs size) (hsize : size ≤ maxFileSize)
    {offset : Nat} (hoff : offset ≤ size) :
    readFrom size cs offset n =
      .ok (((content cs).drop offset).take n, offset + min n (size - offset)) := by
  have hlen : (content cs).length = size := by rw [content_length hwf.valid, hwf.sum]
  have hdiv : blockSize * (offset / blockSize) ≤ offset := Nat.mul_div_le _ _
  have hmod := Nat.div_add_mod offset blockSize
  rcases hwf.drop (offset / blockSize) (hdiv.trans hoff) with ⟨hk, -, hrest⟩
  rcases Nat.eq_or_lt_of_le hoff with heq | hlt
  · have hno : ¬ (offset / blockSize ≤ cs.length ∧ offset < size) := fun h => by omega
    rw [readFrom, if_neg hno, List.drop_eq_nil_of_le (by omega), List.take_nil, heq, Nat.sub_self,
      Nat.min_zero, Nat.add_zero]
  · obtain ⟨w, hw⟩ : ∃ w, w = offset % blockSize := ⟨_, rfl⟩
    have hwlt : w < blockSize := hw ▸ Nat.mod_lt _ (by decide)
    -- the block that the offset falls in reaches past it
    have hfirst : ∀ c ∈ (cs.drop (offset / blockSize)).head?, (w : Int) ≤ c.occupied := by
      intro c hc
      cases hdrop : cs.drop (offset / blockSize) with
      | nil =>
        rw [hdrop] at hc
        cases hc
      | cons e es =>
        rw [hdrop] at hc hrest
        obtain rfl : e = c := by simpa using hc
        rcases hrest.uncons with ⟨-, hsum, hpos⟩ | ⟨hfull, -, -⟩
        · omega
        · omega
    have hsmall : offset + (size - blockSize * (offset / blockSize)) < 2 ^ 31 := by
      simp only [maxFileSize] at hsize
      omega
    have hread := readCells_wellFormed hn hrest
      (show ([] : List UInt8).length ≤ n from Nat.zero_le n) hsmall hw.symm hfirst
    rw [readFrom, if_pos ⟨hk, hlt⟩, hread, hw, ← hwf.content_drop hoff, List.nil_append,
      List.length_nil, Nat.sub_zero]
    congr 3
    omega

/-- Read a file from its start through a fresh descriptor, taken the way `ufs_open` does. -/
def readBack (s : State) (f : Ptr) (n : Nat) : Run (List UInt8) := do
  let (fd, s) ← takeDescriptor s f ufsReadWrite
  let (_, bytes, _) ← ufsRead s fd n
  pure bytes

theorem readBack_wellFormed (h : Inv s) (hstores : s.Stores f size cs) (hwf : WellFormed cs size)
    (hsize : size ≤ maxFileSize) (hle : size ≤ n) (hn : n < 2 ^ 63) :
    readBack s f n = .ok (content cs) := by
  rcases h with ⟨fl, ch, hlay, htab⟩
  rcases hstores with ⟨F, ps, hF, hFsize, hcells⟩
  rcases takeDescriptor_eq hlay htab hF.file ufsReadWrite with ⟨t, i, htake, hopened⟩
  rcases hopened.inv with ⟨gl, kh, htlay, httab⟩
  rcases httab.file hopened.slot with ⟨G, hG⟩
  have hstores : t.Stores f size cs := hopened.same f G hG size cs ⟨F, ps, hF, hFsize, hcells⟩
  have hread := ufsRead_slot httab hopened.slot (show mayRead ufsReadWrite = true by decide) hstores n
  have hlen : (content cs).length = size := by rw [content_length hwf.valid, hwf.sum]
  rw [readFrom_wellFormed hn hwf hsize (Nat.zero_le _), ok_bind] at hread
  simp only [readBack, htake, ok_bind, hread, pure_eq_ok, List.drop_zero]
  rw [List.take_of_length_le (by omega)]

/-- A file without blocks. -/
theorem Inv.stores_nil (h : Inv s) (hF : s.files f = some F) (hfirst : F.firstBlock = none) :
    s.Stores f F.size [] := by
  rcases h with ⟨fl, ch, hlay, -⟩
  have hnil : ch f = [] := (hlay.fileChain hF).linked.eq_nil_iff_head.mp hfirst
  have hstores := hlay.stores hF
  rwa [hnil, cells_nil] at hstores

/-- A file of one block. -/
theorem Inv.stores_singleton (h : Inv s) (hF : s.files f = some F) {p : Ptr} {b : Block}
    (hfirst : F.firstBlock = some p) (hb : s.blocks p = some b) (hnext : b.next = none) :
    s.Stores f F.size [b.cell] := by
  rcases h with ⟨fl, ch, hlay, -⟩
  have hlinked := (hlay.fileChain hF).linked
  rw [hfirst] at hlinked
  have hlink : s.blockNext p = none := by
    rw [State.blockNext, hb]
    exact hnext
  have hchain : ch f = [p] := by
    cases hps : ch f with
    | nil =>
      rw [hps] at hlinked
      cases hlinked.1
    | cons q qs =>
      rw [hps] at hlinked
      rcases hlinked with ⟨hpq, -, hrest⟩
      cases hpq
      rw [hlink] at hrest
      cases qs with
      | nil => rfl
      | cons x xs => cases hrest.1
  have hstores := hlay.stores hF
  rw [hchain, State.cells, List.map_singleton, hb] at hstores
  exact hstores

/-! ## Writing in place -/

/-- What `ufs_write` of `buf` through descriptor `i` has to do to a file that holds `size` bytes in
the blocks `cs`: return the length, replace the bytes at the offset, move the offset past them,
leave the chain well-formed, and touch no other file or descriptor. -/
structure InPlace (m : Malloc) (s t : State) (i : Nat) (d : FileDesc) (size : Nat)
    (cs : List Cell) (buf : List UInt8) : Prop where
  returns : ufsWrite m s ((i : Int) + 1) buf = .ok ((buf.length : Int), t)
  content : ∀ n, max size (d.offset + buf.length) ≤ n → n < 2 ^ 63 →
    readBack t d.file n = .ok ((UserFs.content cs).take d.offset ++ buf ++
      (UserFs.content cs).drop (d.offset + buf.length))
  wellFormed : ∃ ds, t.Stores d.file (max size (d.offset + buf.length)) ds ∧
    WellFormed ds (max size (d.offset + buf.length))
  slots : t.fileDescriptors =
    s.fileDescriptors.set i (some { d with offset := d.offset + buf.length })
  others : ∀ g, g ≠ d.file → t.files g = s.files g ∧ SameFile s t g

/-- The blocks after a write to a well-formed file. -/
theorem ufsWrite_wellFormed (h : Inv s) (hi : s.fileDescriptors[i]? = some (some d))
    (hmay : mayWrite d.openFlags = true) (hstores : s.Stores d.file size cs)
    (hwf : WellFormed cs size) (hoff : d.offset ≤ size) (hbuf : buf ≠ [])
    (hmax : size + buf.length ≤ maxFileSize) (m : Malloc) :
    ∃ t fresh, ufsWrite m s ((i : Int) + 1) buf = .ok ((buf.length : Int), t) ∧ Inv t ∧
      (∀ k, (fresh k).length = blockSize) ∧
      t.Stores d.file (max size (d.offset + buf.length))
        (writeCells fresh buf.length cs (d.offset / blockSize) buf d.offset) ∧
      t.fileDescriptors =
        s.fileDescriptors.set i (some { d with offset := d.offset + buf.length }) ∧
      ∀ g, g ≠ d.file → t.files g = s.files g ∧ SameFile s t g := by
  rcases h with ⟨fl, ch, hlay, htab⟩
  rcases hstores with ⟨F, ps, hF, rfl, rfl⟩
  obtain rfl := hlay.chain_eq hF
  have hshort : d.offset / blockSize ≤ (ch d.file).length := by
    have hdiv : blockSize * (d.offset / blockSize) ≤ d.offset := Nat.mul_div_le _ _
    simpa using (hwf.drop _ (hdiv.trans hoff)).1
  -- Below the limit the sum of two `size_t` does not wrap.
  have hsmall : F.size + buf.length < 2 ^ 63 := by
    simp only [maxFileSize] at hmax
    omega
  have hlimit : (F.size + buf.length) % 2 ^ 64 ≤ maxFileSize := by
    rwa [Nat.mod_eq_of_lt (by omega)]
  rcases ufsWrite_slot hlay htab hi hmay hF.file hbuf hlimit hshort m with
    ⟨u, G, qs, hwrite, hrel, hsize, hcells⟩
  have huslot : u.fileDescriptors[i]? = some (some d) := by rw [hrel.slots, hi]
  refine ⟨u.setDesc i { d with offset := d.offset + buf.length }, freshMemory m s (ch d.file), ?_,
    (hrel.inv ⟨fl, ch, hlay, htab⟩).setDesc huslot rfl, freshMemory_length m s _, ?_, ?_,
    fun g hg => ⟨hrel.files g hg, ?_⟩⟩
  · rw [hwrite, toSsize_of_lt (by omega)]
  · refine setDesc_sameFile u i _ d.file _ _ ⟨G, qs, hrel.after, hsize, hcells⟩
  · rw [State.setDesc, hrel.slots]
  · refine SameFile.trans ?_ (setDesc_sameFile u i _ g)
    cases hK : s.files g with
    | none => exact SameFile.of_absent hK u
    | some K => exact hlay.relayout_sameFile hrel hg ((hlay.alloc g).mpr ⟨K, hK⟩)

theorem inPlace_of_sameBlock (h : Inv s) (hi : s.fileDescriptors[i]? = some (some d))
    (hmay : mayWrite d.openFlags = true) (hstores : s.Stores d.file size cs)
    (hwf : WellFormed cs size) (hoff : d.offset ≤ size) (hbuf : buf ≠ [])
    (hmax : size + buf.length ≤ maxFileSize)
    (hblock : d.offset / blockSize = size / blockSize) :
    ∃ t, Inv t ∧ InPlace m s t i d size cs buf := by
  rcases ufsWrite_wellFormed h hi hmay hstores hwf hoff hbuf hmax m with
    ⟨t, fresh, hwrite, hinv, hfresh, htstores, hslots, hothers⟩
  obtain ⟨htwf, hcontent⟩ :
      WellFormed (writeCells fresh buf.length cs (d.offset / blockSize) buf d.offset)
        (max size (d.offset + buf.length)) ∧
      content (writeCells fresh buf.length cs (d.offset / blockSize) buf d.offset) =
        (content cs).take d.offset ++ buf ++ (content cs).drop (d.offset + buf.length) :=
    writeCells_inPlace hfresh hwf hoff hblock
  refine ⟨t, hinv, hwrite, fun n hle hn => ?_, ⟨_, htstores, htwf⟩, hslots, hothers⟩
  rw [readBack_wellFormed hinv htstores htwf (by omega) hle hn, hcontent]

/-- In a full block before the end the bytes go elsewhere, and the chain no longer adds up to the
size of the file. -/
theorem not_inPlace_of_fullBlock (h : Inv s) (hi : s.fileDescriptors[i]? = some (some d))
    (hmay : mayWrite d.openFlags = true) (hstores : s.Stores d.file size cs)
    (hwf : WellFormed cs size) (hoff : d.offset ≤ size) (hbuf : buf ≠ [])
    (hmax : size + buf.length ≤ maxFileSize)
    (hblock : d.offset / blockSize < size / blockSize) : ¬ ∃ t, InPlace m s t i d size cs buf := by
  rintro ⟨t, hplace⟩
  rcases ufsWrite_wellFormed h hi hmay hstores hwf hoff hbuf hmax m with
    ⟨u, fresh, hwrite, -, hfresh, hustores, -, -⟩
  obtain rfl : u = t := by
    have hboth := hwrite.symm.trans hplace.returns
    exact (Prod.mk.inj (Except.ok.inj hboth)).2
  rcases hplace.wellFormed with ⟨ds, hds, hdswf⟩
  have hcells := (hustores.unique hds).2
  have htotal := writeCells_total_of_full hfresh hwf hblock hbuf
  rw [hcells, hdswf.sum] at htotal
  have hpos : 0 < buf.length := List.length_pos_iff.mpr hbuf
  have hmod := Nat.div_add_mod d.offset blockSize
  have hmul : blockSize * (d.offset / blockSize) + blockSize ≤ blockSize * (size / blockSize) := by
    rw [← Nat.mul_succ]
    exact Nat.mul_le_mul_left _ hblock
  have hsize : blockSize * (size / blockSize) ≤ size := Nat.mul_div_le _ _
  have hwlt : d.offset % blockSize < blockSize := Nat.mod_lt _ (by decide)
  omega

/-- In a state that satisfies the invariant, as every reachable one does, a permitted write of at
least one byte at an offset in a well-formed file overwrites in place if and only if the offset is
in the block that the file ends in. -/
theorem ufsWrite_inPlace_iff (m : Malloc) {s : State} (h : Inv s) {i : Nat} {d : FileDesc}
    (hi : s.fileDescriptors[i]? = some (some d)) (hmay : mayWrite d.openFlags = true)
    {size : Nat} {cs : List Cell} (hstores : s.Stores d.file size cs) (hwf : WellFormed cs size)
    (hoff : d.offset ≤ size) {buf : List UInt8} (hbuf : buf ≠ [])
    (hmax : size + buf.length ≤ maxFileSize) :
    (∃ t, InPlace m s t i d size cs buf) ↔ d.offset / blockSize = size / blockSize := by
  constructor
  · intro hplace
    by_contra hne
    have hle : d.offset / blockSize ≤ size / blockSize := Nat.div_le_div_right hoff
    exact not_inPlace_of_fullBlock h hi hmay hstores hwf hoff hbuf hmax
      (lt_of_le_of_ne hle hne) hplace
  · intro hblock
    rcases inPlace_of_sameBlock h hi hmay hstores hwf hoff hbuf hmax hblock with ⟨t, -, hplace⟩
    exact ⟨t, hplace⟩

/-- One file, empty so far, with two descriptors. -/
def twoDescriptors : List Op := [.open [97] ufsCreate, .open [97] ufsReadWrite]

theorem twoDescriptors_spec : ∃ s, execAll .zeroed State.init twoDescriptors = .ok s ∧
    Reachable (Step .zeroed) State.init s ∧
    s.fileDescriptors[0]? = some (some ⟨0, ufsCreate ||| ufsReadWrite, 0⟩) ∧
    s.fileDescriptors[1]? = some (some ⟨0, ufsReadWrite, 0⟩) ∧ s.Stores 0 0 [] := by
  have hreturns : (execAll .zeroed State.init twoDescriptors).toBool = true := by decide +kernel
  have hslots : (execAll .zeroed State.init twoDescriptors).map (fun s =>
      (s.fileDescriptors[0]?, s.fileDescriptors[1]?)) =
      .ok (some (some ⟨0, ufsCreate ||| ufsReadWrite, 0⟩), some (some ⟨0, ufsReadWrite, 0⟩)) := by
    decide +kernel
  have hfile : (execAll .zeroed State.init twoDescriptors).map (fun s =>
      (s.files 0).map fun F => (F.size, F.firstBlock)) = .ok (some (0, none)) := by decide +kernel
  rcases toBool_eq_true.mp hreturns with ⟨s, hs⟩
  rw [hs] at hslots hfile
  have hreach : Reachable (Step .zeroed) State.init s := ⟨_, execAll_run hs⟩
  have hboth := Prod.mk.inj (Except.ok.inj hslots)
  rcases Option.map_eq_some_iff.mp (Except.ok.inj hfile) with ⟨F, hF, hFeq⟩
  have hstores := (Reachable.inv hreach).stores_nil hF (Prod.mk.inj hFeq).2
  rw [(Prod.mk.inj hFeq).1] at hstores
  exact ⟨s, hs, hreach, hboth.1, hboth.2, hstores⟩

/-- Three bytes are written through the first descriptor. -/
def threeBytes : List Op := twoDescriptors ++ [.write 1 [1, 2, 3]]

def threeBytesCell : Cell := ⟨[1, 2, 3] ++ List.replicate 509 0, 3⟩

theorem threeBytes_wellFormed : WellFormed [threeBytesCell] 3 := by
  have hvalid : threeBytesCell.Valid := ⟨by decide +kernel, by decide, by decide⟩
  exact WellFormed.concat (List.forall_mem_nil _) hvalid (List.forall_mem_nil _) (by decide) rfl

theorem threeBytes_spec : ∃ s, execAll .zeroed State.init threeBytes = .ok s ∧
    Reachable (Step .zeroed) State.init s ∧
    s.fileDescriptors[0]? = some (some ⟨0, ufsCreate ||| ufsReadWrite, 3⟩) ∧
    s.fileDescriptors[1]? = some (some ⟨0, ufsReadWrite, 0⟩) ∧ s.Stores 0 3 [threeBytesCell] := by
  have hreturns : (execAll .zeroed State.init threeBytes).toBool = true := by decide +kernel
  have hslots : (execAll .zeroed State.init threeBytes).map (fun s =>
      (s.fileDescriptors[0]?, s.fileDescriptors[1]?)) =
      .ok (some (some ⟨0, ufsCreate ||| ufsReadWrite, 3⟩), some (some ⟨0, ufsReadWrite, 0⟩)) := by
    decide +kernel
  have hfile : (execAll .zeroed State.init threeBytes).map (fun s =>
      (s.files 0).map fun F => (F.size, F.firstBlock)) = .ok (some (3, some 1)) := by decide +kernel
  have hblock : (execAll .zeroed State.init threeBytes).map (fun s =>
      (s.blocks 1).map fun b => (b.cell, b.next)) = .ok (some (threeBytesCell, none)) := by
    decide +kernel
  rcases toBool_eq_true.mp hreturns with ⟨s, hs⟩
  rw [hs] at hslots hfile hblock
  have hreach : Reachable (Step .zeroed) State.init s := ⟨_, execAll_run hs⟩
  have hboth := Prod.mk.inj (Except.ok.inj hslots)
  rcases Option.map_eq_some_iff.mp (Except.ok.inj hfile) with ⟨F, hF, hFeq⟩
  rcases Option.map_eq_some_iff.mp (Except.ok.inj hblock) with ⟨b, hb, hbeq⟩
  rw [Prod.mk.injEq] at hFeq hbeq
  have hstores := (Reachable.inv hreach).stores_singleton hF hFeq.2 hb hbeq.2
  rw [hFeq.1, hbeq.1] at hstores
  exact ⟨s, hs, hreach, hboth.1, hboth.2, hstores⟩

theorem ufsWrite_inPlace_iff_threeBytes : ∃ s, execAll .zeroed State.init threeBytes = .ok s ∧
    ∃ t, InPlace .zeroed s t 1 ⟨0, ufsReadWrite, 0⟩ 3 [threeBytesCell] [9, 8] := by
  rcases threeBytes_spec with ⟨s, hs, hreach, -, hslot, hstores⟩
  exact ⟨s, hs, (ufsWrite_inPlace_iff .zeroed (Reachable.inv hreach) hslot (by decide) hstores
    threeBytes_wellFormed (by decide) (by simp) (by decide)).mpr rfl⟩

/-- A file of one full block; the other descriptor is still at its start. -/
theorem overwrite_full_block : ∃ s cs, Reachable (Step .zeroed) State.init s ∧
    s.fileDescriptors[1]? = some (some ⟨0, ufsReadWrite, 0⟩) ∧ s.Stores 0 512 cs ∧
    WellFormed cs 512 ∧ ¬ ∃ t, InPlace .zeroed s t 1 ⟨0, ufsReadWrite, 0⟩ 512 cs [1] := by
  rcases twoDescriptors_spec with ⟨s, -, hreach, hslot₀, hslot₁, hstores⟩
  obtain ⟨buf, hbuf⟩ : ∃ buf : List UInt8, buf = List.replicate 512 7 := ⟨_, rfl⟩
  have hlen : buf.length = 512 := by rw [hbuf, List.length_replicate]
  have hne : buf ≠ [] := by
    rintro rfl
    cases hlen
  rcases inPlace_of_sameBlock (m := .zeroed) (Reachable.inv hreach) hslot₀ (by decide)
    hstores .nil (le_refl 0) hne (by rw [hlen]; decide) rfl with ⟨t, hinv, hfill⟩
  rcases hfill.wellFormed with ⟨cs, htstores, hwf⟩
  simp only [hlen] at htstores hwf
  have hslot : t.fileDescriptors[1]? = some (some ⟨0, ufsReadWrite, 0⟩) := by
    rw [hfill.slots, List.getElem?_set_ne (by decide), hslot₁]
  have hstep : Step .zeroed s (.write 1 buf) t := by
    refine ⟨{ ret := buf.length }, ?_⟩
    have hwrite := hfill.returns
    rw [Nat.cast_zero, zero_add] at hwrite
    simp only [exec, hwrite, ok_bind, pure_eq_ok]
  exact ⟨t, cs, hreach.snoc hstep, hslot, htstores, hwf,
    not_inPlace_of_fullBlock hinv hslot (by decide) htstores hwf (by decide) (by simp) (by decide)
      (by decide)⟩

end SystemProgramming.UserFs
