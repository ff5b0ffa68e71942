import SystemProgramming.UserFs.Overwrite

/-!
# What a resized file holds

Cutting a well-formed file keeps the bytes before the cut.  Growing one puts cleared blocks behind
the last block, but the rest of that block becomes part of the file with the bytes that happen to
be in it: what `malloc` left there, or what was cut off before.
-/

open Fallible
open Runs (Reachable)

namespace SystemProgramming.UserFs

variable {m : Malloc} {s t : State} {i : Nat} {d : FileDesc} {F : File} {size n : Nat}
  {cs : List Cell}

/-! ## Block counts -/

theorem blockCount_full {k : Nat} : blockCount (blockSize * k) = k := by
  simp only [blockCount, blockSize]
  omega

theorem blockCount_add_rest {k r : Nat} (hpos : 1 ≤ r) (hle : r ≤ blockSize) :
    blockCount (blockSize * k + r) = k + 1 := by
  simp only [blockCount, blockSize] at *
  omega

theorem blockCount_mono {a b : Nat} (h : a ≤ b) : blockCount a ≤ blockCount b := by
  simp only [blockCount, blockSize]
  omega

/-- The last of the blocks is filled up to `lastOccupied`. -/
theorem blockCount_sum {k : Nat} (h : blockCount n = k + 1) :
    blockSize * k + lastOccupied n = n := by
  unfold lastOccupied
  by_cases hzero : n % blockSize = 0
  · rw [if_pos hzero]
    simp only [blockCount, blockSize] at *
    omega
  · rw [if_neg hzero]
    simp only [blockCount, blockSize] at *
    omega

theorem WellFormed.blockCount {cs : List Cell} (h : WellFormed cs size) :
    blockCount size = cs.length := by
  rcases h.shape with ⟨-, rfl⟩ | ⟨ds, c, rfl, -, hpos, hlt, rfl⟩
  · exact blockCount_full
  · rw [blockCount_add_rest (by omega) (by omega), List.length_append, List.length_singleton]

/-! ## Cutting -/

theorem Cell.data_take {c : Cell} {k : Nat} (h : (k : Int) ≤ c.occupied) :
    ({ c with occupied := k } : Cell).data = c.data.take k := by
  rw [Cell.data, Cell.data, List.take_take, Int.toNat_natCast]
  congr 1
  omega

/-- The blocks left after a cut hold the bytes before it. -/
theorem cut_wellFormed (h : WellFormed cs size) (hlt : n < size) :
    WellFormed (setLast (lastOccupied n) (cs.take (blockCount n))) n ∧
      content (setLast (lastOccupied n) (cs.take (blockCount n))) = (content cs).take n := by
  have hlen := h.blockCount
  have hle := blockCount_mono hlt.le
  cases hk : blockCount n with
  | zero =>
    have hn : n = 0 := by
      simp only [UserFs.blockCount, blockSize] at hk
      omega
    subst hn
    exact ⟨.nil, rfl⟩
  | succ k =>
    have hsum := blockCount_sum hk
    have hb := lastOccupied_bounds n
    -- the blocks before the last one that stays are full
    rcases h.drop k (by omega) with ⟨-, htake, hrest⟩
    obtain ⟨c, rest, hdrop⟩ : ∃ c rest, cs.drop k = c :: rest := by
      cases hd : cs.drop k with
      | nil =>
        have hnil := congrArg List.length hd
        rw [List.length_drop, List.length_nil] at hnil
        omega
      | cons c rest => exact ⟨c, rest, rfl⟩
    have hc : c ∈ cs := List.mem_of_mem_drop (hdrop ▸ List.mem_cons_self)
    have hlast : cs.take (k + 1) = cs.take k ++ [c] := by
      rw [List.take_add, hdrop, List.take_succ_cons, List.take_zero]
    have hvalid : ∀ e ∈ cs.take k, e.Valid := fun e he => h.valid e (List.mem_of_mem_take he)
    have hfull : ∀ e ∈ cs.take k, e.occupied = (blockSize : Int) := by
      intro e he
      refine h.full e ?_
      rw [List.dropLast_eq_take]
      exact (List.take_prefix_take_left (by omega)).subset he
    -- the last one holds at least as many bytes as are kept of it
    have hocc : (lastOccupied n : Int) ≤ c.occupied := by
      rw [hdrop] at hrest
      rcases hrest.uncons with ⟨-, hsize, -⟩ | ⟨hc, -, -⟩
      · omega
      · rw [hc]
        exact Int.ofNat_le.mpr hb.2
    rw [hlast, setLast_concat]
    refine ⟨.concat hvalid ((h.valid c hc).setOccupied n) hfull (Int.ofNat_le.mpr hb.1) ?_, ?_⟩
    · rw [List.length_take, min_eq_left (by omega), Int.toNat_natCast, hsum]
    · have hsplit : content cs = content (cs.take k) ++ (c.data ++ content rest) := by
        rw [← content_cons, ← hdrop, ← content_append, List.take_append_drop]
      have hdata : lastOccupied n ≤ c.data.length := by
        rw [(h.valid c hc).data_length]
        omega
      have hn : n - blockSize * k = lastOccupied n := by omega
      rw [content_append, content_cons, content_nil, List.append_nil, Cell.data_take hocc, hsplit,
        List.take_append, htake, hn, List.take_append_of_le_length hdata,
        List.take_of_length_le (show (content (cs.take k)).length ≤ n by omega)]

/-! ## Growing -/

/-- The bytes of the last block that do not belong to the file. -/
def slack (cs : List Cell) : List UInt8 :=
  match cs.getLast? with
  | none => []
  | some c => c.memory.drop c.occupied.toNat

@[simp] theorem slack_nil : slack [] = [] := rfl

@[simp] theorem slack_concat (cs : List Cell) (c : Cell) :
    slack (cs ++ [c]) = c.memory.drop c.occupied.toNat := by
  simp [slack]

/-- A cleared block, `n` bytes of it in use. -/
def Cell.cleared (n : Nat) : Cell := ⟨List.replicate blockSize 0, n⟩

theorem cleared_valid (h : n ≤ blockSize) : (Cell.cleared n).Valid :=
  ⟨by simp [Cell.cleared], Int.natCast_nonneg _, Int.ofNat_le.mpr h⟩

theorem cleared_data (h : n ≤ blockSize) : (Cell.cleared n).data = List.replicate n 0 := by
  rw [Cell.data, Cell.cleared, Int.toNat_natCast, List.take_replicate, min_eq_left h]

theorem growCells_succ (k : Nat) (cs : List Cell) :
    growCells (k + 1) cs =
      setLast blockSize cs ++ List.replicate k (Cell.cleared blockSize) ++ [Cell.cleared 0] := by
  induction k generalizing cs with
  | zero => simp [growCells, Cell.cleared]
  | succ k ih =>
    rw [growCells, ih, setLast_concat, List.replicate_succ]
    simp [Cell.cleared]

theorem content_replicate_cleared (k : Nat) :
    content (List.replicate k (Cell.cleared blockSize)) = List.replicate (blockSize * k) 0 := by
  induction k with
  | zero => rfl
  | succ k ih =>
    rw [List.replicate_succ, content_cons, cleared_data (le_refl _), ih, ← List.replicate_add,
      Nat.mul_succ, Nat.add_comm]

/-- The blocks after growing: the slack of the last block is part of the file now, and only what
comes in new blocks is cleared. -/
theorem grow_wellFormed (h : WellFormed cs size) (hlt : size < n) :
    WellFormed (setLast (lastOccupied n) (growCells (blockCount n - blockCount size) cs)) n ∧
      content (setLast (lastOccupied n) (growCells (blockCount n - blockCount size) cs)) =
        content cs ++ (slack cs).take (n - size) ++
          List.replicate (n - size - (slack cs).length) 0 := by
  have hlen := h.blockCount
  have hle := blockCount_mono hlt.le
  have hb := lastOccupied_bounds n
  have hlast : (Cell.cleared (lastOccupied n)).Valid := cleared_valid hb.2
  have hpos : (1 : Int) ≤ (Cell.cleared (lastOccupied n)).occupied := Int.ofNat_le.mpr hb.1
  have hcleared : ∀ j, ∀ c ∈ List.replicate j (Cell.cleared blockSize),
      c.Valid ∧ c.occupied = (blockSize : Int) := by
    intro j c hc
    rw [List.eq_of_mem_replicate hc]
    exact ⟨cleared_valid (le_refl _), rfl⟩
  rcases List.eq_nil_or_concat' cs with rfl | ⟨xs, c, rfl⟩
  · -- a file without blocks
    obtain rfl : size = 0 := by simpa using h.sum.symm
    obtain ⟨j, hj⟩ : ∃ j, blockCount n - blockCount 0 = j + 1 := by
      refine ⟨blockCount n - 1, ?_⟩
      simp only [UserFs.blockCount, blockSize]
      omega
    have hcount : blockCount n = j + 1 := by
      simpa [UserFs.blockCount, blockSize] using hj
    have hsum := blockCount_sum hcount
    rw [hj, growCells_succ, setLast_nil, List.nil_append, setLast_concat]
    refine ⟨.concat (fun e he => (hcleared j e he).1) hlast (fun e he => (hcleared j e he).2) hpos ?_,
      ?_⟩
    · rw [List.length_replicate]
      exact hsum
    · have hdata : ({ Cell.cleared 0 with occupied := (lastOccupied n : Int) } : Cell).data =
          List.replicate (lastOccupied n) 0 := cleared_data hb.2
      rw [content_append, content_replicate_cleared, content_cons, hdata, content_nil,
        List.append_nil, ← List.replicate_add, hsum]
      simp
  · -- there is a last block, the slack of which keeps what was there before
    have hc := h.valid c (by simp)
    have hxs : ∀ e ∈ xs, e.Valid := fun e he => h.valid e (by simp [he])
    have hfull : ∀ e ∈ xs, e.occupied = (blockSize : Int) := fun e he => h.full e (by simpa using he)
    have hsize : blockSize * xs.length + c.occupied.toNat = size := by
      rw [← h.sum, total_append, total_of_full hfull, total_cons, total_nil, Nat.add_zero]
    have hone : 1 ≤ c.occupied := h.last c (by simp)
    have hcle := hc.le
    have hmem := hc.memory
    have hslack : (slack (xs ++ [c])).length = blockSize - c.occupied.toNat := by
      rw [slack_concat, List.length_drop, hmem]
    rw [List.length_append, List.length_singleton] at hlen
    cases hk : blockCount n - blockCount size with
    | zero =>
      -- the file still ends in its old last block
      have hsum := blockCount_sum (show blockCount n = xs.length + 1 by omega)
      have hocc : c.occupied.toNat ≤ lastOccupied n := by omega
      rw [growCells, setLast_concat]
      refine ⟨.concat hxs (hc.setOccupied n) hfull (Int.ofNat_le.mpr hb.1) hsum, ?_⟩
      have hdata : ({ c with occupied := (lastOccupied n : Int) } : Cell).data =
          c.data ++ (slack (xs ++ [c])).take (n - size) := by
        rw [slack_concat, Cell.data, Cell.data, Int.toNat_natCast,
          show n - size = lastOccupied n - c.occupied.toNat by omega, ← List.take_add,
          Nat.add_sub_cancel' hocc]
      rw [content_append, content_append, content_cons, content_cons, content_nil, hdata, hslack,
        show n - size - (blockSize - c.occupied.toNat) = 0 by omega]
      simp
    | succ j =>
      -- the old last block fills up with its slack, and cleared blocks follow it
      have hsum := blockCount_sum (show blockCount n = xs.length + 1 + j + 1 by omega)
      rw [Nat.mul_add, Nat.mul_add, Nat.mul_one] at hsum
      have hmid : ({ c with occupied := (blockSize : Int) } : Cell).Valid :=
        ⟨hmem, Int.natCast_nonneg _, le_refl _⟩
      rw [growCells_succ, setLast_concat, setLast_concat]
      refine ⟨.concat (fun e he => ?_) hlast (fun e he => ?_) hpos ?_, ?_⟩
      · rcases List.mem_append.mp he with he | he
        · rcases List.mem_append.mp he with he | he
          · exact hxs e he
          · rwa [List.mem_singleton.mp he]
        · exact (hcleared j e he).1
      · rcases List.mem_append.mp he with he | he
        · rcases List.mem_append.mp he with he | he
          · exact hfull e he
          · rw [List.mem_singleton.mp he]
        · exact (hcleared j e he).2
      · simp only [List.length_append, List.length_singleton, List.length_replicate]
        rw [Nat.mul_add, Nat.mul_add, Nat.mul_one]
        exact hsum
      · have hdata : ({ c with occupied := (blockSize : Int) } : Cell).data =
            c.data ++ slack (xs ++ [c]) := by
          rw [slack_concat, Cell.data, Cell.data, List.take_append_drop, Int.toNat_natCast,
            List.take_of_length_le (le_of_eq hmem)]
        have htail : ({ Cell.cleared 0 with occupied := (lastOccupied n : Int) } : Cell).data =
            List.replicate (lastOccupied n) 0 := cleared_data hb.2
        have hzeros : n - size - (blockSize - c.occupied.toNat) = blockSize * j + lastOccupied n := by
          omega
        rw [List.take_of_length_le (show (slack (xs ++ [c])).length ≤ n - size by omega), hslack,
          hzeros, List.replicate_add]
        simp only [content_append, content_cons, content_nil, hdata, htail,
          content_replicate_cleared, List.append_nil, List.append_assoc]

/-- What has been added is zero exactly when the slack that became part of the file is. -/
theorem grow_zero_iff (xs : List UInt8) {ys : List UInt8} {k : Nat} (hlen : ys.length ≤ k) :
    xs ++ ys ++ List.replicate (k - ys.length) 0 = xs ++ List.replicate k 0 ↔ ∀ b ∈ ys, b = 0 := by
  rw [List.append_assoc, List.append_cancel_left_eq]
  constructor
  · intro heq b hb
    have hmem : b ∈ List.replicate k (0 : UInt8) := heq ▸ List.mem_append_left _ hb
    exact List.eq_of_mem_replicate hmem
  · intro hzero
    rw [List.eq_replicate_of_mem hzero, List.length_replicate, ← List.replicate_add,
      Nat.add_sub_cancel' hlen]

/-! ## `ufs_resize` -/

/-- Relaying the chain of one file leaves every other file alone. -/
theorem Layout.relayout_others {fl : List Ptr} {ch : Ptr → List Ptr} {f : Ptr} {G : File}
    {ps qs : List Ptr} (h : Layout s fl ch) (hrel : Relayout s t f F G ps qs) (g : Ptr)
    (hg : g ≠ f) : t.files g = s.files g ∧ SameFile s t g := by
  refine ⟨hrel.files g hg, ?_⟩
  cases hK : s.files g with
  | none => exact SameFile.of_absent hK t
  | some K => exact h.relayout_sameFile hrel hg ((h.alloc g).mpr ⟨K, hK⟩)

theorem ufsResize_cut (h : Inv s) (hi : s.fileDescriptors[i]? = some (some d))
    (hstores : s.Stores d.file size cs) (hwf : WellFormed cs size) (hlt : n < size) (m : Malloc) :
    ∃ t, ufsResize m s ((i : Int) + 1) n = .ok (0, t) ∧ Inv t ∧
      t.Stores d.file n (setLast (lastOccupied n) (cs.take (blockCount n))) ∧
      t.fileDescriptors = clampOffsets d.file n s.fileDescriptors ∧
      ∀ g, g ≠ d.file → t.files g = s.files g ∧ SameFile s t g := by
  have hinv := h
  rcases h with ⟨fl, ch, hlay, htab⟩
  rcases hstores with ⟨F, ps, hF, rfl, rfl⟩
  have hcount : blockCount F.size = ps.length := by rw [hwf.blockCount, cells_length]
  have hle := blockCount_mono hlt.le
  have hcap := (capacity_eq htab).le
  have hsplit := hF
  rw [← List.take_append_drop (blockCount n) ps] at hsplit
  -- the blocks that the new size needs stay
  rcases shrinkFile_eq (n := n) hsplit (by rw [List.length_drop, surplus, hcount]) hcap (fun hnil => by
    have hlen := congrArg List.length hnil
    rw [List.length_take, List.length_nil] at hlen
    simp only [blockCount, blockSize] at hlen hle hcount
    omega) with ⟨u, G, hshrink, hrel, hsize, hcells⟩
  obtain ⟨v, hv⟩ : ∃ v : State, v = { u with
    fileDescriptors := clampOffsets d.file n s.fileDescriptors } := ⟨_, rfl⟩
  -- moving the descriptors back changes no file
  have hsame : ∀ g, SameFile u v g := by
    intro g
    rw [hv]
    refine stores_congr ?_ ?_ ?_ g <;> rfl
  refine ⟨v, ?_, ?_, hsame _ _ _ ⟨G, _, hrel.after, hsize, ?_⟩, by rw [hv], fun g hg => ?_⟩
  · have hne : ¬ n = F.size := hlt.ne
    simp only [ufsResize, lookupDesc_slot htab hi, ok_bind, load_some hF.file, if_neg hne, if_pos hlt,
      hshrink, hv]
  · rw [hv]
    refine (hrel.inv hinv).congr rfl rfl rfl rfl ?_
    simp only [State.table, clampOffsets_files, hrel.slots]
  · rw [hcells]
    simp only [State.cells, List.map_take]
  · rcases hlay.relayout_others hrel g hg with ⟨hfile, hother⟩
    exact ⟨by rw [hv]; exact hfile, hother.trans (hsame g)⟩

theorem ufsResize_grow (h : Inv s) (hi : s.fileDescriptors[i]? = some (some d))
    (hstores : s.Stores d.file size cs) (hwf : WellFormed cs size) (hlt : size < n)
    (hmax : n ≤ maxFileSize) (m : Malloc) :
    ∃ t, ufsResize m s ((i : Int) + 1) n = .ok (0, t) ∧ Inv t ∧
      t.Stores d.file n
        (setLast (lastOccupied n) (growCells (blockCount n - blockCount size) cs)) ∧
      t.fileDescriptors = s.fileDescriptors ∧
      ∀ g, g ≠ d.file → t.files g = s.files g ∧ SameFile s t g := by
  have hinv := h
  rcases h with ⟨fl, ch, hlay, htab⟩
  rcases hstores with ⟨F, ps, hF, rfl, rfl⟩
  have hcount : blockCount F.size = ps.length := by rw [hwf.blockCount, cells_length]
  have hpos : 0 < blockCount n := by
    simp only [blockCount, blockSize]
    omega
  rcases growLoop_eq hF m (blockCount n - blockCount F.size) n (by omega) with
    ⟨u, G, qs, hgrow, hrel, hsize, hcells⟩
  refine ⟨u, ?_, hrel.inv hinv, ⟨G, qs, hrel.after, hsize, hcells⟩, hrel.slots,
    hlay.relayout_others hrel⟩
  have hne : ¬ n = F.size := hlt.ne'
  have hnlt : ¬ n < F.size := not_lt.mpr hlt.le
  have hnmax : ¬ n > maxFileSize := not_lt.mpr hmax
  simp only [ufsResize, lookupDesc_slot htab hi, ok_bind, load_some hF.file, if_neg hne, if_neg hnlt,
    if_neg hnmax, growFile_eq hF.file, hgrow]

/-- What `ufs_resize` to `n` bytes through descriptor `i` has to do to a file that holds `size`
bytes in the blocks `cs`: keep the bytes before `n` and add zeros up to it, leave the chain
well-formed, and move back the descriptors of the file that are behind its new end. -/
structure Resized (m : Malloc) (s t : State) (i : Nat) (d : FileDesc) (size : Nat)
    (cs : List Cell) (n : Nat) : Prop where
  returns : ufsResize m s ((i : Int) + 1) n = .ok (0, t)
  content : ∀ k, n ≤ k → k < 2 ^ 63 → readBack t d.file k =
    .ok ((UserFs.content cs).take n ++ List.replicate (n - size) 0)
  wellFormed : ∃ ds, t.Stores d.file n ds ∧ WellFormed ds n
  slots : ∀ j : Nat, t.fileDescriptors[j]? = s.fileDescriptors[j]?.map (Option.map fun e =>
    if e.file = d.file ∧ n < size then { e with offset := min e.offset n } else e)
  others : ∀ g, g ≠ d.file → t.files g = s.files g ∧ SameFile s t g

theorem resized_cut (h : Inv s) (hi : s.fileDescriptors[i]? = some (some d))
    (hstores : s.Stores d.file size cs) (hwf : WellFormed cs size) (hlt : n < size)
    (hmax : n ≤ maxFileSize) : ∃ t, Resized m s t i d size cs n := by
  rcases ufsResize_cut h hi hstores hwf hlt m with ⟨t, hok, hinv, htstores, hslots, hothers⟩
  rcases cut_wellFormed hwf hlt with ⟨htwf, hcontent⟩
  refine ⟨t, hok, fun k hle hk => ?_, ⟨_, htstores, htwf⟩, fun j => ?_, hothers⟩
  · rw [readBack_wellFormed hinv htstores htwf hmax hle hk, hcontent, Nat.sub_eq_zero_of_le hlt.le,
      List.replicate_zero, List.append_nil]
  · rw [hslots, clampOffsets_getElem?]
    congr 2
    funext e
    by_cases hfile : e.file = d.file
    · by_cases hoff : e.offset > n
      · rw [if_pos ⟨hfile, hoff⟩, if_pos ⟨hfile, hlt⟩, min_eq_right hoff.le]
      · rw [if_neg fun hboth => hoff hboth.2, if_pos ⟨hfile, hlt⟩, min_eq_left (not_lt.mp hoff)]
    · rw [if_neg fun hboth => hfile hboth.1, if_neg fun hboth => hfile hboth.1]

/-- Nothing to move in the table unless the file becomes shorter. -/
theorem slots_unmoved {f : Ptr} (hge : ¬ n < size) (slots : List (Option FileDesc)) (j : Nat) :
    slots[j]? = slots[j]?.map (Option.map fun e =>
      if e.file = f ∧ n < size then { e with offset := min e.offset n } else e) := by
  have hid : (fun e : FileDesc => if e.file = f ∧ n < size then { e with offset := min e.offset n }
      else e) = id := by
    funext e
    rw [if_neg fun hboth => hge hboth.2]
    rfl
  rw [hid, Option.map_id, Option.map_id]
  rfl

theorem resized_same (h : Inv s) (hi : s.fileDescriptors[i]? = some (some d))
    (hstores : s.Stores d.file size cs) (hwf : WellFormed cs size) (hmax : size ≤ maxFileSize) :
    Resized m s s i d size cs size := by
  have hinv := h
  rcases h with ⟨fl, ch, hlay, htab⟩
  have hlen : (content cs).length = size := by rw [content_length hwf.valid, hwf.sum]
  refine ⟨?_, fun k hle hk => ?_, ⟨cs, hstores, hwf⟩, slots_unmoved (lt_irrefl _) _,
    fun g _ => ⟨rfl, SameFile.refl s g⟩⟩
  · rcases hstores with ⟨F, ps, hF, rfl, -⟩
    simp only [ufsResize, lookupDesc_slot htab hi, ok_bind, load_some hF.file, if_true, pure_eq_ok]
  · rw [readBack_wellFormed hinv hstores hwf hmax hle hk, List.take_of_length_le hlen.le,
      Nat.sub_self, List.replicate_zero, List.append_nil]

/-- Growing a file meets its description if and only if the slack it takes in is zero. -/
theorem resized_grow_iff (h : Inv s) (hi : s.fileDescriptors[i]? = some (some d))
    (hstores : s.Stores d.file size cs) (hwf : WellFormed cs size) (hlt : size < n)
    (hmax : n ≤ maxFileSize) :
    (∃ t, Resized m s t i d size cs n) ↔ ∀ b ∈ (slack cs).take (n - size), b = 0 := by
  rcases ufsResize_grow h hi hstores hwf hlt hmax m with ⟨t, hok, hinv, htstores, hslots, hothers⟩
  rcases grow_wellFormed hwf hlt with ⟨htwf, hcontent⟩
  have hlen : (content cs).length = size := by rw [content_length hwf.valid, hwf.sum]
  have htake : (content cs).take n = content cs := List.take_of_length_le (by omega)
  have hbig : n < 2 ^ 63 := by
    simp only [maxFileSize] at hmax
    omega
  -- the slack taken in, with as many zeros behind it as are missing
  have hpad : n - size - (slack cs).length = n - size - ((slack cs).take (n - size)).length := by
    rw [List.length_take]
    omega
  have hslack : ((slack cs).take (n - size)).length ≤ n - size := by
    rw [List.length_take]
    exact min_le_left _ _
  have hiff := grow_zero_iff (content cs) hslack
  rw [hpad] at hcontent
  constructor
  · rintro ⟨u, hres⟩
    obtain rfl : t = u := (Prod.mk.inj (Except.ok.inj (hok.symm.trans hres.returns))).2
    have hread := hres.content n (le_refl n) hbig
    rw [readBack_wellFormed hinv htstores htwf hmax (le_refl n) hbig, hcontent, htake] at hread
    exact hiff.mp (Except.ok.inj hread)
  · intro hzero
    refine ⟨t, hok, fun k hle hk => ?_, ⟨_, htstores, htwf⟩, ?_, hothers⟩
    · rw [readBack_wellFormed hinv htstores htwf hmax hle hk, hcontent, htake, hiff.mpr hzero]
    · intro j
      rw [hslots]
      exact slots_unmoved (not_lt.mpr hlt.le) _ j

/-- In a state that satisfies the invariant, as every reachable one does, `ufs_resize` of a
well-formed file does what it has to if and only if every byte of the last block that becomes part
of the file is zero already. -/
theorem ufsResize_zeroFill_iff (m : Malloc) {s : State} (h : Inv s) {i : Nat} {d : FileDesc}
    (hi : s.fileDescriptors[i]? = some (some d)) {size : Nat} {cs : List Cell}
    (hstores : s.Stores d.file size cs) (hwf : WellFormed cs size) {n : Nat}
    (hmax : n ≤ maxFileSize) :
    (∃ t, Resized m s t i d size cs n) ↔ ∀ b ∈ (slack cs).take (n - size), b = 0 := by
  have hnone : n ≤ size → ∀ b ∈ (slack cs).take (n - size), b = 0 := by
    intro hle b hb
    rw [Nat.sub_eq_zero_of_le hle, List.take_zero] at hb
    cases hb
  rcases lt_trichotomy n size with hlt | rfl | hlt
  · exact iff_of_true (resized_cut h hi hstores hwf hlt hmax) (hnone hlt.le)
  · exact iff_of_true ⟨s, resized_same h hi hstores hwf hmax⟩ (hnone (le_refl n))
  · exact resized_grow_iff h hi hstores hwf hlt hmax

theorem ufsResize_zeroFill_iff_threeBytes :
    ∃ s, execAll .zeroed State.init threeBytes = .ok s ∧
      ∃ t, Resized .zeroed s t 1 ⟨0, ufsReadWrite, 0⟩ 3 [threeBytesCell] 1000 := by
  rcases threeBytes_spec with ⟨s, hs, hreach, -, hslot, hstores⟩
  have hzero : ∀ b ∈ (slack [threeBytesCell]).take (1000 - 3), b = 0 := by decide +kernel
  exact ⟨s, hs, (ufsResize_zeroFill_iff .zeroed (Reachable.inv hreach) hslot hstores
    threeBytes_wellFormed (by decide)).mpr hzero⟩

/-- Two bytes that were cut off come back when the file grows again. -/
theorem cut_bytes_come_back : ∃ s cs, Reachable (Step .zeroed) State.init s ∧
    s.fileDescriptors[0]? = some (some ⟨0, ufsCreate ||| ufsReadWrite, 1⟩) ∧ s.Stores 0 1 cs ∧
    WellFormed cs 1 ∧
    ¬ ∃ t, Resized .zeroed s t 0 ⟨0, ufsCreate ||| ufsReadWrite, 1⟩ 1 cs 3 := by
  rcases twoDescriptors_spec with ⟨s, -, hreach, hslot, -, hstores⟩
  have hbuf : ([1, 2, 3] : List UInt8) ≠ [] := by simp
  rcases ufsWrite_wellFormed (Reachable.inv hreach) hslot (by decide) hstores .nil (le_refl 0)
    hbuf (by decide) .zeroed with
    ⟨t, fresh, hwrite, htinv, hfresh, htstores, htslots, -⟩
  have hwritten : ∀ bs : List UInt8, WellFormed (writeCells fresh bs.length [] 0 bs 0)
      (max 0 (0 + bs.length)) := fun bs => (writeCells_inPlace hfresh .nil (le_refl 0) rfl).1
  have htwf := hwritten [1, 2, 3]
  have htslot : t.fileDescriptors[0]? = some (some ⟨0, ufsCreate ||| ufsReadWrite, 3⟩) := by
    have hlt := (List.getElem?_eq_some_iff.mp hslot).1
    rw [htslots, List.getElem?_set_self hlt]
    rfl
  have hreach₁ : Reachable (Step .zeroed) State.init t := by
    refine hreach.snoc (a := .write 1 [1, 2, 3]) ⟨{ ret := 3 }, ?_⟩
    change ufsWrite .zeroed s 1 [1, 2, 3] = _ at hwrite
    simp only [exec, hwrite, ok_bind, pure_eq_ok]
    rfl
  -- The cut to one byte keeps the block, and with it the bytes behind the cut.
  rcases ufsResize_cut (n := 1) htinv htslot htstores htwf (by decide) .zeroed with
    ⟨u, hcut, huinv, hustores, huslots, -⟩
  have huwf := (cut_wellFormed (n := 1) htwf (by decide)).1
  have huslot : u.fileDescriptors[0]? = some (some ⟨0, ufsCreate ||| ufsReadWrite, 1⟩) := by
    rw [huslots, clampOffsets_getElem?, htslot]
    rfl
  have hreach₂ : Reachable (Step .zeroed) State.init u := by
    refine hreach₁.snoc (a := .resize 1 1) ⟨{ ret := 0 }, ?_⟩
    change ufsResize .zeroed t 1 1 = _ at hcut
    simp only [exec, hcut, ok_bind, pure_eq_ok]
  refine ⟨u, _, hreach₂, huslot, hustores, huwf, fun hres => ?_⟩
  have hzero := (resized_grow_iff huinv huslot hustores huwf (by decide) (by decide)).mp hres 2
    (by simp [writeCells, writableCell, Cell.write, slack, setLast, blockCount, blockSize,
      lastOccupied])
  cases hzero

end SystemProgramming.UserFs
