import SystemProgramming.UserFs.State

/-!
# Files as lists of blocks

The pointer-free view of a file: the blocks of its chain in order, each with its memory and the
number of bytes it holds.  Writing and reading are stated here on such lists; what they do to the
content of a well-formed file, and to one whose offset lies in a full block, is proved here once.
-/

namespace SystemProgramming.UserFs

structure Cell where
  memory : List UInt8
  occupied : Int
  deriving DecidableEq, Inhabited

structure Cell.Valid (c : Cell) : Prop where
  memory : c.memory.length = blockSize
  nonneg : 0 ≤ c.occupied
  le : c.occupied ≤ blockSize

/-- The bytes of the block that belong to the file. -/
def Cell.data (c : Cell) : List UInt8 := c.memory.take c.occupied.toNat

def content (cs : List Cell) : List UInt8 := cs.flatMap Cell.data

/-- The sum of the occupied counts. -/
def total (cs : List Cell) : Nat := (cs.map fun c => c.occupied.toNat).sum

/-- A well-formed chain: every block but the last is full, the last holds at least one byte, and
the occupied counts sum to the size of the file. -/
structure WellFormed (cs : List Cell) (size : Nat) : Prop where
  valid : ∀ c ∈ cs, c.Valid
  full : ∀ c ∈ cs.dropLast, c.occupied = blockSize
  last : ∀ c ∈ cs.getLast?, 1 ≤ c.occupied
  sum : total cs = size

/-- A block as it is allocated: nothing in it counts yet. -/
def Cell.fresh (memory : List UInt8) : Cell := ⟨memory, 0⟩

/-- Put `buf` at `writeFrom` and count the bytes up to its end as occupied. -/
def Cell.write (c : Cell) (writeFrom : Nat) (buf : List UInt8) : Cell where
  memory := c.memory.take writeFrom ++ buf ++ c.memory.drop (writeFrom + buf.length)
  occupied :=
    if (writeFrom + buf.length : Nat) > c.occupied then (writeFrom + buf.length : Nat)
    else c.occupied

/-- The block list, the index of the block to write to, and that block: a new one at the end when
there is no block `k` or it is full. -/
def writableCell (fresh : Nat → List UInt8) (cs : List Cell) (k : Nat) : List Cell × Nat × Cell :=
  let new := Cell.fresh (fresh cs.length)
  match cs[k]? with
  | none => (cs ++ [new], cs.length, new)
  | some c => if c.occupied = blockSize then (cs ++ [new], cs.length, new) else (cs, k, c)

/-- The write loop on a list of blocks; `fresh i` is the memory a block allocated at index `i`
comes with. -/
def writeCells (fresh : Nat → List UInt8) : Nat → List Cell → Nat → List UInt8 → Nat → List Cell
  | _, cs, _, [], _ => cs
  | 0, cs, _, _ :: _, _ => cs
  | fuel + 1, cs, k, buf, offset =>
    let writeFrom := offset % blockSize
    let (cs, k, c) := writableCell fresh cs k
    let n := min buf.length (blockSize - writeFrom)
    writeCells fresh fuel (cs.set k (c.write writeFrom (buf.take n))) k (buf.drop n) (offset + n)

/-- The read loop on the blocks from the current one on. -/
def readCells (size : Nat) : List Cell → List UInt8 → Nat → Run (List UInt8 × Nat)
  | [], buf, offset => .ok (buf, offset)
  | c :: cs, buf, offset =>
    if (buf.length : Int) < toSsize size then do
      let blockOffset := (toInt offset).tmod blockSize
      if blockOffset - c.occupied ≥ 0 then
        pure (buf, offset)
      else do
        let n := min (c.occupied - blockOffset).toNat (size - buf.length)
        let bytes ← copyFrom c.memory blockOffset n
        readCells size cs (buf ++ bytes) (offset + n)
    else
      .ok (buf, offset)

/-! ## Blocks -/

@[simp] theorem Cell.fresh_memory (memory : List UInt8) : (Cell.fresh memory).memory = memory := rfl

@[simp] theorem Cell.fresh_occupied (memory : List UInt8) : (Cell.fresh memory).occupied = 0 := rfl

theorem Cell.write_memory (c : Cell) (w : Nat) (buf : List UInt8) :
    (c.write w buf).memory = c.memory.take w ++ buf ++ c.memory.drop (w + buf.length) := rfl

theorem Cell.write_occupied (c : Cell) (w : Nat) (buf : List UInt8) :
    (c.write w buf).occupied = max ((w + buf.length : Nat) : Int) c.occupied := by
  unfold Cell.write
  dsimp only
  split <;> omega

/-! ## Content and occupied counts -/

@[simp] theorem content_nil : content [] = [] := rfl

@[simp] theorem content_cons (c : Cell) (cs : List Cell) :
    content (c :: cs) = c.data ++ content cs := rfl

@[simp] theorem content_append (cs ds : List Cell) :
    content (cs ++ ds) = content cs ++ content ds := by
  simp [content]

@[simp] theorem total_nil : total [] = 0 := rfl

@[simp] theorem total_cons (c : Cell) (cs : List Cell) :
    total (c :: cs) = c.occupied.toNat + total cs := by
  simp [total]

@[simp] theorem total_append (cs ds : List Cell) : total (cs ++ ds) = total cs + total ds := by
  simp [total]

theorem Cell.Valid.data_length {c : Cell} (h : c.Valid) : c.data.length = c.occupied.toNat := by
  have hle := h.le
  rw [Cell.data, List.length_take, h.memory]
  simp only [blockSize] at *
  omega

theorem content_length {cs : List Cell} (h : ∀ c ∈ cs, c.Valid) :
    (content cs).length = total cs := by
  induction cs with
  | nil => rfl
  | cons c cs ih =>
    rw [content_cons, total_cons, List.length_append, (h c (by simp)).data_length,
      ih fun d hd => h d (by simp [hd])]

theorem total_of_full {cs : List Cell} (h : ∀ c ∈ cs, c.occupied = blockSize) :
    total cs = blockSize * cs.length := by
  induction cs with
  | nil => rfl
  | cons c cs ih =>
    rw [total_cons, h c (by simp), ih fun d hd => h d (by simp [hd]), List.length_cons]
    simp only [blockSize]
    omega

/-! ## The shape of a well-formed chain -/

theorem WellFormed.nil : WellFormed [] 0 := ⟨by simp, by simp, by simp, rfl⟩

theorem WellFormed.concat {cs : List Cell} {c : Cell} (hvalid : ∀ d ∈ cs, d.Valid) (hc : c.Valid)
    (hfull : ∀ d ∈ cs, d.occupied = blockSize) (hpos : 1 ≤ c.occupied) {size : Nat}
    (hsum : blockSize * cs.length + c.occupied.toNat = size) : WellFormed (cs ++ [c]) size := by
  refine ⟨fun d hd => ?_, fun d hd => hfull d ?_, fun d hd => ?_, ?_⟩
  · rcases List.mem_append.mp hd with hd | hd
    · exact hvalid d hd
    · rwa [List.mem_singleton.mp hd]
  · simpa using hd
  · rw [List.getLast?_concat, Option.mem_some_iff] at hd
    rwa [← hd]
  · rw [total_append, total_of_full hfull, total_cons, total_nil]
    omega

/-- A full block in front of a well-formed chain. -/
theorem WellFormed.cons {cs : List Cell} {c : Cell} {size : Nat} (h : WellFormed cs size)
    (hc : c.Valid) (hfull : c.occupied = (blockSize : Int)) :
    WellFormed (c :: cs) (blockSize + size) := by
  refine ⟨fun d hd => ?_, fun d hd => ?_, fun d hd => ?_, ?_⟩
  · rcases List.mem_cons.mp hd with rfl | hd
    · exact hc
    · exact h.valid d hd
  · cases cs with
    | nil => simp at hd
    | cons e es =>
      rcases List.mem_cons.mp hd with rfl | hd
      · exact hfull
      · exact h.full d hd
  · cases cs with
    | nil =>
      obtain rfl : c = d := by simpa using hd
      rw [hfull]
      exact Int.natCast_pos.mpr (by decide)
    | cons e es => exact h.last d (by simpa using hd)
  · rw [total_cons, hfull, h.sum, Int.toNat_natCast]

theorem WellFormed.uncons {cs : List Cell} {c : Cell} {size : Nat} (h : WellFormed (c :: cs) size) :
    (cs = [] ∧ size = c.occupied.toNat ∧ 1 ≤ c.occupied) ∨
    (c.occupied = (blockSize : Int) ∧ blockSize ≤ size ∧ WellFormed cs (size - blockSize)) := by
  have hsum := h.sum
  rw [total_cons] at hsum
  cases cs with
  | nil => exact .inl ⟨rfl, by simpa using hsum.symm, h.last c (by simp)⟩
  | cons d ds =>
    have hc : c.occupied = (blockSize : Int) := h.full c (by simp)
    rw [hc, Int.toNat_natCast] at hsum
    refine .inr ⟨hc, by omega, fun e he => h.valid e (by simp [he]), fun e he => h.full e ?_,
      fun e he => h.last e (by simpa using he), by omega⟩
    rw [List.dropLast_cons_of_ne_nil (by simp)]
    simp [he]

/-- The first `k` blocks of a file that reaches past them are full. -/
theorem WellFormed.drop {cs : List Cell} {size : Nat} (h : WellFormed cs size) (k : Nat)
    (hk : blockSize * k ≤ size) :
    k ≤ cs.length ∧ (content (cs.take k)).length = blockSize * k ∧
      WellFormed (cs.drop k) (size - blockSize * k) := by
  induction k generalizing cs size with
  | zero => exact ⟨Nat.zero_le _, rfl, by simpa using h⟩
  | succ k ih =>
    cases cs with
    | nil =>
      have hsum := h.sum
      rw [total_nil] at hsum
      simp only [blockSize] at hk
      omega
    | cons c cs =>
      have hc := h.valid c (by simp)
      have hle := hc.le
      have hrest : c.occupied = (blockSize : Int) ∧ WellFormed cs (size - blockSize) := by
        rcases h.uncons with ⟨rfl, hsize, hpos⟩ | ⟨hfull, -, hwf⟩
        · have hocc : c.occupied = (blockSize : Int) := by
            simp only [blockSize] at *
            omega
          refine ⟨hocc, ?_⟩
          rw [hsize, hocc, Int.toNat_natCast, Nat.sub_self]
          exact .nil
        · exact ⟨hfull, hwf⟩
      obtain ⟨hlen, hcont, hwf⟩ := ih hrest.2 (by rw [Nat.mul_succ] at hk; omega)
      refine ⟨by simpa using hlen, ?_, ?_⟩
      · rw [List.take_succ_cons, content_cons, List.length_append, hcont, hc.data_length, hrest.1,
          Int.toNat_natCast, Nat.mul_succ, Nat.add_comm]
      · rwa [List.drop_succ_cons, Nat.mul_succ, Nat.add_comm, ← Nat.sub_sub]

/-- A well-formed chain is either made of full blocks only, or ends in one partial block. -/
theorem WellFormed.shape {cs : List Cell} {size : Nat} (h : WellFormed cs size) :
    ((∀ c ∈ cs, c.occupied = (blockSize : Int)) ∧ size = blockSize * cs.length) ∨
    ∃ ds c, cs = ds ++ [c] ∧ (∀ d ∈ ds, d.occupied = (blockSize : Int)) ∧ 1 ≤ c.occupied ∧
      c.occupied < (blockSize : Int) ∧ size = blockSize * ds.length + c.occupied.toNat := by
  rcases List.eq_nil_or_concat' cs with rfl | ⟨ds, c, rfl⟩
  · exact .inl ⟨by simp, by rw [← h.sum]; rfl⟩
  · have hfull : ∀ d ∈ ds, d.occupied = blockSize := fun d hd => h.full d (by simpa using hd)
    have hpos : 1 ≤ c.occupied := h.last c (by simp)
    have hsum : blockSize * ds.length + c.occupied.toNat = size := by
      rw [← h.sum, total_append, total_of_full hfull]; simp
    by_cases hc : c.occupied = blockSize
    · refine .inl ⟨fun d hd => ?_, ?_⟩
      · rcases List.mem_append.mp hd with hd | hd
        · exact hfull d hd
        · rwa [List.mem_singleton.mp hd]
      · rw [← hsum, hc, List.length_append]
        simp only [blockSize, List.length_singleton]
        omega
    · have hle := (h.valid c (by simp)).le
      exact .inr ⟨ds, c, rfl, hfull, hpos, by omega, hsum.symm⟩

/-! ## Writing -/

theorem Cell.Valid.write {c : Cell} (h : c.Valid) {w : Nat} {buf : List UInt8}
    (hw : w + buf.length ≤ blockSize) : (c.write w buf).Valid := by
  have hm := h.memory
  have hn := h.nonneg
  have hl := h.le
  refine ⟨?_, ?_, ?_⟩
  · rw [Cell.write_memory]
    simp only [List.length_append, List.length_take, List.length_drop, hm]
    omega
  · rw [Cell.write_occupied]
    omega
  · rw [Cell.write_occupied]
    omega

/-- Overwriting part of a block overwrites that part of its data. -/
theorem Cell.Valid.write_data {c : Cell} (h : c.Valid) {w : Nat} {buf : List UInt8}
    (hw : w ≤ c.occupied.toNat) (hfit : w + buf.length ≤ blockSize) :
    (c.write w buf).data = c.data.take w ++ buf ++ c.data.drop (w + buf.length) := by
  have hm := h.memory
  have hn := h.nonneg
  have hl := h.le
  have hlen : (c.memory.take w ++ buf).length = w + buf.length := by
    rw [List.length_append, List.length_take, hm]
    omega
  simp only [Cell.data, Cell.write_memory, Cell.write_occupied, List.take_take]
  rw [min_eq_left hw, List.take_append, hlen]
  rcases le_or_gt c.occupied ((w + buf.length : Nat) : Int) with hle | hgt
  · -- the new bytes reach past the old ones
    rw [max_eq_left hle, Int.toNat_natCast, Nat.sub_self, List.take_zero,
      List.take_of_length_le (by rw [hlen]), List.drop_eq_nil_of_le (by
        rw [List.length_take, hm]; omega)]
  · rw [max_eq_right hgt.le, List.take_of_length_le (by rw [hlen]; omega), List.drop_take]

theorem writableCell_new (fresh : Nat → List UInt8) {cs : List Cell} {k : Nat}
    (h : ∀ c, cs[k]? = some c → c.occupied = blockSize) :
    writableCell fresh cs k =
      (cs ++ [Cell.fresh (fresh cs.length)], cs.length, Cell.fresh (fresh cs.length)) := by
  unfold writableCell
  cases hc : cs[k]? with
  | none => rfl
  | some c => simp [h c hc]

theorem writeCells_nil (fresh : Nat → List UInt8) (fuel : Nat) (cs : List Cell) (k offset : Nat) :
    writeCells fresh fuel cs k [] offset = cs := by
  cases fuel <;> rfl

/-- One round of the write loop. -/
theorem writeCells_step {fresh : Nat → List UInt8} (fuel : Nat) {cs ds : List Cell} {k j : Nat}
    {c : Cell} {buf : List UInt8} {offset n : Nat} (hbuf : buf ≠ [])
    (hcell : writableCell fresh cs k = (ds, j, c))
    (hn : n = min buf.length (blockSize - offset % blockSize)) :
    writeCells fresh (fuel + 1) cs k buf offset =
      writeCells fresh fuel (ds.set j (c.write (offset % blockSize) (buf.take n))) j (buf.drop n)
        (offset + n) := by
  cases buf with
  | nil => exact absurd rfl hbuf
  | cons x xs => simp only [writeCells, hcell, ← hn]

/-- A new block, filled from its start. -/
theorem fresh_write_data {mem buf : List UInt8} {w : Nat} (hm : mem.length = blockSize)
    (hfit : w + buf.length ≤ blockSize) :
    ((Cell.fresh mem).write w buf).data = mem.take w ++ buf := by
  have hlen : (mem.take w ++ buf).length = w + buf.length := by
    rw [List.length_append, List.length_take, hm]
    omega
  rw [Cell.data, Cell.write_memory, Cell.write_occupied, Cell.fresh_memory, Cell.fresh_occupied,
    max_eq_left (by omega), Int.toNat_natCast, List.take_append_of_le_length (by rw [hlen]),
    List.take_of_length_le (by rw [hlen])]

theorem fresh_write_occupied (mem buf : List UInt8) (w : Nat) :
    ((Cell.fresh mem).write w buf).occupied = (w + buf.length : Nat) := by
  rw [Cell.write_occupied, Cell.fresh_occupied, max_eq_left (by omega)]

theorem fresh_valid {mem : List UInt8} (hm : mem.length = blockSize) : (Cell.fresh mem).Valid :=
  ⟨hm, le_refl _, Int.natCast_nonneg _⟩

variable {fresh : Nat → List UInt8}

/-- Writing on a block boundary with no room in the current block: the bytes go into new blocks
at the end, which hold exactly them. -/
theorem writeCells_append (hfresh : ∀ i, (fresh i).length = blockSize) {fuel : Nat}
    (cs : List Cell) (k : Nat) (buf : List UInt8) (offset : Nat)
    (hfuel : buf.length ≤ fuel) (hk : ∀ c, cs[k]? = some c → c.occupied = blockSize)
    (hoff : offset % blockSize = 0) :
    ∃ ns, writeCells fresh fuel cs k buf offset = cs ++ ns ∧ WellFormed ns buf.length ∧
      content ns = buf := by
  induction fuel generalizing cs k buf offset with
  | zero =>
    obtain rfl : buf = [] := List.length_eq_zero_iff.mp (by omega)
    exact ⟨[], by simp [writeCells_nil], .nil, rfl⟩
  | succ fuel ih =>
    by_cases hbuf : buf = []
    · subst hbuf
      exact ⟨[], by simp [writeCells_nil], .nil, rfl⟩
    have hpos : 0 < buf.length := List.length_pos_iff.mpr hbuf
    rw [writeCells_step fuel (n := min buf.length blockSize) hbuf (writableCell_new fresh hk)
      (by rw [hoff]; rfl), hoff]
    have hset : (cs ++ [Cell.fresh (fresh cs.length)]).set cs.length
        ((Cell.fresh (fresh cs.length)).write 0 (buf.take (min buf.length blockSize))) =
        cs ++ [(Cell.fresh (fresh cs.length)).write 0 (buf.take (min buf.length blockSize))] := by
      simp
    rw [hset]
    have htake : (buf.take (min buf.length blockSize)).length = min buf.length blockSize := by
      rw [List.length_take]
      omega
    have hfit : 0 + (buf.take (min buf.length blockSize)).length ≤ blockSize := by omega
    have hvalid := (fresh_valid (hfresh cs.length)).write hfit
    have hdata := fresh_write_data (hfresh cs.length) hfit
    have hocc := fresh_write_occupied (fresh cs.length) (buf.take (min buf.length blockSize)) 0
    rw [htake, Nat.zero_add] at hocc
    rw [List.take_zero, List.nil_append] at hdata
    rcases le_or_gt buf.length blockSize with hle | hgt
    · -- everything fits into the new block
      rw [min_eq_left hle, List.drop_length, writeCells_nil]
      rw [min_eq_left hle] at hvalid hdata hocc
      refine ⟨[_], rfl, ?_, ?_⟩
      · rw [← List.nil_append [_]]
        exact WellFormed.concat (by simp) hvalid (by simp) (by omega) (by rw [hocc]; simp)
      · rw [content_cons, hdata, content_nil, List.append_nil, List.take_length]
    · rw [min_eq_right (by omega)] at hvalid hdata hocc ⊢
      obtain ⟨ns, hns, hwf, hcont⟩ := ih
        (cs ++ [(Cell.fresh (fresh cs.length)).write 0 (buf.take blockSize)]) cs.length
        (buf.drop blockSize) (offset + blockSize)
        (by rw [List.length_drop]; simp only [blockSize] at *; omega)
        (by
          intro c hc
          rw [List.getElem?_concat_length, Option.some.injEq] at hc
          rw [← hc, hocc])
        (by rw [Nat.add_mod_right, hoff])
      refine ⟨_ :: ns, by rw [hns, List.append_assoc]; rfl, ?_, ?_⟩
      · have hcons := hwf.cons hvalid hocc
        rwa [List.length_drop, Nat.add_sub_of_le (by omega)] at hcons
      · rw [content_cons, hdata, hcont, List.take_append_drop]

theorem next_boundary (offset : Nat) : (offset + (blockSize - offset % blockSize)) % blockSize = 0 := by
  simp only [blockSize]
  omega

/-- Full blocks in front of a well-formed chain. -/
theorem WellFormed.append {cs ds : List Cell} {size : Nat} (h : WellFormed ds size)
    (hvalid : ∀ c ∈ cs, c.Valid) (hfull : ∀ c ∈ cs, c.occupied = (blockSize : Int)) :
    WellFormed (cs ++ ds) (blockSize * cs.length + size) := by
  induction cs with
  | nil => simpa using h
  | cons c cs ih =>
    have hrest := ih (fun d hd => hvalid d (by simp [hd])) (fun d hd => hfull d (by simp [hd]))
    have hcons := hrest.cons (hvalid c (by simp)) (hfull c (by simp))
    rwa [List.length_cons, Nat.mul_succ, Nat.add_right_comm, Nat.add_comm _ blockSize]

/-- The round that fills up a partial last block. -/
theorem writeCells_last (fresh : Nat → List UInt8) (cs : List Cell) {c : Cell} {buf : List UInt8}
    (offset : Nat) {n : Nat}
    (hc : c.occupied < (blockSize : Int)) (hbuf : buf ≠ [])
    (hn : n = min buf.length (blockSize - offset % blockSize)) :
    writeCells fresh buf.length (cs ++ [c]) cs.length buf offset =
      writeCells fresh (buf.length - 1) (cs ++ [c.write (offset % blockSize) (buf.take n)])
        cs.length (buf.drop n) (offset + n) := by
  have hpos := List.length_pos_iff.mpr hbuf
  have hcell : writableCell fresh (cs ++ [c]) cs.length = (cs ++ [c], cs.length, c) := by
    simp [writableCell, hc.ne]
  have hstep := writeCells_step (buf.length - 1) hbuf hcell hn
  rw [Nat.sub_add_cancel hpos] at hstep
  rw [hstep]
  simp

/-- The round that opens a new block. -/
theorem writeCells_open (fresh : Nat → List UInt8) {cs : List Cell} {k : Nat} {buf : List UInt8}
    (offset : Nat) {n : Nat}
    (hk : ∀ c, cs[k]? = some c → c.occupied = (blockSize : Int)) (hbuf : buf ≠ [])
    (hn : n = min buf.length (blockSize - offset % blockSize)) :
    writeCells fresh buf.length cs k buf offset =
      writeCells fresh (buf.length - 1)
        (cs ++ [(Cell.fresh (fresh cs.length)).write (offset % blockSize) (buf.take n)])
        cs.length (buf.drop n) (offset + n) := by
  have hpos := List.length_pos_iff.mpr hbuf
  have hstep := writeCells_step (buf.length - 1) hbuf (writableCell_new fresh hk) hn
  rw [Nat.sub_add_cancel hpos] at hstep
  rw [hstep]
  simp

/-- Writing at an offset in the last, partial block or at the end of the file overwrites in place:
this is what `ufs_write` is meant to do. -/
theorem writeCells_inPlace {cs : List Cell} {size : Nat} {buf : List UInt8} {offset : Nat}
    (hfresh : ∀ i, (fresh i).length = blockSize) (hwf : WellFormed cs size)
    (hoff : offset ≤ size) (hblock : offset / blockSize = size / blockSize) :
    WellFormed (writeCells fresh buf.length cs (offset / blockSize) buf offset)
        (max size (offset + buf.length)) ∧
      content (writeCells fresh buf.length cs (offset / blockSize) buf offset) =
        (content cs).take offset ++ buf ++ (content cs).drop (offset + buf.length) := by
  have hlen := content_length hwf.valid
  rw [hwf.sum] at hlen
  rcases hwf.shape with ⟨hfull, hsize⟩ | ⟨ds, c, rfl, hfull, hpos, hlt, hsize⟩
  · -- no partial block: the offset is the end of the file
    have hend : offset = size ∧ offset / blockSize = cs.length ∧ offset % blockSize = 0 := by
      simp only [blockSize] at *
      omega
    obtain ⟨ns, hns, hnwf, hcont⟩ := writeCells_append hfresh cs (offset / blockSize) buf offset
      (le_refl buf.length) (fun c hc => by simp [hend.2.1] at hc) hend.2.2
    rw [hns, content_append, hcont, List.take_of_length_le (by omega),
      List.drop_eq_nil_of_le (by omega), List.append_nil]
    refine ⟨?_, rfl⟩
    have happ := hnwf.append hwf.valid hfull
    rwa [max_eq_right (by omega), hend.1, hsize]
  · -- a partial block is the last one, and the offset is in it
    by_cases hbuf : buf = []
    · subst hbuf
      rw [List.length_nil, writeCells_nil, Nat.add_zero, max_eq_left hoff, List.append_nil,
        List.take_append_drop]
      exact ⟨hwf, rfl⟩
    have hk : offset / blockSize = ds.length ∧ offset = blockSize * ds.length + offset % blockSize ∧
        offset % blockSize ≤ c.occupied.toNat ∧ offset % blockSize < blockSize := by
      simp only [blockSize] at *
      omega
    obtain ⟨hk, hoffset, hw, hwlt⟩ := hk
    have hds : ∀ d ∈ ds, d.Valid := fun d hd => hwf.valid d (by simp [hd])
    have hc : c.Valid := hwf.valid c (by simp)
    have hdslen : (content ds).length = blockSize * ds.length := by
      rw [content_length hds, total_of_full hfull]
    have htake : (content (ds ++ [c])).take offset =
        content ds ++ c.data.take (offset % blockSize) := by
      rw [content_append, List.take_append, List.take_of_length_le (by omega), hdslen,
        content_cons, content_nil, List.append_nil,
        show offset - blockSize * ds.length = offset % blockSize by omega]
    have hdrop : (content (ds ++ [c])).drop (offset + buf.length) =
        c.data.drop (offset % blockSize + buf.length) := by
      rw [content_append, List.drop_append, List.drop_eq_nil_of_le (by omega), hdslen,
        content_cons, content_nil, List.append_nil, List.nil_append,
        show offset + buf.length - blockSize * ds.length =
          offset % blockSize + buf.length by omega]
    rw [htake, hdrop, hk]
    rcases le_or_gt buf.length (blockSize - offset % blockSize) with hle | hgt
    · -- everything fits into the last block
      rw [writeCells_last fresh ds offset hlt hbuf rfl, min_eq_left hle, List.take_length,
        List.drop_length, writeCells_nil]
      have hfit : offset % blockSize + buf.length ≤ blockSize := by omega
      have hocc := c.write_occupied (offset % blockSize) buf
      refine ⟨WellFormed.concat hds (hc.write hfit) hfull (by omega) (by omega), ?_⟩
      rw [content_append, content_cons, content_nil, hc.write_data hw hfit]
      simp only [List.append_assoc, List.append_nil]
    · -- the last block fills up, the rest goes into new blocks
      have hlast := writeCells_last fresh ds offset hlt hbuf rfl
      rw [min_eq_right (by omega)] at hlast
      have htk : (buf.take (blockSize - offset % blockSize)).length =
          blockSize - offset % blockSize := by
        rw [List.length_take]
        omega
      have hfit : offset % blockSize + (buf.take (blockSize - offset % blockSize)).length ≤
          blockSize := by omega
      have hocc := c.write_occupied (offset % blockSize)
        (buf.take (blockSize - offset % blockSize))
      have hle := hc.le
      -- once it is full, so are all the blocks, and what is left is appended to them
      have hfullc : (c.write (offset % blockSize)
          (buf.take (blockSize - offset % blockSize))).occupied = (blockSize : Int) := by omega
      have hall : ∀ d ∈ ds ++ [c.write (offset % blockSize)
          (buf.take (blockSize - offset % blockSize))], d.occupied = (blockSize : Int) := by
        intro d hd
        rcases List.mem_append.mp hd with hd | hd
        · exact hfull d hd
        · rwa [List.mem_singleton.mp hd]
      have hvalid : ∀ d ∈ ds ++ [c.write (offset % blockSize)
          (buf.take (blockSize - offset % blockSize))], d.Valid := by
        intro d hd
        rcases List.mem_append.mp hd with hd | hd
        · exact hds d hd
        · rw [List.mem_singleton.mp hd]
          exact hc.write hfit
      obtain ⟨ns, hns, hnwf, hcont⟩ := writeCells_append hfresh
        (ds ++ [c.write (offset % blockSize) (buf.take (blockSize - offset % blockSize))])
        ds.length (buf.drop (blockSize - offset % blockSize))
        (offset + (blockSize - offset % blockSize))
        (show (buf.drop _).length ≤ buf.length - 1 by rw [List.length_drop]; omega)
        (fun d hd => hall d (List.mem_of_getElem? hd)) (next_boundary offset)
      have hnil : ∀ n, c.occupied.toNat ≤ n → c.data.drop n = [] := fun n hn =>
        List.drop_eq_nil_of_le (by rwa [hc.data_length])
      rw [hlast, hns]
      refine ⟨?_, ?_⟩
      · have happ := hnwf.append hvalid hall
        rw [List.length_append, List.length_singleton, List.length_drop] at happ
        have hsizes : max size (offset + buf.length) =
            blockSize * (ds.length + 1) + (buf.length - (blockSize - offset % blockSize)) := by
          rw [Nat.mul_succ]
          simp only [blockSize] at *
          omega
        rwa [hsizes]
      · rw [content_append, hcont, content_append, content_cons, content_nil,
          hc.write_data hw hfit, htk, Nat.add_sub_of_le hwlt.le, hnil blockSize (by omega),
          hnil (offset % blockSize + buf.length) (by omega)]
        simp only [List.append_assoc, List.append_nil, List.take_append_drop]

/-- Writing at an offset in a full block puts all the bytes into new blocks, so that the chain
grows by more than the file. -/
theorem writeCells_total_of_full {cs : List Cell} {size : Nat} {buf : List UInt8} {offset : Nat}
    (hfresh : ∀ i, (fresh i).length = blockSize) (hwf : WellFormed cs size)
    (hblock : offset / blockSize < size / blockSize) (hbuf : buf ≠ []) :
    total (writeCells fresh buf.length cs (offset / blockSize) buf offset) =
      size + offset % blockSize + buf.length := by
  -- a block before the last one is full, so a new one is appended
  have hk : ∀ c, cs[offset / blockSize]? = some c → c.occupied = (blockSize : Int) := by
    intro c hc
    rcases hwf.shape with ⟨hfull, -⟩ | ⟨ds, d, rfl, hfull, -, hlt, hsize⟩
    · exact hfull c (List.mem_of_getElem? hc)
    · refine hfull c (List.mem_of_getElem? (i := offset / blockSize) ?_)
      rwa [List.getElem?_append_left] at hc
      simp only [blockSize] at *
      omega
  have hwlt : offset % blockSize < blockSize := Nat.mod_lt _ (by decide)
  have hopen := writeCells_open fresh offset hk hbuf rfl
  rw [hopen]
  rcases le_or_gt buf.length (blockSize - offset % blockSize) with hle | hgt
  · -- the buffer ends in the new block
    rw [min_eq_left hle, List.take_length, List.drop_length, writeCells_nil, total_append,
      hwf.sum, total_cons, total_nil, fresh_write_occupied, Int.toNat_natCast]
    omega
  · -- the new block is full up, and the rest is appended to it
    rw [min_eq_right (by omega)]
    have htk : (buf.take (blockSize - offset % blockSize)).length =
        blockSize - offset % blockSize := by
      rw [List.length_take]
      omega
    have hocc := fresh_write_occupied (fresh cs.length)
      (buf.take (blockSize - offset % blockSize)) (offset % blockSize)
    rw [htk, Nat.add_sub_of_le hwlt.le] at hocc
    obtain ⟨ns, hns, hnwf, -⟩ := writeCells_append hfresh
      (cs ++ [(Cell.fresh (fresh cs.length)).write (offset % blockSize)
        (buf.take (blockSize - offset % blockSize))]) cs.length
      (buf.drop (blockSize - offset % blockSize)) (offset + (blockSize - offset % blockSize))
      (show (buf.drop _).length ≤ buf.length - 1 by rw [List.length_drop]; omega)
      (by
        intro c hc
        rw [List.getElem?_concat_length, Option.some.injEq] at hc
        rw [← hc, hocc])
      (next_boundary offset)
    rw [hns, total_append, total_append, hwf.sum, hnwf.sum, total_cons, total_nil, hocc,
      Int.toNat_natCast, List.length_drop]
    omega

/-! ## Reading -/

theorem readCells_stop {n : Nat} (hn : n < 2 ^ 63) (cs : List Cell) {buf : List UInt8}
    (hbuf : n ≤ buf.length) (offset : Nat) : readCells n cs buf offset = .ok (buf, offset) := by
  cases cs with
  | nil => rfl
  | cons c cs =>
    have hlt : ¬ (buf.length : Int) < toSsize n := by rw [toSsize_of_lt hn]; omega
    simp only [readCells, if_neg hlt]

/-- One round of the read loop inside a block, `w` bytes into it. -/
theorem readCells_step {n : Nat} (hn : n < 2 ^ 63) {c : Cell} (hc : c.Valid) (cs : List Cell)
    {buf : List UInt8} (hbuf : buf.length < n) {offset w : Nat} (hoff : offset < 2 ^ 31)
    (hw : offset % blockSize = w) (hwc : (w : Int) < c.occupied) :
    readCells n (c :: cs) buf offset =
      readCells n cs
        (buf ++ (c.data.drop w).take (min (c.occupied.toNat - w) (n - buf.length)))
        (offset + min (c.occupied.toNat - w) (n - buf.length)) := by
  have hlt : (buf.length : Int) < toSsize n := by rw [toSsize_of_lt hn]; omega
  have hmod : (toInt offset).tmod blockSize = (w : Int) := by
    rw [toInt_of_lt hoff, ← Int.ofNat_tmod, hw]
  clear hn hoff hw
  have hle := hc.le
  have hm := hc.memory
  have hgo : ¬ (w : Int) - c.occupied ≥ 0 := by omega
  have hmin : min (c.occupied - (w : Int)).toNat (n - buf.length) =
      min (c.occupied.toNat - w) (n - buf.length) := by
    omega
  have hcopy : copyFrom c.memory (w : Int) (min (c.occupied.toNat - w) (n - buf.length)) =
      .ok ((c.memory.drop w).take (min (c.occupied.toNat - w) (n - buf.length))) := by
    rw [copyFrom, if_pos, Int.toNat_natCast]
    refine ⟨Int.natCast_nonneg _, ?_⟩
    rw [Int.toNat_natCast, hm]
    omega
  have hdata : (c.data.drop w).take (min (c.occupied.toNat - w) (n - buf.length)) =
      (c.memory.drop w).take (min (c.occupied.toNat - w) (n - buf.length)) := by
    rw [Cell.data, List.drop_take, List.take_take, min_eq_left (by omega)]
  simp only [readCells, if_pos hlt, hmod, if_neg hgo, hmin, hcopy, hdata]
  rfl

/-- The read loop gives up at the end of a partial block. -/
theorem readCells_end {n : Nat} {c : Cell} (cs : List Cell) (buf : List UInt8) {offset w : Nat}
    (hoff : offset < 2 ^ 31) (hw : offset % blockSize = w) (hwc : c.occupied ≤ (w : Int)) :
    readCells n (c :: cs) buf offset = .ok (buf, offset) := by
  have hmod : (toInt offset).tmod blockSize = (w : Int) := by
    rw [toInt_of_lt hoff, ← Int.ofNat_tmod, hw]
  have hge : (w : Int) - c.occupied ≥ 0 := by omega
  unfold readCells
  simp only [hmod, if_pos hge]
  split <;> rfl

/-- Reading a well-formed chain from an offset in its first block copies its content from there. -/
theorem readCells_wellFormed {n : Nat} (hn : n < 2 ^ 63) {cs : List Cell} {size : Nat}
    (hwf : WellFormed cs size) {buf : List UInt8} (hbuf : buf.length ≤ n) {offset w : Nat}
    (hoff : offset + size < 2 ^ 31) (hw : offset % blockSize = w)
    (hfirst : ∀ c ∈ cs.head?, (w : Int) ≤ c.occupied) :
    readCells n cs buf offset =
      .ok (buf ++ ((content cs).drop w).take (n - buf.length),
        offset + min (n - buf.length) (size - w)) := by
  induction cs generalizing buf offset size w with
  | nil =>
    have hsum := hwf.sum
    rw [total_nil] at hsum
    simp [readCells, ← hsum]
  | cons c cs ih =>
    have hc := hwf.valid c (by simp)
    have hdl := hc.data_length
    have hwc : (w : Int) ≤ c.occupied := hfirst c (by simp)
    have hwlt : w < blockSize := hw ▸ Nat.mod_lt _ (by decide)
    rcases Nat.eq_or_lt_of_le hbuf with heq | hlt
    · rw [readCells_stop hn _ (by omega), heq, Nat.sub_self]
      simp
    rcases hwf.uncons with ⟨rfl, hsize, hpos⟩ | ⟨hfull, hge, hrest⟩
    · -- the last block
      rw [content_cons, content_nil, List.append_nil]
      rcases Int.lt_or_eq_of_le hwc with hwc | hwc
      · have hmin : min (c.occupied.toNat - w) (n - buf.length) =
            min (n - buf.length) (c.data.drop w).length := by
          rw [List.length_drop, hdl, min_comm]
        rw [readCells_step hn hc [] hlt (by omega) hw hwc, readCells, hmin,
          ← List.take_eq_take_min, List.length_drop, hdl, hsize]
      · -- the offset is at the end of the file
        have hnil : c.data.drop w = [] := List.drop_eq_nil_of_le (by omega)
        rw [readCells_end [] buf (by omega) hw hwc.ge, hnil, List.take_nil, List.append_nil,
          Nat.sub_eq_zero_of_le (show size ≤ w by omega), Nat.min_zero, Nat.add_zero]
    · -- a full block: either the request ends in it, or the rest of it is read
      have hocc : c.occupied.toNat = blockSize := by rw [hfull, Int.toNat_natCast]
      rw [hocc] at hdl
      have hstep := readCells_step hn hc cs hlt (by omega) hw (by omega)
      rw [hocc] at hstep
      rw [hstep, content_cons, List.drop_append, hdl, Nat.sub_eq_zero_of_le hwlt.le,
        List.drop_zero, List.take_append, List.length_drop, hdl]
      rcases le_or_gt (n - buf.length) (blockSize - w) with hle | hgt
      · -- the request ends here
        have hdone : n ≤ (buf ++ (c.data.drop w).take (n - buf.length)).length := by
          rw [List.length_append, List.length_take, List.length_drop, hdl, min_eq_left hle]
          omega
        rw [min_eq_right hle, readCells_stop hn _ hdone, Nat.sub_eq_zero_of_le hle,
          List.take_zero, List.append_nil, min_eq_left (by omega)]
      · -- the induction goes on at the beginning of the next block
        have htk : (c.data.drop w).take (n - buf.length) = c.data.drop w :=
          List.take_of_length_le (by rw [List.length_drop, hdl]; omega)
        have htk' : (c.data.drop w).take (blockSize - w) = c.data.drop w :=
          List.take_of_length_le (by rw [List.length_drop, hdl])
        have hlen : (buf ++ c.data.drop w).length = buf.length + (blockSize - w) := by
          rw [List.length_append, List.length_drop, hdl]
        have hnext : (offset + (blockSize - w)) % blockSize = 0 := hw ▸ next_boundary offset
        have hpos : ∀ d ∈ cs.head?, ((0 : Nat) : Int) ≤ d.occupied := fun d hd =>
          (hrest.valid d (List.mem_of_mem_head? hd)).nonneg
        have hread : offset + (blockSize - w) +
            min (n - buf.length - (blockSize - w)) (size - blockSize) =
            offset + min (n - buf.length) (size - w) := by omega
        rw [min_eq_left hgt.le, htk, htk', ih hrest (by omega) (by omega) hnext hpos, hlen,
          List.drop_zero, Nat.sub_zero, List.append_assoc, Nat.sub_add_eq, hread]

/-- Skipping the blocks before an offset skips as much of the content. -/
theorem WellFormed.content_drop {cs : List Cell} {size : Nat} (h : WellFormed cs size)
    {offset : Nat} (hoff : offset ≤ size) :
    (content cs).drop offset = (content (cs.drop (offset / blockSize))).drop (offset % blockSize) := by
  obtain ⟨-, hlen, -⟩ := h.drop (offset / blockSize)
    (by have := Nat.mul_div_le offset blockSize; omega)
  conv_lhs => rw [← List.take_append_drop (offset / blockSize) cs, content_append]
  rw [List.drop_append, hlen, List.drop_eq_nil_of_le (by
    rw [hlen]
    exact Nat.mul_div_le _ _), List.nil_append]
  congr 1
  have hdm := Nat.div_add_mod offset blockSize
  omega

/-! ## Resizing -/

/-- The last block holds `n` bytes from now on. -/
def setLast (n : Int) (cs : List Cell) : List Cell :=
  cs.dropLast ++ (cs.getLast?.map fun c => { c with occupied := n }).toList

/-- Rounds of the growing loop: the last block is declared full and a cleared one put after it. -/
def growCells : Nat → List Cell → List Cell
  | 0, cs => cs
  | n + 1, cs => growCells n (setLast blockSize cs ++ [⟨List.replicate blockSize 0, 0⟩])

@[simp] theorem setLast_nil (n : Int) : setLast n [] = [] := rfl

@[simp] theorem setLast_concat (n : Int) (cs : List Cell) (c : Cell) :
    setLast n (cs ++ [c]) = cs ++ [{ c with occupied := n }] := by
  simp [setLast]

end SystemProgramming.UserFs
