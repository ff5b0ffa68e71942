import SystemProgramming.UserFs.State

/-!
# The operations of the file system

The functions of `userfs.c`.  Each operation takes the state before the call and returns what the
C function returns with the state after it, or the fault it runs into.  A loop over a linked list
is given as much fuel as there are addresses, and faults with `endless` when that is not enough.
-/

namespace SystemProgramming.UserFs

def fail (s : State) (e : UfsErrorCode) : Int × State := (-1, { s with ufsErrorCode := e })

def State.setFile (s : State) (p : Ptr) (file : File) : State :=
  { s with files := store s.files p file }

def State.setBlock (s : State) (p : Ptr) (block : Block) : State :=
  { s with blocks := store s.blocks p block }

/-! ## `_ufs_unlink_file` and `_ufs_free_file` -/

def ufsUnlinkFile (s : State) (file : Ptr) : Run State := do
  let f ← load s.files (some file)
  let s ← match f.prev with
    | none => pure s
    | some p => do
      let prev ← load s.files (some p)
      pure (s.setFile p { prev with next := f.next })
  let f ← load s.files (some file)
  let s ← match f.next with
    | none => pure s
    | some n => do
      let next ← load s.files (some n)
      pure (s.setFile n { next with prev := f.prev })
  let f ← load s.files (some file)
  pure (if s.fileList = some file then { s with fileList := f.next } else s)

def freeBlocks : Nat → Heap Block → Option Ptr → Run (Heap Block)
  | _, blocks, none => .ok blocks
  | 0, _, some _ => .error .endless
  | fuel + 1, blocks, some p => do
    let block ← load blocks (some p)
    freeBlocks fuel (free blocks p) block.next

def ufsFreeFile (s : State) (file : Ptr) : Run State := do
  let f ← load s.files (some file)
  let blocks ← freeBlocks s.brk s.blocks f.firstBlock
  pure { s with blocks := blocks, files := free s.files file }

/-! ## `ufs_open` -/

/-- The search for a file by name at the head of `ufs_open` and of `ufs_delete`. -/
def findFile (files : Heap File) (filename : List UInt8) : Nat → Option Ptr → Run (Option Ptr)
  | _, none => .ok none
  | 0, some _ => .error .endless
  | fuel + 1, some p => do
    let file ← load files (some p)
    if !file.isGhost && file.name == filename then
      pure (some p)
    else
      findFile files filename fuel file.next

def createFile (s : State) (filename : List UInt8) : Run (State × Ptr) := do
  let p := s.brk
  let file : File :=
    { name := filename, isGhost := false, refs := 0, size := 0, firstBlock := none,
      lastBlock := none, next := s.fileList, prev := none }
  match s.fileList with
  | none => pure ({ s.setFile p file with fileList := some p, brk := p + 1 }, p)
  | some head => do
    let s := s.setFile p file
    let old ← load s.files (some head)
    pure ({ s.setFile head { old with prev := some p } with
      fileList := some p, brk := p + 1 }, p)

/-- Scan `count` slots from slot `i` for one that is `NULL`. -/
def findFree (slots : List (Option FileDesc)) (i : Nat) : Nat → Run (Option Nat)
  | 0 => .ok none
  | count + 1 => match slots[i]? with
    | none => .error .outOfBounds
    | some none => .ok (some i)
    | some (some _) => findFree slots (i + 1) count

def fillSlot (s : State) (idx : Nat) (file : Ptr) (flags : BitVec 32) : Run (Int × State) :=
  if idx < s.fileDescriptors.length then do
    let s := { s with
      fileDescriptors := s.fileDescriptors.set idx (some ⟨file, flags, 0⟩)
      fileDescriptorUsed := s.fileDescriptorUsed + 1 }
    let f ← load s.files (some file)
    pure (idx + 1, s.setFile file { f with refs := f.refs + 1 })
  else
    -- the source writes to the slot without a check
    .error .outOfBounds

def takeDescriptor (s : State) (file : Ptr) (flags : BitVec 32) : Run (Int × State) := do
  -- there are no file descriptors yet
  let s := if s.fileDescriptorCapacity ≤ 0 then
      { s with
        fileDescriptors := List.replicate 10 none
        fileDescriptorCapacity := 10
        fileDescriptorUsed := 0 }
    else s
  if s.fileDescriptorUsed < s.fileDescriptorCapacity then
    match ← findFree s.fileDescriptors 0 s.fileDescriptorCapacity.toNat with
    -- a free one must be there
    | none => pure (fail s .notImplemented)
    | some idx => fillSlot s idx file flags
  else
    -- the array is expanded, and the first new slot taken; below `10 * 2 ^ 27` the `int` doubles
    let idx := s.fileDescriptorUsed.toNat
    let s := { s with
      fileDescriptors := s.fileDescriptors ++ List.replicate s.fileDescriptorCapacity.toNat none
      fileDescriptorCapacity := s.fileDescriptorCapacity * 2 }
    fillSlot s idx file flags

def openFlags (flags : BitVec 32) : BitVec 32 :=
  if flags &&& ufsReadOnly = 0 ∧ flags &&& ufsWriteOnly = 0 then flags ||| ufsReadWrite else flags

def ufsOpen (s : State) (filename : List UInt8) (flags : BitVec 32) : Run (Int × State) := do
  let flags := openFlags flags
  match ← findFile s.files filename s.brk s.fileList with
  | some file => takeDescriptor s file flags
  | none =>
    if flags &&& ufsCreate = 0 then
      pure (fail s .noFile)
    else do
      let (s, file) ← createFile s filename
      takeDescriptor s file flags

/-! ## Descriptors -/

/-- The check of `fd` that opens `ufs_write`, `ufs_read`, `ufs_close` and `ufs_resize`: the slot and
the descriptor in it, or `none` for an invalid descriptor. -/
def lookupDesc (s : State) (fd : Int) : Run (Option (Nat × FileDesc)) :=
  let descIdx := fd - 1
  if descIdx < 0 ∨ descIdx ≥ s.fileDescriptorCapacity then
    .ok none
  else match s.fileDescriptors[descIdx.toNat]? with
    | none => .error .outOfBounds
    | some none => .ok none
    | some (some desc) => .ok (some (descIdx.toNat, desc))

def State.setDesc (s : State) (idx : Nat) (desc : FileDesc) : State :=
  { s with fileDescriptors := s.fileDescriptors.set idx (some desc) }

def mayWrite (flags : BitVec 32) : Bool :=
  !(flags &&& ufsWriteOnly == 0 && flags &&& ufsReadWrite == 0)

def mayRead (flags : BitVec 32) : Bool :=
  !(flags &&& ufsReadOnly == 0 && flags &&& ufsReadWrite == 0)

/-! ## `ufs_write` -/

/-- `for (i = 0; i < n; i++) block = block->next;` -/
def skipBlocks (blocks : Heap Block) : Nat → Option Ptr → Run (Option Ptr)
  | 0, block => .ok block
  | n + 1, block => do
    let b ← load blocks block
    skipBlocks blocks n b.next

/-- A new block at the end of the chain, its memory as `malloc` left it. -/
def appendBlock (m : Malloc) (s : State) (file : Ptr) : Run (State × Ptr) := do
  let p := s.brk
  let f ← load s.files (some file)
  match f.lastBlock with
  | none =>
    if f.firstBlock = none then
      let s := s.setBlock p { memory := m.memory p, occupied := 0, next := none, prev := none }
      pure ({ s.setFile file { f with firstBlock := some p, lastBlock := some p } with
        brk := p + 1 }, p)
    else
      -- `assert(desc->file->first_block == NULL)`
      .error .assertion
  | some l => do
    let s := s.setBlock p { memory := m.memory p, occupied := 0, next := none, prev := some l }
    let last ← load s.blocks (some l)
    let s := s.setBlock l { last with next := some p }
    pure ({ s.setFile file { f with lastBlock := some p } with brk := p + 1 }, p)

/-- The block the next bytes go to: the current one, or a new one if there is none or it is full. -/
def writableBlock (m : Malloc) (s : State) (file : Ptr) : Option Ptr → Run (State × Ptr)
  | none => appendBlock m s file
  | some p => do
    let block ← load s.blocks (some p)
    if block.occupied = blockSize then appendBlock m s file else pure (s, p)

/-- The body of the write loop once it has its block: `n` bytes of `buf` at `offset`. -/
def writeBlock (s : State) (p : Ptr) (buf : List UInt8) (writeFrom : Nat) : Run State := do
  let block ← load s.blocks (some p)
  let memory ← copyInto block.memory writeFrom buf
  let occupied : Int :=
    if (writeFrom + buf.length : Nat) > block.occupied then (writeFrom + buf.length : Nat)
    else block.occupied
  pure (s.setBlock p { block with memory := memory, occupied := occupied })

def writeLoop (m : Malloc) (file : Ptr) :
    Nat → State → Option Ptr → List UInt8 → Nat → Run (State × Nat)
  | _, s, _, [], offset => .ok (s, offset)
  | 0, _, _, _ :: _, _ => .error .endless
  | fuel + 1, s, block, buf, offset => do
    let writeFrom := offset % blockSize
    let (s, p) ← writableBlock m s file block
    let n := min buf.length (blockSize - writeFrom)
    let s ← writeBlock s p (buf.take n) writeFrom
    writeLoop m file fuel s (some p) (buf.drop n) (offset + n)

def ufsWrite (m : Malloc) (s : State) (fd : Int) (buf : List UInt8) : Run (Int × State) := do
  match ← lookupDesc s fd with
  | none => pure (fail s .noFile)
  | some (idx, desc) =>
    if !mayWrite desc.openFlags then
      pure (fail s .noPermission)
    else if buf.length = 0 then
      pure (0, s)
    else do
      let file ← load s.files (some desc.file)
      -- the sum is a `size_t`
      if (file.size + buf.length) % 2 ^ 64 > maxFileSize then
        pure (fail s .noMem)
      else do
        let block ← skipBlocks s.blocks (desc.offset / blockSize) file.firstBlock
        let (s, offset) ← writeLoop m desc.file buf.length s block buf desc.offset
        let file ← load s.files (some desc.file)
        let s := if offset > file.size then s.setFile desc.file { file with size := offset } else s
        pure (toSsize buf.length, s.setDesc idx { desc with offset := offset })

/-! ## `ufs_read` -/

/-- The walk of `ufs_read`, which stops when the chain ends early. -/
def skipToBlock (blocks : Heap Block) : Nat → Option Ptr → Run (Option (Option Ptr))
  | 0, block => .ok (some block)
  | _ + 1, none => .ok none
  | n + 1, some p => do
    let b ← load blocks (some p)
    skipToBlock blocks n b.next

/-- The copying loop; `buf` holds the bytes copied so far, so `read_count` is its length. -/
def readLoop (blocks : Heap Block) (size : Nat) :
    Nat → Option Ptr → List UInt8 → Nat → Run (List UInt8 × Nat)
  | _, none, buf, offset => .ok (buf, offset)
  | 0, some _, _, _ => .error .endless
  | fuel + 1, some p, buf, offset =>
    if (buf.length : Int) < toSsize size then do
      let block ← load blocks (some p)
      let blockOffset := (toInt offset).tmod blockSize
      if blockOffset - block.occupied ≥ 0 then
        pure (buf, offset)
      else do
        let n := min (block.occupied - blockOffset).toNat (size - buf.length)
        let bytes ← copyFrom block.memory blockOffset n
        readLoop blocks size fuel block.next (buf ++ bytes) (offset + n)
    else
      .ok (buf, offset)

/-- `ufs_read` returns its result with the bytes it has copied into the buffer. -/
def ufsRead (s : State) (fd : Int) (size : Nat) : Run (Int × List UInt8 × State) := do
  match ← lookupDesc s fd with
  | none => pure (-1, [], { s with ufsErrorCode := .noFile })
  | some (idx, desc) =>
    if !mayRead desc.openFlags then
      pure (-1, [], { s with ufsErrorCode := .noPermission })
    else do
      let file ← load s.files (some desc.file)
      match ← skipToBlock s.blocks (desc.offset / blockSize) file.firstBlock with
      | none => pure (0, [], s)
      | some block =>
        if desc.offset ≥ file.size then
          pure (0, [], s)
        else do
          let (buf, offset) ← readLoop s.blocks size s.brk block [] desc.offset
          pure (buf.length, buf, s.setDesc idx { desc with offset := offset })

/-! ## `ufs_close` and `ufs_delete` -/

def ufsClose (s : State) (fd : Int) : Run (Int × State) := do
  match ← lookupDesc s fd with
  | none => pure (fail s .noFile)
  | some (idx, desc) => do
    let file ← load s.files (some desc.file)
    let s := s.setFile desc.file { file with refs := file.refs - 1 }
    -- the last descriptor of a deleted file
    let s ← if file.refs - 1 ≤ 0 ∧ file.isGhost then do
        let s ← ufsUnlinkFile s desc.file
        ufsFreeFile s desc.file
      else pure s
    pure (0, { s with
      fileDescriptors := s.fileDescriptors.set idx none
      fileDescriptorUsed := s.fileDescriptorUsed - 1 })

def ufsDelete (s : State) (filename : List UInt8) : Run (Int × State) := do
  match ← findFile s.files filename s.brk s.fileList with
  | none => pure (fail s .noFile)
  | some p => do
    let file ← load s.files (some p)
    if file.refs ≤ 0 then do
      let s ← ufsUnlinkFile s p
      let s ← ufsFreeFile s p
      pure (0, s)
    else
      pure (0, s.setFile p { file with isGhost := true })

/-! ## `ufs_resize` -/

def blockCount (size : Nat) : Nat := (size + blockSize - 1) / blockSize

def lastOccupied (size : Nat) : Nat :=
  if size % blockSize = 0 then blockSize else size % blockSize

/-- Free `n` blocks from the end of the chain; the block that is last afterwards. -/
def truncateBlocks : Nat → Heap Block → Option Ptr → Run (Heap Block × Option Ptr)
  | 0, blocks, block => .ok (blocks, block)
  | n + 1, blocks, block => do
    let b ← load blocks block
    let blocks ← match b.prev with
      | none => pure blocks
      | some q => do
        let prev ← load blocks (some q)
        pure (store blocks q { prev with next := none })
    match block with
    | none => .error .nullPointer
    | some p => truncateBlocks n (free blocks p) b.prev

/-- Move the descriptors of a truncated file back to its end. -/
def clampOffsets (file : Ptr) (newSize : Nat) (slots : List (Option FileDesc)) :
    List (Option FileDesc) :=
  slots.map (Option.map fun desc =>
    if desc.file = file ∧ desc.offset > newSize then { desc with offset := newSize } else desc)

def shrinkFile (s : State) (p : Ptr) (newSize : Nat) : Run (Int × State) := do
  let file ← load s.files (some p)
  let (blocks, block) ←
    truncateBlocks (blockCount file.size - blockCount newSize) s.blocks file.lastBlock
  let s := { s with blocks := blocks }
  let s ← match block with
    | none =>
      -- both conditions are asserted
      if newSize = 0 ∧ blockCount newSize = 0 then
        pure (s.setFile p { file with firstBlock := none, lastBlock := none, size := 0 })
      else
        .error .assertion
    | some b => do
      let last ← load s.blocks (some b)
      let s := s.setBlock b { last with occupied := lastOccupied newSize }
      pure (s.setFile p { file with lastBlock := some b, size := newSize })
  -- the descriptors are visited up to the capacity
  if s.fileDescriptorCapacity ≤ s.fileDescriptors.length then
    pure (0, { s with fileDescriptors := clampOffsets p newSize s.fileDescriptors })
  else
    .error .outOfBounds

/-- One round of the growing loop: a cleared block at the end, the one before it now full. -/
def growBlock (m : Malloc) (s : State) (file : Ptr) : Run State := do
  let p := s.brk
  let f ← load s.files (some file)
  -- `calloc`, and `occupied` is left as `malloc` gave it
  let s := { s.setBlock p
    { memory := List.replicate blockSize 0, occupied := m.occupied p,
      next := none, prev := f.lastBlock } with brk := p + 1 }
  let s ← match f.lastBlock with
    | none => pure s
    | some l => do
      let last ← load s.blocks (some l)
      pure (s.setBlock l { last with next := some p, occupied := blockSize })
  pure (s.setFile file { f with
    lastBlock := some p
    firstBlock := if f.firstBlock = none then some p else f.firstBlock })

def growLoop (m : Malloc) (file : Ptr) : Nat → State → Run State
  | 0, s => .ok s
  | n + 1, s => do
    let s ← growBlock m s file
    growLoop m file n s

def growFile (m : Malloc) (s : State) (p : Ptr) (newSize : Nat) : Run (Int × State) := do
  let file ← load s.files (some p)
  let s ← growLoop m p (blockCount newSize - blockCount file.size) s
  let file ← load s.files (some p)
  let last ← load s.blocks file.lastBlock
  match file.lastBlock with
  | none => .error .nullPointer
  | some l =>
    let s := s.setBlock l { last with occupied := lastOccupied newSize }
    pure (0, s.setFile p { file with size := newSize })

def ufsResize (m : Malloc) (s : State) (fd : Int) (newSize : Nat) : Run (Int × State) := do
  match ← lookupDesc s fd with
  | none => pure (fail s .noFile)
  | some (_, desc) => do
    let file ← load s.files (some desc.file)
    if newSize = file.size then
      pure (0, s)
    else if newSize < file.size then
      shrinkFile s desc.file newSize
    else if newSize > maxFileSize then
      pure (fail s .noMem)
    else
      growFile m s desc.file newSize

/-! ## `ufs_destroy` -/

def freeFiles : Nat → State → Option Ptr → Run State
  | _, s, none => .ok s
  | 0, _, some _ => .error .endless
  | fuel + 1, s, some p => do
    let file ← load s.files (some p)
    let s ← ufsFreeFile s p
    freeFiles fuel s file.next

def ufsDestroy (s : State) : Run State := do
  let s := { s with
    fileDescriptors := []
    fileDescriptorCapacity := 0
    fileDescriptorUsed := 0 }
  let s ← freeFiles s.brk s s.fileList
  pure { s with fileList := none }

/-! ## Calls -/

inductive Op
  | open (filename : List UInt8) (flags : BitVec 32)
  | write (fd : Int) (buf : List UInt8)
  | read (fd : Int) (size : Nat)
  | resize (fd : Int) (newSize : Nat)
  | close (fd : Int)
  | delete (filename : List UInt8)
  | destroy

/-- What a call gives back: the return value and the bytes put into the caller's buffer. -/
structure Reply where
  ret : Int
  bytes : List UInt8 := []
  deriving DecidableEq

def exec (m : Malloc) (s : State) : Op → Run (Reply × State)
  | .open filename flags => do
    let (ret, s) ← ufsOpen s filename flags
    pure ({ ret := ret }, s)
  | .write fd buf => do
    let (ret, s) ← ufsWrite m s fd buf
    pure ({ ret := ret }, s)
  | .read fd size => do
    let (ret, bytes, s) ← ufsRead s fd size
    pure ({ ret := ret, bytes := bytes }, s)
  | .resize fd newSize => do
    let (ret, s) ← ufsResize m s fd newSize
    pure ({ ret := ret }, s)
  | .close fd => do
    let (ret, s) ← ufsClose s fd
    pure ({ ret := ret }, s)
  | .delete filename => do
    let (ret, s) ← ufsDelete s filename
    pure ({ ret := ret }, s)
  | .destroy => do
    let s ← ufsDestroy s
    pure ({ ret := 0 }, s)

end SystemProgramming.UserFs
