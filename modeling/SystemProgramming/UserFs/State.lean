import SystemProgramming.Lib.Fallible

/-!
# State of the in-memory file system

The globals and heap objects of `userfs.c`.  Heap objects are named by their address; `NULL` is
`none : Option Ptr`.  An address is handed out once and never again, so a pointer to freed memory
is an address with no object: reading through it is a fault, not a read of somebody else's object.
-/

namespace SystemProgramming.UserFs

abbrev Ptr := Nat

abbrev Heap (α : Type) := Ptr → Option α

def blockSize : Nat := 512

def maxFileSize : Nat := 1024 * 1024 * 100

inductive UfsErrorCode
  | noErr
  | noFile
  | noMem
  | notImplemented
  | noPermission
  deriving DecidableEq, Repr

/-! ## Flags of `ufs_open` -/

def ufsCreate : BitVec 32 := 1

def ufsReadOnly : BitVec 32 := 2

def ufsWriteOnly : BitVec 32 := 4

def ufsReadWrite : BitVec 32 := 8

/-! ## Heap objects -/

structure Block where
  memory : List UInt8
  occupied : Int
  next : Option Ptr
  prev : Option Ptr
  deriving DecidableEq

structure File where
  firstBlock : Option Ptr
  lastBlock : Option Ptr
  refs : Int
  isGhost : Bool
  size : Nat
  name : List UInt8
  next : Option Ptr
  prev : Option Ptr
  deriving DecidableEq

structure FileDesc where
  file : Ptr
  openFlags : BitVec 32
  offset : Nat
  deriving DecidableEq

/-- The static variables of `userfs.c` and the objects its pointers reach.  `fileDescriptors` is
the array as allocated, `brk` the next address that has never been handed out.  The `int` counters
count live descriptors and are not wrapped: doubling the capacity would overflow once
`10 * 2 ^ 27` descriptors are open and another one is asked for. -/
structure State where
  ufsErrorCode : UfsErrorCode
  fileList : Option Ptr
  fileDescriptors : List (Option FileDesc)
  fileDescriptorUsed : Int
  fileDescriptorCapacity : Int
  files : Heap File
  blocks : Heap Block
  brk : Nat

def State.init : State where
  ufsErrorCode := .noErr
  fileList := none
  fileDescriptors := []
  fileDescriptorUsed := 0
  fileDescriptorCapacity := 0
  files := fun _ => none
  blocks := fun _ => none
  brk := 0

/-- What `malloc` leaves in memory it has not cleared: the bytes of a block's `memory` and the
`occupied` field of a `struct block`, by address. -/
structure Malloc where
  bytes : Ptr → Nat → UInt8
  occupied : Ptr → Int

def Malloc.memory (m : Malloc) (p : Ptr) : List UInt8 := (List.range blockSize).map (m.bytes p)

/-! ## Memory accesses -/

/-- Ways in which the C code leaves defined behaviour or stops. -/
inductive Fault
  | nullPointer
  | freedMemory
  | outOfBounds
  | assertion
  | endless
  deriving DecidableEq, Repr

abbrev Run := Except Fault

def load {α : Type} (heap : Heap α) : Option Ptr → Run α
  | none => .error .nullPointer
  | some p => match heap p with
    | some a => .ok a
    | none => .error .freedMemory

def store {α : Type} (heap : Heap α) (p : Ptr) (a : α) : Heap α := Function.update heap p (some a)

def free {α : Type} (heap : Heap α) (p : Ptr) : Heap α := Function.update heap p none

/-- `memcpy(dst + off, src, |src|)`. -/
def copyInto (dst : List UInt8) (off : Nat) (src : List UInt8) : Run (List UInt8) :=
  if off + src.length ≤ dst.length then
    .ok (dst.take off ++ src ++ dst.drop (off + src.length))
  else
    .error .outOfBounds

/-- The bytes that `memcpy(_, src + off, n)` copies; the offset is an `int`. -/
def copyFrom (src : List UInt8) (off : Int) (n : Nat) : Run (List UInt8) :=
  if 0 ≤ off ∧ off.toNat + n ≤ src.length then
    .ok ((src.drop off.toNat).take n)
  else
    .error .outOfBounds

/-- `(ssize_t)n` for a `size_t`. -/
def toSsize (n : Nat) : Int := Int.bmod n 18446744073709551616

/-- `(int)n` for a `size_t`. -/
def toInt (n : Nat) : Int := Int.bmod n 4294967296

/-- The address-to-link maps that the list predicates read. -/
def State.fileNext (s : State) (p : Ptr) : Option Ptr := (s.files p).bind File.next

def State.filePrev (s : State) (p : Ptr) : Option Ptr := (s.files p).bind File.prev

def State.blockNext (s : State) (p : Ptr) : Option Ptr := (s.blocks p).bind Block.next

def State.blockPrev (s : State) (p : Ptr) : Option Ptr := (s.blocks p).bind Block.prev

/-! ## Lemmas about the accesses -/

@[simp] theorem load_some {α : Type} {heap : Heap α} {p : Ptr} {a : α} (h : heap p = some a) :
    load heap (some p) = .ok a := by
  simp [load, h]

theorem load_eq_ok {α : Type} {heap : Heap α} {p : Option Ptr} {a : α} :
    load heap p = .ok a ↔ ∃ q, p = some q ∧ heap q = some a := by
  cases p with
  | none => simp [load]
  | some q => cases h : heap q <;> simp [load, h]

@[simp] theorem store_self {α : Type} (heap : Heap α) (p : Ptr) (a : α) :
    store heap p a p = some a := by
  simp [store]

theorem store_ne {α : Type} (heap : Heap α) {p q : Ptr} (a : α) (h : q ≠ p) :
    store heap p a q = heap q := by
  simp [store, h]

@[simp] theorem free_self {α : Type} (heap : Heap α) (p : Ptr) : free heap p p = none := by
  simp [free]

theorem free_ne {α : Type} (heap : Heap α) {p q : Ptr} (h : q ≠ p) : free heap p q = heap q := by
  simp [free, h]

theorem toSsize_of_lt {n : Nat} (h : n < 2 ^ 63) : toSsize n = n := by
  unfold toSsize
  rw [Int.bmod_eq_of_le] <;> omega

theorem toInt_of_lt {n : Nat} (h : n < 2 ^ 31) : toInt n = n := by
  unfold toInt
  rw [Int.bmod_eq_of_le] <;> omega

@[simp] theorem Malloc.memory_length (m : Malloc) (p : Ptr) : (m.memory p).length = 512 := by
  simp [Malloc.memory, blockSize]

attribute [irreducible] Malloc.memory

end SystemProgramming.UserFs
