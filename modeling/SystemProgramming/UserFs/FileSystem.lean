import SystemProgramming.UserFs.State

/-!
# What a file system is

The file system as its users see it: names that lead to files, the bytes of every file, and the
numbered handles, each with its own offset.  There are no blocks, no pointers and no reference
counts here, and a file that has lost its name lives on for the handles it has.
-/

namespace SystemProgramming.UserFs

variable {ν β ι : Type*}

/-- An open file: what may be done through it, and where it stands. -/
structure Handle (ι : Type*) where
  file : ι
  reads : Bool
  writes : Bool
  offset : Nat

structure FileSystem (ν β ι : Type*) where
  file : ν → Option ι
  bytes : ι → List β
  handle : Int → Option (Handle ι)
  errno : UfsErrorCode

namespace FileSystem

def empty : FileSystem ν β ι := ⟨fun _ => none, fun _ => [], fun _ => none, .noErr⟩

def withErrno (a : FileSystem ν β ι) (e : UfsErrorCode) : FileSystem ν β ι := { a with errno := e }

def withFile [DecidableEq ν] (a : FileSystem ν β ι) (name : ν) (f : Option ι) :
    FileSystem ν β ι :=
  { a with file := Function.update a.file name f }

def withBytes [DecidableEq ι] (a : FileSystem ν β ι) (f : ι) (bs : List β) : FileSystem ν β ι :=
  { a with bytes := Function.update a.bytes f bs }

def withHandle (a : FileSystem ν β ι) (fd : Int) (h : Option (Handle ι)) : FileSystem ν β ι :=
  { a with handle := Function.update a.handle fd h }

/-- Every handle of file `f` that stands behind byte `n` goes back to it. -/
def clamp [DecidableEq ι] (a : FileSystem ν β ι) (f : ι) (n : Nat) : FileSystem ν β ι :=
  { a with handle := fun fd => (a.handle fd).map fun h =>
      if h.file = f ∧ n < h.offset then { h with offset := n } else h }

/-- The lowest positive number without a handle. -/
def Lowest (a : FileSystem ν β ι) (fd : Int) : Prop :=
  0 < fd ∧ a.handle fd = none ∧ ∀ j, 0 < j → j < fd → a.handle j ≠ none

/-- Neither a name nor a handle leads to file `f`. -/
def Unused (a : FileSystem ν β ι) (f : ι) : Prop :=
  (∀ name, a.file name ≠ some f) ∧ ∀ fd h, a.handle fd = some h → h.file ≠ f

end FileSystem

/-- `new` in place of what `old` has from `offset` on. -/
def overwrite (old : List β) (offset : Nat) (new : List β) : List β :=
  old.take offset ++ new ++ old.drop (offset + new.length)

/-- The first `n` elements of `old`, with as many `z` behind them as are missing. -/
def resized (z : β) (old : List β) (n : Nat) : List β :=
  old.take n ++ List.replicate (n - old.length) z

inductive Call (ν β : Type*)
  | open (name : ν) (create reads writes : Bool)
  | write (fd : Int) (buf : List β)
  | read (fd : Int) (n : Nat)
  | resize (fd : Int) (n : Nat)
  | close (fd : Int)
  | delete (name : ν)
  | destroy

def Call.fd? : Call ν β → Option Int
  | .write fd _ | .read fd _ | .resize fd _ | .close fd => some fd
  | .open _ _ _ _ | .delete _ | .destroy => none

variable [DecidableEq ν] [DecidableEq ι]

/-- One call with its return value and the bytes it gives back, on a file system whose files have
at most `limit` bytes and grow by elements `z`.  A new file may be any that is not in use. -/
inductive FileSystem.Step (limit : Nat) (z : β) :
    FileSystem ν β ι → Call ν β × Int × List β → FileSystem ν β ι → Prop
  | openOld {a name create reads writes fd f} : a.file name = some f → a.Lowest fd →
      Step limit z a (.open name create reads writes, fd, [])
        (a.withHandle fd (some ⟨f, reads, writes, 0⟩))
  | openNew {a name reads writes fd f} : a.file name = none → a.Unused f → a.Lowest fd →
      Step limit z a (.open name true reads writes, fd, [])
        (((a.withFile name (some f)).withBytes f []).withHandle fd (some ⟨f, reads, writes, 0⟩))
  | openNone {a name reads writes} : a.file name = none →
      Step limit z a (.open name false reads writes, -1, []) (a.withErrno .noFile)
  | noHandle {a call fd} : call.fd? = some fd → a.handle fd = none →
      Step limit z a (call, -1, []) (a.withErrno .noFile)
  | notWriting {a call fd h} : (∃ buf, call = .write fd buf) ∨ (∃ n, call = .resize fd n) →
      a.handle fd = some h → h.writes = false → Step limit z a (call, -1, []) (a.withErrno .noPermission)
  | notReading {a fd n h} : a.handle fd = some h → h.reads = false →
      Step limit z a (.read fd n, -1, []) (a.withErrno .noPermission)
  | write {a fd buf h} : a.handle fd = some h → h.writes = true → buf ≠ [] →
      (overwrite (a.bytes h.file) h.offset buf).length ≤ limit →
      Step limit z a (.write fd buf, buf.length, [])
        ((a.withBytes h.file (overwrite (a.bytes h.file) h.offset buf)).withHandle fd
          (some { h with offset := h.offset + buf.length }))
  | writeNothing {a fd h} : a.handle fd = some h → h.writes = true →
      Step limit z a (.write fd [], 0, []) a
  | writeTooMuch {a fd buf h} : a.handle fd = some h → h.writes = true →
      limit < (overwrite (a.bytes h.file) h.offset buf).length →
      Step limit z a (.write fd buf, -1, []) (a.withErrno .noMem)
  | read {a fd n h bs} : a.handle fd = some h → h.reads = true →
      bs = ((a.bytes h.file).drop h.offset).take n →
      Step limit z a (.read fd n, bs.length, bs)
        (a.withHandle fd (some { h with offset := h.offset + bs.length }))
  | resize {a fd n h} : a.handle fd = some h → h.writes = true → n ≤ limit →
      Step limit z a (.resize fd n, 0, [])
        ((a.withBytes h.file (resized z (a.bytes h.file) n)).clamp h.file n)
  | resizeTooMuch {a fd n h} : a.handle fd = some h → h.writes = true → limit < n →
      Step limit z a (.resize fd n, -1, []) (a.withErrno .noMem)
  | close {a fd h} : a.handle fd = some h →
      Step limit z a (.close fd, 0, []) (a.withHandle fd none)
  | delete {a name f} : a.file name = some f →
      Step limit z a (.delete name, 0, []) (a.withFile name none)
  | deleteNone {a name} : a.file name = none →
      Step limit z a (.delete name, -1, []) (a.withErrno .noFile)
  | destroy {a} : Step limit z a (.destroy, 0, []) (empty.withErrno a.errno)

end SystemProgramming.UserFs
