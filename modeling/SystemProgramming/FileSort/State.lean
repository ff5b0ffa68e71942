import Mathlib
import SystemProgramming.Lib.InPlace

/-!
# The memory of the sorting program

The structures of `solution.c` and what its functions do to them between two calls.  Times are in
nanoseconds.  The names that are only printed are left out; `paths` does not change after `main` has
filled it.
-/

namespace SystemProgramming.FileSort

/-- The address of a `struct file`. -/
abbrev FileId := Nat

/-- `struct file`; `data` is the memory that the pointer leads to, of which `size` cells are ours. -/
structure File where
  data : Int → Int
  size : Nat

def File.contents (file : File) : List Int := InPlace.elements file.size file.data

/-- `struct my_context`. -/
structure MyContext where
  filename : String
  curData : Option FileId
  workTime : Int
  timeQuantum : Int
  startTime : Int
  endTime : Int

/-- What the time of a coroutine is measured by: it has taken a file, or come back from `coro_yield`,
or it stops, to yield or to finish, each with the clock as it is read there; and it has finished. -/
inductive Mark
  | claimed (time : Int)
  | resumed (time : Int)
  | stopped (time : Int)
  | finished
  deriving DecidableEq, Repr

/-- `filesData` has no value where the array was not written.  Besides the memory of the program a
state has the number of the clock readings so far, whether an access was outside its array, whether
the loop over the files was cut short, the indices that were taken with the context that took them,
and the marks of each context. -/
structure Memory where
  paths : List String
  filesData : Int → Option FileId
  curUnsorted : Int
  files : FileId → File
  allocated : Nat
  contexts : Nat → MyContext
  readings : Nat
  outOfBounds : Bool
  loopCut : Bool
  claims : List (Nat × Int)
  log : Nat → List Mark

namespace Memory

def count (m : Memory) : Int := m.paths.length

def haveFiles (m : Memory) : Int :=
  if m.curUnsorted < m.count then m.curUnsorted else -1

/-- The path that `getLastUnsortFile` returns. -/
def lastUnsortFile (m : Memory) : Option String :=
  if 0 ≤ m.curUnsorted then m.paths[m.curUnsorted.toNat]? else none

/-- The context `p` takes the next index. -/
def getLastUnsortFile (p : Nat) (m : Memory) : Memory :=
  { m with
    curUnsorted := m.curUnsorted + 1
    claims := m.claims ++ [(p, m.curUnsorted)]
    outOfBounds := m.outOfBounds || m.lastUnsortFile.isNone }

def setContext (m : Memory) (p : Nat) (ctx : MyContext) : Memory :=
  { m with contexts := Function.update m.contexts p ctx }

def mark (p : Nat) (x : Mark) (m : Memory) : Memory :=
  { m with log := Function.update m.log p (m.log p ++ [x]) }

/-- `my_context_new` at the address `p`: the times are not set. -/
def myContextNew (p : Nat) (timeQuantum : Int) (m : Memory) : Memory :=
  m.setContext p { m.contexts p with
    filename := "", curData := none, timeQuantum := timeQuantum }

def setFilename (p : Nat) (filename : String) (m : Memory) : Memory :=
  m.setContext p { m.contexts p with filename := filename }

/-- `clock_gettime` into `start_time`, after a file was taken or a yield. -/
def stampStart (clock : Nat → Int) (x : Int → Mark) (p : Nat) (m : Memory) : Memory :=
  ({ m with readings := m.readings + 1 }.setContext p
    { m.contexts p with startTime := clock m.readings }).mark p (x (clock m.readings))

/-- `clock_gettime` into `end_time`. -/
def stampEnd (clock : Nat → Int) (p : Nat) (m : Memory) : Memory :=
  { m with readings := m.readings + 1 }.setContext p
    { m.contexts p with endTime := clock m.readings }

/-- `calculate_time_difference` of the two times of the context. -/
def elapsed (m : Memory) (p : Nat) : Int := (m.contexts p).endTime - (m.contexts p).startTime

def addWorkTime (p : Nat) (m : Memory) : Memory :=
  (m.setContext p { m.contexts p with workTime := (m.contexts p).workTime + m.elapsed p }).mark p
    (.stopped (m.contexts p).endTime)

/-- `read_file_content` for a file that can be read: `disk` has the numbers in it. -/
def readFileContent (disk : String → List Int) (p : Nat) (dataInd : Int) (m : Memory) : Memory :=
  let numbers := disk (m.contexts p).filename
  let tempFile := m.allocated
  let m := { m with
    allocated := m.allocated + 1
    files := Function.update m.files tempFile
      ⟨fun x => numbers.getD x.toNat 0, numbers.length⟩ }
  let m := m.setContext p { m.contexts p with curData := some tempFile }
  { m with
    filesData := Function.update m.filesData dataInd (some tempFile)
    outOfBounds := m.outOfBounds || !decide (0 ≤ dataInd ∧ dataInd < m.count) }

/-- The cell `j` of the array is inside it. -/
def InBounds (m : Memory) (arr : FileId) (j : Int) : Prop :=
  arr < m.allocated ∧ 0 ≤ j ∧ j < (m.files arr).size

instance (m : Memory) (arr : FileId) (j : Int) : Decidable (m.InBounds arr j) :=
  inferInstanceAs (Decidable (_ ∧ _ ∧ _))

def load (arr : FileId) (j : Int) (m : Memory) : Memory :=
  if m.InBounds arr j then m else { m with outOfBounds := true }

/-- `swap(&arr[i], &arr[j])`. -/
def swap (arr : FileId) (i j : Int) (m : Memory) : Memory :=
  if m.InBounds arr i ∧ m.InBounds arr j then
    let data := (m.files arr).data
    let temp := data i
    let data := Function.update (Function.update data i (data j)) j temp
    { m with files := Function.update m.files arr ⟨data, (m.files arr).size⟩ }
  else { m with outOfBounds := true }

end Memory

/-- The memory when `main` starts to create coroutines.  The contexts have what is in the memory
that `malloc` is going to give. -/
def Memory.start (paths : List String) (contexts : Nat → MyContext) : Memory where
  paths := paths
  filesData := fun _ => none
  curUnsorted := 0
  files := fun _ => ⟨fun _ => 0, 0⟩
  allocated := 0
  contexts := contexts
  readings := 1
  outOfBounds := false
  loopCut := false
  claims := []
  log := fun _ => []

end SystemProgramming.FileSort
