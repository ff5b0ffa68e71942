import Mathlib
import SystemProgramming.FileSort.State
import SystemProgramming.Libcoro.State

/-!
# The sorting program

The functions of `solution.c` as cooperative programs, and `main` on top of the coroutine library.
`clock` has the clock readings in the order in which they are made, `disk` the numbers in each file.
A coroutine is given by the number of its context.
-/

namespace SystemProgramming.FileSort

open Cooperative Libcoro

abbrev M (α : Type) := Prog Memory Nat α

section

variable (clock : Nat → Int) (disk : String → List Int)

def load (arr : FileId) (j : Int) : M Int :=
  Prog.modifyGet (Memory.load arr j) fun m => (m.files arr).data j

def swap (arr : FileId) (i j : Int) : M Unit := Prog.modify (Memory.swap arr i j)

def calculateCoroutineTime (p : Nat) : M Unit := do
  Prog.modify (Memory.stampEnd clock p)
  Prog.modify (Memory.addWorkTime p)

def yield (p : Nat) : M Unit := do
  Prog.modify (Memory.stampEnd clock p)
  let m ← Prog.get
  -- the quantum is not used up
  if m.elapsed p < (m.contexts p).timeQuantum then
    return ()
  calculateCoroutineTime clock p
  Prog.pause
  Prog.modify (Memory.stampStart clock .resumed p)

/-- The local variables of the loop in `partition`. -/
structure Cursor (low high : Int) where
  i : Int
  j : Int
  low_le : low - 1 ≤ i
  lt : i < j
  le_high : j ≤ high

namespace Cursor

variable {low high : Int}

def start (h : low < high) : Cursor low high := ⟨low - 1, low, le_refl _, by omega, h.le⟩

def skip (v : Cursor low high) (h : v.j ≤ high - 1) : Cursor low high :=
  ⟨v.i, v.j + 1, v.low_le, by have := v.lt; omega, by omega⟩

def small (v : Cursor low high) (h : v.j ≤ high - 1) : Cursor low high :=
  ⟨v.i + 1, v.j + 1, by have := v.low_le; omega, by have := v.lt; omega, by omega⟩

end Cursor

/-- The loop of `partition` from `j` on; it ends with `i`. -/
def partitionLoop (arr : FileId) (pivot : Int) (p : Nat) {low high : Int} (v : Cursor low high) :
    M { i : Int // low - 1 ≤ i ∧ i < high } :=
  if h : v.j ≤ high - 1 then do
    let x ← load arr v.j
    if x < pivot then do
      swap arr (v.i + 1) v.j
      yield clock p
      partitionLoop arr pivot p (v.small h)
    else do
      yield clock p
      partitionLoop arr pivot p (v.skip h)
  else
    return ⟨v.i, v.low_le, by have := v.lt; have := v.le_high; omega⟩
termination_by (high - v.j).toNat
decreasing_by all_goals simp only [Cursor.small, Cursor.skip]; omega

def partition (arr : FileId) (low high : Int) (p : Nat) (h : low < high) :
    M { pi : Int // low ≤ pi ∧ pi ≤ high } := do
  let pivot ← load arr high
  let i ← partitionLoop clock arr pivot p (Cursor.start h)
  swap arr (i.1 + 1) high
  return ⟨i.1 + 1, by have := i.2; omega⟩

def quicksort (arr : FileId) (low high : Int) (p : Nat) : M Unit :=
  if h : low < high then do
    let pi ← partition clock arr low high p h
    quicksort arr low (pi.1 - 1) p
    quicksort arr (pi.1 + 1) high p
  else
    return ()
termination_by (high - low + 1).toNat
decreasing_by
  · have := pi.2; omega
  · have := pi.2; omega

/-- What the coroutine does with the file that it has taken. -/
def sortFile (p : Nat) (curInd : Int) : M Unit := do
  let filename ← Prog.modifyGet (Memory.getLastUnsortFile p) Memory.lastUnsortFile
  Prog.modify (Memory.setFilename p (filename.getD ""))
  Prog.modify (Memory.stampStart clock .claimed p)
  Prog.modify (Memory.readFileContent disk p curInd)
  let m ← Prog.get
  match (m.contexts p).curData with
  | none => Prog.modify fun m => { m with outOfBounds := true }
  | some arr => quicksort clock arr 0 ((m.files arr).size - 1) p

/-- The loop of `coroutine_func_f`.  `turns` bounds the number of its turns; where it is used up the
memory says so. -/
def sortFiles (p : Nat) : Nat → Int → M Unit
  | turns, curInd =>
    if curInd = -1 then return ()
    else match turns with
      -- more turns than there are files
      | 0 => Prog.modify fun m => { m with loopCut := true }
      | turns + 1 => do
        sortFile clock disk p curInd
        let m ← Prog.get
        sortFiles p turns m.haveFiles

def coroutineFuncF (turns : Nat) (p : Nat) : M Int := do
  let m ← Prog.get
  sortFiles clock disk p turns m.haveFiles
  calculateCoroutineTime clock p
  Prog.modify (Memory.mark p .finished)
  return 0

/-! ## The main function -/

/-- Where `main` is: in the loop that creates the coroutines, in the loop that waits for them, and
after it. -/
inductive MainPc
  | creating (i : Nat)
  | waiting
  | merging
  deriving DecidableEq, Repr

structure Process where
  pc : MainPc
  library : Libcoro.State Memory Nat

/-- The arguments of the program: the latency in microseconds, the number of coroutines and the
files. -/
structure Arguments where
  targetLatency : Int
  coroutinesNum : Int
  paths : List String

def Arguments.timeQuantum (args : Arguments) : Int :=
  (args.targetLatency * 1000).tdiv args.coroutinesNum

/-- The functions that `main` makes coroutines of: a file is taken in every turn of their loop. -/
def code (args : Arguments) : Nat → M Int := coroutineFuncF clock disk (args.paths.length + 1)

/-- A step of the library that `main` takes. -/
def perform (args : Arguments) (s : Libcoro.State Memory Nat) (a : Action Memory Nat) :
    Libcoro.State Memory Nat :=
  (Libcoro.step (code clock disk args) s a).getD s

def mainStep (args : Arguments) (process : Process) : Process :=
  match process.pc with
  | .creating i =>
    if (i : Int) < min args.coroutinesNum process.library.memory.count then
      -- a coroutine is made only while there are files to sort
      if process.library.memory.haveFiles ≠ -1 then
        let s := perform clock disk args process.library (.act (Memory.myContextNew i args.timeQuantum))
        ⟨.creating (i + 1), perform clock disk args s (.new i)⟩
      else ⟨.creating (i + 1), process.library⟩
    else ⟨.waiting, perform clock disk args process.library .wait⟩
  | .waiting =>
    match process.library.control with
    -- `coro_sched_wait` has returned `NULL`: every coroutine has been given back
    | .user (some none) => ⟨.merging, process.library⟩
    | .user _ => ⟨.waiting, perform clock disk args process.library .wait⟩
    | _ => ⟨.waiting, perform clock disk args process.library .go⟩
  | .merging => process

/-- After `coro_sched_init`; `heap` and `contexts` are what the allocated memory is going to hold. -/
def Process.start (args : Arguments) (heap : Ptr → Coro Memory Nat) (contexts : Nat → MyContext) :
    Process :=
  ⟨.creating 0, State.coroSchedInit heap (Memory.start args.paths contexts)⟩

end

end SystemProgramming.FileSort
