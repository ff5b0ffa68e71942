import Mathlib
import SystemProgramming.Lib.Cooperative

/-!
# The coroutine library

The scheduler of `libcoro.c`.  A `sigjmp_buf` is modelled by what the code does when a jump comes
back through it: which frame it is in and what the local variables of that frame are.  The function
of a coroutine is a finite program over the memory of its program; `κ` stands for a function pointer
with its argument.  A state also records what the code does not: the returned functions, the
coroutines that `coro_sched_wait` gave back, and the slices since the scheduler handed over.
-/

namespace SystemProgramming.Libcoro

open Cooperative

variable {σ κ : Type}

/-- A `struct coro *` that is not NULL: the static scheduler or the `n`th one `coro_new` made. -/
inductive Ptr
  | sched
  | coro (n : Nat)
  deriving DecidableEq, Repr

/-- Where a `sigsetjmp` with the given local variables was reached.  `this` is the local `from` of
`coro_yield_to` and `c` that of `coro_body`. -/
inductive Context (σ κ : Type)
  | wait (this : Ptr)
  | body (c : Ptr)
  | yield (c this : Ptr) (rest : Prog σ κ Int)

/-- `struct coro`, without its stack.  `func` is the function with its argument. -/
structure Coro (σ κ : Type) where
  ret : Int
  func : Option κ
  ctx : Option (Context σ κ)
  isFinished : Bool
  switchCount : Int
  next : Option Ptr
  prev : Option Ptr

/-- What is executed: the program's main function, with the last answer of `coro_sched_wait` right
after it returned; the loop of `coro_sched_wait`; the function of a coroutine, called in the frame
of `coro_body` that has the local variable `c`.  Two states have no way on: `exit(-1)`, and a use
of an invalid pointer or of a context that was never saved. -/
inductive Control (σ κ : Type)
  | user (answer : Option (Option Ptr))
  | waiting
  | running (c : Ptr) (rest : Prog σ κ Int)
  | noPlaceToReturn
  | invalid

/-- `opening` is the list at the last time the scheduler handed over to its head, and `slices` the
coroutines that have run since. -/
structure State (σ κ : Type) where
  coros : Ptr → Coro σ κ
  isSchedWaiting : Bool
  coroThisPtr : Option Ptr
  coroList : Option Ptr
  memory : σ
  control : Control σ κ
  made : Nat
  ended : List (Ptr × Int)
  returned : List Ptr
  opening : List Ptr
  slices : List Ptr

namespace State

/-- An assignment through `p`, which is skipped when `p` is NULL. -/
def modify (s : State σ κ) (p : Option Ptr) (f : Coro σ κ → Coro σ κ) : State σ κ :=
  { s with coros := fun q => if p = some q then f (s.coros q) else s.coros q }

/-! ## The list -/

def coroListAdd (s : State σ κ) (c : Ptr) : State σ κ :=
  let s := s.modify (some c) fun x => { x with next := s.coroList, prev := none }
  let s := s.modify s.coroList fun x => { x with prev := some c }
  { s with coroList := some c }

def coroListDelete (s : State σ κ) (c : Ptr) : State σ κ :=
  let prev := (s.coros c).prev
  let next := (s.coros c).next
  let s := s.modify prev fun x => { x with next := next }
  let s := s.modify next fun x => { x with prev := prev }
  { s with coroList := if prev = none then next else s.coroList }

/-- The first finished coroutine on the way along `next`; `fuel` bounds the number of steps. -/
def findFinished (s : State σ κ) : Nat → Option Ptr → Option Ptr
  | 0, _ => none
  | _ + 1, none => none
  | fuel + 1, some c =>
    if (s.coros c).isFinished then some c else s.findFinished fuel (s.coros c).next

/-- The coroutines on the way along `next`. -/
def along (s : State σ κ) : Nat → Option Ptr → List Ptr
  | 0, _ => []
  | _ + 1, none => []
  | fuel + 1, some c => c :: s.along fuel (s.coros c).next

/-! ## Jumps -/

variable (code : κ → Prog σ κ Int)

/-- `siglongjmp(to->ctx, 1)`, and what follows where it lands. -/
def jump (s : State σ κ) (target : Ptr) : State σ κ :=
  match (s.coros target).ctx with
  | none => { s with control := .invalid }
  -- the context that `coro_sched_wait` has saved
  | some (.wait this) =>
    { s with coroThisPtr := some this, isSchedWaiting := false, control := .waiting }
  -- the start of a coroutine, which has not run yet
  | some (.body c) =>
    match (s.coros c).func with
    | none => { s with control := .invalid }
    | some func =>
      { s with
        coroThisPtr := some c
        control := .running c (code func)
        slices := s.slices ++ [c] }
  -- the place after a yield
  | some (.yield c this rest) =>
    { s with
      coroThisPtr := some this
      control := .running c rest
      slices := s.slices ++ [c] }

/-- `frame` is the frame of the caller, to which the jump back returns. -/
def coroYieldTo (s : State σ κ) (target : Ptr) (frame : Ptr → Context σ κ) : State σ κ :=
  match s.coroThisPtr with
  | none => { s with control := .invalid }
  | some this =>
    (s.modify (some this) fun x =>
      { x with switchCount := x.switchCount + 1, ctx := some (frame this) }).jump code target

def coroYield (s : State σ κ) (c : Ptr) (rest : Prog σ κ Int) : State σ κ :=
  match s.coroThisPtr with
  | none => { s with control := .invalid }
  | some this =>
    match (s.coros this).next with
    -- the last of the list gives way to the scheduler
    | none => s.coroYieldTo code .sched fun p => .yield c p rest
    | some target => s.coroYieldTo code target fun p => .yield c p rest

/-- One turn of the loop of `coro_sched_wait`. -/
def coroSchedWait (s : State σ κ) : State σ κ :=
  match s.coroList with
  -- no coroutine is left
  | none => { s with control := .user (some none) }
  | some head =>
    match s.findFinished s.made (some head) with
    | some c =>
      { s.coroListDelete c with
        control := .user (some (some c))
        returned := s.returned ++ [c] }
    | none =>
      { s with
        isSchedWaiting := true
        opening := s.along s.made (some head)
        slices := [] }.coroYieldTo code head .wait

/-- The signal handler up to the jump back to `coro_new`. -/
def coroBodyEnter (s : State σ κ) : State σ κ :=
  match s.coroThisPtr with
  | none => { s with control := .invalid }
  | some c => { s with coroThisPtr := none }.modify (some c) fun x => { x with ctx := some (.body c) }

/-- The rest of `coro_body` when the function has returned `v`. -/
def coroBodyReturn (s : State σ κ) (c : Ptr) (v : Int) : State σ κ :=
  let s := { s with ended := s.ended ++ [(c, v)] }.modify (some c) fun x =>
    { x with ret := v, isFinished := true }
  if s.isSchedWaiting then s.jump code .sched else { s with control := .noPlaceToReturn }

/-- The calls to the system are taken to succeed.  The fields that are not set keep what the
allocated memory held. -/
def coroNew (s : State σ κ) (func : κ) : State σ κ :=
  let c := Ptr.coro s.made
  let s := { s with made := s.made + 1 }.modify (some c) fun x =>
    { x with ret := 0, func := some func, isFinished := false, switchCount := 0 }
  let oldThis := s.coroThisPtr
  let s := { s with coroThisPtr := some c }.coroBodyEnter
  { s with coroThisPtr := oldThis }.coroListAdd c

/-- `coro_sched_init` at the start of a program.  `heap` is what is in the memory that `coro_new`
is going to get. -/
def coroSchedInit (heap : Ptr → Coro σ κ) (memory : σ) : State σ κ where
  coros := Function.update heap .sched ⟨0, none, none, false, 0, none, none⟩
  isSchedWaiting := false
  coroThisPtr := some .sched
  coroList := none
  memory := memory
  control := .user none
  made := 0
  ended := []
  returned := []
  opening := []
  slices := []

/-! ## Steps -/

/-- The next instruction of the function of a coroutine. -/
def execute (s : State σ κ) (c : Ptr) : Prog σ κ Int → State σ κ
  | .ret v => s.coroBodyReturn code c v
  | .act f k => { s with memory := f s.memory, control := .running c (k s.memory) }
  | .yield k => s.coroYield code c k
  | .new child k => { s.coroNew child with control := .running c k }

end State

/-- What the main function does, outside a call of `coro_sched_wait`; `go` is the next step inside
the call. -/
inductive Action (σ κ : Type)
  | new (func : κ)
  | act (f : σ → σ)
  | wait
  | go

def step (code : κ → Prog σ κ Int) (s : State σ κ) : Action σ κ → Option (State σ κ)
  | .new func =>
    match s.control with
    | .user _ => some { s.coroNew func with control := .user none }
    | _ => none
  | .act f =>
    match s.control with
    | .user _ => some { s with memory := f s.memory, control := .user none }
    | _ => none
  | .wait =>
    match s.control with
    | .user _ => some { s with control := .waiting }
    | _ => none
  | .go =>
    match s.control with
    | .waiting => some (s.coroSchedWait code)
    | .running c rest => some (s.execute code c rest)
    | _ => none

end SystemProgramming.Libcoro
