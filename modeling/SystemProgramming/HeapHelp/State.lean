import Mathlib

/-!
# The heap checker

`heap_help.c` stands between a program and its allocator and keeps a record of every block that the
program holds.  Any number of threads call it; a step is what a thread does up to the next point at
which another one can interfere, with each section under `allocs_lock` in one piece.  The labels say
what the default functions return.  `live` are the blocks of the default allocator and `owned` those
that the program has been given and has not passed on to be freed, which the code does not know.
The functions that the checker finds with `dlsym` and its own buffer before that are left out.
-/

namespace SystemProgramming.HeapHelp

def allocationBatchSize : Nat := 1024

/-- `struct allocation`.  The records are numbered in the order of the batches. -/
structure Allocation where
  trace : List Nat
  mem : Nat
  size : Nat
  next : Option Nat

/-- What a caller of `alloc_free` does next. -/
inductive After
  | return
  | defaultFree
  | traceNew (ptr size : Nat)
  deriving DecidableEq

/-- Where a thread is: outside the checker, at the start of `alloc_trace_new` or `alloc_free`, behind
their first tests, between the two locks of `alloc_trace_new` with a record in hand, or in front of
`default_free`. -/
inductive Phase
  | outside
  | traceNew (ptr size : Nat)
  | taking (ptr size : Nat)
  | filling (a ptr size : Nat)
  | linking (a ptr size : Nat)
  | free (ptr : Nat) (after : After)
  | unlinking (ptr : Nat) (after : After)
  | releasing (ptr : Nat)
  deriving DecidableEq

/-- The assertions that are tested here. -/
inductive Assertion
  | batchNotFull
  | countNotNegative
  | freeingBadMemory
  | lineKept
  | exitNotDone
  deriving DecidableEq

/-- `ι` are the threads.  `failed` is the assertion that has aborted the program. -/
structure State (ι : Type) where
  records : Nat → Allocation
  allocs : Option Nat
  allocPool : Option Nat
  allocBatch : Option Nat
  used : Nat
  allocCount : Int
  allocCountTotal : Nat
  isExitDone : Bool
  phase : ι → Phase
  live : Nat → Bool
  owned : Nat → Bool
  failed : Option Assertion

namespace State

variable {ι : Type} [DecidableEq ι]

/-- Before the program; `memory` is what is in the pages that `mmap` is going to return. -/
def init (memory : Nat → Allocation) : State ι where
  records := memory
  allocs := none
  allocPool := none
  allocBatch := none
  used := 0
  allocCount := 0
  allocCountTotal := 0
  isExitDone := false
  phase _ := .outside
  live _ := false
  owned _ := false
  failed := none

def goto (s : State ι) (i : ι) (ph : Phase) : State ι :=
  { s with phase := Function.update s.phase i ph }

def modify (s : State ι) (a : Nat) (f : Allocation → Allocation) : State ι :=
  { s with records := Function.update s.records a (f (s.records a)) }

/-- The call returns `ptr` to the program. -/
def give (s : State ι) (i : ι) (ptr : Nat) : State ι :=
  { s.goto i .outside with owned := Function.update s.owned ptr true }

/-- The program hands `ptr` over to a call. -/
def take (s : State ι) (ptr : Nat) : State ι :=
  { s with owned := Function.update s.owned ptr false }

/-- The default allocator gives out `ptr`, or takes it back. -/
def setLive (s : State ι) (ptr : Nat) (b : Bool) : State ι :=
  { s with live := Function.update s.live ptr b }

/-! ## `alloc_trace_new` -/

/-- The record at hand, from the pool or from the batch, which may be a new one. -/
def takeRecord (s : State ι) (i : ι) (ptr size : Nat) : State ι :=
  match s.allocPool with
  | some a => { s with allocPool := (s.records a).next }.goto i (.filling a ptr size)
  | none =>
    match s.allocBatch with
    | none =>
      { s with allocBatch := some 0, used := 1 }.goto i (.filling 0 ptr size)
    | some b =>
      if s.used = allocationBatchSize then
        { s with allocBatch := some (b + 1), used := 1 }.goto i
          (.filling (allocationBatchSize * (b + 1)) ptr size)
      else if s.used < allocationBatchSize then
        { s with used := s.used + 1 }.goto i (.filling (allocationBatchSize * b + s.used) ptr size)
      else { s with failed := some .batchNotFull }

/-- The record comes to the head of the list and the call is over. -/
def link (s : State ι) (i : ι) (a ptr : Nat) : State ι :=
  { s.modify a fun x => { x with next := s.allocs } with
    allocs := some a
    allocCount := s.allocCount + 1
    allocCountTotal := s.allocCountTotal + 1 }.give i ptr

/-! ## `alloc_free` -/

/-- The first record of the block `ptr` from `a` on, with the one before it; `fuel` bounds the number
of steps. -/
def findRecord (records : Nat → Allocation) (ptr : Nat) :
    Nat → Option Nat → Option Nat → Option (Option Nat × Nat)
  | 0, _, _ => none
  | _ + 1, _, none => none
  | fuel + 1, prev, some a =>
    if (records a).mem = ptr then some (prev, a)
    else findRecord records ptr fuel (some a) (records a).next

/-- The number of records in the batches. -/
def issued (s : State ι) : Nat :=
  match s.allocBatch with
  | none => 0
  | some b => allocationBatchSize * b + s.used

/-- The record `a` behind `prev` goes to the pool. -/
def unlink (s : State ι) (prev : Option Nat) (a : Nat) : State ι :=
  let next := (s.records a).next
  let s := match prev with
    | none => { s with allocs := next }
    | some p => s.modify p fun x => { x with next := next }
  { s.modify a fun x => { x with next := s.allocPool } with
    allocPool := some a
    allocCount := s.allocCount - 1 }

/-- The caller of `alloc_free` goes on. -/
def resume (s : State ι) (i : ι) (ptr : Nat) : After → State ι
  | .return => s.goto i .outside
  | .defaultFree => s.goto i (.releasing ptr)
  | .traceNew ptr' size => s.goto i (.traceNew ptr' size)

def freeRecord (s : State ι) (i : ι) (ptr : Nat) (after : After) : State ι :=
  match findRecord s.records ptr (s.issued + 1) none s.allocs with
  | none => { s with failed := some .freeingBadMemory }
  | some (prev, a) =>
    let s := s.unlink prev a
    if 0 ≤ s.allocCount then s.resume i ptr after else { s with failed := some .countNotNegative }

/-! ## The intercepted functions -/

/-- The default function has returned a new block, which is then recorded. -/
def traced (s : State ι) (i : ι) (size ptr : Nat) : Option (State ι) :=
  if s.live ptr then none else some ((s.setLive ptr true).goto i (.traceNew ptr size))

def malloc (s : State ι) (i : ι) (size : Nat) (res : Option Nat) : Option (State ι) :=
  match res with
  | none => some s
  | some ptr => s.traced i size ptr

def calloc (s : State ι) (i : ι) (num size : Nat) (res : Option Nat) : Option (State ι) :=
  match res with
  | none => some s
  | some ptr => s.traced i (num * size) ptr

def strdup (s : State ι) (i : ι) (length : Nat) (res : Option Nat) : Option (State ι) :=
  if s.isExitDone then some { s with failed := some .exitNotDone }
  else
    match res with
    | none => some s
    | some ptr => s.traced i (length + 1) ptr

/-- The default function has moved the block `p` to `q`. -/
def moved (s : State ι) (i : ι) (size p q : Nat) : Option (State ι) :=
  if s.live q then none
  else some ((((s.take p).setLive p false).setLive q true).goto i (.free p (.traceNew q size)))

/-- `released` says whether the old block is gone when the result is NULL: it is when `size` is 0,
and not when there is no memory. -/
def realloc (s : State ι) (i : ι) (ptr : Option Nat) (size : Nat) (res : Option Nat)
    (released : Bool) : Option (State ι) :=
  match ptr, res with
  | none, none => some s
  | none, some q => s.traced i size q
  | some p, none =>
    if released then some (((s.take p).setLive p false).goto i (.free p .return))
    else some (s.goto i (.free p .return))
  | some p, some q => if q = p then some s else s.moved i size p q

/-- `line` is `*linep` after the default function, with `length` characters. -/
def getline (s : State ι) (i : ι) (lineOld : Option Nat) (length : Nat) (line : Option Nat) :
    Option (State ι) :=
  match lineOld, line with
  | none, some q => s.traced i (length + 1) q
  | some _, none => some { s with failed := some .lineKept }
  | some p, some q => if q = p then some s else s.moved i (length + 1) p q
  | none, none => some s

def free (s : State ι) (i : ι) (ptr : Option Nat) : State ι :=
  match ptr with
  | none => s
  | some p => (s.take p).goto i (.free p .defaultFree)

/-- The next piece of the call that the thread is in; `trace` is what `backtrace` returns. -/
def go (s : State ι) (i : ι) (trace : List Nat) : Option (State ι) :=
  match s.phase i with
  | .outside => none
  | .traceNew ptr size =>
    some (if s.isExitDone then s.give i ptr else s.goto i (.taking ptr size))
  | .taking ptr size => some (s.takeRecord i ptr size)
  | .filling a ptr size =>
    some ((s.modify a fun x => { x with mem := ptr, size := size, trace := trace }).goto i
      (.linking a ptr size))
  | .linking a ptr _ => some (s.link i a ptr)
  | .free ptr after =>
    some (if s.isExitDone then s.resume i ptr after else s.goto i (.unlinking ptr after))
  | .unlinking ptr after => some (s.freeRecord i ptr after)
  | .releasing ptr => some ((s.setLive ptr false).goto i .outside)

/-- `heaph_get_alloc_count`. -/
def heaphGetAllocCount (s : State ι) : Int := s.allocCount

end State

inductive Label (ι : Type)
  | malloc (i : ι) (size : Nat) (res : Option Nat)
  | calloc (i : ι) (num size : Nat) (res : Option Nat)
  | strdup (i : ι) (length : Nat) (res : Option Nat)
  | realloc (i : ι) (ptr : Option Nat) (size : Nat) (res : Option Nat) (released : Bool)
  | getline (i : ι) (lineOld : Option Nat) (length : Nat) (line : Option Nat)
  | free (i : ι) (ptr : Option Nat)
  | go (i : ι) (trace : List Nat)
  | exit

variable {ι : Type} [DecidableEq ι]

/-- A call begins when its thread is in no other. -/
def call (s : State ι) (i : ι) (t : Option (State ι)) : Option (State ι) :=
  if s.phase i = .outside then t else none

/-- `exit` is the beginning of `heaph_atexit`. -/
def step (s : State ι) (a : Label ι) : Option (State ι) :=
  if s.failed.isSome then none
  else
    match a with
    | .malloc i size res => call s i (s.malloc i size res)
    | .calloc i num size res => call s i (s.calloc i num size res)
    | .strdup i length res => call s i (s.strdup i length res)
    | .realloc i ptr size res released => call s i (s.realloc i ptr size res released)
    | .getline i lineOld length line => call s i (s.getline i lineOld length line)
    | .free i ptr => call s i (some (s.free i ptr))
    | .go i trace => s.go i trace
    | .exit => some { s with isExitDone := true }

end SystemProgramming.HeapHelp
