import Mathlib

/-!
# The objects of the thread pool

The structures of `thread_pool.c`.  A worker thread and a call of a client are seen between the
sections in which they hold a mutex.  A state also records what the code does not: the pushes, the
runs and the detached tasks so far, and the accesses to each task.
-/

namespace SystemProgramming.ThreadPool

abbrev TaskId := Nat

def tpoolMaxTasks : Int := 100000

def tpoolMaxThreads : Int := 20

/-- The return codes. -/
inductive Ret
  | ok
  | tooManyTasks
  | hasTasks
  | taskNotPushed
  | taskInPool
  | timeout
  deriving DecidableEq, Repr

/-- `pool` is whether the pointer to the pool is set; there is one pool. -/
structure Task (ρ : Type) where
  pool : Bool
  isDetached : Bool
  isRunning : Bool
  isFinished : Bool
  result : Option ρ
  next : Option TaskId
  deriving DecidableEq, Repr

def threadTaskNew {ρ : Type} : Task ρ := ⟨false, false, false, false, none, none⟩

/-- An entry of `threads` is the thread that `pthread_create` stored there, if it did. -/
structure Pool where
  threads : Option (List (Option Nat))
  pendingTaskCount : Int
  runningTaskCount : Int
  pendingTaskList : Option TaskId
  maxThreadCount : Int
  threadCount : Int
  idleThreadCount : Int
  threadIdxThatShouldExit : Int
  deriving DecidableEq, Repr

def threadPoolNew (maxThreadCount : Int) : Option Pool :=
  if maxThreadCount < 1 ∨ maxThreadCount > tpoolMaxThreads then none
  else some ⟨none, 0, 0, none, maxThreadCount, 0, 0, -1⟩

/-- How far a worker is with the task it holds. -/
inductive Stage (ρ : Type)
  | taken
  | running
  | returned (v : ρ)
  deriving DecidableEq, Repr

/-- Where a worker is when it holds no mutex.  With a task it keeps the number of the push that it
runs the task for. -/
inductive Phase (ρ : Type)
  | created
  | waiting
  | holding (t : TaskId) (push : Nat) (stage : Stage ρ)
  | exited
  deriving DecidableEq, Repr

structure Worker (ρ : Type) where
  idx : Int
  phase : Phase ρ
  deriving DecidableEq, Repr

/-- Where a caller is when it holds no mutex.  A running task that calls a function is a caller
too. -/
inductive Call (ρ : Type)
  | ready
  | pushing (t : TaskId) (requiredThreadCount : Int)
  | joining (t : TaskId) (timed : Bool)
  | detaching (t : TaskId)
  | deletingDetached (t : TaskId)
  | joiningThread (i : Int)
  | done (ret : Ret) (result : Option ρ)
  deriving DecidableEq, Repr

/-- What a step does with the memory of a task. -/
inductive Access
  | read
  | write
  | lock
  | unlock
  | free
  deriving DecidableEq, Repr

/-- `pushes` has the tasks pushed so far, the latest first: a push has the number of the pushes
before it.  `runs` has the number of the push and the returned value of every run that has ended,
and `detached` the tasks that `thread_task_detach` has returned 0 for. -/
structure State (ρ : Type) where
  pool : Pool
  poolFreed : Bool
  tasks : TaskId → Task ρ
  workers : List (Worker ρ)
  calls : Nat → Call ρ
  pushes : List TaskId
  runs : List (Nat × ρ)
  detached : List TaskId
  trace : List (TaskId × Access)

/-- The number of the latest push of a task. -/
def latestPush : List TaskId → TaskId → Option Nat
  | [], _ => none
  | u :: pushes, t => if u = t then some pushes.length else latestPush pushes t

/-- No task is pushed and no thread is created. -/
def State.start {ρ : Type} (pool : Pool) : State ρ :=
  ⟨pool, false, fun _ => threadTaskNew, [], fun _ => .ready, [], [], [], []⟩

variable {ρ : Type}

/-! ## Writing to a state -/

def State.setTask (s : State ρ) (t : TaskId) (task : Task ρ) : State ρ :=
  { s with tasks := Function.update s.tasks t task }

def State.setPhase (s : State ρ) (i : Nat) (idx : Int) (phase : Phase ρ) : State ρ :=
  { s with workers := s.workers.set i ⟨idx, phase⟩ }

def State.setCall (s : State ρ) (c : Nat) (call : Call ρ) : State ρ :=
  { s with calls := Function.update s.calls c call }

def State.recordDetach (s : State ρ) (t : TaskId) : State ρ :=
  { s with detached := t :: s.detached }

def State.access (s : State ρ) (t : TaskId) (as : List Access) : State ρ :=
  { s with trace := s.trace ++ as.map fun a => (t, a) }

section

variable (s : State ρ) (t : TaskId) (task : Task ρ) (i c : Nat) (idx : Int) (phase : Phase ρ)
  (call : Call ρ) (as : List Access)

@[simp] theorem setTask_pool : (s.setTask t task).pool = s.pool := rfl
@[simp] theorem setTask_workers : (s.setTask t task).workers = s.workers := rfl
@[simp] theorem setTask_calls : (s.setTask t task).calls = s.calls := rfl
@[simp] theorem setTask_pushes : (s.setTask t task).pushes = s.pushes := rfl
@[simp] theorem setTask_runs : (s.setTask t task).runs = s.runs := rfl
@[simp] theorem setTask_detached : (s.setTask t task).detached = s.detached := rfl
@[simp] theorem setTask_trace : (s.setTask t task).trace = s.trace := rfl
@[simp] theorem setTask_tasks :
    (s.setTask t task).tasks = Function.update s.tasks t task := rfl

@[simp] theorem setPhase_pool : (s.setPhase i idx phase).pool = s.pool := rfl
@[simp] theorem setPhase_tasks : (s.setPhase i idx phase).tasks = s.tasks := rfl
@[simp] theorem setPhase_calls : (s.setPhase i idx phase).calls = s.calls := rfl
@[simp] theorem setPhase_pushes : (s.setPhase i idx phase).pushes = s.pushes := rfl
@[simp] theorem setPhase_runs : (s.setPhase i idx phase).runs = s.runs := rfl
@[simp] theorem setPhase_detached : (s.setPhase i idx phase).detached = s.detached := rfl
@[simp] theorem setPhase_trace : (s.setPhase i idx phase).trace = s.trace := rfl
@[simp] theorem setPhase_workers :
    (s.setPhase i idx phase).workers = s.workers.set i ⟨idx, phase⟩ := rfl

@[simp] theorem setCall_pool : (s.setCall c call).pool = s.pool := rfl
@[simp] theorem setCall_tasks : (s.setCall c call).tasks = s.tasks := rfl
@[simp] theorem setCall_workers : (s.setCall c call).workers = s.workers := rfl
@[simp] theorem setCall_pushes : (s.setCall c call).pushes = s.pushes := rfl
@[simp] theorem setCall_runs : (s.setCall c call).runs = s.runs := rfl
@[simp] theorem setCall_detached : (s.setCall c call).detached = s.detached := rfl
@[simp] theorem setCall_trace : (s.setCall c call).trace = s.trace := rfl
@[simp] theorem setCall_calls :
    (s.setCall c call).calls = Function.update s.calls c call := rfl

@[simp] theorem access_pool : (s.access t as).pool = s.pool := rfl
@[simp] theorem access_tasks : (s.access t as).tasks = s.tasks := rfl
@[simp] theorem access_workers : (s.access t as).workers = s.workers := rfl
@[simp] theorem access_calls : (s.access t as).calls = s.calls := rfl
@[simp] theorem access_pushes : (s.access t as).pushes = s.pushes := rfl
@[simp] theorem access_runs : (s.access t as).runs = s.runs := rfl
@[simp] theorem access_detached : (s.access t as).detached = s.detached := rfl
@[simp] theorem access_trace :
    (s.access t as).trace = s.trace ++ as.map fun a => (t, a) := rfl

end

end SystemProgramming.ThreadPool
