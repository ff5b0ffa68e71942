import SystemProgramming.ThreadPool.State

/-!
# The steps of the thread pool

The functions of `thread_pool.c`, cut where a mutex is given up: a step is what one thread does from
one such place to the next.  A call that waits for a condition variable may look at its condition in
any state, which covers the wakings that nobody asked for.  There is no step that would follow a
null pointer, read an entry of `threads` that was never written, or use a freed pool.
-/

namespace SystemProgramming.ThreadPool

variable {ρ : Type}

/-! ## Tasks -/

def threadTaskDelete (s : State ρ) (t : TaskId) : State ρ × Ret :=
  let s := s.access t [.read]
  if (s.tasks t).pool then (s, .taskInPool)
  else (s.access t [.free], .ok)

/-- It changes nothing but the trace. -/
theorem threadTaskDelete_eq (s : State ρ) (t : TaskId) : (threadTaskDelete s t).1 =
    s.access t (if (s.tasks t).pool then [.read] else [.read, .free]) := by
  by_cases hpool : (s.tasks t).pool = true
  · simp only [threadTaskDelete, access_tasks, hpool, if_true]
  · simp only [threadTaskDelete, hpool, if_false, State.access, List.append_assoc,
      List.map_cons, List.map_nil, List.singleton_append, Bool.false_eq_true]

/-- The check before the mutex of the task is locked, in `join`. -/
def threadTaskJoin (s : State ρ) (c : Nat) (t : TaskId) (timed : Bool) : State ρ :=
  let s := s.access t [.read]
  if (s.tasks t).pool then s.setCall c (.joining t timed)
  else s.setCall c (.done .taskNotPushed none)

/-- From the lock, or from a waking, to the end or to the next wait. -/
def joinSection (s : State ρ) (c : Nat) (t : TaskId) : State ρ :=
  let s := s.access t [.lock, .read]
  let task := s.tasks t
  if task.isFinished then
    ((s.setTask t { task with pool := false }).access t [.read, .write, .unlock]).setCall c
      (.done .ok task.result)
  -- the wait gives the mutex up
  else s.access t [.unlock]

/-- `thread_task_timed_join` is out of time, whether or not the task is finished. -/
def joinTimeout (s : State ρ) (c : Nat) (t : TaskId) : State ρ :=
  (s.access t [.lock, .read, .unlock]).setCall c (.done .timeout none)

/-- The check before the mutex of the task is locked, in `detach`. -/
def threadTaskDetach (s : State ρ) (c : Nat) (t : TaskId) : State ρ :=
  let s := s.access t [.read]
  if (s.tasks t).pool then s.setCall c (.detaching t)
  else s.setCall c (.done .taskNotPushed none)

def detachSection (s : State ρ) (c : Nat) (t : TaskId) : State ρ :=
  -- `pool` is reset before the task is known to be finished
  let s := (s.access t [.lock, .write]).setTask t { s.tasks t with pool := false }
  let s := s.access t [.read]
  let task := s.tasks t
  if task.isFinished then (s.access t [.unlock]).setCall c (.deletingDetached t)
  else
    (((s.setTask t { task with isDetached := true }).access t [.write, .unlock]).recordDetach
      t).setCall c (.done .ok none)

/-- The task was finished when it was detached. -/
def detachDelete (s : State ρ) (c : Nat) (t : TaskId) : State ρ :=
  ((threadTaskDelete s t).1.recordDetach t).setCall c (.done .ok none)

/-! ## Pushing -/

/-- `pthread_create`, which stores the thread at `threads[idx]`. -/
def createWorker (s : State ρ) (threads : List (Option Nat)) (idx : Int) : State ρ :=
  { s with
    pool := { s.pool with threads := some (threads.set idx.toNat (some s.workers.length)) }
    workers := s.workers ++ [⟨idx, .created⟩] }

/-- `realloc`, for a number of entries. -/
def reallocThreads (threads : List (Option Nat)) (n : Nat) : List (Option Nat) :=
  threads.take n ++ List.replicate (n - threads.length) none

/-- Create a worker if one is needed, and tell how many there have to be. -/
def spawnWorker (s : State ρ) : State ρ × Int :=
  let requiredThreadCount := s.pool.threadCount
  match s.pool.threads with
  -- the first worker
  | none => (createWorker s [none] 0, 1)
  | some threads =>
    if s.pool.idleThreadCount = 0 ∧ s.pool.threadCount < s.pool.maxThreadCount then
      let threads := reallocThreads threads (s.pool.threadCount + 1).toNat
      (createWorker s threads s.pool.threadCount, requiredThreadCount + 1)
    else (s, requiredThreadCount)

/-- The end of `thread_pool_push_task`. -/
def linkTask (s : State ρ) (t : TaskId) : State ρ :=
  let task := { s.tasks t with
    pool := true, next := s.pool.pendingTaskList, isFinished := false, isRunning := false }
  let s := (s.setTask t task).access t [.write, .write, .write, .write]
  { s with
    pool := { s.pool with
      pendingTaskList := some t, pendingTaskCount := s.pool.pendingTaskCount + 1 }
    pushes := t :: s.pushes }

/-- The loop that waits for the created worker. -/
def awaitWorker (s : State ρ) (c : Nat) (t : TaskId) (requiredThreadCount : Int) : State ρ :=
  if s.pool.threadCount ≠ requiredThreadCount then s.setCall c (.pushing t requiredThreadCount)
  else (linkTask s t).setCall c (.done .ok none)

def threadPoolPushTask (s : State ρ) (c : Nat) (t : TaskId) : State ρ :=
  if s.pool.pendingTaskCount ≥ tpoolMaxTasks then s.setCall c (.done .tooManyTasks none)
  else
    let spawned := spawnWorker s
    awaitWorker spawned.1 c t spawned.2

/-! ## Workers -/

/-- Take the first task of the list.  A linked task has a latest push. -/
def dequeueTask (s : State ρ) (i : Nat) (idx : Int) (t : TaskId) : State ρ :=
  let task := s.tasks t
  let s := (s.setTask t { task with next := none }).access t [.read, .write]
  let s := s.setPhase i idx (.holding t ((latestPush s.pushes t).getD 0) .taken)
  { s with
    pool := { s.pool with
      pendingTaskList := task.next
      idleThreadCount := s.pool.idleThreadCount - 1
      pendingTaskCount := s.pool.pendingTaskCount - 1
      runningTaskCount := s.pool.runningTaskCount + 1 } }

/-- From the test of the inner loop to a wait, the exit or the run of a task. -/
def waitOrTake (s : State ρ) (i : Nat) (idx : Int) : Option (State ρ) :=
  if s.pool.pendingTaskCount < 1 ∧ s.pool.threadIdxThatShouldExit ≠ idx then
    some (s.setPhase i idx .waiting)
  -- a worker that exits stays counted, also as an idle one
  else if s.pool.threadIdxThatShouldExit = idx then some (s.setPhase i idx .exited)
  else
    match s.pool.pendingTaskList with
    -- `task->next` of a null pointer
    | none => none
    | some t => some (dequeueTask s i idx t)

/-- The top of the outer loop. -/
def addIdle (s : State ρ) : State ρ :=
  { s with pool := { s.pool with idleThreadCount := s.pool.idleThreadCount + 1 } }

/-- A new thread counts itself. -/
def countThread (s : State ρ) : State ρ :=
  { s with pool := { s.pool with threadCount := s.pool.threadCount + 1 } }

def startRun (s : State ρ) (i : Nat) (idx : Int) (t : TaskId) (push : Nat) : State ρ :=
  ((s.setTask t { s.tasks t with isRunning := true }).access t [.write]).setPhase i idx
    (.holding t push .running)

/-- What follows a run, with both mutexes. -/
def recordRun (s : State ρ) (t : TaskId) (push : Nat) (v : ρ) : State ρ :=
  let s := s.access t [.lock]
  let s := { s with
    pool := { s.pool with runningTaskCount := s.pool.runningTaskCount - 1 }
    runs := (push, v) :: s.runs }
  let s := s.access t [.read]
  let task := s.tasks t
  let s :=
    -- the task is freed here if it is in no pool, and unlocked after that
    if task.isDetached then (threadTaskDelete s t).1
    else
      (s.setTask t { task with isRunning := false, isFinished := true, result := some v }).access t
        [.write, .write, .write]
  s.access t [.unlock]

/-- What the record of a run does to the task. -/
def Task.record (task : Task ρ) (v : ρ) : Task ρ :=
  if task.isDetached then task
  else { task with isRunning := false, isFinished := true, result := some v }

@[simp] theorem Task.record_next (task : Task ρ) (v : ρ) : (task.record v).next = task.next := by
  unfold Task.record
  split <;> rfl

@[simp] theorem Task.record_pool (task : Task ρ) (v : ρ) : (task.record v).pool = task.pool := by
  unfold Task.record
  split <;> rfl

@[simp] theorem Task.record_isDetached (task : Task ρ) (v : ρ) :
    (task.record v).isDetached = task.isDetached := by
  unfold Task.record
  split <;> rfl

theorem recordRun_pool (s : State ρ) (t : TaskId) (push : Nat) (v : ρ) :
    (recordRun s t push v).pool =
      { s.pool with runningTaskCount := s.pool.runningTaskCount - 1 } := by
  simp only [recordRun, threadTaskDelete_eq]
  split <;> rfl

theorem recordRun_tasks (s : State ρ) (t : TaskId) (push : Nat) (v : ρ) :
    (recordRun s t push v).tasks = Function.update s.tasks t ((s.tasks t).record v) := by
  simp only [recordRun, threadTaskDelete_eq, Task.record, access_tasks]
  split
  · exact (Function.update_eq_self t s.tasks).symm
  · rfl

theorem recordRun_workers (s : State ρ) (t : TaskId) (push : Nat) (v : ρ) :
    (recordRun s t push v).workers = s.workers := by
  simp only [recordRun, threadTaskDelete_eq]
  split <;> rfl

theorem recordRun_calls (s : State ρ) (t : TaskId) (push : Nat) (v : ρ) :
    (recordRun s t push v).calls = s.calls := by
  simp only [recordRun, threadTaskDelete_eq]
  split <;> rfl

theorem recordRun_pushes (s : State ρ) (t : TaskId) (push : Nat) (v : ρ) :
    (recordRun s t push v).pushes = s.pushes := by
  simp only [recordRun, threadTaskDelete_eq]
  split <;> rfl

theorem recordRun_runs (s : State ρ) (t : TaskId) (push : Nat) (v : ρ) :
    (recordRun s t push v).runs = (push, v) :: s.runs := by
  simp only [recordRun, threadTaskDelete_eq]
  split <;> rfl

/-! ## Deleting the pool -/

/-- The loop over the threads, from `i` on.  After it the pool is freed. -/
def joinThreads (s : State ρ) (c : Nat) (i : Int) : State ρ :=
  if i < s.pool.threadCount then
    { s with pool := { s.pool with threadIdxThatShouldExit := i } }.setCall c (.joiningThread i)
  else { s with poolFreed := true }.setCall c (.done .ok none)

def threadPoolDelete (s : State ρ) (c : Nat) : State ρ :=
  if s.pool.runningTaskCount > 0 ∨ s.pool.pendingTaskCount > 0 ∨
      s.pool.idleThreadCount ≠ s.pool.threadCount then
    s.setCall c (.done .hasTasks none)
  else if s.pool.threads = none then { s with poolFreed := true }.setCall c (.done .ok none)
  else joinThreads s c 0

/-- The thread that `threads[i]` names. -/
def threadAt (s : State ρ) (i : Int) : Option (Worker ρ) :=
  match s.pool.threads with
  | none => none
  | some threads => (threads[i.toNat]?.join).bind fun j => s.workers[j]?

/-! ## Steps -/

/-- Workers are named by their place in the order of creation, and callers by a number. -/
inductive Action (ρ : Type)
  | start (i : Nat)
  | wake (i : Nat)
  | run (i : Nat)
  | finish (i : Nat) (v : ρ)
  | record (i : Nat)
  | push (c : Nat) (t : TaskId)
  | pushResume (c : Nat)
  | join (c : Nat) (t : TaskId) (timed : Bool)
  | joinSection (c : Nat)
  | joinTimeout (c : Nat)
  | detach (c : Nat) (t : TaskId)
  | detachSection (c : Nat)
  | detachDelete (c : Nat)
  | deleteTask (c : Nat) (t : TaskId)
  | deletePool (c : Nat)
  | deletePoolResume (c : Nat)

/-- A caller that is in no call. -/
def Call.Idle : Call ρ → Prop
  | .ready | .done _ _ => True
  | _ => False

instance (call : Call ρ) : Decidable call.Idle := by
  cases call <;> unfold Call.Idle <;> infer_instance

/-- The step of a worker, by its phase. -/
def workerStep (s : State ρ) (i : Nat) (w : Worker ρ) : Action ρ → Option (State ρ)
  | .start _ =>
    match w.phase with
    | .created => if s.poolFreed then none else waitOrTake (addIdle (countThread s)) i w.idx
    | _ => none
  | .wake _ =>
    match w.phase with
    | .waiting => if s.poolFreed then none else waitOrTake s i w.idx
    | _ => none
  | .run _ =>
    match w.phase with
    | .holding t push .taken => some (startRun s i w.idx t push)
    | _ => none
  | .finish _ v =>
    match w.phase with
    | .holding t push .running => some (s.setPhase i w.idx (.holding t push (.returned v)))
    | _ => none
  | .record _ =>
    match w.phase with
    | .holding t push (.returned v) =>
      if s.poolFreed then none else waitOrTake (addIdle (recordRun s t push v)) i w.idx
    | _ => none
  | _ => none

/-- The first step of a call. -/
def callStep (s : State ρ) (c : Nat) : Action ρ → Option (State ρ)
  | .push _ t => if s.poolFreed then none else some (threadPoolPushTask s c t)
  | .join _ t timed => some (threadTaskJoin s c t timed)
  | .detach _ t => some (threadTaskDetach s c t)
  | .deleteTask _ t =>
    let deleted := threadTaskDelete s t
    some (deleted.1.setCall c (.done deleted.2 none))
  | .deletePool _ => if s.poolFreed then none else some (threadPoolDelete s c)
  | _ => none

/-- A further step of a call. -/
def resumeStep (s : State ρ) (c : Nat) : Action ρ → Call ρ → Option (State ρ)
  | .pushResume _, .pushing t required =>
    if s.poolFreed then none else some (awaitWorker s c t required)
  | .joinSection _, .joining t _ => some (joinSection s c t)
  | .joinTimeout _, .joining t true => some (joinTimeout s c t)
  | .detachSection _, .detaching t => some (detachSection s c t)
  | .detachDelete _, .deletingDetached t => some (detachDelete s c t)
  | .deletePoolResume _, .joiningThread i =>
    match threadAt s i with
    | some ⟨_, .exited⟩ => if s.poolFreed then none else some (joinThreads s c (i + 1))
    | _ => none
  | _, _ => none

def step (s : State ρ) (a : Action ρ) : Option (State ρ) :=
  match a with
  | .start i | .wake i | .run i | .finish i _ | .record i =>
    s.workers[i]?.bind fun w => workerStep s i w a
  | .push c _ | .join c _ _ | .detach c _ | .deleteTask c _ | .deletePool c =>
    if (s.calls c).Idle then callStep s c a else none
  | .pushResume c | .joinSection c | .joinTimeout c | .detachSection c | .detachDelete c
  | .deletePoolResume c => resumeStep s c a (s.calls c)

def Steps (s : State ρ) (a : Action ρ) (s' : State ρ) : Prop := step s a = some s'

/-- An action leaves the system no choice. -/
theorem steps_unique (s : State ρ) (a : Action ρ) (t t' : State ρ) (h : Steps s a t)
    (h' : Steps s a t') : t = t' := Option.some.inj (h.symm.trans h')

def takeSteps (s : State ρ) : List (Action ρ) → Option (State ρ)
  | [] => some s
  | a :: as => (step s a).bind fun s' => takeSteps s' as

/-- What each step does, with what it found. -/
inductive Effect (s : State ρ) : Action ρ → State ρ → Prop
  | start {i : Nat} {w : Worker ρ} {s' : State ρ} (hw : s.workers[i]? = some w)
      (hphase : w.phase = .created) (hpool : s.poolFreed = false)
      (htake : waitOrTake (addIdle (countThread s)) i w.idx = some s') : Effect s (.start i) s'
  | wake {i : Nat} {w : Worker ρ} {s' : State ρ} (hw : s.workers[i]? = some w)
      (hphase : w.phase = .waiting) (hpool : s.poolFreed = false)
      (htake : waitOrTake s i w.idx = some s') : Effect s (.wake i) s'
  | run {i : Nat} {w : Worker ρ} {t : TaskId} {push : Nat} (hw : s.workers[i]? = some w)
      (hphase : w.phase = .holding t push .taken) :
      Effect s (.run i) (startRun s i w.idx t push)
  | finish {i : Nat} {v : ρ} {w : Worker ρ} {t : TaskId} {push : Nat}
      (hw : s.workers[i]? = some w) (hphase : w.phase = .holding t push .running) :
      Effect s (.finish i v) (s.setPhase i w.idx (.holding t push (.returned v)))
  | record {i : Nat} {w : Worker ρ} {t : TaskId} {push : Nat} {v : ρ} {s' : State ρ}
      (hw : s.workers[i]? = some w) (hphase : w.phase = .holding t push (.returned v))
      (hpool : s.poolFreed = false)
      (htake : waitOrTake (addIdle (recordRun s t push v)) i w.idx = some s') :
      Effect s (.record i) s'
  | push {c : Nat} {t : TaskId} (hcall : (s.calls c).Idle) (hpool : s.poolFreed = false) :
      Effect s (.push c t) (threadPoolPushTask s c t)
  | join {c : Nat} {t : TaskId} {timed : Bool} (hcall : (s.calls c).Idle) :
      Effect s (.join c t timed) (threadTaskJoin s c t timed)
  | detach {c : Nat} {t : TaskId} (hcall : (s.calls c).Idle) :
      Effect s (.detach c t) (threadTaskDetach s c t)
  | deleteTask {c : Nat} {t : TaskId} (hcall : (s.calls c).Idle) :
      Effect s (.deleteTask c t)
        ((threadTaskDelete s t).1.setCall c (.done (threadTaskDelete s t).2 none))
  | deletePool {c : Nat} (hcall : (s.calls c).Idle) (hpool : s.poolFreed = false) :
      Effect s (.deletePool c) (threadPoolDelete s c)
  | pushResume {c : Nat} {t : TaskId} {required : Int} (hcall : s.calls c = .pushing t required)
      (hpool : s.poolFreed = false) :
      Effect s (.pushResume c) (awaitWorker s c t required)
  | joinSection {c : Nat} {t : TaskId} {timed : Bool} (hcall : s.calls c = .joining t timed) :
      Effect s (.joinSection c) (ThreadPool.joinSection s c t)
  | joinTimeout {c : Nat} {t : TaskId} (hcall : s.calls c = .joining t true) :
      Effect s (.joinTimeout c) (ThreadPool.joinTimeout s c t)
  | detachSection {c : Nat} {t : TaskId} (hcall : s.calls c = .detaching t) :
      Effect s (.detachSection c) (ThreadPool.detachSection s c t)
  | detachDelete {c : Nat} {t : TaskId} (hcall : s.calls c = .deletingDetached t) :
      Effect s (.detachDelete c) (ThreadPool.detachDelete s c t)
  | deletePoolResume {c : Nat} {i : Int} {w : Worker ρ} (hcall : s.calls c = .joiningThread i)
      (hthread : threadAt s i = some w) (hphase : w.phase = .exited)
      (hpool : s.poolFreed = false) :
      Effect s (.deletePoolResume c) (joinThreads s c (i + 1))

theorem waitOrTake_cases {s s' : State ρ} {i : Nat} {idx : Int}
    (h : waitOrTake s i idx = some s') :
    (s.pool.pendingTaskCount < 1 ∧ s' = s.setPhase i idx .waiting) ∨
      (s.pool.threadIdxThatShouldExit = idx ∧ s' = s.setPhase i idx .exited) ∨
      (1 ≤ s.pool.pendingTaskCount ∧ s.pool.threadIdxThatShouldExit ≠ idx) ∧
        ∃ t, s.pool.pendingTaskList = some t ∧ s' = dequeueTask s i idx t := by
  unfold waitOrTake at h
  split at h
  · next hwait =>
    cases h
    exact .inl ⟨hwait.1, rfl⟩
  · next htakes =>
    split at h
    · next hexit =>
      cases h
      exact .inr (.inl ⟨hexit, rfl⟩)
    · next hexit =>
      have hpending : 1 ≤ s.pool.pendingTaskCount := by
        by_contra hpending
        exact htakes ⟨by omega, hexit⟩
      split at h
      · cases h
      · next t ht =>
        cases h
        exact .inr (.inr ⟨⟨hpending, hexit⟩, t, ht, rfl⟩)

/-- A step on the pool is taken before the pool is freed. -/
theorem of_not_freed {b : Bool} {o : Option (State ρ)} {s' : State ρ}
    (h : (if b then none else o) = some s') : b = false ∧ o = some s' := by
  cases b with
  | true => exact absurd h.symm (Option.some_ne_none s')
  | false => exact ⟨rfl, h⟩

theorem Steps.effect {s s' : State ρ} {a : Action ρ} (h : Steps s a s') : Effect s a s' := by
  unfold Steps step at h
  cases a with
  -- the steps of a worker, each possible in one phase of it
  | start i =>
    obtain ⟨w, hw, h⟩ := Option.bind_eq_some_iff.mp h
    dsimp only [workerStep] at h
    split at h
    · next hphase =>
      obtain ⟨hpool, htake⟩ := of_not_freed h
      exact .start hw hphase hpool htake
    · cases h
  | wake i =>
    obtain ⟨w, hw, h⟩ := Option.bind_eq_some_iff.mp h
    dsimp only [workerStep] at h
    split at h
    · next hphase =>
      obtain ⟨hpool, htake⟩ := of_not_freed h
      exact .wake hw hphase hpool htake
    · cases h
  | run i =>
    obtain ⟨w, hw, h⟩ := Option.bind_eq_some_iff.mp h
    dsimp only [workerStep] at h
    split at h
    · next hphase =>
      cases h
      exact .run hw hphase
    · cases h
  | finish i v =>
    obtain ⟨w, hw, h⟩ := Option.bind_eq_some_iff.mp h
    dsimp only [workerStep] at h
    split at h
    · next hphase =>
      cases h
      exact .finish hw hphase
    · cases h
  | record i =>
    obtain ⟨w, hw, h⟩ := Option.bind_eq_some_iff.mp h
    dsimp only [workerStep] at h
    split at h
    · next hphase =>
      obtain ⟨hpool, htake⟩ := of_not_freed h
      exact .record hw hphase hpool htake
    · cases h
  -- the calls that begin, possible when the client is in no other call
  | push c t =>
    obtain ⟨hcall, h⟩ := Option.ite_none_right_eq_some.mp h
    obtain ⟨hpool, h⟩ := of_not_freed h
    cases h
    exact .push hcall hpool
  | join c t timed =>
    obtain ⟨hcall, h⟩ := Option.ite_none_right_eq_some.mp h
    cases h
    exact .join hcall
  | detach c t =>
    obtain ⟨hcall, h⟩ := Option.ite_none_right_eq_some.mp h
    cases h
    exact .detach hcall
  | deleteTask c t =>
    obtain ⟨hcall, h⟩ := Option.ite_none_right_eq_some.mp h
    cases h
    exact .deleteTask hcall
  | deletePool c =>
    obtain ⟨hcall, h⟩ := Option.ite_none_right_eq_some.mp h
    obtain ⟨hpool, h⟩ := of_not_freed h
    cases h
    exact .deletePool hcall hpool
  -- the calls that go on, possible where the call has got to
  | pushResume c =>
    dsimp only at h
    cases hcall : s.calls c <;> rw [hcall] at h <;> try cases h
    obtain ⟨hpool, h⟩ := of_not_freed h
    cases h
    exact .pushResume hcall hpool
  | joinSection c =>
    dsimp only at h
    cases hcall : s.calls c <;> rw [hcall] at h <;> cases h
    exact .joinSection hcall
  | detachSection c =>
    dsimp only at h
    cases hcall : s.calls c <;> rw [hcall] at h <;> cases h
    exact .detachSection hcall
  | detachDelete c =>
    dsimp only at h
    cases hcall : s.calls c <;> rw [hcall] at h <;> cases h
    exact .detachDelete hcall
  | joinTimeout c =>
    dsimp only at h
    cases hcall : s.calls c with
    | joining t timed =>
      cases timed <;> rw [hcall] at h <;> cases h
      exact .joinTimeout hcall
    | _ =>
      rw [hcall] at h
      cases h
  | deletePoolResume c =>
    dsimp only at h
    cases hcall : s.calls c with
    | joiningThread i =>
      rw [hcall] at h
      dsimp only [resumeStep] at h
      split at h
      · next idx hthread =>
        obtain ⟨hpool, h⟩ := of_not_freed h
        cases h
        exact .deletePoolResume hcall hthread rfl hpool
      · cases h
    | _ =>
      rw [hcall] at h
      cases h

end SystemProgramming.ThreadPool
