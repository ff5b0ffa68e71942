import SystemProgramming.Lib.Runs
import SystemProgramming.Lib.WaitSet
import SystemProgramming.ThreadPool.Step

/-!
# The condition variables of the thread pool

A worker that finds nothing to do is asleep on `cv` until somebody signals it, a push that has created
a worker on `spawn_cv`, and a join on the `cv` of its task.  The steps are those of the pool, taken by
threads that are awake; they say which condition variable is signalled.
-/

open Runs WaitSets

namespace SystemProgramming.ThreadPool

variable {ρ : Type}

/-! ## Who signals whom -/

/-- The pool with the workers asleep on `pool->cv`, and the callers asleep on `pool->spawn_cv` and on
`task->cv`. -/
structure Monitor (ρ : Type) where
  state : State ρ
  cv : Finset Nat
  spawnCv : Finset Nat
  taskCv : TaskId → Finset Nat

def Monitor.start (pool : Pool) : Monitor ρ := ⟨.start pool, ∅, ∅, fun _ => ∅⟩

/-- A push signals when it links its task. -/
def awaitWorkerSignals (s : State ρ) (requiredThreadCount : Int) : Notice :=
  if s.pool.threadCount ≠ requiredThreadCount then .silent else .signal

def threadPoolPushTaskSignals (s : State ρ) : Notice :=
  if s.pool.pendingTaskCount ≥ tpoolMaxTasks then .silent
  else
    let spawned := spawnWorker s
    awaitWorkerSignals spawned.1 spawned.2

def joinThreadsSignals (s : State ρ) (i : Int) : Notice :=
  if i < s.pool.threadCount then .broadcast else .silent

def threadPoolDeleteSignals (s : State ρ) : Notice :=
  if s.pool.runningTaskCount > 0 ∨ s.pool.pendingTaskCount > 0 ∨
      s.pool.idleThreadCount ≠ s.pool.threadCount then .silent
  else if s.pool.threads = none then .silent
  else joinThreadsSignals s 0

/-- What a step does to `pool->cv`. -/
def signalsCv (s : State ρ) : Action ρ → Notice
  | .push _ _ => threadPoolPushTaskSignals s
  | .pushResume c =>
    match s.calls c with
    | .pushing _ required => awaitWorkerSignals s required
    | _ => .silent
  | .deletePool _ => threadPoolDeleteSignals s
  | .deletePoolResume c =>
    match s.calls c with
    | .joiningThread i => joinThreadsSignals s (i + 1)
    | _ => .silent
  | _ => .silent

/-- What a step does to `pool->spawn_cv`. -/
def signalsSpawnCv : Action ρ → Notice
  | .start _ => .signal
  | _ => .silent

/-- What a step does to `task->cv`.  The end of a run signals it, unless the task is detached. -/
def signalsTaskCv (s : State ρ) (t : TaskId) : Action ρ → Notice
  | .record i =>
    match s.workers[i]? with
    | some ⟨_, .holding u _ _⟩ =>
      if u = t ∧ (s.tasks u).isDetached = false then .signal else .silent
    | _ => .silent
  | _ => .silent

def Worker.isWaiting (w : Worker ρ) : Bool :=
  match w.phase with
  | .waiting => true
  | _ => false

/-- The worker, if its step has ended in `pthread_cond_wait`. -/
def sleeper (s' : State ρ) (i : Nat) : Finset Nat :=
  if s'.workers[i]?.any Worker.isWaiting then {i} else ∅

def sleepsOnCv (s' : State ρ) : Action ρ → Finset Nat
  | .start i | .wake i | .record i => sleeper s' i
  | _ => ∅

def sleepsOnSpawnCv (s' : State ρ) : Action ρ → Finset Nat
  | .push c _ | .pushResume c =>
    match s'.calls c with
    | .pushing _ _ => {c}
    | _ => ∅
  | _ => ∅

def sleepsOnTaskCv (s' : State ρ) (t : TaskId) : Action ρ → Finset Nat
  | .joinSection c =>
    match s'.calls c with
    | .joining u _ => if u = t then {c} else ∅
    | _ => ∅
  | _ => ∅

/-- The caller whose `pthread_cond_timedwait` is out of time. -/
def timesOut : Action ρ → Finset Nat
  | .joinTimeout c => {c}
  | _ => ∅

/-- The thread of the step is not asleep. -/
def Monitor.Awake (m : Monitor ρ) : Action ρ → Prop
  | .wake i => i ∉ m.cv
  | .pushResume c => c ∉ m.spawnCv
  | .joinSection c => ∀ t, c ∉ m.taskCv t
  | _ => True

inductive Event (ρ : Type)
  | act (a : Action ρ)
  | spurious

/-- A step of the pool, or a waking that nobody asked for. -/
inductive Monitor.Step (m : Monitor ρ) : Event ρ → Monitor ρ → Prop
  | act {a : Action ρ} {s' : State ρ} {cv spawnCv : Finset Nat} {taskCv : TaskId → Finset Nat}
      (hawake : m.Awake a) (hstep : Steps m.state a s')
      (hcv : (signalsCv m.state a).Leaves m.cv cv)
      (hspawn : (signalsSpawnCv a).Leaves m.spawnCv spawnCv)
      (htask : ∀ t, (signalsTaskCv m.state t a).Leaves (m.taskCv t \ timesOut a) (taskCv t)) :
      Step m (.act a) ⟨s', cv ∪ sleepsOnCv s' a, spawnCv ∪ sleepsOnSpawnCv s' a,
        fun t => taskCv t ∪ sleepsOnTaskCv s' t a⟩
  | spurious {cv spawnCv : Finset Nat} {taskCv : TaskId → Finset Nat} (hcv : cv ⊆ m.cv)
      (hspawn : spawnCv ⊆ m.spawnCv) (htask : ∀ t, taskCv t ⊆ m.taskCv t) :
      Step m .spurious ⟨m.state, cv, spawnCv, taskCv⟩

/-! ## Workers that attend to the list -/

/-- The worker waits for a task, and is not the one that should exit. -/
def Attends (s : State ρ) (i : Nat) : Prop :=
  ∃ w, s.workers[i]? = some w ∧ w.isWaiting = true ∧ s.pool.threadIdxThatShouldExit ≠ w.idx

instance (s : State ρ) (i : Nat) : Decidable (Attends s i) :=
  match h : s.workers[i]? with
  | none => .isFalse fun ⟨_, hw, _⟩ => Option.some_ne_none _ (hw.symm.trans h)
  | some w => decidable_of_iff (w.isWaiting = true ∧ s.pool.threadIdxThatShouldExit ≠ w.idx)
      ⟨fun hw => ⟨w, h, hw⟩, fun ⟨_, hw', hrest⟩ => Option.some.inj (hw'.symm.trans h) ▸ hrest⟩

/-- The workers that are awake and will look at the list. -/
def Monitor.attending (m : Monitor ρ) : Finset Nat :=
  (Finset.range m.state.workers.length).filter fun i => Attends m.state i ∧ i ∉ m.cv

section

variable {s s' : State ρ} {m m' : Monitor ρ}

theorem Attends.lt {i : Nat} (h : Attends s i) : i < s.workers.length := by
  obtain ⟨w, hw, -⟩ := h
  exact (List.getElem?_eq_some_iff.mp hw).1

@[simp] theorem mem_attending {i : Nat} : i ∈ m.attending ↔ Attends m.state i ∧ i ∉ m.cv := by
  unfold Monitor.attending
  rw [Finset.mem_filter, Finset.mem_range]
  exact ⟨And.right, fun h => ⟨h.1.lt, h⟩⟩

/-- No worker that sleeps should exit, and every pending task has a worker that is awake. -/
structure WakeInv (m : Monitor ρ) : Prop where
  asleep : ∀ i ∈ m.cv, Attends m.state i
  covered : Covered m.cv m.attending m.state.pool.pendingTaskCount

/-- The workers that attend stay. -/
theorem WakeInv.keep (h : WakeInv m) (hattends : ∀ i, Attends m.state i → Attends m'.state i)
    (hpending : m'.state.pool.pendingTaskCount ≤ m.state.pool.pendingTaskCount)
    (hcv : m'.cv ⊆ m.cv) : WakeInv m' := by
  refine ⟨fun i hi => hattends i (h.asleep i (hcv hi)), h.covered.mono hcv (fun i hi => ?_) hpending⟩
  rw [mem_attending] at hi ⊢
  exact ⟨hattends i hi.1, fun hin => hi.2 (hcv hin)⟩

/-- Attending is a matter of the workers and the index that should exit. -/
theorem Attends.congr {i : Nat} (h : Attends s i) (hworkers : s'.workers[i]? = s.workers[i]?)
    (hexit : s'.pool.threadIdxThatShouldExit = s.pool.threadIdxThatShouldExit) : Attends s' i := by
  obtain ⟨w, hw, hwaiting, hidx⟩ := h
  exact ⟨w, hworkers.trans hw, hwaiting, by rwa [hexit]⟩

/-! ## Steps -/

/-- The calls that are about a task only. -/
def Action.onTask : Action ρ → Bool
  | .join _ _ _ | .joinSection _ | .joinTimeout _ | .detach _ _ | .detachSection _
  | .detachDelete _ | .deleteTask _ _ => true
  | _ => false

/-- The pool and its threads are left alone. -/
structure SamePool (s s' : State ρ) : Prop where
  pool : s'.pool = s.pool
  poolFreed : s'.poolFreed = s.poolFreed
  workers : s'.workers = s.workers
  pushes : s'.pushes = s.pushes
  runs : s'.runs = s.runs

theorem samePool_of_onTask {a : Action ρ} (ha : a.onTask = true) (h : Steps s a s') :
    SamePool s s' := by
  cases h.effect with
  | @join c t timed =>
    unfold threadTaskJoin
    dsimp only
    split <;> exact ⟨rfl, rfl, rfl, rfl, rfl⟩
  | @joinSection c t =>
    unfold ThreadPool.joinSection
    dsimp only
    split <;> exact ⟨rfl, rfl, rfl, rfl, rfl⟩
  | joinTimeout => exact ⟨rfl, rfl, rfl, rfl, rfl⟩
  | @detach c t =>
    unfold threadTaskDetach
    dsimp only
    split <;> exact ⟨rfl, rfl, rfl, rfl, rfl⟩
  | @detachSection c t =>
    unfold ThreadPool.detachSection
    dsimp only
    split <;> exact ⟨rfl, rfl, rfl, rfl, rfl⟩
  | detachDelete =>
    unfold ThreadPool.detachDelete
    rw [threadTaskDelete_eq]
    exact ⟨rfl, rfl, rfl, rfl, rfl⟩
  | deleteTask =>
    rw [threadTaskDelete_eq]
    exact ⟨rfl, rfl, rfl, rfl, rfl⟩
  | _ => cases ha

/-- What a worker does with the mutex of the pool, and what it read for it. -/
theorem waitOrTake_outcome {i : Nat} {idx : Int} (h : waitOrTake s i idx = some s') :
    (s.pool.pendingTaskCount < 1 ∧ s.pool.threadIdxThatShouldExit ≠ idx ∧
        s' = s.setPhase i idx .waiting) ∨
      (s.pool.threadIdxThatShouldExit = idx ∧ s' = s.setPhase i idx .exited) ∨
      (s.pool.threadIdxThatShouldExit ≠ idx ∧
        ∃ t, s.pool.pendingTaskList = some t ∧ s' = dequeueTask s i idx t) := by
  by_cases hexit : s.pool.threadIdxThatShouldExit = idx
  · apply Or.inr
    apply Or.inl
    unfold waitOrTake at h
    rw [if_neg (fun hwait => hwait.2 hexit), if_pos hexit] at h
    exact ⟨hexit, (Option.some.inj h).symm⟩
  · rcases waitOrTake_cases h with ⟨hpending, heq⟩ | ⟨hexits, -⟩ | ⟨-, t, ht, heq⟩
    · exact .inl ⟨hpending, hexit, heq⟩
    · exact absurd hexits hexit
    · exact .inr (.inr ⟨hexit, t, ht, heq⟩)

theorem getElem?_setPhase_self {i : Nat} (hi : i < s.workers.length) (idx : Int)
    (phase : Phase ρ) : (s.setPhase i idx phase).workers[i]? = some ⟨idx, phase⟩ := List.getElem?_set_self hi

theorem getElem?_setPhase_ne {i j : Nat} {idx : Int} {phase : Phase ρ} (hne : i ≠ j) :
    (s.setPhase i idx phase).workers[j]? = s.workers[j]? := List.getElem?_set_ne hne

theorem sleeper_of_waiting {i : Nat} {w : Worker ρ} (hw : s.workers[i]? = some w)
    (hwaiting : w.isWaiting = true) : sleeper s i = {i} := by
  unfold sleeper
  rw [hw, if_pos (show (some w).any Worker.isWaiting = true from hwaiting)]

theorem sleeper_of_not_waiting {i : Nat} {w : Worker ρ} (hw : s.workers[i]? = some w)
    (hwaiting : w.isWaiting = false) : sleeper s i = ∅ := by
  unfold sleeper
  rw [hw, if_neg]
  show ¬ w.isWaiting = true
  rw [hwaiting]
  decide

/-- A worker looks at the list after the counters were changed in `s`: it falls asleep when the list
is empty, and takes at most one task. -/
theorem WakeInv.look (h : WakeInv m) {i : Nat} {w : Worker ρ} (hw : m.state.workers[i]? = some w)
    (hawake : i ∉ m.cv) (hworkers : s.workers = m.state.workers)
    (hexit : s.pool.threadIdxThatShouldExit = m.state.pool.threadIdxThatShouldExit)
    (hpending : s.pool.pendingTaskCount = m.state.pool.pendingTaskCount)
    (htake : waitOrTake s i w.idx = some s') {spawnCv : Finset Nat} {taskCv : TaskId → Finset Nat} :
    WakeInv ⟨s', m.cv ∪ sleeper s' i, spawnCv, taskCv⟩ := by
  have hi : i < s.workers.length := by
    rw [hworkers]
    exact (List.getElem?_eq_some_iff.mp hw).1
  -- the other workers attend as before
  have hother : ∀ t : State ρ, (∀ j, j ≠ i → t.workers[j]? = s.workers[j]?) →
      t.pool.threadIdxThatShouldExit = s.pool.threadIdxThatShouldExit →
      ∀ j, j ≠ i → Attends m.state j → Attends t j := by
    intro t hsame hidx j hne hj
    apply hj.congr
    · rw [hsame j hne, hworkers]
    · rw [hidx, hexit]
  rcases waitOrTake_outcome htake with ⟨hnone, hstays, rfl⟩ | ⟨hexits, rfl⟩ | ⟨-, t, -, rfl⟩
  · -- it falls asleep
    have hself := getElem?_setPhase_self hi w.idx .waiting
    refine ⟨fun j hj => ?_, Covered.of_nonpos (by show s.pool.pendingTaskCount ≤ 0; omega)⟩
    by_cases hne : j = i
    · rw [hne]
      exact ⟨_, hself, rfl, hstays⟩
    · apply hother _ (fun k hk => getElem?_setPhase_ne hk.symm) rfl j hne
      apply h.asleep
      rw [sleeper_of_waiting hself rfl] at hj
      exact (Finset.mem_union.mp hj).resolve_right fun hin => hne (Finset.mem_singleton.mp hin)
  · -- it exits, so it did not attend
    have hself := getElem?_setPhase_self hi w.idx .exited
    rw [sleeper_of_not_waiting hself rfl, Finset.union_empty]
    apply h.keep
    · intro j hj
      apply hother _ (fun k hk => getElem?_setPhase_ne hk.symm) rfl j _ hj
      rintro rfl
      obtain ⟨w', hw', -, hidx⟩ := hj
      rw [hw] at hw'
      cases hw'
      exact hidx (hexit ▸ hexits)
    · exact hpending.le
    · exact Finset.Subset.refl m.cv
  · -- it takes a task, one item for one thread that is no longer there
    have hself : (dequeueTask s i w.idx t).workers[i]? = some _ := getElem?_setPhase_self hi _ _
    have hkeep : ∀ j, j ≠ i → Attends m.state j → Attends (dequeueTask s i w.idx t) j :=
      hother _ (fun k hk => getElem?_setPhase_ne hk.symm) rfl
    rw [sleeper_of_not_waiting hself rfl, Finset.union_empty]
    refine ⟨fun j hj => hkeep j (fun heq => hawake (heq ▸ hj)) (h.asleep j hj), ?_⟩
    apply (h.covered.take i).mono (Finset.Subset.refl m.cv)
    · intro j hj
      obtain ⟨hne, hj⟩ := Finset.mem_erase.mp hj
      rw [mem_attending] at hj ⊢
      exact ⟨hkeep j hne hj.1, hj.2⟩
    · show s.pool.pendingTaskCount - 1 ≤ m.state.pool.pendingTaskCount - 1
      omega

variable {cv spawnCv : Finset Nat} {taskCv : TaskId → Finset Nat}

/-- A task is linked and a worker is signalled for it. -/
theorem WakeInv.linkTask (h : WakeInv m) (hattends : ∀ i, Attends m.state i → Attends s i)
    (hpending : s.pool.pendingTaskCount = m.state.pool.pendingTaskCount) (hcv : Signal m.cv cv)
    (c : Nat) (t : TaskId) (call : Call ρ) :
    WakeInv ⟨(linkTask s t).setCall c call, cv, spawnCv, taskCv⟩ := by
  have hkeep : ∀ i, Attends m.state i → Attends ((ThreadPool.linkTask s t).setCall c call) i :=
    fun i hi => (hattends i hi).congr rfl rfl
  refine ⟨fun i hi => hkeep i (h.asleep i (hcv.1 hi)), ?_⟩
  apply (h.covered.signal hcv _).mono (Finset.Subset.refl cv)
  · intro i hi
    rw [mem_attending]
    rcases Finset.mem_union.mp hi with hi | hi
    · rw [mem_attending] at hi
      exact ⟨hkeep i hi.1, fun hin => hi.2 (hcv.1 hin)⟩
    · obtain ⟨hin, hout⟩ := Finset.mem_sdiff.mp hi
      exact ⟨hkeep i (h.asleep i hin), hout⟩
  · show s.pool.pendingTaskCount + 1 ≤ m.state.pool.pendingTaskCount + 1
    omega
  · apply Finset.disjoint_left.mpr
    intro i hi hattending
    exact (mem_attending.mp hattending).2 hi

theorem WakeInv.awaitWorker (h : WakeInv m) (hattends : ∀ i, Attends m.state i → Attends s i)
    (hpending : s.pool.pendingTaskCount = m.state.pool.pendingTaskCount) {required : Int}
    (hcv : (awaitWorkerSignals s required).Leaves m.cv cv) (c : Nat) (t : TaskId) :
    WakeInv ⟨awaitWorker s c t required, cv, spawnCv, taskCv⟩ := by
  unfold awaitWorkerSignals at hcv
  unfold ThreadPool.awaitWorker
  by_cases hwaits : s.pool.threadCount ≠ required
  · rw [if_pos hwaits] at hcv ⊢
    exact h.keep (fun i hi => (hattends i hi).congr rfl rfl) hpending.le hcv.subset
  · rw [if_neg hwaits] at hcv ⊢
    exact h.linkTask hattends hpending hcv c t _

/-- A new worker is the last one. -/
theorem spawnWorker_attends {i : Nat} (h : Attends s i) : Attends (spawnWorker s).1 i := by
  have hcreate : ∀ threads idx, Attends (createWorker s threads idx) i := by
    intro threads idx
    apply h.congr
    · exact List.getElem?_append_left h.lt
    · rfl
  unfold spawnWorker
  dsimp only
  split
  · exact hcreate _ _
  · split
    · exact hcreate _ _
    · exact h

theorem spawnWorker_pending (s : State ρ) :
    (spawnWorker s).1.pool.pendingTaskCount = s.pool.pendingTaskCount := by
  unfold spawnWorker
  dsimp only
  split
  · rfl
  · split <;> rfl

theorem WakeInv.threadPoolPushTask (h : WakeInv m)
    (hcv : (threadPoolPushTaskSignals m.state).Leaves m.cv cv) (c : Nat) (t : TaskId) :
    WakeInv ⟨threadPoolPushTask m.state c t, cv, spawnCv, taskCv⟩ := by
  unfold threadPoolPushTaskSignals at hcv
  unfold ThreadPool.threadPoolPushTask
  by_cases hfull : m.state.pool.pendingTaskCount ≥ tpoolMaxTasks
  · rw [if_pos hfull] at hcv ⊢
    exact h.keep (fun i hi => hi.congr rfl rfl) le_rfl hcv.subset
  · rw [if_neg hfull] at hcv ⊢
    exact h.awaitWorker (fun i hi => spawnWorker_attends hi) (spawnWorker_pending m.state) hcv c t

/-- With the index that should exit all sleepers are woken. -/
theorem WakeInv.joinThreads (h : WakeInv m) {i : Int}
    (hcv : (joinThreadsSignals m.state i).Leaves m.cv cv) (c : Nat) :
    WakeInv ⟨joinThreads m.state c i, cv, spawnCv, taskCv⟩ := by
  unfold joinThreadsSignals at hcv
  unfold ThreadPool.joinThreads
  by_cases hleft : i < m.state.pool.threadCount
  · rw [if_pos hleft] at hcv ⊢
    obtain rfl : cv = ∅ := hcv
    exact ⟨fun j hj => absurd hj (Finset.notMem_empty j), Covered.of_empty⟩
  · rw [if_neg hleft] at hcv ⊢
    exact h.keep (fun i hi => hi.congr rfl rfl) le_rfl hcv.subset

theorem WakeInv.threadPoolDelete (h : WakeInv m)
    (hcv : (threadPoolDeleteSignals m.state).Leaves m.cv cv) (c : Nat) :
    WakeInv ⟨threadPoolDelete m.state c, cv, spawnCv, taskCv⟩ := by
  unfold threadPoolDeleteSignals at hcv
  unfold ThreadPool.threadPoolDelete
  split at hcv
  · next hbusy =>
    rw [if_pos hbusy]
    exact h.keep (fun i hi => hi.congr rfl rfl) le_rfl hcv.subset
  · next hbusy =>
    rw [if_neg hbusy]
    split at hcv
    · next hnone =>
      rw [if_pos hnone]
      exact h.keep (fun i hi => hi.congr rfl rfl) le_rfl hcv.subset
    · next hsome =>
      rw [if_neg hsome]
      exact h.joinThreads hcv c

/-- A worker that holds a task does not attend, whatever its stage. -/
theorem attends_setPhase {i j : Nat} {w : Worker ρ} (hw : s.workers[i]? = some w)
    (hwaiting : w.isWaiting = false) (idx : Int) (phase : Phase ρ) (h : Attends s j) :
    Attends (s.setPhase i idx phase) j := by
  apply h.congr (getElem?_setPhase_ne _) rfl
  rintro rfl
  obtain ⟨w', hw', hyes, -⟩ := h
  rw [hw] at hw'
  cases hw'
  rw [hwaiting] at hyes
  cases hyes

theorem WakeInv.not_asleep (h : WakeInv m) {i : Nat} {w : Worker ρ}
    (hw : m.state.workers[i]? = some w) (hwaiting : w.isWaiting = false) : i ∉ m.cv := by
  intro hi
  obtain ⟨w', hw', hyes, -⟩ := h.asleep i hi
  rw [hw] at hw'
  cases hw'
  rw [hwaiting] at hyes
  cases hyes

/-- The steps that signal no worker and take no task. -/
theorem WakeInv.silent (h : WakeInv m) (hcv : cv = m.cv)
    (hattends : ∀ i, Attends m.state i → Attends s' i)
    (hpending : s'.pool.pendingTaskCount = m.state.pool.pendingTaskCount) :
    WakeInv ⟨s', cv ∪ ∅, spawnCv, taskCv⟩ := by
  rw [hcv, Finset.union_empty]
  exact h.keep hattends hpending.le (Finset.Subset.refl m.cv)

theorem WakeInv.onTask (h : WakeInv m) {a : Action ρ} (ha : a.onTask = true)
    (hstep : Steps m.state a s') (hcv : (signalsCv m.state a).Leaves m.cv cv) :
    WakeInv ⟨s', cv ∪ sleepsOnCv s' a, spawnCv, taskCv⟩ := by
  have hsame := samePool_of_onTask ha hstep
  have hsilent : signalsCv m.state a = .silent := by
    cases a <;> first | rfl | cases ha
  have hnobody : sleepsOnCv s' a = ∅ := by
    cases a <;> first | rfl | cases ha
  rw [hsilent] at hcv
  rw [hnobody]
  apply h.silent hcv
  · exact fun i hi => hi.congr (by rw [hsame.workers]) (by rw [hsame.pool])
  · rw [hsame.pool]

theorem WakeInv.step (h : WakeInv m) {e : Event ρ} (hstep : m.Step e m') : WakeInv m' := by
  cases hstep with
  | spurious hcv _ _ => exact h.keep (fun _ => id) le_rfl hcv
  | @act a s' cv spawnCv taskCv hawake hstep hcv _ _ =>
    by_cases ha : a.onTask = true
    · exact h.onTask ha hstep hcv
    cases hstep.effect with
    -- a worker looks at the list, after its own entries in the counters
    | @start i w _ hw hphase _ htake =>
      have hwaiting : w.isWaiting = false := by rw [Worker.isWaiting, hphase]
      rw [show cv = m.cv from hcv]
      exact h.look (s := addIdle (countThread m.state)) hw (h.not_asleep hw hwaiting) rfl rfl rfl htake
    | wake hw _ _ htake =>
      rw [show cv = m.cv from hcv]
      exact h.look hw hawake rfl rfl rfl htake
    | @record i w t push v _ hw hphase _ htake =>
      have hwaiting : w.isWaiting = false := by rw [Worker.isWaiting, hphase]
      have hpool := recordRun_pool m.state t push v
      rw [show cv = m.cv from hcv]
      refine h.look (s := addIdle (recordRun m.state t push v)) hw (h.not_asleep hw hwaiting)
        (recordRun_workers m.state t push v) ?_ ?_ htake
      · simp only [addIdle, hpool]
      · simp only [addIdle, hpool]
    | @run i w t push hw hphase =>
      have hwaiting : w.isWaiting = false := by rw [Worker.isWaiting, hphase]
      have hkeep : ∀ j, Attends m.state j → Attends (startRun m.state i w.idx t push) j :=
        fun j hj => (attends_setPhase hw hwaiting w.idx (.holding t push .running) hj).congr rfl rfl
      exact h.silent hcv hkeep rfl
    | @finish i v w t push hw hphase =>
      have hwaiting : w.isWaiting = false := by rw [Worker.isWaiting, hphase]
      exact h.silent hcv (fun j hj => attends_setPhase hw hwaiting w.idx _ hj) rfl
    -- the calls that signal
    | @push c t =>
      show WakeInv ⟨ThreadPool.threadPoolPushTask m.state c t, cv ∪ ∅, _, _⟩
      rw [Finset.union_empty]
      exact h.threadPoolPushTask hcv c t
    | @pushResume c t required hcall =>
      simp only [signalsCv, hcall] at hcv
      show WakeInv ⟨ThreadPool.awaitWorker m.state c t required, cv ∪ ∅, _, _⟩
      rw [Finset.union_empty]
      exact h.awaitWorker (fun _ => id) rfl hcv c t
    | @deletePool c =>
      show WakeInv ⟨ThreadPool.threadPoolDelete m.state c, cv ∪ ∅, _, _⟩
      rw [Finset.union_empty]
      exact h.threadPoolDelete hcv c
    | @deletePoolResume c i w hcall =>
      simp only [signalsCv, hcall] at hcv
      show WakeInv ⟨ThreadPool.joinThreads m.state c (i + 1), cv ∪ ∅, _, _⟩
      rw [Finset.union_empty]
      exact h.joinThreads hcv c
    | _ => exact absurd rfl ha

end

/-! ## Runs -/

theorem wakeInv_start (pool : Pool) : WakeInv (Monitor.start (ρ := ρ) pool) :=
  ⟨fun i hi => absurd hi (Finset.notMem_empty i), Covered.of_empty⟩

theorem wakeInv_run {pool : Pool} {m : Monitor ρ} (h : Reachable Monitor.Step (.start pool) m) :
    WakeInv m :=
  h.invariant (wakeInv_start pool) fun _ _ _ hm hstep => hm.step hstep

/-- Whatever the clients do, and whoever wakes without a signal: as long as a worker sleeps there is
for every pending task a worker of its own that was woken and has yet to look at the list, and a worker
that should exit does not sleep. -/
theorem no_wakeup_lost {pool : Pool} {m : Monitor ρ}
    (h : Reachable Monitor.Step (.start pool) m) :
    (m.cv.Nonempty → m.state.pool.pendingTaskCount ≤ m.attending.card) ∧
      ∀ i ∈ m.cv, Attends m.state i :=
  ⟨(wakeInv_run h).covered, (wakeInv_run h).asleep⟩

/-- Two workers have gone to sleep and one of them is woken for the task that is linked. -/
theorem no_wakeup_lost_pending : ∃ m : Monitor Unit, m.cv = {1} ∧
    m.state.pool.pendingTaskCount = 1 ∧ m.state.pool.pendingTaskCount ≤ m.attending.card := by
  have hspawn : Signal ({0} : Finset Nat) ∅ :=
    ⟨Finset.empty_subset _, fun _ heq => absurd heq (by decide)⟩
  have hwake : Signal ({1} ∪ {0} : Finset Nat) {1} := ⟨by decide, fun _ => by decide⟩
  have hjoin (n : Notice) : n.Leaves (∅ : Finset Nat) ∅ := by
    cases n with
    | silent => rfl
    | signal => exact ⟨Finset.Subset.refl _, fun h => absurd h Finset.not_nonempty_empty⟩
    | broadcast => rfl
  have hrun : Run Monitor.Step (.start (ρ := Unit) ⟨none, 0, 0, none, 2, 0, 0, -1⟩)
      [.act (.push 0 0), .act (.start 0), .act (.pushResume 0), .act (.wake 0), .act (.run 0),
        .act (.finish 0 ()), .act (.push 0 1), .act (.start 1), .act (.record 0),
        .act (.pushResume 0)] _ :=
    .cons (.act trivial rfl rfl rfl fun _ => rfl)
      (.cons (.act trivial rfl rfl hspawn fun _ => rfl)
        (.cons (.act (show 0 ∉ (∅ : Finset Nat) by decide) rfl hspawn rfl fun _ => rfl)
          (.cons (.act (show 0 ∉ (∅ : Finset Nat) by decide) rfl rfl rfl fun _ => rfl)
            (.cons (.act trivial rfl rfl rfl fun _ => rfl)
              (.cons (.act trivial rfl rfl rfl fun _ => rfl)
                (.cons (.act trivial rfl rfl rfl fun _ => rfl)
                  (.cons (.act trivial rfl rfl hspawn fun _ => rfl)
                    (.cons (.act trivial rfl rfl rfl fun _ => hjoin _)
                      (.cons (.act (show 0 ∉ (∅ : Finset Nat) by decide) rfl hwake rfl
                        fun _ => rfl) (.nil _))))))))))
  exact ⟨_, by decide, rfl, (no_wakeup_lost ⟨_, hrun⟩).1 (by decide)⟩

end SystemProgramming.ThreadPool
