import SystemProgramming.Lib.Ledger
import SystemProgramming.Lib.Runs
import SystemProgramming.Lib.SinglyLinked
import SystemProgramming.ThreadPool.Step

/-!
# The accounts of the thread pool

Every push is in one place at a time: in the list, with a worker, or among the runs.  The counters of
the pool count these places, `thread_task_join` hands out the value of the run of the latest push,
and `thread_pool_delete` begins only after all of the runs.
-/

open Runs Ledgers SinglyLinked

namespace SystemProgramming.ThreadPool

variable {ρ : Type}

/-! ## The accounts -/

/-- The task that a worker holds, with the number of its push. -/
def Worker.held (w : Worker ρ) : Option (TaskId × Nat) :=
  match w.phase with
  | .holding t push _ => some (t, push)
  | _ => none

/-- The tasks between their dequeuing and the record of their end. -/
def State.held (s : State ρ) : List (TaskId × Nat) := s.workers.filterMap Worker.held

/-- The pushes of the tasks in a list. -/
def pushesOf (s : State ρ) (l : List TaskId) : List Nat := l.filterMap (latestPush s.pushes)

/-- The list is what the pointers say, the counters are right, and every push is in one place. -/
def Accounted (s : State ρ) (l : List TaskId) : Prop :=
  Chain (fun t => (s.tasks t).next) s.pool.pendingTaskList l ∧ l.Nodup ∧
    s.pool.pendingTaskCount = l.length ∧
    s.pool.runningTaskCount = s.held.length ∧
    s.pool.idleThreadCount + s.pool.runningTaskCount = s.pool.threadCount ∧
    ∀ k < s.pushes.length,
      (pushesOf s l).count k + (s.held.map Prod.snd).count k + (s.runs.map Prod.fst).count k = 1

/-- `thread_task_join` returns 0 only with the value of the run of the latest push. -/
def JoinsLatestRun (s : State ρ) : Prop :=
  ∀ c t timed s' result, s.calls c = .joining t timed → Steps s (.joinSection c) s' →
    s'.calls c = .done .ok result →
    ∃ k v, latestPush s.pushes t = some k ∧ (k, v) ∈ s.runs ∧ result = some v

/-- `thread_pool_delete` passes its check only when every push has been run. -/
def DeletesAfterRuns (s : State ρ) : Prop :=
  ∀ c s', Steps s (.deletePool c) s' → s'.calls c ≠ .done .hasTasks none →
    ∀ k < s.pushes.length, ∃ v, (k, v) ∈ s.runs

/-- The task is in no pool: it is not pushed, or was joined since, and is not detached. -/
def OutOfPool (s : State ρ) (t : TaskId) : Prop :=
  (s.tasks t).pool = false ∧ (s.tasks t).isDetached = false

/-- A task is pushed only when it is in no pool, and is in none until the push links it. -/
def PushesOutOfPool (s : State ρ) : Action ρ → Prop
  | .push _ t => OutOfPool s t
  | .pushResume c =>
    match s.calls c with
    | .pushing t _ => OutOfPool s t
    | _ => True
  | _ => True

/-! ## What a step does to the list -/

/-- The worker of the step finds a task, and is not the one that should exit. -/
def TakesTask (s : State ρ) : Action ρ → Prop
  | .start i | .wake i | .record i => ∃ w, s.workers[i]? = some w ∧
    1 ≤ s.pool.pendingTaskCount ∧ s.pool.threadIdxThatShouldExit ≠ w.idx
  | _ => False

/-- The first task is taken, a pushed task is put before it, or the list stays as it is. -/
inductive Lists (s s' : State ρ) (takes : Prop) : List TaskId → List TaskId → Prop
  | taken {t : TaskId} {l : List TaskId} (htakes : takes) (hpushes : s'.pushes = s.pushes) :
      Lists s s' takes (t :: l) l
  | linked {t : TaskId} {l : List TaskId} (htakes : ¬ takes) (hpushes : s'.pushes = t :: s.pushes) :
      Lists s s' takes l (t :: l)
  | kept {l : List TaskId} (htakes : ¬ takes) (hpushes : s'.pushes = s.pushes) :
      Lists s s' takes l l

theorem Lists.congr {s₁ s s' : State ρ} {takes takes' : Prop} {l l' : List TaskId}
    (h : Lists s₁ s' takes l l') (hpushes : s₁.pushes = s.pushes) (htakes : takes ↔ takes') :
    Lists s s' takes' l l' := by
  cases h with
  | taken hyes hsame => exact .taken (htakes.mp hyes) (hsame.trans hpushes)
  | linked hno hlinked => exact .linked (hno ∘ htakes.mpr) (hpushes ▸ hlinked)
  | kept hno hsame => exact .kept (hno ∘ htakes.mpr) (hsame.trans hpushes)

/-! ## The invariant -/

structure Inv (s : State ρ) (l : List TaskId) : Prop where
  links : Chain (fun t => (s.tasks t).next) s.pool.pendingTaskList l
  pending : s.pool.pendingTaskCount = l.length
  running : s.pool.runningTaskCount = s.held.length
  idle : s.pool.idleThreadCount + s.pool.runningTaskCount = s.pool.threadCount
  ledger : Ledger s.pushes.length
    (pushesOf s l ++ s.held.map Prod.snd ++ s.runs.map Prod.fst)
  listed : ∀ t ∈ l, ∃ k, latestPush s.pushes t = some k
  held : ∀ h ∈ s.held, latestPush s.pushes h.1 = some h.2
  owned : ∀ t, (t ∈ l ∨ ∃ k, (t, k) ∈ s.held) →
    (s.tasks t).pool = true ∨ (s.tasks t).isDetached = true
  finished : ∀ t, (s.tasks t).isFinished = true →
    ∃ k v, latestPush s.pushes t = some k ∧ (s.tasks t).result = some v ∧ (k, v) ∈ s.runs

theorem nodup_of_filterMap {α β : Type} {f : α → Option β} {l : List α}
    (h : (l.filterMap f).Nodup) (hf : ∀ x ∈ l, ∃ y, f x = some y) : l.Nodup := by
  induction l with
  | nil => exact List.nodup_nil
  | cons x xs ih =>
    obtain ⟨y, hy⟩ := hf x List.mem_cons_self
    rw [List.filterMap_cons_some hy, List.nodup_cons] at h
    refine List.nodup_cons.mpr ⟨fun hx => h.1 (List.mem_filterMap.mpr ⟨x, hx, hy⟩), ?_⟩
    exact ih h.2 fun z hz => hf z (List.mem_cons_of_mem _ hz)

section

variable {s : State ρ} {l : List TaskId}

theorem Inv.accounted (h : Inv s l) : Accounted s l := by
  refine ⟨h.links, ?_, h.pending, h.running, h.idle, fun k hk => ?_⟩
  · have hnodup := h.ledger.nodup
    rw [List.append_assoc] at hnodup
    exact nodup_of_filterMap (List.nodup_append.mp hnodup).1 h.listed
  · have hcount := h.ledger.count hk
    rwa [List.count_append, List.count_append] at hcount

/-- A task that is listed or held is not finished. -/
theorem Inv.not_finished (h : Inv s l) {t : TaskId} (ht : t ∈ l ∨ ∃ k, (t, k) ∈ s.held) :
    (s.tasks t).isFinished = false := by
  by_contra hfin
  rw [Bool.not_eq_false] at hfin
  obtain ⟨k, v, hlatest, -, hrun⟩ := h.finished t hfin
  have hnodup := List.nodup_append.mp h.ledger.nodup
  have hmem : k ∈ pushesOf s l ++ s.held.map Prod.snd := by
    rcases ht with ht | ⟨k', hk'⟩
    · exact List.mem_append_left _ (List.mem_filterMap.mpr ⟨t, ht, hlatest⟩)
    · have hsame := h.held _ hk'
      rw [hlatest] at hsame
      cases hsame
      exact List.mem_append_right _ (List.mem_map.mpr ⟨_, hk', rfl⟩)
  exact hnodup.2.2 k hmem k (List.mem_map.mpr ⟨_, hrun, rfl⟩) rfl

/-! ## Steps that move no push -/

/-- The list and the counters are the same. -/
structure SameCounts (p q : Pool) : Prop where
  list : q.pendingTaskList = p.pendingTaskList
  pending : q.pendingTaskCount = p.pendingTaskCount
  running : q.runningTaskCount = p.runningTaskCount
  idle : q.idleThreadCount = p.idleThreadCount
  threads : q.threadCount = p.threadCount

theorem SameCounts.refl (p : Pool) : SameCounts p p := ⟨rfl, rfl, rfl, rfl, rfl⟩

/-- The task keeps its place, and an unfinished task of the pool stays there or is detached. -/
structure KeepsTask (task task' : Task ρ) : Prop where
  next : task'.next = task.next
  isFinished : task'.isFinished = task.isFinished
  result : task'.result = task.result
  owned : task.isFinished = false → task.pool = true ∨ task.isDetached = true →
    task'.pool = true ∨ task'.isDetached = true

theorem KeepsTask.refl (task : Task ρ) : KeepsTask task task := ⟨rfl, rfl, rfl, fun _ => id⟩

theorem keepsTask_update {t : TaskId} {task : Task ρ} (h : KeepsTask (s.tasks t) task) (u : TaskId) :
    KeepsTask (s.tasks u) (Function.update s.tasks t task u) := by
  by_cases hu : u = t
  · rw [hu, Function.update_self]
    exact h
  · rw [Function.update_of_ne hu]
    exact .refl _

theorem Inv.frame (h : Inv s l) {s' : State ρ} (hpool : SameCounts s.pool s'.pool)
    (hheld : s'.held = s.held) (hpushes : s'.pushes = s.pushes) (hruns : s'.runs = s.runs)
    (htasks : ∀ t, KeepsTask (s.tasks t) (s'.tasks t)) : Inv s' l := by
  refine ⟨?_, ?_, ?_, ?_, ?_, ?_, ?_, fun t ht => ?_, fun t ht => ?_⟩
  · rw [hpool.list]
    exact h.links.congr fun t _ => (htasks t).next
  · rw [hpool.pending, h.pending]
  · rw [hpool.running, hheld, h.running]
  · rw [hpool.idle, hpool.running, hpool.threads, h.idle]
  · rw [pushesOf, hpushes, hheld, hruns]
    exact h.ledger
  · rw [hpushes]
    exact h.listed
  · rw [hheld, hpushes]
    exact h.held
  · rw [hheld] at ht
    exact (htasks t).owned (h.not_finished ht) (h.owned t ht)
  · rw [(htasks t).isFinished] at ht
    rw [hpushes, (htasks t).result, hruns]
    exact h.finished t ht

theorem Inv.setCall (h : Inv s l) (c : Nat) (call : Call ρ) : Inv (s.setCall c call) l :=
  h.frame (.refl _) rfl rfl rfl fun _ => .refl _

theorem Inv.access (h : Inv s l) (t : TaskId) (as : List Access) : Inv (s.access t as) l :=
  h.frame (.refl _) rfl rfl rfl fun _ => .refl _

theorem Inv.setTask (h : Inv s l) {t : TaskId} {task : Task ρ} (htask : KeepsTask (s.tasks t) task) :
    Inv (s.setTask t task) l :=
  h.frame (.refl _) rfl rfl rfl (keepsTask_update htask)

theorem Inv.threadTaskDelete (h : Inv s l) (t : TaskId) : Inv (threadTaskDelete s t).1 l := by
  rw [threadTaskDelete_eq]
  exact h.access t _

theorem Inv.threadTaskJoin (h : Inv s l) (c : Nat) (t : TaskId) (timed : Bool) :
    Inv (threadTaskJoin s c t timed) l := by
  unfold ThreadPool.threadTaskJoin
  dsimp only
  split
  · exact (h.access t _).setCall c _
  · exact (h.access t _).setCall c _

theorem Inv.threadTaskDetach (h : Inv s l) (c : Nat) (t : TaskId) :
    Inv (threadTaskDetach s c t) l := by
  unfold ThreadPool.threadTaskDetach
  dsimp only
  split
  · exact (h.access t _).setCall c _
  · exact (h.access t _).setCall c _

/-- A finished task may leave the pool. -/
theorem keepsTask_leave {task : Task ρ} (h : task.isFinished = true) :
    KeepsTask task { task with pool := false } :=
  ⟨rfl, rfl, rfl, fun hfin => absurd (h.symm.trans hfin) (by decide)⟩

theorem Inv.joinSection (h : Inv s l) (c : Nat) (t : TaskId) :
    Inv (ThreadPool.joinSection s c t) l := by
  unfold ThreadPool.joinSection
  dsimp only
  split
  · next hfin =>
    have hleave : KeepsTask ((s.access t [.lock, .read]).tasks t) _ := keepsTask_leave hfin
    exact (((h.access t _).setTask hleave).access t _).setCall c _
  · exact (h.access t _).access t _

theorem Inv.detachSection (h : Inv s l) (c : Nat) (t : TaskId) :
    Inv (ThreadPool.detachSection s c t) l := by
  unfold ThreadPool.detachSection
  simp only [setTask_tasks, access_tasks, Function.update_self]
  split
  · next hfin =>
    have hleave : KeepsTask ((s.access t [.lock, .write]).tasks t) _ := keepsTask_leave hfin
    exact (((((h.access t _).setTask hleave).access t _).access t _).setCall c _)
  · -- Both writes together keep an unfinished task out of reach of a push.
    have hkeep : ∀ u, KeepsTask (s.tasks u)
        (Function.update s.tasks t { s.tasks t with pool := false, isDetached := true } u) :=
      keepsTask_update ⟨rfl, rfl, rfl, fun _ _ => .inr rfl⟩
    refine h.frame (.refl _) rfl rfl rfl fun u => ?_
    simp only [setCall_tasks, State.recordDetach, access_tasks, setTask_tasks, Function.update_idem]
    exact hkeep u

theorem Inv.detachDelete (h : Inv s l) (c : Nat) (t : TaskId) :
    Inv (ThreadPool.detachDelete s c t) l := by
  unfold ThreadPool.detachDelete
  exact (h.threadTaskDelete t).frame (.refl _) rfl rfl rfl fun _ => .refl _

/-- The threads and the flag of the exit are in no account. -/
theorem Inv.setThreads (h : Inv s l) {s' : State ρ} (hpool : SameCounts s.pool s'.pool)
    (hworkers : s'.workers = s.workers) (htasks : s'.tasks = s.tasks) (hpushes : s'.pushes = s.pushes)
    (hruns : s'.runs = s.runs) : Inv s' l :=
  h.frame hpool (by rw [State.held, hworkers]; rfl) hpushes hruns fun t => by
    rw [htasks]
    exact .refl _

theorem Inv.createWorker (h : Inv s l) (threads : List (Option Nat)) (idx : Int) :
    Inv (createWorker s threads idx) l := by
  refine h.frame ⟨rfl, rfl, rfl, rfl, rfl⟩ ?_ rfl rfl fun _ => .refl _
  rw [State.held, ThreadPool.createWorker, List.filterMap_append]
  exact List.append_nil _

theorem Inv.spawnWorker (h : Inv s l) : Inv (spawnWorker s).1 l := by
  unfold ThreadPool.spawnWorker
  dsimp only
  split
  · exact h.createWorker _ _
  · split
    · exact h.createWorker _ _
    · exact h

theorem Inv.joinThreads (h : Inv s l) (c : Nat) (i : Int) : Inv (joinThreads s c i) l := by
  unfold ThreadPool.joinThreads
  split
  · exact h.setThreads ⟨rfl, rfl, rfl, rfl, rfl⟩ rfl rfl rfl rfl
  · exact h.setThreads (.refl _) rfl rfl rfl rfl

theorem Inv.threadPoolDelete (h : Inv s l) (c : Nat) : Inv (threadPoolDelete s c) l := by
  unfold ThreadPool.threadPoolDelete
  split
  · exact h.setCall c _
  · split
    · exact h.setThreads (.refl _) rfl rfl rfl rfl
    · exact h.joinThreads c 0

/-! ## Linking a task -/

theorem latestPush_cons_self (t : TaskId) (pushes : List TaskId) :
    latestPush (t :: pushes) t = some pushes.length := if_pos rfl

theorem latestPush_cons_of_ne {t u : TaskId} (h : u ≠ t) (pushes : List TaskId) :
    latestPush (t :: pushes) u = latestPush pushes u := if_neg h.symm

theorem Inv.not_mem_of_outOfPool (h : Inv s l) {t : TaskId} (hout : OutOfPool s t) :
    t ∉ l ∧ ∀ k, (t, k) ∉ s.held := by
  have hnot : ¬ ((s.tasks t).pool = true ∨ (s.tasks t).isDetached = true) := by
    rw [hout.1, hout.2]
    decide
  exact ⟨fun ht => hnot (h.owned t (.inl ht)), fun k hk => hnot (h.owned t (.inr ⟨k, hk⟩))⟩

theorem Inv.linkTask (h : Inv s l) {t : TaskId} (hout : OutOfPool s t) :
    Inv (linkTask s t) (t :: l) := by
  obtain ⟨hl, hheld⟩ := h.not_mem_of_outOfPool hout
  have hlist : ∀ u ∈ l, u ≠ t := fun u hu heq => hl (heq ▸ hu)
  have hsame : ∀ p ∈ s.held, p.1 ≠ t := fun p hp heq => hheld p.2 (heq ▸ hp)
  have hpushes : (ThreadPool.linkTask s t).pushes = t :: s.pushes := rfl
  have htasks : (ThreadPool.linkTask s t).tasks = Function.update s.tasks t
      { s.tasks t with pool := true, next := s.pool.pendingTaskList, isFinished := false,
                       isRunning := false } := rfl
  refine ⟨?_, ?_, h.running, h.idle, ?_, ?_, ?_, ?_, ?_⟩
  · refine h.links.push ?_ fun u hu => ?_
    · rw [htasks, Function.update_self]
    · rw [htasks, Function.update_of_ne (hlist u hu)]
  · rw [List.length_cons, Nat.cast_add, ← h.pending]
    rfl
  · -- the task is in no other place, so only its own latest push is a new one
    have hrest : pushesOf (ThreadPool.linkTask s t) l = pushesOf s l := by
      refine List.filterMap_congr fun u hu => ?_
      rw [hpushes, latestPush_cons_of_ne (hlist u hu)]
    have hhead : pushesOf (ThreadPool.linkTask s t) (t :: l) = s.pushes.length :: pushesOf s l := by
      rw [← hrest]
      exact List.filterMap_cons_some (latestPush_cons_self t s.pushes)
    rw [hhead]
    exact h.ledger.issue
  · intro u hu
    rw [hpushes]
    rcases List.mem_cons.mp hu with rfl | hu
    · exact ⟨_, latestPush_cons_self u s.pushes⟩
    · rw [latestPush_cons_of_ne (hlist u hu)]
      exact h.listed u hu
  · intro p hp
    rw [hpushes, latestPush_cons_of_ne (hsame p hp)]
    exact h.held p hp
  · intro u hu
    rw [htasks]
    -- a task that was just pushed is not finished
    by_cases heq : u = t
    · rw [heq, Function.update_self]
      exact .inl rfl
    · rw [Function.update_of_ne heq]
      refine h.owned u (hu.imp_left fun hmem => ?_)
      exact (List.mem_cons.mp hmem).resolve_left heq
  · intro u hfin
    rw [htasks] at hfin ⊢
    by_cases heq : u = t
    · rw [heq, Function.update_self] at hfin
      cases hfin
    · rw [Function.update_of_ne heq] at hfin ⊢
      rw [hpushes, latestPush_cons_of_ne heq]
      exact h.finished u hfin

theorem Inv.awaitWorker (h : Inv s l) (c : Nat) {t : TaskId} (hout : OutOfPool s t)
    (required : Int) : ∃ l', Inv (awaitWorker s c t required) l' ∧
      Lists s (awaitWorker s c t required) False l l' := by
  unfold ThreadPool.awaitWorker
  split
  · exact ⟨l, h.setCall c _, .kept id rfl⟩
  · exact ⟨t :: l, (h.linkTask hout).setCall c _, .linked id rfl⟩

theorem spawnWorker_tasks (s : State ρ) : (ThreadPool.spawnWorker s).1.tasks = s.tasks := by
  unfold ThreadPool.spawnWorker
  dsimp only
  split
  · rfl
  · split <;> rfl

theorem spawnWorker_pushes (s : State ρ) : (ThreadPool.spawnWorker s).1.pushes = s.pushes := by
  unfold ThreadPool.spawnWorker
  dsimp only
  split
  · rfl
  · split <;> rfl

theorem Inv.threadPoolPushTask (h : Inv s l) (c : Nat) {t : TaskId} (hout : OutOfPool s t) :
    ∃ l', Inv (threadPoolPushTask s c t) l' ∧
      Lists s (threadPoolPushTask s c t) False l l' := by
  unfold ThreadPool.threadPoolPushTask
  split
  · exact ⟨l, h.setCall c _, .kept id rfl⟩
  · obtain ⟨l', hinv, hlists⟩ := h.spawnWorker.awaitWorker c (t := t)
      (by rwa [OutOfPool, spawnWorker_tasks]) (ThreadPool.spawnWorker s).2
    exact ⟨l', hinv, hlists.congr (spawnWorker_pushes s) Iff.rfl⟩

/-! ## Workers -/

/-- A worker in the list of the workers, and what a new phase makes of the list. -/
theorem workers_split {ws : List (Worker ρ)} {i : Nat} {w : Worker ρ} (h : ws[i]? = some w) :
    ∃ as bs, ws = as ++ w :: bs ∧ ∀ w', ws.set i w' = as ++ w' :: bs := by
  obtain ⟨hi, hw⟩ := List.getElem?_eq_some_iff.mp h
  refine ⟨ws.take i, ws.drop (i + 1), ?_, fun w' => List.set_eq_take_cons_drop w' hi⟩
  rw [← hw, ← List.drop_eq_getElem_cons hi, List.take_append_drop]

/-- A phase in which the worker holds the same. -/
theorem held_setPhase {i : Nat} {w : Worker ρ} (hw : s.workers[i]? = some w) {idx : Int}
    {phase : Phase ρ} (hsame : Worker.held ⟨idx, phase⟩ = w.held) :
    (s.setPhase i idx phase).held = s.held := by
  obtain ⟨as, bs, hws, hset⟩ := workers_split hw
  rw [State.held, State.held, setPhase_workers, hset, hws, List.filterMap_append,
    List.filterMap_append, List.filterMap_cons, List.filterMap_cons, hsame]

theorem Inv.setPhase (h : Inv s l) {i : Nat} {w : Worker ρ} (hw : s.workers[i]? = some w)
    {idx : Int} {phase : Phase ρ} (hsame : Worker.held ⟨idx, phase⟩ = w.held) :
    Inv (s.setPhase i idx phase) l :=
  h.frame (.refl _) (held_setPhase hw hsame) rfl rfl fun _ => .refl _

/-- A worker that takes a task holds it. -/
theorem held_take {i : Nat} {w : Worker ρ} (hw : s.workers[i]? = some w) (hnone : w.held = none)
    (idx : Int) (t : TaskId) (push : Nat) (stage : Stage ρ) :
    ((s.setPhase i idx (.holding t push stage)).held).Perm ((t, push) :: s.held) := by
  obtain ⟨as, bs, hws, hset⟩ := workers_split hw
  rw [State.held, State.held, setPhase_workers, hset, hws, List.filterMap_append,
    List.filterMap_append, List.filterMap_cons, List.filterMap_cons, hnone]
  exact List.perm_middle

/-- A worker that is done with its task holds none. -/
theorem held_release {i : Nat} {w : Worker ρ} (hw : s.workers[i]? = some w) {t : TaskId}
    {push : Nat} (hsome : w.held = some (t, push)) {idx : Int} {phase : Phase ρ}
    (hnone : Worker.held ⟨idx, phase⟩ = none) :
    s.held.Perm ((t, push) :: (s.setPhase i idx phase).held) := by
  obtain ⟨as, bs, hws, hset⟩ := workers_split hw
  rw [State.held, State.held, setPhase_workers, hset, hws, List.filterMap_append,
    List.filterMap_append, List.filterMap_cons, List.filterMap_cons, hnone, hsome]
  exact List.perm_middle

theorem Inv.dequeueTask {t : TaskId} (h : Inv s (t :: l)) {i : Nat} {w : Worker ρ}
    (hw : s.workers[i]? = some w) (hnone : w.held = none) (idx : Int) :
    Inv (dequeueTask s i idx t) l := by
  have hnodup := h.accounted.2.1
  obtain ⟨k, hk⟩ := h.listed t List.mem_cons_self
  have hheld := held_take hw hnone idx t k .taken
  have hs : (ThreadPool.dequeueTask s i idx t).held =
      (s.setPhase i idx (.holding t k .taken)).held := by
    simp only [ThreadPool.dequeueTask, access_pushes, setTask_pushes, hk, Option.getD_some]
    rfl
  -- only `next` of the task changes, besides the place of its push
  have htask : ∀ u, ((ThreadPool.dequeueTask s i idx t).tasks u).pool = (s.tasks u).pool ∧
      ((ThreadPool.dequeueTask s i idx t).tasks u).isDetached = (s.tasks u).isDetached ∧
      ((ThreadPool.dequeueTask s i idx t).tasks u).isFinished = (s.tasks u).isFinished ∧
      ((ThreadPool.dequeueTask s i idx t).tasks u).result = (s.tasks u).result := by
    intro u
    simp only [ThreadPool.dequeueTask, setPhase_tasks, access_tasks, setTask_tasks]
    by_cases hu : u = t
    · simp only [hu, Function.update_self, and_self]
    · simp only [Function.update_of_ne hu, and_self]
  refine ⟨?_, ?_, ?_, ?_, ?_, ?_, ?_, ?_, ?_⟩
  · refine h.links.2.congr fun u hu => ?_
    have hne : u ≠ t := fun heq => (List.nodup_cons.mp hnodup).1 (heq ▸ hu)
    simp only [ThreadPool.dequeueTask, setPhase_tasks, access_tasks, setTask_tasks,
      Function.update_of_ne hne]
  · have hpending := h.pending
    rw [List.length_cons] at hpending
    change s.pool.pendingTaskCount - 1 = _
    omega
  · have hrunning := h.running
    rw [hs, hheld.length_eq, List.length_cons]
    change s.pool.runningTaskCount + 1 = _
    omega
  · have hidle := h.idle
    change s.pool.idleThreadCount - 1 + (s.pool.runningTaskCount + 1) = s.pool.threadCount
    omega
  · -- The push goes from the list to the worker.
    have hlist : pushesOf s (t :: l) = k :: pushesOf s l := List.filterMap_cons_some hk
    have hpushes : pushesOf (ThreadPool.dequeueTask s i idx t) l = pushesOf s l := rfl
    refine h.ledger.move (List.perm_iff_count.mpr fun a => ?_)
    have hcount := (hheld.map Prod.snd).count_eq a
    rw [hs, hpushes, hlist]
    simp only [List.count_append, List.count_cons, List.map_cons] at hcount ⊢
    change _ + List.count a (s.runs.map Prod.fst) = _
    omega
  · exact fun u hu => h.listed u (List.mem_cons_of_mem _ hu)
  · intro p hp
    rw [hs] at hp
    rcases List.mem_cons.mp (hheld.mem_iff.mp hp) with rfl | hp
    · exact hk
    · exact h.held p hp
  · intro u hu
    rw [(htask u).1, (htask u).2.1]
    refine h.owned u ?_
    rcases hu with hu | ⟨k', hk'⟩
    · exact .inl (List.mem_cons_of_mem _ hu)
    · rw [hs] at hk'
      rcases List.mem_cons.mp (hheld.mem_iff.mp hk') with heq | hk'
      · cases heq
        exact .inl List.mem_cons_self
      · exact .inr ⟨k', hk'⟩
  · intro u hfin
    rw [(htask u).2.2.1] at hfin
    rw [(htask u).2.2.2]
    exact h.finished u hfin

/-- What is listed first is what the head pointer points to. -/
theorem Inv.waitOrTake (h : Inv s l) {i : Nat} {w : Worker ρ} (hw : s.workers[i]? = some w)
    (hnone : w.held = none) {idx : Int} {s' : State ρ} (htake : waitOrTake s i idx = some s') :
    ∃ l', Inv s' l' ∧ Lists s s'
      (1 ≤ s.pool.pendingTaskCount ∧ s.pool.threadIdxThatShouldExit ≠ idx) l l' := by
  rcases waitOrTake_cases htake with ⟨hpending, rfl⟩ | ⟨hexit, rfl⟩ | ⟨htakes, t, ht, rfl⟩
  · exact ⟨l, h.setPhase hw hnone.symm, .kept (fun htakes => by omega) rfl⟩
  · exact ⟨l, h.setPhase hw hnone.symm, .kept (fun htakes => htakes.2 hexit) rfl⟩
  · cases l with
    | nil => exact absurd (ht.symm.trans h.links) (Option.some_ne_none t)
    | cons u l =>
      obtain rfl : u = t := Option.some.inj (h.links.1.symm.trans ht)
      exact ⟨l, h.dequeueTask hw hnone idx, .taken htakes rfl⟩

/-- A thread that counts itself is idle. -/
theorem Inv.countThread (h : Inv s l) : Inv (addIdle (countThread s)) l := by
  refine ⟨h.links, h.pending, h.running, ?_, h.ledger, h.listed, h.held, h.owned, h.finished⟩
  have hidle := h.idle
  change s.pool.idleThreadCount + 1 + s.pool.runningTaskCount = s.pool.threadCount + 1
  omega

theorem Inv.startRun (h : Inv s l) {i : Nat} {w : Worker ρ} (hw : s.workers[i]? = some w)
    {t : TaskId} {push : Nat} (hphase : w.phase = .holding t push .taken) :
    Inv (startRun s i w.idx t push) l := by
  have hrunning : KeepsTask (s.tasks t) { s.tasks t with isRunning := true } :=
    ⟨rfl, rfl, rfl, fun _ => id⟩
  refine ((h.setTask hrunning).access t [.write]).setPhase hw ?_
  rw [Worker.held, Worker.held, hphase]

/-- With the end of its run a push goes from the worker to the runs. -/
theorem Inv.recordRun (h : Inv s l) {i : Nat} {w : Worker ρ} (hw : s.workers[i]? = some w)
    {t : TaskId} {push : Nat} (hsome : w.held = some (t, push)) (idx : Int) (v : ρ) :
    Inv ((addIdle (recordRun s t push v)).setPhase i idx .waiting) l := by
  -- the push leaves the worker for the runs, and everything else stays in its place
  have hrelease : s.held.Perm ((t, push) :: (s.setPhase i idx .waiting).held) :=
    held_release hw hsome rfl
  have hs : ((addIdle (ThreadPool.recordRun s t push v)).setPhase i idx .waiting).held =
      (s.setPhase i idx .waiting).held := by
    rw [State.held, State.held, setPhase_workers, setPhase_workers]
    exact congrArg (fun ws => (ws.set i ⟨idx, .waiting⟩).filterMap Worker.held)
      (recordRun_workers s t push v)
  have hmine : (t, push) ∈ s.held := hrelease.mem_iff.mpr List.mem_cons_self
  have hpool : ((addIdle (ThreadPool.recordRun s t push v)).setPhase i idx .waiting).pool =
      { s.pool with runningTaskCount := s.pool.runningTaskCount - 1,
                    idleThreadCount := s.pool.idleThreadCount + 1 } := by
    simp only [setPhase_pool, addIdle, recordRun_pool]
  have htasks : ((addIdle (ThreadPool.recordRun s t push v)).setPhase i idx .waiting).tasks =
      Function.update s.tasks t ((s.tasks t).record v) := recordRun_tasks s t push v
  have hpushes : ((addIdle (ThreadPool.recordRun s t push v)).setPhase i idx .waiting).pushes =
      s.pushes := recordRun_pushes s t push v
  have hruns : ((addIdle (ThreadPool.recordRun s t push v)).setPhase i idx .waiting).runs =
      (push, v) :: s.runs := recordRun_runs s t push v
  have hlength := hrelease.length_eq
  rw [List.length_cons] at hlength
  have hkeep : ∀ u, (Function.update s.tasks t ((s.tasks t).record v) u).next = (s.tasks u).next ∧
      (Function.update s.tasks t ((s.tasks t).record v) u).pool = (s.tasks u).pool ∧
      (Function.update s.tasks t ((s.tasks t).record v) u).isDetached = (s.tasks u).isDetached := by
    intro u
    by_cases hu : u = t
    · simp only [hu, Function.update_self, Task.record_next, Task.record_pool,
        Task.record_isDetached, and_self]
    · simp only [Function.update_of_ne hu, and_self]
  refine ⟨?_, ?_, ?_, ?_, ?_, ?_, ?_, ?_, ?_⟩
  · rw [hpool, htasks]
    exact h.links.congr fun u _ => (hkeep u).1
  · rw [hpool]
    exact h.pending
  · have hrunning := h.running
    rw [hpool, hs]
    change s.pool.runningTaskCount - 1 = _
    omega
  · have hidle := h.idle
    rw [hpool]
    change s.pool.idleThreadCount + 1 + (s.pool.runningTaskCount - 1) = s.pool.threadCount
    omega
  · -- one place is exchanged for another
    rw [pushesOf, hpushes, hs, hruns]
    refine h.ledger.move (List.perm_iff_count.mpr fun a => ?_)
    have hcount := (hrelease.map Prod.snd).count_eq a
    simp only [List.count_append, List.count_cons, List.map_cons] at hcount ⊢
    change List.count a (pushesOf s l) + _ + _ = _
    omega
  · rw [hpushes]
    exact h.listed
  · intro p hp
    rw [hs] at hp
    rw [hpushes]
    exact h.held p (hrelease.mem_iff.mpr (List.mem_cons_of_mem _ hp))
  · intro u hu
    rw [htasks, (hkeep u).2.1, (hkeep u).2.2]
    refine h.owned u (hu.imp_right ?_)
    rintro ⟨k, hk⟩
    rw [hs] at hk
    exact ⟨k, hrelease.mem_iff.mpr (List.mem_cons_of_mem _ hk)⟩
  · intro u hfin
    rw [htasks] at hfin ⊢
    rw [hpushes, hruns]
    by_cases hu : u = t
    · -- The task of the run: its latest push is the one that was held.
      rw [hu, Function.update_self] at hfin ⊢
      by_cases hdetached : (s.tasks t).isDetached = true
      · rw [Task.record, if_pos hdetached] at hfin
        have hunfinished := h.not_finished (.inr ⟨push, hmine⟩)
        rw [hunfinished] at hfin
        cases hfin
      · refine ⟨push, v, h.held _ hmine, ?_, List.mem_cons_self⟩
        rw [Task.record, if_neg hdetached]
    · rw [Function.update_of_ne hu] at hfin ⊢
      obtain ⟨k, x, hlatest, hresult, hrun⟩ := h.finished u hfin
      exact ⟨k, x, hlatest, hresult, List.mem_cons_of_mem _ hrun⟩

/-- The phase before a worker waits or takes does not matter. -/
theorem waitOrTake_setPhase (s : State ρ) (i : Nat) (idx : Int) (phase : Phase ρ) :
    ThreadPool.waitOrTake (s.setPhase i idx phase) i idx = ThreadPool.waitOrTake s i idx := by
  simp only [ThreadPool.waitOrTake, ThreadPool.dequeueTask, State.setPhase, State.setTask,
    State.access, List.set_set]


/-! ## Runs -/

theorem inv_start {maxThreadCount : Int} {pool : Pool}
    (hnew : threadPoolNew maxThreadCount = some pool) : Inv (State.start (ρ := ρ) pool) [] := by
  unfold threadPoolNew at hnew
  split at hnew
  · cases hnew
  · cases hnew
    refine ⟨rfl, rfl, rfl, rfl, .nil, ?_, ?_, ?_, fun t ht => ?_⟩
    · exact fun t ht => absurd ht List.not_mem_nil
    · exact fun p hp => absurd hp List.not_mem_nil
    · rintro t (ht | ⟨k, hk⟩)
      · exact absurd ht List.not_mem_nil
      · exact absurd hk List.not_mem_nil
    · exact absurd ht Bool.false_ne_true

theorem takesTask_iff {i : Nat} {w : Worker ρ} (hw : s.workers[i]? = some w) :
    (∃ w', s.workers[i]? = some w' ∧ 1 ≤ s.pool.pendingTaskCount ∧
      s.pool.threadIdxThatShouldExit ≠ w'.idx) ↔
    1 ≤ s.pool.pendingTaskCount ∧ s.pool.threadIdxThatShouldExit ≠ w.idx := by
  rw [hw]
  simp only [Option.some.injEq, exists_eq_left']

theorem Inv.step_lists (h : Inv s l) {a : Action ρ} {s' : State ρ} (hpush : PushesOutOfPool s a)
    (hstep : Steps s a s') : ∃ l', Inv s' l' ∧ Lists s s' (TakesTask s a) l l' := by
  cases hstep.effect with
  -- a worker starts or wakes, and takes a task if one is pending
  | start hw hphase _ htake =>
    obtain ⟨l', hinv, hlists⟩ :=
      h.countThread.waitOrTake hw (by rw [Worker.held, hphase]) htake
    exact ⟨l', hinv, hlists.congr rfl (takesTask_iff hw).symm⟩
  | wake hw hphase _ htake =>
    obtain ⟨l', hinv, hlists⟩ := h.waitOrTake hw (by rw [Worker.held, hphase]) htake
    exact ⟨l', hinv, hlists.congr rfl (takesTask_iff hw).symm⟩
  | run hw hphase => exact ⟨l, h.startRun hw hphase, .kept id rfl⟩
  | finish hw hphase =>
    exact ⟨l, h.setPhase hw (by rw [Worker.held, Worker.held, hphase]), .kept id rfl⟩
  | @record i w t push v _ hw hphase _ htake =>
    -- the result is recorded first, and then the next task is looked for
    have hdone := h.recordRun hw (by rw [Worker.held, hphase]) w.idx v
    rw [← waitOrTake_setPhase _ _ _ .waiting] at htake
    have hlt : i < (ThreadPool.recordRun s t push v).workers.length := by
      rw [recordRun_workers]
      exact (List.getElem?_eq_some_iff.mp hw).1
    obtain ⟨l', hinv, hlists⟩ := hdone.waitOrTake (List.getElem?_set_self hlt) rfl htake
    refine ⟨l', hinv, hlists.congr (recordRun_pushes s t push v) ?_⟩
    rw [setPhase_pool, addIdle, recordRun_pool]
    exact (takesTask_iff hw).symm
  -- of the calls only a push puts a task into the list
  | push => exact h.threadPoolPushTask _ hpush
  -- the others leave the list as it is
  | @join c t timed =>
    refine ⟨l, h.threadTaskJoin _ _ _, .kept id ?_⟩
    unfold ThreadPool.threadTaskJoin
    dsimp only
    split <;> rfl
  | @detach c t =>
    refine ⟨l, h.threadTaskDetach _ _, .kept id ?_⟩
    unfold ThreadPool.threadTaskDetach
    dsimp only
    split <;> rfl
  | deleteTask =>
    refine ⟨l, (h.threadTaskDelete _).setCall _ _, .kept id ?_⟩
    rw [setCall_pushes, threadTaskDelete_eq, access_pushes]
  | @deletePool c =>
    refine ⟨l, h.threadPoolDelete _, .kept id ?_⟩
    unfold ThreadPool.threadPoolDelete ThreadPool.joinThreads
    split
    · rfl
    · split
      · rfl
      · split <;> rfl
  | pushResume hcall =>
    unfold PushesOutOfPool at hpush
    simp only [hcall] at hpush
    exact h.awaitWorker _ hpush _
  | @joinSection c t =>
    refine ⟨l, h.joinSection _ _, .kept id ?_⟩
    unfold ThreadPool.joinSection
    dsimp only
    split <;> rfl
  | joinTimeout => exact ⟨l, (h.access _ _).setCall _ _, .kept id rfl⟩
  | @detachSection c t =>
    refine ⟨l, h.detachSection _ _, .kept id ?_⟩
    unfold ThreadPool.detachSection
    dsimp only
    split <;> rfl
  | detachDelete =>
    refine ⟨l, h.detachDelete _ _, .kept id ?_⟩
    unfold ThreadPool.detachDelete
    rw [threadTaskDelete_eq]
    rfl
  | @deletePoolResume c i =>
    refine ⟨l, h.joinThreads _ _, .kept id ?_⟩
    unfold ThreadPool.joinThreads
    split <;> rfl

theorem Inv.step (h : Inv s l) {a : Action ρ} {s' : State ρ} (hpush : PushesOutOfPool s a)
    (hstep : Steps s a s') : ∃ l', Inv s' l' :=
  let ⟨l', hinv, _⟩ := h.step_lists hpush hstep
  ⟨l', hinv⟩

theorem reachable_inv {maxThreadCount : Int} {pool : Pool}
    (hnew : threadPoolNew maxThreadCount = some pool)
    (h : Reachable (Within PushesOutOfPool Steps) (.start pool) s) : ∃ l, Inv s l := by
  refine h.invariant (P := fun s => ∃ l, Inv s l) ⟨[], inv_start hnew⟩ ?_
  rintro s a s' ⟨l, hinv⟩ hstep
  exact hinv.step hstep.1 hstep.2

/-- A join that succeeds hands out the value of the run of the latest push. -/
theorem Inv.join_result (h : Inv s l) {c : Nat} {t : TaskId} {timed : Bool} {s' : State ρ}
    {result : Option ρ} (hcall : s.calls c = .joining t timed) (hstep : Steps s (.joinSection c) s')
    (hdone : s'.calls c = .done .ok result) :
    ∃ k v, latestPush s.pushes t = some k ∧ (k, v) ∈ s.runs ∧ result = some v := by
  cases hstep.effect with
  | joinSection hcall' =>
    rw [hcall] at hcall'
    cases hcall'
    by_cases hfin : (s.tasks t).isFinished = true
    · obtain ⟨k, v, hlatest, hresult, hrun⟩ := h.finished t hfin
      refine ⟨k, v, hlatest, hrun, ?_⟩
      simp only [ThreadPool.joinSection, access_tasks, hfin, if_true, setCall_calls,
        Function.update_self, Call.done.injEq] at hdone
      rw [← hdone.2, hresult]
    · simp only [ThreadPool.joinSection, access_tasks, hfin, if_false, access_calls, hcall,
        Bool.false_eq_true] at hdone
      cases hdone

/-- With no task listed and none held, every push has been run. -/
theorem Inv.all_run (h : Inv s l) (hpending : s.pool.pendingTaskCount ≤ 0)
    (hrunning : s.pool.runningTaskCount ≤ 0) {k : Nat} (hk : k < s.pushes.length) :
    ∃ v, (k, v) ∈ s.runs := by
  have hl : l = [] := List.length_eq_zero_iff.mp (by have := h.pending; omega)
  have hheld : s.held = [] := List.length_eq_zero_iff.mp (by have := h.running; omega)
  have hmem := h.ledger.mem_iff.mpr hk
  rw [hl, hheld] at hmem
  obtain ⟨⟨k', v⟩, hrun, rfl⟩ := List.mem_map.mp hmem
  exact ⟨v, hrun⟩

/-- The pool is deleted only when every push has been run. -/
theorem Inv.delete_passes (h : Inv s l) {c : Nat} {s' : State ρ} (hstep : Steps s (.deletePool c) s')
    (hpass : s'.calls c ≠ .done .hasTasks none) {k : Nat} (hk : k < s.pushes.length) :
    ∃ v, (k, v) ∈ s.runs := by
  cases hstep.effect with
  | deletePool =>
    unfold ThreadPool.threadPoolDelete at hpass
    split at hpass
    · exact absurd (Function.update_self _ _ _) hpass
    · next hcheck =>
      simp only [not_or, not_lt] at hcheck
      exact h.all_run hcheck.2.1 hcheck.1 hk

end

/-- In every run in which a task is pushed only when it is in no pool, the accounts are right, a
join hands out the value of the latest run, and the pool is deleted after all runs. -/
theorem pool_accounting {maxThreadCount : Int} {pool : Pool} {s : State ρ}
    (hnew : threadPoolNew maxThreadCount = some pool)
    (h : Reachable (Within PushesOutOfPool Steps) (.start pool) s) :
    (∃ l, Accounted s l) ∧ JoinsLatestRun s ∧ DeletesAfterRuns s := by
  obtain ⟨l, hinv⟩ := reachable_inv hnew h
  refine ⟨⟨l, hinv.accounted⟩, ?_, ?_⟩
  · exact fun c t timed s' result hcall hstep hdone => hinv.join_result hcall hstep hdone
  · exact fun c s' hstep hpass k hk => hinv.delete_passes hstep hpass hk

/-- Task 5 was pushed and has run, and another caller is about to join it. -/
def finishedTask : State Nat :=
  (takeSteps (.start ⟨none, 0, 0, none, 2, 0, 0, -1⟩)
    [.push 0 5, .start 0, .pushResume 0, .wake 0, .run 0, .finish 0 7, .join 1 5 false,
      .record 0]).getD (.start ⟨none, 0, 0, none, 2, 0, 0, -1⟩)

theorem finishedTask_reachable :
    Reachable (Within PushesOutOfPool Steps) (.start ⟨none, 0, 0, none, 2, 0, 0, -1⟩) finishedTask :=
  ⟨[.push 0 5, .start 0, .pushResume 0, .wake 0, .run 0, .finish 0 7, .join 1 5 false, .record 0],
    .cons ⟨⟨rfl, rfl⟩, rfl⟩ (.cons ⟨trivial, rfl⟩ (.cons ⟨⟨rfl, rfl⟩, rfl⟩ (.cons ⟨trivial, rfl⟩
      (.cons ⟨trivial, rfl⟩ (.cons ⟨trivial, rfl⟩ (.cons ⟨trivial, rfl⟩ (.cons ⟨trivial, rfl⟩
        (.nil _))))))))⟩

theorem pool_accounting_finished :
    (∃ l, Accounted finishedTask l) ∧ JoinsLatestRun finishedTask ∧ DeletesAfterRuns finishedTask :=
  pool_accounting (show threadPoolNew 2 = _ from rfl) finishedTask_reachable

end SystemProgramming.ThreadPool
