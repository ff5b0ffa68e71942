import SystemProgramming.ThreadPool.Orderly

/-!
# No thread waits for nothing

With orderly clients every thread that is asleep has a reason: a worker has no task to take, a push is
waiting for a worker that has yet to start, and a join for a task that has yet to be run.  So the only
thing that can hold the pool up is the function of a task.
-/

open Runs WaitSets

namespace SystemProgramming.ThreadPool

variable {ρ : Type}

/-! ## Callers that are asleep -/

/-- The caller that takes a step. -/
def Action.caller : Action ρ → Option Nat
  | .push c _ | .pushResume c | .join c _ _ | .joinSection c | .joinTimeout c | .detach c _
  | .detachSection c | .detachDelete c | .deleteTask c _ | .deletePool c
  | .deletePoolResume c => some c
  | _ => none

section

variable {s s' : State ρ} {m m' : Monitor ρ}

theorem awaitWorker_calls_of_ne {c d : Nat} (hne : d ≠ c) (t : TaskId) (required : Int) :
    (awaitWorker s d t required).calls c = s.calls c := by
  unfold awaitWorker
  split
  · exact Function.update_of_ne hne.symm _ _
  · exact Function.update_of_ne hne.symm _ _

/-- A step leaves the calls of the others alone. -/
theorem calls_of_ne {a : Action ρ} {c : Nat} (h : Steps s a s') (hc : a.caller ≠ some c) :
    s'.calls c = s.calls c := by
  have hupdate : ∀ (d : Nat) (call : Call ρ), d ≠ c → Function.update s.calls d call c = s.calls c :=
    fun d call hne => Function.update_of_ne hne.symm _ _
  have hjoin : ∀ (d : Nat) (i : Int), d ≠ c → (joinThreads s d i).calls c = s.calls c := by
    intro d i hne
    unfold joinThreads
    split <;> exact hupdate d _ hne
  have hne : ∀ d, a.caller = some d → d ≠ c := fun d hd heq => hc (heq ▸ hd)
  cases h.effect with
  | start _ _ _ htake =>
    obtain ⟨_, hlooked⟩ := exists_looked htake
    rw [hlooked.calls]
    rfl
  | wake _ _ _ htake =>
    obtain ⟨_, hlooked⟩ := exists_looked htake
    rw [hlooked.calls]
  | record _ _ _ htake =>
    obtain ⟨_, hlooked⟩ := exists_looked htake
    rw [hlooked.calls]
    exact congrFun (recordRun_calls s _ _ _) c
  | run => rfl
  | finish => rfl
  | @push d t =>
    unfold threadPoolPushTask
    split
    · exact hupdate d _ (hne d rfl)
    · exact (awaitWorker_calls_of_ne (hne d rfl) t _).trans (congrFun (spawnWorker_calls s) c)
  | @pushResume d t required => exact awaitWorker_calls_of_ne (hne d rfl) t required
  | @join d t timed =>
    unfold threadTaskJoin
    dsimp only
    split <;> exact hupdate d _ (hne d rfl)
  | @joinSection d t =>
    unfold ThreadPool.joinSection
    dsimp only
    split
    · exact hupdate d _ (hne d rfl)
    · rfl
  | @joinTimeout d => exact hupdate d _ (hne d rfl)
  | @detach d t =>
    unfold threadTaskDetach
    dsimp only
    split <;> exact hupdate d _ (hne d rfl)
  | @detachSection d t =>
    unfold ThreadPool.detachSection
    dsimp only
    split <;> exact hupdate d _ (hne d rfl)
  | @detachDelete d t =>
    unfold ThreadPool.detachDelete
    rw [threadTaskDelete_eq]
    exact hupdate d _ (hne d rfl)
  | @deleteTask d t =>
    rw [threadTaskDelete_eq]
    exact hupdate d _ (hne d rfl)
  | @deletePool d =>
    unfold threadPoolDelete
    split
    · exact hupdate d _ (hne d rfl)
    · split
      · exact hupdate d _ (hne d rfl)
      · exact hjoin d 0 (hne d rfl)
  | @deletePoolResume d i => exact hjoin d (i + 1) (hne d rfl)

/-- A push that waits goes on in one way only. -/
theorem pushResume_of_caller {a : Action ρ} {c : Nat} {t : TaskId} {required : Int}
    (h : Steps s a s') (hc : a.caller = some c) (hcall : s.calls c = .pushing t required) :
    a = .pushResume c := by
  have hbusy : ¬ (s.calls c).Idle := by
    rw [hcall]
    exact id
  cases h.effect with
  | pushResume =>
    cases hc
    rfl
  | push hidle | join hidle | detach hidle | deleteTask hidle | deletePool hidle =>
    cases hc
    exact absurd hidle hbusy
  | joinSection hd | joinTimeout hd | detachSection hd | detachDelete hd | deletePoolResume hd =>
    cases hc
    rw [hcall] at hd
    cases hd
  | _ => cases hc

/-- A join that waits looks at its task, or is out of time. -/
theorem join_of_caller {a : Action ρ} {c : Nat} {t : TaskId} {timed : Bool}
    (h : Steps s a s') (hc : a.caller = some c) (hcall : s.calls c = .joining t timed) :
    a = .joinSection c ∨ a = .joinTimeout c := by
  have hbusy : ¬ (s.calls c).Idle := by
    rw [hcall]
    exact id
  cases h.effect with
  | joinSection =>
    cases hc
    exact .inl rfl
  | joinTimeout =>
    cases hc
    exact .inr rfl
  | push hidle | join hidle | detach hidle | deleteTask hidle | deletePool hidle =>
    cases hc
    exact absurd hidle hbusy
  | pushResume hd | detachSection hd | detachDelete hd | deletePoolResume hd =>
    cases hc
    rw [hcall] at hd
    cases hd
  | _ => cases hc

/-- Only a worker that starts is counted. -/
theorem threadCount_of_ne {a : Action ρ} (h : Steps s a s') (ha : ∀ i, a ≠ .start i) :
    s'.pool.threadCount = s.pool.threadCount := by
  by_cases honTask : a.onTask = true
  · rw [(samePool_of_onTask honTask h).pool]
  have hspawn : (spawnWorker s).1.pool.threadCount = s.pool.threadCount := by
    unfold spawnWorker
    dsimp only
    split
    · rfl
    · split <;> rfl
  have hawait : ∀ (u : State ρ) c t required,
      (awaitWorker u c t required).pool.threadCount = u.pool.threadCount := by
    intro u c t required
    unfold awaitWorker
    split <;> rfl
  have hjoin : ∀ c i, (joinThreads s c i).pool.threadCount = s.pool.threadCount := by
    intro c i
    unfold joinThreads
    split <;> rfl
  cases h.effect with
  | start => exact absurd rfl (ha _)
  | wake _ _ _ htake =>
    obtain ⟨_, hlooked⟩ := exists_looked htake
    exact hlooked.threadCount
  | record _ _ _ htake =>
    obtain ⟨_, hlooked⟩ := exists_looked htake
    rw [hlooked.threadCount, addIdle, recordRun_pool]
  | run => rfl
  | finish => rfl
  | push =>
    unfold threadPoolPushTask
    split
    · rfl
    · exact (hawait _ _ _ _).trans hspawn
  | pushResume => exact hawait _ _ _ _
  | deletePool =>
    unfold threadPoolDelete
    split
    · rfl
    · split
      · rfl
      · exact hjoin _ 0
  | deletePoolResume => exact hjoin _ _
  | _ => exact absurd rfl honTask

theorem isFinished_of_update {t u : TaskId} {task : Task ρ}
    (htask : task.isFinished = true → (s.tasks u).isFinished = true)
    (hfin : (Function.update s.tasks u task t).isFinished = true) :
    (s.tasks t).isFinished = true := by
  by_cases htu : t = u
  · rw [htu, Function.update_self] at hfin
    rw [htu]
    exact htask hfin
  · rwa [Function.update_of_ne htu] at hfin

/-- A push makes no task finished. -/
theorem isFinished_of_awaitWorker {c : Nat} {t u : TaskId} {required : Int}
    (hfin : ((awaitWorker s c u required).tasks t).isFinished = true) :
    (s.tasks t).isFinished = true := by
  unfold awaitWorker at hfin
  split at hfin
  · exact hfin
  · apply isFinished_of_update _ hfin
    exact fun hno => by cases hno

/-- A task becomes finished when a run of it is recorded. -/
theorem isFinished_of_step {a : Action ρ} {t : TaskId} (h : Steps s a s')
    (hfin : (s'.tasks t).isFinished = true) : (s.tasks t).isFinished = true ∨
      ∃ i idx push stage, a = .record i ∧ s.workers[i]? = some ⟨idx, .holding t push stage⟩ ∧
        (s.tasks t).isDetached = false := by
  have hjoin : ∀ c i, (joinThreads s c i).tasks = s.tasks := by
    intro c i
    unfold joinThreads
    split <;> rfl
  cases h.effect with
  | start _ _ _ htake =>
    apply Or.inl
    rw [(sameFlags_waitOrTake htake t).2.2] at hfin
    exact hfin
  | wake _ _ _ htake =>
    apply Or.inl
    rwa [(sameFlags_waitOrTake htake t).2.2] at hfin
  | run => exact .inl (((sameFlags_startRun _ _ _ _ t).2.2).symm.trans hfin)
  | finish => exact .inl hfin
  | @record i w u push v _ hw hphase _ htake =>
    rw [(sameFlags_waitOrTake htake t).2.2] at hfin
    change ((recordRun s u push v).tasks t).isFinished = true at hfin
    rw [recordRun_tasks] at hfin
    by_cases htu : t = u
    · by_cases hattached : (s.tasks u).isDetached = true
      · -- a detached task is left as it is
        rw [htu, Function.update_self, Task.record, if_pos hattached] at hfin
        exact .inl (htu ▸ hfin)
      · refine .inr ⟨i, w.idx, push, .returned v, rfl, ?_, ?_⟩
        · rw [hw, htu, ← hphase]
        · rw [htu]
          exact Bool.eq_false_of_not_eq_true hattached
    · rw [Function.update_of_ne htu] at hfin
      exact .inl hfin
  | push =>
    apply Or.inl
    unfold threadPoolPushTask at hfin
    split at hfin
    · exact hfin
    · have hspawned := isFinished_of_awaitWorker hfin
      rwa [spawnWorker_tasks] at hspawned
  | pushResume => exact .inl (isFinished_of_awaitWorker hfin)
  -- the calls on tasks write other flags
  | @join c u timed =>
    apply Or.inl
    unfold threadTaskJoin at hfin
    dsimp only at hfin
    split at hfin <;> exact hfin
  | @joinSection c u =>
    apply Or.inl
    unfold ThreadPool.joinSection at hfin
    dsimp only at hfin
    have hleft : ({ s.tasks u with pool := false } : Task ρ).isFinished = true →
        (s.tasks u).isFinished = true := id
    split at hfin
    · exact isFinished_of_update hleft hfin
    · exact hfin
  | joinTimeout => exact .inl hfin
  | @detach c u =>
    apply Or.inl
    unfold threadTaskDetach at hfin
    dsimp only at hfin
    split at hfin <;> exact hfin
  | @detachSection c u =>
    apply Or.inl
    unfold ThreadPool.detachSection at hfin
    simp only [setTask_tasks, access_tasks, Function.update_self] at hfin
    have hleft : ({ s.tasks u with pool := false } : Task ρ).isFinished = true →
        (s.tasks u).isFinished = true := id
    have hdetached : ({ s.tasks u with pool := false, isDetached := true } : Task ρ).isFinished =
        true → (s.tasks u).isFinished = true := id
    split at hfin
    · exact isFinished_of_update hleft hfin
    · simp only [setCall_tasks, State.recordDetach, access_tasks, setTask_tasks,
        Function.update_idem] at hfin
      exact isFinished_of_update hdetached hfin
  | @detachDelete c u =>
    apply Or.inl
    unfold ThreadPool.detachDelete at hfin
    rwa [threadTaskDelete_eq] at hfin
  | @deleteTask c u =>
    apply Or.inl
    rwa [threadTaskDelete_eq] at hfin
  | deletePool =>
    apply Or.inl
    unfold threadPoolDelete at hfin
    split at hfin
    · exact hfin
    · split at hfin
      · exact hfin
      · rwa [hjoin] at hfin
  | deletePoolResume =>
    apply Or.inl
    rwa [hjoin] at hfin

/-- The callers that are asleep, and what for. -/
structure SleepInv (m : Monitor ρ) : Prop where
  spawn : ∀ c ∈ m.spawnCv, ∃ t required, m.state.calls c = .pushing t required ∧
    m.state.pool.threadCount ≠ required
  task : ∀ t, ∀ c ∈ m.taskCv t, (∃ timed, m.state.calls c = .joining t timed) ∧
    (m.state.tasks t).isFinished = false

/-- A push that is in progress after a step of its caller is asleep. -/
theorem awaitWorker_pushing {c : Nat} {t u : TaskId} {required k : Int}
    (h : (awaitWorker s c t required).calls c = .pushing u k) :
    (awaitWorker s c t required).pool.threadCount ≠ k := by
  unfold awaitWorker at h ⊢
  split at h
  · next hwaits =>
    rw [setCall_calls, Function.update_self] at h
    cases h
    rw [if_pos hwaits]
    exact hwaits
  · rw [setCall_calls, Function.update_self] at h
    cases h

theorem sleepsOnSpawnCv_pushing {a : Action ρ} {c : Nat} (hstep : Steps s a s')
    (hc : c ∈ sleepsOnSpawnCv s' a) :
    ∃ t required, s'.calls c = .pushing t required ∧ s'.pool.threadCount ≠ required := by
  cases hstep.effect with
  | @push d t =>
    unfold sleepsOnSpawnCv at hc
    dsimp only at hc
    split at hc
    · next u required hcall =>
      obtain rfl := Finset.mem_singleton.mp hc
      refine ⟨u, required, hcall, ?_⟩
      unfold threadPoolPushTask at hcall ⊢
      split at hcall
      · rw [setCall_calls, Function.update_self] at hcall
        cases hcall
      · next hroom =>
        rw [if_neg hroom]
        exact awaitWorker_pushing hcall
    · exact absurd hc (Finset.notMem_empty c)
  | @pushResume d t required =>
    unfold sleepsOnSpawnCv at hc
    dsimp only at hc
    split at hc
    · next u k hcall =>
      obtain rfl := Finset.mem_singleton.mp hc
      exact ⟨u, k, hcall, awaitWorker_pushing hcall⟩
    · exact absurd hc (Finset.notMem_empty c)
  | _ => exact absurd hc (Finset.notMem_empty c)

theorem sleepsOnTaskCv_joining {a : Action ρ} {c : Nat} {t : TaskId} (hstep : Steps s a s')
    (hc : c ∈ sleepsOnTaskCv s' t a) :
    (∃ timed, s'.calls c = .joining t timed) ∧ (s'.tasks t).isFinished = false := by
  cases hstep.effect with
  | @joinSection d u timed hcall =>
    unfold sleepsOnTaskCv at hc
    dsimp only at hc
    split at hc
    · next u' timed' hcall' =>
      split at hc
      · next heq =>
        obtain rfl := Finset.mem_singleton.mp hc
        subst heq
        refine ⟨⟨timed', hcall'⟩, ?_⟩
        unfold ThreadPool.joinSection at hcall' ⊢
        dsimp only at hcall' ⊢
        split at hcall'
        · rw [setCall_calls, Function.update_self] at hcall'
          cases hcall'
        · next hunfinished =>
          rw [if_neg hunfinished]
          change s.calls c = _ at hcall'
          rw [hcall] at hcall'
          cases hcall'
          exact Bool.eq_false_of_not_eq_true hunfinished
      · exact absurd hc (Finset.notMem_empty c)
    · exact absurd hc (Finset.notMem_empty c)
  | _ => exact absurd hc (Finset.notMem_empty c)

variable {a : Action ρ} {cv spawnCv : Finset Nat} {taskCv : TaskId → Finset Nat}

/-- The start of the worker that a push waits for wakes the push. -/
theorem SleepInv.spawn_step (h : SleepInv m) (hsteady : Steady m.state) (hawake : m.Awake a)
    (hstep : Steps m.state a s') (hspawn : (signalsSpawnCv a).Leaves m.spawnCv spawnCv) {c : Nat}
    (hc : c ∈ spawnCv) :
    ∃ t required, s'.calls c = .pushing t required ∧ s'.pool.threadCount ≠ required := by
  obtain ⟨t, required, hcall, hne⟩ := h.spawn c (hspawn.subset hc)
  have hcaller : a.caller ≠ some c := by
    intro heq
    obtain rfl := pushResume_of_caller hstep heq hcall
    exact hawake (hspawn.subset hc)
  refine ⟨t, required, (calls_of_ne hstep hcaller).trans hcall, ?_⟩
  by_cases hstart : ∃ i, a = .start i
  · obtain ⟨i, rfl⟩ := hstart
    have hempty : spawnCv = ∅ := by
      apply Signal.eq_empty (a := c) hspawn
      intro d hd
      obtain ⟨u, k, hcall', -⟩ := h.spawn d hd
      apply hsteady.pool.alone
      · rw [hcall']
        trivial
      · rw [hcall]
        trivial
    rw [hempty] at hc
    exact absurd hc (Finset.notMem_empty c)
  · rw [threadCount_of_ne hstep fun i heq => hstart ⟨i, heq⟩]
    exact hne

/-- The end of the run of a task wakes the call that joins it. -/
theorem SleepInv.task_step (h : SleepInv m) (hsteady : Steady m.state) (hawake : m.Awake a)
    (hstep : Steps m.state a s') {t : TaskId}
    (htask : (signalsTaskCv m.state t a).Leaves (m.taskCv t \ timesOut a) (taskCv t)) {c : Nat}
    (hc : c ∈ taskCv t) :
    (∃ timed, s'.calls c = .joining t timed) ∧ (s'.tasks t).isFinished = false := by
  obtain ⟨hin, htime⟩ := Finset.mem_sdiff.mp (htask.subset hc)
  obtain ⟨⟨timed, hcall⟩, hunfinished⟩ := h.task t c hin
  have hcaller : a.caller ≠ some c := by
    intro heq
    rcases join_of_caller hstep heq hcall with rfl | rfl
    · exact hawake t hin
    · exact htime (Finset.mem_singleton_self c)
  refine ⟨⟨timed, (calls_of_ne hstep hcaller).trans hcall⟩, ?_⟩
  by_contra hfin
  rw [Bool.not_eq_false] at hfin
  rcases isFinished_of_step hstep hfin with hbefore | ⟨i, idx, push, stage, rfl, hw, hattached⟩
  · rw [hunfinished] at hbefore
    cases hbefore
  · -- the run is recorded with a signal, and no other call joins the task
    have hsignal : signalsTaskCv m.state t (.record i) = .signal := by
      unfold signalsTaskCv
      dsimp only
      rw [hw]
      exact if_pos ⟨rfl, hattached⟩
    rw [hsignal] at htask
    have hempty : taskCv t = ∅ := by
      apply Signal.eq_empty (a := c) htask
      intro d hd
      obtain ⟨⟨timed', hcall'⟩, -⟩ := h.task t d (Finset.mem_sdiff.mp hd).1
      apply hsteady.tasks.once d c t
      · rw [hcall']
        rfl
      · rw [hcall]
        rfl
    rw [hempty] at hc
    exact absurd hc (Finset.notMem_empty c)

theorem SleepInv.step (h : SleepInv m) (hsteady : Steady m.state) {e : Event ρ}
    (hstep : m.Step e m') : SleepInv m' := by
  cases hstep with
  | spurious _ hspawn htask =>
    exact ⟨fun c hc => h.spawn c (hspawn hc), fun t c hc => h.task t c (htask t hc)⟩
  | act hawake hstep _ hspawn htask =>
    refine ⟨fun c hc => ?_, fun t c hc => ?_⟩
    · rcases Finset.mem_union.mp hc with hc | hc
      · exact h.spawn_step hsteady hawake hstep hspawn hc
      · exact sleepsOnSpawnCv_pushing hstep hc
    · rcases Finset.mem_union.mp hc with hc | hc
      · exact h.task_step hsteady hawake hstep (htask t) hc
      · exact sleepsOnTaskCv_joining hstep hc

end

/-! ## Steps that are possible -/

/-- The steps that the threads take of themselves: all but new calls, the return of the function of a
task and the end of a timeout. -/
def Action.own : Action ρ → Bool
  | .start _ | .wake _ | .run _ | .record _ | .pushResume _ | .joinSection _ | .detachSection _
  | .detachDelete _ | .deletePoolResume _ => true
  | _ => false

/-- No thread can take a step of itself. -/
def Stuck (m : Monitor ρ) : Prop := ∀ a m', a.own = true → ¬ m.Step (.act a) m'

section

variable {s s' : State ρ} {m m' : Monitor ρ} {l : List TaskId}

theorem Monitor.exists_step {a : Action ρ} (hawake : m.Awake a) (hstep : Steps m.state a s') :
    ∃ m', m.Step (.act a) m' := by
  obtain ⟨cv, hcv⟩ := Notice.exists_leaves (signalsCv m.state a) m.cv
  obtain ⟨spawnCv, hspawn⟩ := Notice.exists_leaves (signalsSpawnCv a) m.spawnCv
  choose taskCv htask using fun t =>
    Notice.exists_leaves (signalsTaskCv m.state t a) (m.taskCv t \ timesOut a)
  exact ⟨_, .act hawake hstep hcv hspawn htask⟩

theorem Stuck.not_steps (h : Stuck m) {a : Action ρ} (ha : a.own = true) (hawake : m.Awake a) :
    ¬ ∃ s', Steps m.state a s' := by
  rintro ⟨s', hstep⟩
  obtain ⟨m', hm'⟩ := Monitor.exists_step hawake hstep
  exact h a m' ha hm'

/-- A worker that finds something pending finds a task. -/
theorem Inv.exists_waitOrTake (h : Inv s l) (i : Nat) (idx : Int) :
    ∃ s', ThreadPool.waitOrTake s i idx = some s' := by
  unfold ThreadPool.waitOrTake
  split
  · exact ⟨_, rfl⟩
  · next hwait =>
    split
    · exact ⟨_, rfl⟩
    · next hexit =>
      cases l with
      | nil =>
        refine absurd ⟨?_, hexit⟩ hwait
        rw [h.pending, List.length_nil]
        decide
      | cons t l =>
        have hhead : s.pool.pendingTaskList = some t := h.links.1
        rw [hhead]
        exact ⟨_, rfl⟩

theorem steps_start {i : Nat} {w : Worker ρ} (hw : s.workers[i]? = some w)
    (hphase : w.phase = .created) (hfreed : s.poolFreed = false) (hinv : Inv s l) :
    ∃ s', Steps s (.start i) s' := by
  obtain ⟨s', htake⟩ := hinv.countThread.exists_waitOrTake i w.idx
  refine ⟨s', ?_⟩
  show s.workers[i]?.bind _ = some s'
  rw [hw]
  show workerStep s i w (.start i) = some s'
  unfold workerStep
  rw [hphase, hfreed]
  exact htake

theorem steps_wake {i : Nat} {w : Worker ρ} (hw : s.workers[i]? = some w)
    (hphase : w.phase = .waiting) (hfreed : s.poolFreed = false) (hinv : Inv s l) :
    ∃ s', Steps s (.wake i) s' := by
  obtain ⟨s', htake⟩ := hinv.exists_waitOrTake i w.idx
  refine ⟨s', ?_⟩
  show s.workers[i]?.bind _ = some s'
  rw [hw]
  show workerStep s i w (.wake i) = some s'
  unfold workerStep
  rw [hphase, hfreed]
  exact htake

theorem steps_run {i : Nat} {w : Worker ρ} {t : TaskId} {push : Nat}
    (hw : s.workers[i]? = some w) (hphase : w.phase = .holding t push .taken) :
    ∃ s', Steps s (.run i) s' := by
  refine ⟨startRun s i w.idx t push, ?_⟩
  show s.workers[i]?.bind _ = _
  rw [hw]
  show workerStep s i w (.run i) = _
  unfold workerStep
  rw [hphase]

theorem steps_record {i : Nat} {w : Worker ρ} {t : TaskId} {push : Nat} {v : ρ}
    (hw : s.workers[i]? = some w) (hphase : w.phase = .holding t push (.returned v))
    (hfreed : s.poolFreed = false) (hinv : Inv s l) : ∃ s', Steps s (.record i) s' := by
  have hrecorded := hinv.recordRun hw (by rw [Worker.held, hphase]) w.idx v
  obtain ⟨s', htake⟩ := hrecorded.exists_waitOrTake i w.idx
  rw [waitOrTake_setPhase] at htake
  refine ⟨s', ?_⟩
  show s.workers[i]?.bind _ = some s'
  rw [hw]
  show workerStep s i w (.record i) = some s'
  unfold workerStep
  rw [hphase, hfreed]
  exact htake

/-- What holds in every state of a run of orderly clients. -/
structure Sound (m : Monitor ρ) : Prop where
  steady : Steady m.state
  wake : WakeInv m
  sleep : SleepInv m

theorem Steady.not_freed (h : Steady s) {i : Nat} {w : Worker ρ} (hw : s.workers[i]? = some w)
    (hphase : w.phase ≠ .exited) : s.poolFreed = false := by
  by_contra hfreed
  rw [Bool.not_eq_false] at hfreed
  exact hphase ((h.pool.freed hfreed).2 w (List.mem_of_getElem? hw))

theorem Steady.not_freed_of_onPool (h : Steady s) {c : Nat} (hc : (s.calls c).OnPool) :
    s.poolFreed = false := by
  by_contra hfreed
  rw [Bool.not_eq_false] at hfreed
  exact (h.pool.freed hfreed).1 c hc

/-- A worker that can go on no further has exited, runs the function of its task, or is asleep. -/
theorem Sound.worker_of_stuck (h : Sound m) (hstuck : Stuck m) {i : Nat} {w : Worker ρ}
    (hw : m.state.workers[i]? = some w) : w.phase = .exited ∨
      (∃ t push, w.phase = .holding t push .running) ∨ w.phase = .waiting ∧ i ∈ m.cv := by
  obtain ⟨l, hinv⟩ := h.steady.inv
  have hfreed := h.steady.not_freed hw
  cases hphase : w.phase with
  | exited => exact .inl rfl
  | created =>
    rw [hphase] at hfreed
    exact absurd (steps_start hw hphase (hfreed fun heq => by cases heq) hinv)
      (hstuck.not_steps (a := .start i) rfl trivial)
  | waiting =>
    rw [hphase] at hfreed
    refine .inr (.inr ⟨rfl, ?_⟩)
    by_contra hawake
    exact absurd (steps_wake hw hphase (hfreed fun heq => by cases heq) hinv)
      (hstuck.not_steps (a := .wake i) rfl hawake)
  | holding t push stage =>
    rw [hphase] at hfreed
    cases stage with
    | taken => exact absurd (steps_run hw hphase) (hstuck.not_steps (a := .run i) rfl trivial)
    | running => exact .inr (.inl ⟨t, push, rfl⟩)
    | returned v =>
      exact absurd (steps_record hw hphase (hfreed fun heq => by cases heq) hinv)
        (hstuck.not_steps (a := .record i) rfl trivial)

/-- The worker is in the function of its task. -/
def Worker.InFunction (w : Worker ρ) : Prop := ∃ t push, w.phase = .holding t push .running

/-- A push that sleeps waits for a worker that has yet to start. -/
theorem Sound.not_pushing_of_stuck (h : Sound m) (hstuck : Stuck m) (c : Nat) (t : TaskId)
    (required : Int) : m.state.calls c ≠ .pushing t required := by
  intro hcall
  have hon : (m.state.calls c).OnPool := by
    rw [hcall]
    trivial
  have hfreed := h.steady.not_freed_of_onPool hon
  by_cases hasleep : c ∈ m.spawnCv
  · obtain ⟨u, k, hcall', hne⟩ := h.sleep.spawn c hasleep
    rw [hcall] at hcall'
    cases hcall'
    have hlength := (h.steady.pool.pushing c t required hcall).1
    have hcounted := h.steady.limits.counted
    -- some worker is not counted, so it has not started
    have hlt : m.state.workers.countP Worker.counted < m.state.workers.length := by
      apply List.countP_le_length.lt_of_ne
      omega
    obtain ⟨w, hw, huncounted⟩ : ∃ w ∈ m.state.workers, ¬ w.counted = true := by
      by_contra hall
      simp only [not_exists, not_and, not_not] at hall
      have heq := List.countP_eq_length.mpr hall
      omega
    obtain ⟨i, hi⟩ := List.mem_iff_getElem?.mp hw
    rcases h.worker_of_stuck hstuck hi with hphase | ⟨_, _, hphase⟩ | ⟨hphase, -⟩
    · exact huncounted (by rw [Worker.counted, hphase])
    · exact huncounted (by rw [Worker.counted, hphase])
    · exact huncounted (by rw [Worker.counted, hphase])
  · refine hstuck.not_steps (a := .pushResume c) rfl hasleep ⟨awaitWorker m.state c t required, ?_⟩
    show resumeStep m.state c (.pushResume c) (m.state.calls c) = _
    rw [hcall]
    show (if m.state.poolFreed then none else _) = _
    rw [hfreed]
    rfl

/-- The thread that a deletion waits for was told to exit, so it is not asleep. -/
theorem Sound.not_joiningThread_of_stuck (h : Sound m) (hstuck : Stuck m) (c : Nat) (i : Int) :
    m.state.calls c ≠ .joiningThread i := by
  intro hcall
  have hon : (m.state.calls c).OnPool := by
    rw [hcall]
    trivial
  obtain ⟨l, hinv⟩ := h.steady.inv
  obtain ⟨hpos, -, hexit, -⟩ := h.steady.pool.deleting c i hcall
  obtain ⟨-, hrunning⟩ := h.steady.pool.closed fun hop => hop.2 c i hcall
  obtain ⟨hthread, hlt⟩ := h.steady.pool.threadAt h.steady.limits hcall
  obtain ⟨w, hw⟩ : ∃ w, m.state.workers[i.toNat]? = some w :=
    ⟨_, List.getElem?_eq_getElem hlt⟩
  rcases h.worker_of_stuck hstuck hw with hphase | ⟨t, push, hphase⟩ | ⟨hphase, hasleep⟩
  · refine hstuck.not_steps (a := .deletePoolResume c) rfl trivial
      ⟨joinThreads m.state c (i + 1), ?_⟩
    obtain ⟨idx, phase⟩ := w
    show resumeStep m.state c (.deletePoolResume c) (m.state.calls c) = _
    rw [hcall]
    unfold resumeStep
    dsimp only
    rw [hthread, hw, show phase = .exited from hphase]
    dsimp only
    rw [h.steady.not_freed_of_onPool hon]
    rfl
  · have hheld : (t, push) ∈ m.state.held := by
      refine List.mem_filterMap.mpr ⟨w, List.mem_of_getElem? hw, ?_⟩
      rw [Worker.held, hphase]
    have hcount := hinv.running
    have hpositive := List.length_pos_of_mem hheld
    omega
  · obtain ⟨w', hw', -, hidx⟩ := h.wake.asleep _ hasleep
    rw [hw] at hw'
    cases hw'
    rw [h.steady.limits.idx_eq hw, hexit] at hidx
    omega

/-- A call that can go on no further joins a task that has yet to be run. -/
theorem Sound.call_of_stuck (h : Sound m) (hstuck : Stuck m) (c : Nat) :
    (m.state.calls c).Idle ∨
      ∃ t timed, m.state.calls c = .joining t timed ∧ Active m.state t := by
  cases hcall : m.state.calls c with
  | ready => exact .inl trivial
  | done => exact .inl trivial
  | pushing t required => exact absurd hcall (h.not_pushing_of_stuck hstuck c t required)
  | joiningThread i => exact absurd hcall (h.not_joiningThread_of_stuck hstuck c i)
  | detaching t =>
    refine absurd ⟨detachSection m.state c t, ?_⟩
      (hstuck.not_steps (a := .detachSection c) rfl trivial)
    show resumeStep m.state c (.detachSection c) (m.state.calls c) = _
    rw [hcall]
    rfl
  | deletingDetached t =>
    refine absurd ⟨detachDelete m.state c t, ?_⟩
      (hstuck.not_steps (a := .detachDelete c) rfl trivial)
    show resumeStep m.state c (.detachDelete c) (m.state.calls c) = _
    rw [hcall]
    rfl
  | joining t timed =>
    refine .inr ⟨t, timed, rfl, ?_⟩
    have hpool := h.steady.tasks.joined c t (by rw [hcall]; rfl)
    by_cases hasleep : ∃ u, c ∈ m.taskCv u
    · obtain ⟨u, hu⟩ := hasleep
      obtain ⟨⟨timed', hcall'⟩, hunfinished⟩ := h.sleep.task u c hu
      rw [hcall] at hcall'
      cases hcall'
      apply (h.steady.tasks.inPool t hpool).resolve_left
      rw [hunfinished]
      decide
    · refine absurd ⟨joinSection m.state c t, ?_⟩
        (hstuck.not_steps (a := .joinSection c) rfl fun u hu => hasleep ⟨u, hu⟩)
      show resumeStep m.state c (.joinSection c) (m.state.calls c) = _
      rw [hcall]
      rfl

/-- With a task pending every worker is in a function. -/
theorem Sound.busy_of_stuck (h : Sound m) (hstuck : Stuck m)
    (hpending : 1 ≤ m.state.pool.pendingTaskCount) :
    m.state.workers ≠ [] ∧ ∀ w ∈ m.state.workers, w.InFunction := by
  obtain ⟨l, hinv⟩ := h.steady.inv
  have hopen : Open m.state := by
    by_contra hclosed
    have hnone := (h.steady.pool.closed hclosed).1
    omega
  have hpushes : m.state.pushes ≠ [] := by
    intro hnil
    cases l with
    | nil =>
      have hcount := hinv.pending
      rw [List.length_nil] at hcount
      omega
    | cons t l =>
      obtain ⟨k, hk⟩ := hinv.listed t List.mem_cons_self
      rw [hnil] at hk
      cases hk
  refine ⟨?_, fun w hw => ?_⟩
  · cases hthreads : m.state.pool.threads with
    | none => exact absurd (h.steady.pool.unused hthreads).2 hpushes
    | some threads => exact (h.steady.pool.threads threads hthreads).2
  · obtain ⟨i, hi⟩ := List.mem_iff_getElem?.mp hw
    rcases h.worker_of_stuck hstuck hi with hphase | hphase | ⟨-, hasleep⟩
    · exact absurd hphase ((h.steady.pool.opened hopen).2 w hw)
    · exact hphase
    · -- a worker is awake for the task, and could look at the list
      have hcovered := h.wake.covered ⟨i, hasleep⟩
      have hcard : 0 < m.attending.card := by omega
      obtain ⟨j, hj⟩ := Finset.card_pos.mp hcard
      obtain ⟨⟨w', hw', hwaiting, -⟩, hawake⟩ := mem_attending.mp hj
      rcases h.worker_of_stuck hstuck hw' with hphase | ⟨_, _, hphase⟩ | ⟨-, hin⟩
      · rw [Worker.isWaiting, hphase] at hwaiting
        cases hwaiting
      · rw [Worker.isWaiting, hphase] at hwaiting
        cases hwaiting
      · exact absurd hin hawake

/-- With no worker in a function all is done. -/
theorem Sound.done_of_stuck (h : Sound m) (hstuck : Stuck m)
    (hnone : ∀ w ∈ m.state.workers, ¬ w.InFunction) :
    (∀ k < m.state.pushes.length, ∃ v, (k, v) ∈ m.state.runs) ∧ ∀ c, (m.state.calls c).Idle := by
  obtain ⟨l, hinv⟩ := h.steady.inv
  have hpending : m.state.pool.pendingTaskCount ≤ 0 := by
    by_contra hsome
    obtain ⟨hne, hall⟩ := h.busy_of_stuck hstuck (by omega)
    obtain ⟨w, hw⟩ := List.exists_mem_of_ne_nil _ hne
    exact hnone w hw (hall w hw)
  have hheld : m.state.held = [] := by
    apply List.filterMap_eq_nil_iff.mpr
    intro w hw
    obtain ⟨i, hi⟩ := List.mem_iff_getElem?.mp hw
    rcases h.worker_of_stuck hstuck hi with hphase | hphase | ⟨hphase, -⟩
    · rw [Worker.held, hphase]
    · exact absurd hphase (hnone w hw)
    · rw [Worker.held, hphase]
  have hrunning : m.state.pool.runningTaskCount ≤ 0 := by
    rw [hinv.running, hheld]
    decide
  have hall : ∀ k < m.state.pushes.length, ∃ v, (k, v) ∈ m.state.runs :=
    fun k hk => hinv.all_run hpending hrunning hk
  refine ⟨hall, fun c => (h.call_of_stuck hstuck c).resolve_right ?_⟩
  rintro ⟨t, _, -, k, hk, hrun⟩
  obtain ⟨v, hv⟩ := hall k (latestPush_lt hk)
  exact hrun (List.mem_map.mpr ⟨_, hv, rfl⟩)

end

/-! ## Runs -/

/-- The calls of the clients are orderly. -/
def OrderlyEvent (m : Monitor ρ) : Event ρ → Prop
  | .act a => Orderly m.state a
  | .spurious => True

theorem Sound.step {m m' : Monitor ρ} (h : Sound m) {e : Event ρ} (he : OrderlyEvent m e)
    (hstep : m.Step e m') : Sound m' := by
  refine ⟨?_, h.wake.step hstep, h.sleep.step h.steady hstep⟩
  cases hstep with
  | spurious => exact h.steady
  | act _ hact => exact h.steady.step he hact

theorem sound_run {maxThreadCount : Int} {pool : Pool} {m : Monitor ρ}
    (hnew : threadPoolNew maxThreadCount = some pool)
    (h : Reachable (Within OrderlyEvent Monitor.Step) (.start pool) m) : Sound m := by
  apply h.invariant
  · refine ⟨steady_start hnew, wakeInv_start pool, fun c hc => ?_, fun t c hc => ?_⟩
    · exact absurd hc (Finset.notMem_empty c)
    · exact absurd hc (Finset.notMem_empty c)
  · exact fun _ _ _ hm hstep => hm.step hstep.1 hstep.2

/-- In a run of orderly clients the threads can all be waiting only for the functions of tasks: no call
is held up but by a task that has yet to be run, a task is left pending only while every worker is in
a function, and with no function called every push has been run and every call has returned. -/
theorem stuck_only_for_functions {maxThreadCount : Int} {pool : Pool} {m : Monitor ρ}
    (hnew : threadPoolNew maxThreadCount = some pool)
    (h : Reachable (Within OrderlyEvent Monitor.Step) (.start pool) m) (hstuck : Stuck m) :
    (∀ c, (m.state.calls c).Idle ∨
        ∃ t timed, m.state.calls c = .joining t timed ∧ Active m.state t) ∧
      (1 ≤ m.state.pool.pendingTaskCount →
        m.state.workers ≠ [] ∧ ∀ w ∈ m.state.workers, w.InFunction) ∧
      ((∀ w ∈ m.state.workers, ¬ w.InFunction) →
        (∀ k < m.state.pushes.length, ∃ v, (k, v) ∈ m.state.runs) ∧
          ∀ c, (m.state.calls c).Idle) :=
  let hsound := sound_run hnew h
  ⟨hsound.call_of_stuck hstuck, hsound.busy_of_stuck hstuck, hsound.done_of_stuck hstuck⟩

/-- A system with one worker, which is in a function, and with no call in progress. -/
theorem stuck_of_inFunction {m : Monitor ρ} {w : Worker ρ} (hworkers : m.state.workers = [w])
    (hw : w.InFunction) (hidle : ∀ c, (m.state.calls c).Idle) : Stuck m := by
  obtain ⟨t, push, hrunning⟩ := hw
  have hphase : ∀ (i : Nat) (w' : Worker ρ), m.state.workers[i]? = some w' →
      w'.phase = .holding t push .running := by
    intro i w' hw'
    rw [hworkers] at hw'
    rw [List.mem_singleton.mp (List.mem_of_getElem? hw')]
    exact hrunning
  have hno : ∀ c (call : Call ρ), m.state.calls c = call → call.Idle := by
    rintro c _ rfl
    exact hidle c
  intro a m' ha hstep
  cases hstep with
  | act _ hact =>
    cases hact.effect with
    | start hi hother | wake hi hother | run hi hother | record hi hother =>
      cases (hphase _ _ hi).symm.trans hother
    | pushResume hcall | joinSection hcall | detachSection hcall | detachDelete hcall
    | deletePoolResume hcall => exact hno _ _ hcall
    | _ => cases ha

/-- The first task is in its function. -/
theorem stuck_only_for_functions_firstTask : ∃ m : Monitor Unit,
    m.state.workers = [⟨0, .holding 5 0 .running⟩] ∧
    (∀ c, (m.state.calls c).Idle ∨
        ∃ t timed, m.state.calls c = .joining t timed ∧ Active m.state t) ∧
      (1 ≤ m.state.pool.pendingTaskCount →
        m.state.workers ≠ [] ∧ ∀ w ∈ m.state.workers, w.InFunction) ∧
      ((∀ w ∈ m.state.workers, ¬ w.InFunction) →
        (∀ k < m.state.pushes.length, ∃ v, (k, v) ∈ m.state.runs) ∧
          ∀ c, (m.state.calls c).Idle) := by
  have hsignal : Signal ({0} : Finset Nat) ∅ :=
    ⟨Finset.empty_subset _, fun _ heq => absurd heq (by decide)⟩
  have hrun : Run (Within OrderlyEvent Monitor.Step) (.start (ρ := Unit) twoPool)
      [.act (.push 0 5), .act (.start 0), .act (.pushResume 0), .act (.wake 0), .act (.run 0)] _ :=
    .cons ⟨⟨⟨rfl, rfl⟩, fun _ => id⟩, .act trivial rfl rfl rfl fun _ => rfl⟩
      (.cons ⟨trivial, .act trivial rfl rfl hsignal fun _ => rfl⟩
        (.cons ⟨trivial, .act (Finset.notMem_empty 0) rfl hsignal rfl fun _ => rfl⟩
          (.cons ⟨trivial, .act (Finset.notMem_empty 0) rfl rfl rfl fun _ => rfl⟩
            (.cons ⟨trivial, .act trivial rfl rfl rfl fun _ => rfl⟩ (.nil _)))))
  refine ⟨_, rfl, stuck_only_for_functions (show threadPoolNew 2 = some twoPool from rfl) ⟨_, hrun⟩
    (stuck_of_inFunction rfl ⟨5, 0, rfl⟩ fun c => ?_)⟩
  by_cases hc : c = 0
  · rw [hc]
    trivial
  · have hready : Function.update (Function.update (fun _ => Call.ready (ρ := Unit)) 0
        (.pushing 5 1)) 0 (.done .ok none) c = .ready :=
      (Function.update_of_ne hc _ _).trans (Function.update_of_ne hc _ _)
    have hidle : Call.Idle (Call.ready (ρ := Unit)) := trivial
    rw [← hready] at hidle
    exact hidle

end SystemProgramming.ThreadPool
