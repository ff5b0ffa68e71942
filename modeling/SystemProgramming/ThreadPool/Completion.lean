import SystemProgramming.ThreadPool.Progress

/-!
# Every task is run

When the clients make no new calls and nobody wakes without a signal, the threads of the pool take a
bounded number of steps.  A step either does some of the work that is left or puts a thread to sleep
that was awake.  At the end, if the functions return, every task has been run.
-/

open Runs WaitSets

namespace SystemProgramming.ThreadPool

variable {ρ : Type}

/-! ## What is left to do -/

/-- The steps that the threads take of themselves, and the returns of the functions. -/
def Action.internal : Action ρ → Bool
  | .finish _ _ => true
  | a => a.own

/-- The steps that a worker takes before it waits for another task, and one for its exit. -/
def Phase.work : Phase ρ → Nat
  | .created => 2
  | .waiting => 1
  | .holding _ _ .taken => 4
  | .holding _ _ .running => 3
  | .holding _ _ (.returned _) => 2
  | .exited => 0

/-- A push leaves a task that is yet to be run. -/
def Call.work (threads : Nat) : Call ρ → Nat
  | .pushing _ _ => 5
  | .joining _ _ => 1
  | .detaching _ => 2
  | .deletingDetached _ => 1
  | .joiningThread i => (threads - i).toNat
  | _ => 0

def State.work (s : State ρ) (callers : Finset Nat) : Nat :=
  4 * s.pool.pendingTaskCount.toNat + (s.workers.map fun w => w.phase.work).sum +
    ∑ c ∈ callers, (s.calls c).work s.workers.length

/-- The call joins a task and is not asleep. -/
def Monitor.joinsAwake (m : Monitor ρ) (c : Nat) : Bool :=
  match m.state.calls c with
  | .joining t _ => decide (c ∉ m.taskCv t)
  | _ => false

/-- The threads that may yet fall asleep. -/
def Monitor.alert (m : Monitor ρ) (callers : Finset Nat) : Nat :=
  (Finset.range m.state.workers.length \ m.cv).card + (callers \ m.spawnCv).card +
    (callers.filter fun c => m.joinsAwake c).card

section

variable {s s' : State ρ} {m m' : Monitor ρ} {callers : Finset Nat} {l : List TaskId}

theorem Monitor.alert_le (m : Monitor ρ) (callers : Finset Nat) :
    m.alert callers ≤ m.state.workers.length + 2 * callers.card := by
  have hworkers : (Finset.range m.state.workers.length \ m.cv).card ≤ m.state.workers.length := by
    have hcard := Finset.card_le_card
      (Finset.sdiff_subset (s := Finset.range m.state.workers.length) (t := m.cv))
    rwa [Finset.card_range] at hcard
  have hpushes : (callers \ m.spawnCv).card ≤ callers.card := Finset.card_le_card Finset.sdiff_subset
  have hjoins : (callers.filter fun c => m.joinsAwake c).card ≤ callers.card :=
    Finset.card_filter_le _ _
  unfold Monitor.alert
  omega

/-- A worker goes into another phase. -/
theorem sum_work_set {ws : List (Worker ρ)} {i : Nat} {w : Worker ρ} (hw : ws[i]? = some w)
    (idx : Int) (phase : Phase ρ) :
    ((ws.set i ⟨idx, phase⟩).map fun w => w.phase.work).sum + w.phase.work =
      (ws.map fun w => w.phase.work).sum + phase.work := by
  obtain ⟨as, bs, hws, hset⟩ := workers_split hw
  rw [hset, hws]
  simp only [List.map_append, List.map_cons, List.sum_append, List.sum_cons]
  omega

/-- A call goes into another one. -/
theorem sum_work_update {c : Nat} (hc : c ∈ callers) (calls : Nat → Call ρ) (call : Call ρ)
    (n : Nat) :
    ∑ d ∈ callers, (Function.update calls c call d).work n + (calls c).work n =
      ∑ d ∈ callers, (calls d).work n + call.work n := by
  have hrest : ∑ d ∈ callers.erase c, (Function.update calls c call d).work n =
      ∑ d ∈ callers.erase c, (calls d).work n := by
    apply Finset.sum_congr rfl
    intro d hd
    rw [Function.update_of_ne (Finset.ne_of_mem_erase hd)]
  rw [← Finset.add_sum_erase _ _ hc, ← Finset.add_sum_erase _ _ hc, hrest, Function.update_self]
  omega

theorem work_setPhase {i : Nat} {w : Worker ρ} (hw : s.workers[i]? = some w) (idx : Int)
    (phase : Phase ρ) (callers : Finset Nat) :
    (s.setPhase i idx phase).work callers + w.phase.work = s.work callers + phase.work := by
  have hsum := sum_work_set hw idx phase
  unfold State.work
  rw [setPhase_workers, setPhase_pool, setPhase_calls, List.length_set]
  omega

/-- A worker that looks at the list waits, or has one step less to take. -/
theorem work_look {i : Nat} {w : Worker ρ} (hw : s.workers[i]? = some w)
    (htake : waitOrTake s i w.idx = some s') (callers : Finset Nat) :
    (s' = s.setPhase i w.idx .waiting ∧ s'.work callers + w.phase.work = s.work callers + 1) ∨
      s'.work callers + w.phase.work ≤ s.work callers := by
  rcases waitOrTake_cases htake with ⟨-, rfl⟩ | ⟨-, rfl⟩ | ⟨⟨hpending, -⟩, t, -, rfl⟩
  · exact .inl ⟨rfl, work_setPhase hw w.idx .waiting callers⟩
  · exact .inr (work_setPhase hw w.idx .exited callers).le
  · -- four steps are left for a task, pending or held
    apply Or.inr
    have hsum := sum_work_set hw w.idx (.holding t ((latestPush s.pushes t).getD 0) .taken)
    have htaken : (Phase.holding t ((latestPush s.pushes t).getD 0) .taken : Phase ρ).work = 4 := rfl
    unfold State.work
    show 4 * (s.pool.pendingTaskCount - 1).toNat +
        ((s.workers.set i ⟨w.idx, .holding t ((latestPush s.pushes t).getD 0) .taken⟩).map
          fun w => w.phase.work).sum +
        ∑ c ∈ callers, (s.calls c).work (s.workers.set i _).length + w.phase.work ≤ _
    rw [List.length_set]
    omega

/-- A call of which less is left. -/
theorem work_setCall {c : Nat} (hc : c ∈ callers) (call : Call ρ) :
    (s.setCall c call).work callers + (s.calls c).work s.workers.length =
      s.work callers + call.work s.workers.length := by
  have hsum := sum_work_update hc s.calls call s.workers.length
  unfold State.work
  rw [setCall_calls, setCall_workers, setCall_pool]
  omega

/-- The work depends on the pool, the workers and the calls. -/
theorem work_congr (hpending : s'.pool.pendingTaskCount = s.pool.pendingTaskCount)
    (hworkers : s'.workers = s.workers) (hcalls : s'.calls = s.calls) (callers : Finset Nat) :
    s'.work callers = s.work callers := by
  unfold State.work
  rw [hpending, hworkers, hcalls]

theorem work_setCall_lt {c : Nat} (hc : c ∈ callers) {call : Call ρ}
    (hlt : call.work s.workers.length < (s.calls c).work s.workers.length)
    (hpending : s'.pool.pendingTaskCount = s.pool.pendingTaskCount)
    (hworkers : s'.workers = s.workers) (hcalls : s'.calls = s.calls) :
    (s'.setCall c call).work callers < s.work callers := by
  have hset := work_setCall (s := s') hc call
  rw [work_congr hpending hworkers hcalls, hcalls, hworkers] at hset
  omega

/-- A thread falls asleep, and none wakes. -/
theorem alert_lt (hworkers : m'.state.workers.length = m.state.workers.length)
    (hcalls : m'.state.calls = m.state.calls) (hcv : m.cv ⊆ m'.cv)
    (hspawn : m.spawnCv ⊆ m'.spawnCv) (htask : ∀ t, m.taskCv t ⊆ m'.taskCv t)
    (hfalls : (∃ i < m.state.workers.length, i ∉ m.cv ∧ i ∈ m'.cv) ∨
      (∃ c ∈ callers, c ∉ m.spawnCv ∧ c ∈ m'.spawnCv) ∨
      ∃ c ∈ callers, m.joinsAwake c = true ∧ m'.joinsAwake c = false) :
    m'.alert callers < m.alert callers := by
  have hsetWorkers : Finset.range m'.state.workers.length \ m'.cv ⊆
      Finset.range m.state.workers.length \ m.cv := by
    rw [hworkers]
    exact Finset.sdiff_subset_sdiff (Finset.Subset.refl _) hcv
  have hsetPushes : callers \ m'.spawnCv ⊆ callers \ m.spawnCv :=
    Finset.sdiff_subset_sdiff (Finset.Subset.refl _) hspawn
  have hsetJoins : (callers.filter fun c => m'.joinsAwake c) ⊆
      callers.filter fun c => m.joinsAwake c := by
    intro c hc
    obtain ⟨hin, hawake⟩ := Finset.mem_filter.mp hc
    refine Finset.mem_filter.mpr ⟨hin, ?_⟩
    unfold Monitor.joinsAwake at hawake ⊢
    rw [hcalls] at hawake
    split at hawake
    · next t timed hcall =>
      rw [decide_eq_true_iff] at hawake
      exact decide_eq_true fun hasleep => hawake (htask t hasleep)
    · exact hawake
  have hleWorkers := Finset.card_le_card hsetWorkers
  have hlePushes := Finset.card_le_card hsetPushes
  have hleJoins := Finset.card_le_card hsetJoins
  unfold Monitor.alert
  rcases hfalls with ⟨i, hi, hout, hin⟩ | ⟨c, hc, hout, hin⟩ | ⟨c, hc, hawake, hasleep⟩
  · have hlt : _ < (Finset.range m.state.workers.length \ m.cv).card :=
      Finset.card_lt_card (Finset.ssubset_iff_of_subset hsetWorkers |>.mpr
        ⟨i, Finset.mem_sdiff.mpr ⟨Finset.mem_range.mpr hi, hout⟩,
          fun hmem => (Finset.mem_sdiff.mp hmem).2 hin⟩)
    omega
  · have hlt : _ < (callers \ m.spawnCv).card :=
      Finset.card_lt_card (Finset.ssubset_iff_of_subset hsetPushes |>.mpr
        ⟨c, Finset.mem_sdiff.mpr ⟨hc, hout⟩, fun hmem => (Finset.mem_sdiff.mp hmem).2 hin⟩)
    omega
  · have hlt : _ < (callers.filter fun c => m.joinsAwake c).card :=
      Finset.card_lt_card (Finset.ssubset_iff_of_subset hsetJoins |>.mpr
        ⟨c, Finset.mem_filter.mpr ⟨hc, hawake⟩, fun hmem => by
          rw [(Finset.mem_filter.mp hmem).2] at hasleep
          cases hasleep⟩)
    omega

/-! ## Steps -/

theorem mem_callers (hbusy : ∀ c ∉ callers, (s.calls c).Idle) {c : Nat}
    (hc : ¬ (s.calls c).Idle) : c ∈ callers := by
  by_contra hout
  exact hc (hbusy c hout)

/-- A push that is woken links its task, or falls asleep again. -/
theorem work_awaitWorker (hinv : Inv s l) {c : Nat} {t : TaskId} {required : Int}
    (hcall : s.calls c = .pushing t required) (hc : c ∈ callers) :
    awaitWorker s c t required = s ∧ s.pool.threadCount ≠ required ∨
      (awaitWorker s c t required).work callers < s.work callers := by
  unfold awaitWorker
  split
  · next hwaits =>
    refine .inl ⟨?_, hwaits⟩
    rw [State.setCall, ← hcall, Function.update_eq_self]
  · apply Or.inr
    have hcount := hinv.pending
    have hlink : (linkTask s t).work callers = s.work callers + 4 := by
      unfold State.work
      show 4 * (s.pool.pendingTaskCount + 1).toNat + _ + _ = _
      rw [show (s.pool.pendingTaskCount + 1).toNat = s.pool.pendingTaskCount.toNat + 1 by omega]
      show _ + (s.workers.map fun w => w.phase.work).sum +
        ∑ c ∈ callers, (s.calls c).work s.workers.length = _
      omega
    have hset : ((linkTask s t).setCall c (.done .ok none)).work callers +
        (s.calls c).work s.workers.length = (linkTask s t).work callers + 0 :=
      work_setCall hc (.done .ok none)
    rw [hcall, hlink] at hset
    change _ + 5 = _ at hset
    omega

/-- A join that is woken returns, or falls asleep again. -/
theorem work_joinSection {c : Nat} {t : TaskId} {timed : Bool}
    (hcall : s.calls c = .joining t timed) (hc : c ∈ callers) :
    (joinSection s c t).work callers = s.work callers ∧ (joinSection s c t).calls = s.calls ∨
      (joinSection s c t).work callers < s.work callers := by
  unfold joinSection
  dsimp only
  split
  · apply Or.inr
    refine work_setCall_lt hc ?_ rfl rfl rfl
    rw [hcall]
    exact Nat.zero_lt_one
  · exact .inl ⟨rfl, rfl⟩

theorem work_detachSection {c : Nat} {t : TaskId} (hcall : s.calls c = .detaching t)
    (hc : c ∈ callers) : (detachSection s c t).work callers < s.work callers := by
  unfold detachSection
  dsimp only
  split
  · refine work_setCall_lt hc ?_ rfl rfl rfl
    rw [hcall]
    exact Nat.one_lt_two
  · refine work_setCall_lt hc ?_ rfl rfl rfl
    rw [hcall]
    exact Nat.zero_lt_two

theorem work_detachDelete {c : Nat} {t : TaskId} (hcall : s.calls c = .deletingDetached t)
    (hc : c ∈ callers) : (detachDelete s c t).work callers < s.work callers := by
  unfold detachDelete
  rw [threadTaskDelete_eq]
  refine work_setCall_lt hc ?_ rfl rfl rfl
  rw [hcall]
  exact Nat.zero_lt_one

/-- One thread less is to be joined. -/
theorem work_joinThreads {c : Nat} {i : Int} (hcall : s.calls c = .joiningThread i)
    (hc : c ∈ callers) (hlt : i < s.workers.length) :
    (joinThreads s c (i + 1)).work callers < s.work callers := by
  unfold joinThreads
  split
  · refine work_setCall_lt hc ?_ rfl rfl rfl
    rw [hcall]
    show (s.workers.length - (i + 1)).toNat < (s.workers.length - i).toNat
    omega
  · refine work_setCall_lt hc ?_ rfl rfl rfl
    rw [hcall]
    show 0 < (s.workers.length - i).toNat
    omega

/-- A step does some of the work, or puts a thread to sleep. -/
theorem Sound.work_step (h : Sound m) {a : Action ρ} (ha : a.internal = true)
    (hbusy : ∀ c ∉ callers, (m.state.calls c).Idle) (hstep : m.Step (.act a) m') :
    m'.state.work callers < m.state.work callers ∨
      m'.state.work callers = m.state.work callers ∧ m'.alert callers < m.alert callers := by
  obtain ⟨l, hinv⟩ := h.steady.inv
  cases hstep with
  | @act _ s' cv spawnCv taskCv hawake hstep hcv hspawn htask =>
    cases hstep.effect with
    | @start i w _ hw hphase _ htake =>
      apply Or.inl
      have hwork : w.phase.work = 2 := by rw [hphase]; rfl
      have hsame : (addIdle (countThread m.state)).work callers = m.state.work callers := rfl
      have hw' : (addIdle (countThread m.state)).workers[i]? = some w := hw
      rcases work_look hw' htake callers with ⟨-, hlook⟩ | hlook
      · show s'.work callers < m.state.work callers
        omega
      · show s'.work callers < m.state.work callers
        omega
    | @wake i w _ hw hphase _ htake =>
      have hwork : w.phase.work = 1 := by rw [hphase]; rfl
      rcases work_look hw htake callers with ⟨rfl, hlook⟩ | hlook
      · -- it falls asleep again
        apply Or.inr
        obtain ⟨hi, -⟩ := List.getElem?_eq_some_iff.mp hw
        refine ⟨by show (m.state.setPhase i w.idx .waiting).work callers = _; omega, ?_⟩
        apply alert_lt
        · exact List.length_set
        · rfl
        · exact Notice.Leaves.subset_union hcv _
        · exact Notice.Leaves.subset_union hspawn _
        · intro t
          rw [← Finset.sdiff_empty (s := m.taskCv t)]
          exact Notice.Leaves.subset_union (htask t) _
        · refine .inl ⟨i, hi, hawake, ?_⟩
          apply Finset.mem_union_right
          show i ∈ sleeper _ i
          rw [sleeper_of_waiting (getElem?_setPhase_self hi w.idx .waiting) rfl]
          exact Finset.mem_singleton_self i
      · apply Or.inl
        show s'.work callers < m.state.work callers
        omega
    | @run i w t push hw hphase =>
      apply Or.inl
      have hwork : w.phase.work = 4 := by rw [hphase]; rfl
      have hset := work_setPhase (s := (m.state.setTask t
        { m.state.tasks t with isRunning := true }).access t [.write]) hw w.idx
        (.holding t push .running) callers
      change _ = m.state.work callers + 3 at hset
      show (startRun m.state i w.idx t push).work callers < _
      unfold startRun
      omega
    | @finish i v w t push hw hphase =>
      apply Or.inl
      have hwork : w.phase.work = 3 := by rw [hphase]; rfl
      have hset := work_setPhase hw w.idx (.holding t push (.returned v)) callers
      change _ = m.state.work callers + 2 at hset
      show (m.state.setPhase i w.idx (.holding t push (.returned v))).work callers < _
      omega
    | @record i w t push v _ hw hphase _ htake =>
      apply Or.inl
      have hwork : w.phase.work = 2 := by rw [hphase]; rfl
      have hsame : (addIdle (recordRun m.state t push v)).work callers = m.state.work callers := by
        apply work_congr
        · rw [addIdle, recordRun_pool]
        · exact recordRun_workers m.state t push v
        · exact recordRun_calls m.state t push v
      have hw' : (addIdle (recordRun m.state t push v)).workers[i]? = some w := by
        rw [show (addIdle (recordRun m.state t push v)).workers = m.state.workers from
          recordRun_workers m.state t push v]
        exact hw
      rcases work_look hw' htake callers with ⟨-, hlook⟩ | hlook
      · show s'.work callers < m.state.work callers
        omega
      · show s'.work callers < m.state.work callers
        omega
    | @pushResume c t required hcall =>
      have hc := mem_callers hbusy (c := c) (by rw [hcall]; exact id)
      rcases work_awaitWorker hinv hcall hc with ⟨hsame, hwaits⟩ | hlt
      · apply Or.inr
        simp only [signalsCv, hcall, awaitWorkerSignals, if_pos hwaits] at hcv
        refine ⟨by show (awaitWorker m.state c t required).work callers = _; rw [hsame], ?_⟩
        apply alert_lt
        · show (awaitWorker m.state c t required).workers.length = _
          rw [hsame]
        · show (awaitWorker m.state c t required).calls = _
          rw [hsame]
        · exact Notice.Leaves.subset_union hcv _
        · exact Notice.Leaves.subset_union hspawn _
        · intro u
          rw [← Finset.sdiff_empty (s := m.taskCv u)]
          exact Notice.Leaves.subset_union (htask u) _
        · refine .inr (.inl ⟨c, hc, hawake, ?_⟩)
          apply Finset.mem_union_right
          unfold sleepsOnSpawnCv
          dsimp only
          rw [hsame, hcall]
          exact Finset.mem_singleton_self c
      · exact .inl hlt
    | @joinSection c t timed hcall =>
      have hc := mem_callers hbusy (c := c) (by rw [hcall]; exact id)
      rcases work_joinSection hcall hc with ⟨hsame, hcalls⟩ | hlt
      · apply Or.inr
        have hasleep : c ∈ sleepsOnTaskCv (joinSection m.state c t) t (.joinSection c) := by
          unfold sleepsOnTaskCv
          dsimp only
          rw [hcalls, hcall]
          dsimp only
          rw [if_pos rfl]
          exact Finset.mem_singleton_self c
        refine ⟨hsame, ?_⟩
        apply alert_lt
        · show (joinSection m.state c t).workers.length = _
          rw [(samePool_of_onTask rfl hstep).workers]
        · exact hcalls
        · exact Notice.Leaves.subset_union hcv _
        · exact Notice.Leaves.subset_union hspawn _
        · intro u
          rw [← Finset.sdiff_empty (s := m.taskCv u)]
          exact Notice.Leaves.subset_union (htask u) _
        · refine .inr (.inr ⟨c, hc, ?_, ?_⟩)
          · unfold Monitor.joinsAwake
            rw [hcall]
            exact decide_eq_true (hawake t)
          · unfold Monitor.joinsAwake
            dsimp only
            rw [hcalls, hcall]
            exact decide_eq_false (not_not.mpr (Finset.mem_union_right _ hasleep))
      · exact .inl hlt
    | @detachSection c t hcall =>
      have hc := mem_callers hbusy (c := c) (by rw [hcall]; exact id)
      exact .inl (work_detachSection hcall hc)
    | @detachDelete c t hcall =>
      have hc := mem_callers hbusy (c := c) (by rw [hcall]; exact id)
      exact .inl (work_detachDelete hcall hc)
    | @deletePoolResume c i w hcall =>
      have hc := mem_callers hbusy (c := c) (by rw [hcall]; exact id)
      apply Or.inl
      apply work_joinThreads hcall hc
      have hlt := (h.steady.pool.deleting c i hcall).2.1
      have hlength := h.steady.pool.settled (h.steady.pool.noPush_of_deleting hcall)
      omega
    | _ => cases ha

/-! ## Runs -/

/-- Only a call that is in progress goes on of itself. -/
theorem not_idle_of_internal {a : Action ρ} (ha : a.internal = true) (h : Steps s a s') {c : Nat}
    (hc : a.caller = some c) : ¬ (s.calls c).Idle := by
  have hbusy : ∀ call : Call ρ, s.calls c = call → ¬ call.Idle → ¬ (s.calls c).Idle := by
    intro call hcall hcall'
    rwa [hcall]
  cases h.effect with
  | pushResume hcall | joinSection hcall | detachSection hcall | detachDelete hcall
  | deletePoolResume hcall =>
    cases hc
    exact hbusy _ hcall id
  | start | wake | run | finish | record => cases hc
  | _ => cases ha

theorem idle_of_internal {a : Action ρ} (ha : a.internal = true)
    (hbusy : ∀ c ∉ callers, (s.calls c).Idle) (h : Steps s a s') :
    ∀ c ∉ callers, (s'.calls c).Idle := by
  intro c hc
  rw [calls_of_ne h]
  · exact hbusy c hc
  · exact fun hcaller => not_idle_of_internal ha h hcaller (hbusy c hc)

/-- No thread is created. -/
theorem length_of_internal {a : Action ρ} (ha : a.internal = true) (h : Steps s a s') :
    s'.workers.length = s.workers.length := by
  by_cases honTask : a.onTask = true
  · rw [(samePool_of_onTask honTask h).workers]
  cases h.effect with
  | start _ _ _ htake =>
    obtain ⟨_, hlooked⟩ := exists_looked htake
    rw [hlooked.workers]
    exact List.length_set
  | wake _ _ _ htake =>
    obtain ⟨_, hlooked⟩ := exists_looked htake
    rw [hlooked.workers, List.length_set]
  | record _ _ _ htake =>
    obtain ⟨_, hlooked⟩ := exists_looked htake
    rw [hlooked.workers, List.length_set]
    exact congrArg List.length (recordRun_workers s _ _ _)
  | run => exact List.length_set
  | finish => exact List.length_set
  | pushResume =>
    unfold awaitWorker
    split <;> rfl
  | deletePoolResume =>
    unfold joinThreads
    split <;> rfl
  | _ => first | exact absurd rfl honTask | cases ha

end

/-- The pool is left to itself. -/
def Unaided (m : Monitor ρ) (a : Action ρ) (m' : Monitor ρ) : Prop :=
  a.internal = true ∧ m.Step (.act a) m'

/-- The callers of a run are finitely many. -/
theorem exists_callers {pool : Pool} {m : Monitor ρ}
    (h : Reachable Monitor.Step (.start pool) m) :
    ∃ callers : Finset Nat, ∀ c ∉ callers, (m.state.calls c).Idle := by
  apply h.invariant (P := fun m => ∃ callers : Finset Nat, ∀ c ∉ callers, (m.state.calls c).Idle)
  · exact ⟨∅, fun _ _ => trivial⟩
  · rintro m e m' ⟨callers, hbusy⟩ hstep
    cases hstep with
    | spurious => exact ⟨callers, hbusy⟩
    | @act a _ _ _ _ _ hact =>
      refine ⟨callers ∪ a.caller.toFinset, fun c hc => ?_⟩
      rw [Finset.notMem_union, Option.mem_toFinset] at hc
      show (_ : Call ρ).Idle
      rw [calls_of_ne hact fun heq => hc.2 heq]
      exact hbusy c hc.1

theorem orderly_of_internal {a : Action ρ} (ha : a.internal = true) (s : State ρ) : Orderly s a := by
  cases a <;> trivial

/-- What the threads of the pool keep when they are left to themselves. -/
structure LeftAlone (callers : Finset Nat) (threads : Nat) (m : Monitor ρ) : Prop where
  sound : Sound m
  idle : ∀ c ∉ callers, (m.state.calls c).Idle
  length : m.state.workers.length = threads

theorem LeftAlone.step {callers : Finset Nat} {threads : Nat} {m m' : Monitor ρ} {a : Action ρ}
    (h : LeftAlone callers threads m) (hstep : Unaided m a m') : LeftAlone callers threads m' := by
  obtain ⟨ha, hstep⟩ := hstep
  have horderly : OrderlyEvent m (.act a) := orderly_of_internal ha m.state
  refine ⟨h.sound.step horderly hstep, ?_, ?_⟩
  · cases hstep with
    | act _ hact => exact idle_of_internal ha h.idle hact
  · cases hstep with
    | act _ hact => exact (length_of_internal ha hact).trans h.length

/-- A pool that can take no step at all has run everything. -/
theorem Sound.done_of_unaided [Nonempty ρ] {m : Monitor ρ} (h : Sound m)
    (hstuck : ∀ a m', ¬ Unaided m a m') :
    (∀ k < m.state.pushes.length, ∃ v, (k, v) ∈ m.state.runs) ∧ ∀ c, (m.state.calls c).Idle := by
  have hown : Stuck m := by
    intro a m' ha hstep
    refine hstuck a m' ⟨?_, hstep⟩
    cases a <;> first | rfl | cases ha
  apply h.done_of_stuck hown
  rintro w hw ⟨t, push, hphase⟩
  obtain ⟨i, hi⟩ := List.mem_iff_getElem?.mp hw
  obtain ⟨v⟩ := ‹Nonempty ρ›
  -- the function could return
  have hreturns : Steps m.state (.finish i v)
      (m.state.setPhase i w.idx (.holding t push (.returned v))) := by
    show m.state.workers[i]?.bind _ = _
    rw [hi]
    show workerStep m.state i w (.finish i v) = _
    unfold workerStep
    rw [hphase]
  obtain ⟨m', hm'⟩ := Monitor.exists_step (a := .finish i v) trivial hreturns
  exact hstuck _ m' ⟨rfl, hm'⟩

/-- Left to themselves the threads of the pool take a bounded number of steps, in whatever order, and
when no further step is possible every push has been run and every call has returned. -/
theorem left_alone_runs_everything [Nonempty ρ] {maxThreadCount : Int} {pool : Pool} {m : Monitor ρ}
    (hnew : threadPoolNew maxThreadCount = some pool)
    (h : Reachable (Within OrderlyEvent Monitor.Step) (.start pool) m) :
    ∃ bound, ∀ as m', Run Unaided m as m' → as.length ≤ bound ∧
      ((∀ a m'', ¬ Unaided m' a m'') →
        (∀ k < m'.state.pushes.length, ∃ v, (k, v) ∈ m'.state.runs) ∧
          ∀ c, (m'.state.calls c).Idle) := by
  obtain ⟨es, hrun⟩ := h
  obtain ⟨callers, hidle⟩ := exists_callers ⟨es, hrun.of_within⟩
  have halone : LeftAlone callers m.state.workers.length m := ⟨sound_run hnew ⟨es, hrun⟩, hidle, rfl⟩
  have hkeep : ∀ (m₁ : Monitor ρ) a m₂, LeftAlone callers m.state.workers.length m₁ →
      Unaided m₁ a m₂ → LeftAlone callers m.state.workers.length m₂ :=
    fun _ _ _ hm hstep => hm.step hstep
  have hbound : ∀ m₁ : Monitor ρ, LeftAlone callers m.state.workers.length m₁ →
      m₁.alert callers ≤ m.state.workers.length + 2 * callers.card := by
    intro m₁ hm₁
    rw [← hm₁.length]
    exact m₁.alert_le callers
  have hdec : ∀ (m₁ : Monitor ρ) a m₂, LeftAlone callers m.state.workers.length m₁ →
      Unaided m₁ a m₂ → m₂.state.work callers < m₁.state.work callers ∨
        m₂.state.work callers = m₁.state.work callers ∧ m₂.alert callers < m₁.alert callers :=
    fun _ _ _ hm hstep => hm.sound.work_step hstep.1 hm.idle hstep.2
  refine ⟨_, fun as m' hrun' => ⟨hrun'.length_le_of_lex hkeep hbound hdec halone, fun hstuck => ?_⟩⟩
  exact (hrun'.invariant hkeep halone).sound.done_of_unaided hstuck

/-- A push has begun, and its worker has not started yet. -/
theorem left_alone_runs_everything_firstPush : ∃ m : Monitor Unit,
    (∃ c t required, m.state.calls c = .pushing t required) ∧
    ∃ bound, ∀ as m', Run Unaided m as m' → as.length ≤ bound ∧
      ((∀ a m'', ¬ Unaided m' a m'') →
        (∀ k < m'.state.pushes.length, ∃ v, (k, v) ∈ m'.state.runs) ∧
          ∀ c, (m'.state.calls c).Idle) := by
  refine ⟨_, ?_, left_alone_runs_everything (show threadPoolNew 2 = some twoPool from rfl)
    ⟨[.act (.push 0 0)], .cons ⟨⟨⟨rfl, rfl⟩, fun _ => id⟩, .act trivial rfl rfl rfl fun _ => rfl⟩ (.nil _)⟩⟩
  exact ⟨0, 0, 1, rfl⟩

end SystemProgramming.ThreadPool
