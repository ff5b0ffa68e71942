import SystemProgramming.Lib.Runs
import SystemProgramming.ThreadPool.Step

/-!
# The limits of the thread pool

A push that has created a worker gives the mutex up until the worker has counted itself.  What the
push has read before is then out of date: another push may create a second worker of the same index,
count it past the limit, or leave the first push with a number that the count has passed.
-/

open Runs

namespace SystemProgramming.ThreadPool

variable {ρ : Type}

/-! ## The limits, and the steps that keep them -/

structure WithinLimits (s : State ρ) : Prop where
  threads : s.pool.threadCount ≤ s.pool.maxThreadCount
  indices : (s.workers.map Worker.idx).Nodup
  pending : s.pool.pendingTaskCount ≤ tpoolMaxTasks
  waits : ∀ c t required, s.calls c = .pushing t required → s.pool.threadCount ≤ required

/-- The worker has counted itself. -/
def Worker.counted (w : Worker ρ) : Bool :=
  match w.phase with
  | .created => false
  | _ => true

/-- A push would create a worker here. -/
def Spawns (s : State ρ) : Prop :=
  s.pool.pendingTaskCount < tpoolMaxTasks ∧
    (s.pool.threads = none ∨
      s.pool.idleThreadCount = 0 ∧ s.pool.threadCount < s.pool.maxThreadCount)

/-- A push creates a worker only when every created worker has counted itself, a worker counts
itself only when no push waits for the present count, and a push that has waited links its task only
when there is room. -/
def Timely (s : State ρ) : Action ρ → Prop
  | .push _ _ => Spawns s → ∀ w ∈ s.workers, w.counted = true
  | .start _ => ∀ c t required, s.calls c = .pushing t required → s.pool.threadCount ≠ required
  | .pushResume c => ∀ t, s.calls c = .pushing t s.pool.threadCount →
    s.pool.pendingTaskCount < tpoolMaxTasks
  | _ => True

/-! ## The invariant -/

/-- The index of a worker is its place in the order of creation. -/
structure LimitInv (s : State ρ) : Prop where
  indices : s.workers.map Worker.idx = (List.range s.workers.length).map Int.ofNat
  counted : s.pool.threadCount = s.workers.countP Worker.counted
  threads : s.pool.threads = none → s.workers = []
  limit : (s.workers.length : Int) ≤ s.pool.maxThreadCount
  positive : 1 ≤ s.pool.maxThreadCount
  pending : s.pool.pendingTaskCount ≤ tpoolMaxTasks
  waits : ∀ c t required, s.calls c = .pushing t required → s.pool.threadCount ≤ required

section

variable {s s' : State ρ}

theorem nodup_indices (n : Nat) : ((List.range n).map Int.ofNat).Nodup :=
  List.nodup_range.map fun _ _ => Int.ofNat.inj

theorem LimitInv.within (h : LimitInv s) : WithinLimits s := by
  refine ⟨?_, ?_, h.pending, h.waits⟩
  · have hcount := List.countP_le_length (p := Worker.counted) (l := s.workers)
    have hcounted := h.counted
    have hlimit := h.limit
    omega
  · rw [h.indices]
    exact nodup_indices _

/-- Steps of the callers that neither create a worker nor link a task. -/
theorem LimitInv.call (h : LimitInv s) (hworkers : s'.workers = s.workers)
    (hthreads : s'.pool.threads = s.pool.threads)
    (hcount : s'.pool.threadCount = s.pool.threadCount)
    (hmax : s'.pool.maxThreadCount = s.pool.maxThreadCount)
    (hpending : s'.pool.pendingTaskCount ≤ tpoolMaxTasks)
    (hcalls : ∀ c t required, s'.calls c = .pushing t required →
      s.pool.threadCount ≤ required) : LimitInv s' := by
  refine ⟨?_, ?_, ?_, ?_, ?_, hpending, ?_⟩
  · rw [hworkers, h.indices]
  · rw [hworkers, hcount, h.counted]
  · rw [hworkers, hthreads]
    exact h.threads
  · rw [hworkers, hmax]
    exact h.limit
  · rw [hmax]
    exact h.positive
  · rw [hcount]
    exact hcalls

/-- A call that becomes anything but a waiting push. -/
theorem LimitInv.waits_update (h : LimitInv s) {c : Nat} {call : Call ρ}
    (hcall : ∀ t required, call = .pushing t required → s.pool.threadCount ≤ required) :
    ∀ d t required, Function.update s.calls c call d = .pushing t required →
      s.pool.threadCount ≤ required := by
  intro d t required hd
  by_cases heq : d = c
  · rw [heq, Function.update_self] at hd
    exact hcall t required hd
  · rw [Function.update_of_ne heq] at hd
    exact h.waits d t required hd

theorem LimitInv.setCall (h : LimitInv s) (c : Nat) {call : Call ρ}
    (hcall : ∀ t required, call = .pushing t required → s.pool.threadCount ≤ required) :
    LimitInv (s.setCall c call) :=
  h.call rfl rfl rfl rfl h.pending (h.waits_update hcall)

theorem LimitInv.access (h : LimitInv s) (t : TaskId) (as : List Access) :
    LimitInv (s.access t as) :=
  h.call rfl rfl rfl rfl h.pending h.waits

theorem LimitInv.setTask (h : LimitInv s) (t : TaskId) (task : Task ρ) :
    LimitInv (s.setTask t task) :=
  h.call rfl rfl rfl rfl h.pending h.waits

theorem LimitInv.threadTaskDelete (h : LimitInv s) (t : TaskId) :
    LimitInv (threadTaskDelete s t).1 := by
  rw [threadTaskDelete_eq]
  exact h.access t _

/-! ## Workers -/

/-- What a worker does with the mutex of the pool. -/
theorem waitOrTake_limits {i : Nat} {idx : Int} (h : waitOrTake s i idx = some s') :
    ∃ phase, Worker.counted (ρ := ρ) ⟨idx, phase⟩ = true ∧
      s'.workers = s.workers.set i ⟨idx, phase⟩ ∧ s'.pool.threads = s.pool.threads ∧
      s'.pool.threadCount = s.pool.threadCount ∧
      s'.pool.maxThreadCount = s.pool.maxThreadCount ∧
      s'.pool.pendingTaskCount ≤ s.pool.pendingTaskCount ∧ s'.calls = s.calls := by
  rcases waitOrTake_cases h with ⟨-, rfl⟩ | ⟨-, rfl⟩ | ⟨-, t, -, rfl⟩
  · exact ⟨.waiting, rfl, rfl, rfl, rfl, rfl, le_refl _, rfl⟩
  · exact ⟨.exited, rfl, rfl, rfl, rfl, rfl, le_refl _, rfl⟩
  · refine ⟨_, ?_, rfl, rfl, rfl, rfl, ?_, rfl⟩
    · rfl
    · change s.pool.pendingTaskCount - 1 ≤ _
      omega

theorem map_idx_set {ws : List (Worker ρ)} {i : Nat} {w : Worker ρ} (hw : ws[i]? = some w)
    (phase : Phase ρ) : (ws.set i ⟨w.idx, phase⟩).map Worker.idx = ws.map Worker.idx := by
  obtain ⟨hi, rfl⟩ := List.getElem?_eq_some_iff.mp hw
  rw [List.map_set]
  refine List.ext_getElem (List.length_set ..) fun j hj hj' => ?_
  rw [List.getElem_set]
  split
  · next heq =>
    subst heq
    rw [List.getElem_map]
  · rfl

theorem countP_counted_set {ws : List (Worker ρ)} {i : Nat} {w : Worker ρ} (hw : ws[i]? = some w)
    {idx : Int} {phase : Phase ρ} (hphase : Worker.counted (ρ := ρ) ⟨idx, phase⟩ = true) :
    (ws.set i ⟨idx, phase⟩).countP Worker.counted =
      ws.countP Worker.counted + if w.counted then 0 else 1 := by
  obtain ⟨hi, hget⟩ := List.getElem?_eq_some_iff.mp hw
  have hsplit : ws = ws.take i ++ w :: ws.drop (i + 1) := by
    rw [← hget, ← List.drop_eq_getElem_cons hi, List.take_append_drop]
  rw [List.set_eq_take_cons_drop _ hi]
  conv_rhs => rw [hsplit]
  simp only [List.countP_append, List.countP_cons, hphase, if_true]
  split <;> omega

/-- A worker goes on, and counts itself if it has not yet. -/
theorem LimitInv.worker (h : LimitInv s) {i : Nat} {w : Worker ρ} (hw : s.workers[i]? = some w)
    (phase : Phase ρ) (hphase : Worker.counted (ρ := ρ) ⟨w.idx, phase⟩ = true)
    (hworkers : s'.workers = s.workers.set i ⟨w.idx, phase⟩)
    (hthreads : s'.pool.threads = s.pool.threads)
    (hcount : s'.pool.threadCount = s.pool.threadCount + if w.counted then 0 else 1)
    (hmax : s'.pool.maxThreadCount = s.pool.maxThreadCount)
    (hpending : s'.pool.pendingTaskCount ≤ s.pool.pendingTaskCount)
    (hwaits : ∀ c t required, s'.calls c = .pushing t required →
      s'.pool.threadCount ≤ required) : LimitInv s' := by
  have hlength : s'.workers.length = s.workers.length := by rw [hworkers, List.length_set]
  refine ⟨?_, ?_, ?_, ?_, ?_, hpending.trans h.pending, hwaits⟩
  · rw [hlength, hworkers, map_idx_set hw, h.indices]
  · rw [hcount, hworkers, countP_counted_set hw hphase, h.counted]
    split <;> simp
  · intro hnone
    rw [hthreads] at hnone
    rw [h.threads hnone] at hw
    cases hw
  · rw [hlength, hmax]
    exact h.limit
  · rw [hmax]
    exact h.positive

/-! ## Pushes -/

theorem LimitInv.threadCount_of_none (h : LimitInv s) (hnone : s.pool.threads = none) :
    s.pool.threadCount = 0 := by
  rw [h.counted, h.threads hnone]
  rfl

/-- The index of a created worker is the count, and the push waits for one more. -/
theorem LimitInv.spawnWorker_of_spawns (h : LimitInv s) (hspawns : Spawns s) :
    s.pool.threadCount < s.pool.maxThreadCount ∧ ∃ threads,
      spawnWorker s = (createWorker s threads s.pool.threadCount, s.pool.threadCount + 1) := by
  unfold spawnWorker
  cases hthreads : s.pool.threads with
  | none =>
    have hzero := h.threadCount_of_none hthreads
    have hpositive := h.positive
    rw [hzero]
    exact ⟨by omega, [none], rfl⟩
  | some threads =>
    have hroom := hspawns.2.resolve_left (by rw [hthreads]; exact Option.some_ne_none _)
    dsimp only
    rw [if_pos hroom]
    exact ⟨hroom.2, _, rfl⟩

theorem spawnWorker_of_not_spawns (hpending : s.pool.pendingTaskCount < tpoolMaxTasks)
    (hspawns : ¬ Spawns s) : spawnWorker s = (s, s.pool.threadCount) := by
  rw [Spawns, not_and, not_or] at hspawns
  obtain ⟨hsome, hroom⟩ := hspawns hpending
  obtain ⟨threads, hthreads⟩ := Option.ne_none_iff_exists'.mp hsome
  unfold spawnWorker
  rw [hthreads]
  dsimp only
  rw [if_neg hroom]

theorem threadPoolPushTask_of_spawns (h : LimitInv s) (hspawns : Spawns s) (c : Nat) (t : TaskId) :
    ∃ threads, threadPoolPushTask s c t =
      (createWorker s threads s.pool.threadCount).setCall c
        (.pushing t (s.pool.threadCount + 1)) := by
  obtain ⟨-, threads, hspawn⟩ := h.spawnWorker_of_spawns hspawns
  refine ⟨threads, ?_⟩
  unfold threadPoolPushTask
  rw [if_neg (by have := hspawns.1; omega), hspawn]
  unfold awaitWorker
  rw [if_pos]
  change s.pool.threadCount ≠ s.pool.threadCount + 1
  omega

theorem threadPoolPushTask_of_not_spawns (hpending : s.pool.pendingTaskCount < tpoolMaxTasks)
    (hspawns : ¬ Spawns s) (c : Nat) (t : TaskId) :
    threadPoolPushTask s c t = (linkTask s t).setCall c (.done .ok none) := by
  unfold threadPoolPushTask awaitWorker
  rw [if_neg (by omega), spawnWorker_of_not_spawns hpending hspawns]
  exact if_neg (not_not.mpr rfl)

theorem LimitInv.linkTask (h : LimitInv s) (hroom : s.pool.pendingTaskCount < tpoolMaxTasks)
    (c : Nat) (t : TaskId) : LimitInv ((linkTask s t).setCall c (.done .ok none)) := by
  refine h.call rfl rfl rfl rfl ?_ (h.waits_update fun _ _ hcall => nomatch hcall)
  change s.pool.pendingTaskCount + 1 ≤ tpoolMaxTasks
  omega

/-- When all workers are counted the next index is new. -/
theorem LimitInv.createWorker (h : LimitInv s) (hcounted : ∀ w ∈ s.workers, w.counted = true)
    (hroom : s.pool.threadCount < s.pool.maxThreadCount) (threads : List (Option Nat)) (c : Nat)
    (t : TaskId) : LimitInv ((createWorker s threads s.pool.threadCount).setCall c
      (.pushing t (s.pool.threadCount + 1))) := by
  have hlength : s.pool.threadCount = s.workers.length := by
    rw [h.counted, List.countP_eq_length.mpr hcounted]
  have hworkers : (ThreadPool.createWorker s threads s.pool.threadCount).workers =
      s.workers ++ [⟨s.pool.threadCount, .created⟩] := rfl
  refine ⟨?_, ?_, (fun hnone => nomatch hnone), ?_, h.positive, h.pending, ?_⟩
  · rw [setCall_workers, hworkers, List.map_append, h.indices, List.length_append,
      List.length_singleton, List.range_succ, List.map_append]
    exact congrArg (fun n => _ ++ [n]) hlength
  · rw [setCall_workers, hworkers, List.countP_append]
    exact h.counted
  · rw [setCall_workers, hworkers, List.length_append]
    change ((s.workers.length + 1 : Nat) : Int) ≤ s.pool.maxThreadCount
    omega
  · refine h.waits_update fun t required hcall => ?_
    cases hcall
    omega

/-- A worker that is not counted has an index from the count on. -/
theorem LimitInv.index_taken (h : LimitInv s) {w : Worker ρ} (hw : w ∈ s.workers)
    (huncounted : w.counted = false) : s.pool.threadCount ∈ s.workers.map Worker.idx := by
  have hlt : s.workers.countP Worker.counted < s.workers.length := by
    refine List.countP_le_length.lt_of_ne fun heq => ?_
    have hall := List.countP_eq_length.mp heq w hw
    rw [huncounted] at hall
    cases hall
  rw [h.indices, h.counted]
  exact List.mem_map.mpr ⟨_, List.mem_range.mpr hlt, rfl⟩

/-! ## Steps -/

theorem LimitInv.joinThreads (h : LimitInv s) (c : Nat) (i : Int) :
    LimitInv (joinThreads s c i) := by
  unfold ThreadPool.joinThreads
  split
  · exact h.call rfl rfl rfl rfl h.pending (h.waits_update fun _ _ hcall => nomatch hcall)
  · exact h.call rfl rfl rfl rfl h.pending (h.waits_update fun _ _ hcall => nomatch hcall)

theorem LimitInv.threadPoolDelete (h : LimitInv s) (c : Nat) :
    LimitInv (threadPoolDelete s c) := by
  unfold ThreadPool.threadPoolDelete
  split
  · exact h.setCall c fun _ _ hcall => nomatch hcall
  · split
    · exact h.call rfl rfl rfl rfl h.pending (h.waits_update fun _ _ hcall => nomatch hcall)
    · exact h.joinThreads c 0

theorem LimitInv.joinSection (h : LimitInv s) (c : Nat) (t : TaskId) :
    LimitInv (ThreadPool.joinSection s c t) := by
  unfold ThreadPool.joinSection
  dsimp only
  split
  · exact (((h.access t _).setTask t _).access t _).setCall c fun _ _ hcall => nomatch hcall
  · exact (h.access t _).access t _

theorem LimitInv.detachSection (h : LimitInv s) (c : Nat) (t : TaskId) :
    LimitInv (ThreadPool.detachSection s c t) := by
  have hleft := (((h.access t [.lock, .write]).setTask t { s.tasks t with pool := false }).access t
    [.read])
  unfold ThreadPool.detachSection
  dsimp only
  split
  · exact (hleft.access t _).setCall c fun _ _ hcall => nomatch hcall
  · have hdetached := ((hleft.setTask t { s.tasks t with pool := false, isDetached := true }).access t
      [.write, .unlock])
    exact hdetached.call rfl rfl rfl rfl h.pending
      (h.waits_update fun _ _ hcall => nomatch hcall)

theorem LimitInv.detachDelete (h : LimitInv s) (c : Nat) (t : TaskId) :
    LimitInv (ThreadPool.detachDelete s c t) := by
  have hdeleted := h.threadTaskDelete t
  unfold ThreadPool.detachDelete
  exact hdeleted.call rfl rfl rfl rfl hdeleted.pending
    (hdeleted.waits_update fun _ _ hcall => nomatch hcall)

theorem LimitInv.push (h : LimitInv s) (c : Nat) (t : TaskId)
    (htimely : Spawns s → ∀ w ∈ s.workers, w.counted = true) :
    LimitInv (threadPoolPushTask s c t) := by
  by_cases hspawns : Spawns s
  · obtain ⟨threads, hpush⟩ := threadPoolPushTask_of_spawns h hspawns c t
    rw [hpush]
    exact h.createWorker (htimely hspawns) (h.spawnWorker_of_spawns hspawns).1 threads c t
  · by_cases hpending : s.pool.pendingTaskCount < tpoolMaxTasks
    · rw [threadPoolPushTask_of_not_spawns hpending hspawns]
      exact h.linkTask hpending c t
    · unfold threadPoolPushTask
      rw [if_pos (by omega)]
      exact h.setCall c fun _ _ hcall => nomatch hcall

/-- The old index is given out again. -/
theorem LimitInv.not_push (h : LimitInv s) (c : Nat) (t : TaskId) (hspawns : Spawns s)
    (hlate : ¬ ∀ w ∈ s.workers, w.counted = true) :
    ¬ WithinLimits (threadPoolPushTask s c t) := by
  intro hwithin
  obtain ⟨threads, hpush⟩ := threadPoolPushTask_of_spawns h hspawns c t
  simp only [not_forall, Bool.not_eq_true] at hlate
  obtain ⟨w, hw, huncounted⟩ := hlate
  have hindices := hwithin.indices
  rw [hpush, setCall_workers, ThreadPool.createWorker, List.map_append, List.nodup_append] at hindices
  exact hindices.2.2 _ (h.index_taken hw huncounted) _ (List.mem_singleton.mpr rfl) rfl

theorem LimitInv.start (h : LimitInv s) {i : Nat} {w : Worker ρ} (hw : s.workers[i]? = some w)
    (hphase : w.phase = .created)
    (htake : waitOrTake (addIdle (countThread s)) i w.idx = some s')
    (htimely : ∀ c t required, s.calls c = .pushing t required → s.pool.threadCount ≠ required) :
    LimitInv s' := by
  obtain ⟨phase, hcounted, hworkers, hthreads, hcount, hmax, hpending, hcalls⟩ :=
    waitOrTake_limits htake
  have huncounted : w.counted = false := by rw [Worker.counted, hphase]
  refine h.worker hw _ hcounted hworkers hthreads ?_ hmax hpending fun c t required hcall => ?_
  · rw [hcount, huncounted]
    rfl
  · rw [hcalls] at hcall
    have hle := h.waits c t required hcall
    have hne := htimely c t required hcall
    rw [hcount]
    change s.pool.threadCount + 1 ≤ required
    omega

/-- The count passes the number that a push waits for. -/
theorem not_start {i : Nat} {w : Worker ρ}
    (htake : waitOrTake (addIdle (countThread s)) i w.idx = some s')
    (hlate : ¬ ∀ c t required, s.calls c = .pushing t required → s.pool.threadCount ≠ required) :
    ¬ WithinLimits s' := by
  intro hwithin
  obtain ⟨phase, -, -, -, hcount, -, -, hcalls⟩ := waitOrTake_limits htake
  simp only [not_forall, ne_eq, not_not] at hlate
  obtain ⟨c, t, required, hcall, heq⟩ := hlate
  have hwait := hwithin.waits c t required (by rw [hcalls]; exact hcall)
  rw [hcount, ← heq] at hwait
  change s.pool.threadCount + 1 ≤ s.pool.threadCount at hwait
  omega

theorem LimitInv.pushResume (h : LimitInv s) {c : Nat} {t : TaskId} {required : Int}
    (hcall : s.calls c = .pushing t required)
    (htimely : s.pool.threadCount = required → s.pool.pendingTaskCount < tpoolMaxTasks) :
    LimitInv (awaitWorker s c t required) := by
  unfold awaitWorker
  split
  · refine h.setCall c fun u k hu => ?_
    cases hu
    exact h.waits c t required hcall
  · next heq => exact h.linkTask (htimely (not_not.mp heq)) c t

/-- A task is linked to a list that is full. -/
theorem not_pushResume {c : Nat} {t : TaskId} {required : Int}
    (heq : s.pool.threadCount = required) (hfull : ¬ s.pool.pendingTaskCount < tpoolMaxTasks) :
    ¬ WithinLimits (awaitWorker s c t required) := by
  intro hwithin
  have hpending := hwithin.pending
  unfold awaitWorker at hpending
  rw [if_neg (not_not.mpr heq)] at hpending
  change s.pool.pendingTaskCount + 1 ≤ tpoolMaxTasks at hpending
  omega

/-- The steps of the workers that count no thread. -/
theorem LimitInv.goOn (h : LimitInv s) {i : Nat} {w : Worker ρ} (hw : s.workers[i]? = some w)
    (hcounted : w.counted = true) {s₁ : State ρ} (hworkers : s₁.workers = s.workers)
    (hthreads : s₁.pool.threads = s.pool.threads)
    (hcount : s₁.pool.threadCount = s.pool.threadCount)
    (hmax : s₁.pool.maxThreadCount = s.pool.maxThreadCount)
    (hpending : s₁.pool.pendingTaskCount = s.pool.pendingTaskCount) (hcalls : s₁.calls = s.calls)
    (htake : waitOrTake s₁ i w.idx = some s') : LimitInv s' := by
  obtain ⟨phase, hphase, hworkers', hthreads', hcount', hmax', hpending', hcalls'⟩ :=
    waitOrTake_limits htake
  refine h.worker hw _ hphase (by rw [hworkers', hworkers]) (hthreads'.trans hthreads) ?_
    (hmax'.trans hmax) (hpending'.trans hpending.le) fun c t required hcall => ?_
  · rw [hcount', hcount, hcounted]
    simp
  · rw [hcalls', hcalls] at hcall
    rw [hcount', hcount]
    exact h.waits c t required hcall

theorem LimitInv.step (h : LimitInv s) {a : Action ρ} (htimely : Timely s a)
    (hstep : Steps s a s') : LimitInv s' := by
  cases hstep.effect with
  | start hw hphase _ htake => exact h.start hw hphase htake htimely
  | wake hw hphase _ htake =>
    exact h.goOn hw (by rw [Worker.counted, hphase]) rfl rfl rfl rfl rfl rfl htake
  | @run i w t push hw hphase =>
    -- a worker that has a task stays counted
    have hcounted : w.counted = true := by rw [Worker.counted, hphase]
    refine h.worker hw (.holding t push .running) rfl rfl rfl ?_ rfl (le_refl _) h.waits
    rw [hcounted]
    exact (Int.add_zero _).symm
  | @finish i v w t push hw hphase =>
    have hcounted : w.counted = true := by rw [Worker.counted, hphase]
    refine h.worker hw (.holding t push (.returned v)) rfl rfl rfl ?_ rfl (le_refl _)
      h.waits
    rw [hcounted]
    exact (Int.add_zero _).symm
  | @record i w t push v _ hw hphase _ htake =>
    have hworkers : (addIdle (recordRun s t push v)).workers = s.workers :=
      recordRun_workers s t push v
    have hpool := recordRun_pool s t push v
    refine h.goOn hw (by rw [Worker.counted, hphase]) hworkers ?_ ?_ ?_ ?_
      (recordRun_calls s t push v) htake
    all_goals simp only [addIdle, hpool]
  | push => exact h.push _ _ htimely
  -- the calls that follow touch no counter
  | @join c t timed =>
    unfold threadTaskJoin
    dsimp only
    split
    · exact (h.access t _).setCall c fun _ _ hcall => nomatch hcall
    · exact (h.access t _).setCall c fun _ _ hcall => nomatch hcall
  | @detach c t =>
    unfold threadTaskDetach
    dsimp only
    split
    · exact (h.access t _).setCall c fun _ _ hcall => nomatch hcall
    · exact (h.access t _).setCall c fun _ _ hcall => nomatch hcall
  | deleteTask => exact (h.threadTaskDelete _).setCall _ fun _ _ hcall => nomatch hcall
  | deletePool => exact h.threadPoolDelete _
  | pushResume hcall => exact h.pushResume hcall fun heq => htimely _ (heq ▸ hcall)
  | joinSection => exact h.joinSection _ _
  | joinTimeout => exact (h.access _ _).setCall _ fun _ _ hcall => nomatch hcall
  | detachSection => exact h.detachSection _ _
  | detachDelete => exact h.detachDelete _ _
  | deletePoolResume => exact h.joinThreads _ _

/-- A step that is not timely leads out of the limits. -/
theorem LimitInv.not_step (h : LimitInv s) {a : Action ρ} (hlate : ¬ Timely s a)
    (hstep : Steps s a s') : ¬ WithinLimits s' := by
  cases hstep.effect with
  | start _ _ _ htake => exact not_start htake hlate
  | push =>
    obtain ⟨hspawns, hlate⟩ := Classical.not_imp.mp hlate
    exact h.not_push _ _ hspawns hlate
  | pushResume hcall =>
    simp only [Timely, not_forall] at hlate
    obtain ⟨u, hu, hfull⟩ := hlate
    rw [hcall] at hu
    cases hu
    exact not_pushResume rfl hfull
  | _ => exact absurd trivial hlate

theorem limitInv_start {maxThreadCount : Int} {pool : Pool}
    (hnew : threadPoolNew maxThreadCount = some pool) : LimitInv (State.start (ρ := ρ) pool) := by
  unfold threadPoolNew at hnew
  split at hnew
  · cases hnew
  · next hmax =>
    cases hnew
    rw [not_or, not_lt] at hmax
    refine ⟨rfl, rfl, fun _ => rfl, ?_, hmax.1, ?_, fun _ _ _ hcall => nomatch hcall⟩
    · change (0 : Int) ≤ maxThreadCount
      omega
    · change (0 : Int) ≤ 100000
      decide

end

/-- The limits hold in every state of a run exactly if every step of the run is timely. -/
theorem limits_iff {maxThreadCount : Int} {pool : Pool} {s : State ρ} {as : List (Action ρ)}
    (hnew : threadPoolNew maxThreadCount = some pool) (h : Run Steps (.start pool) as s) :
    (∀ bs u, bs <+: as → Run Steps (.start pool) bs u → WithinLimits u) ↔
      Run (Within Timely Steps) (.start pool) as s :=
  always_iff_within steps_unique (fun _ => LimitInv.within)
    (fun _ _ _ hinv htimely hstep => hinv.step htimely hstep)
    (fun _ _ _ hinv hlate hstep => hinv.not_step hlate hstep) (limitInv_start hnew) h

/-- A new pool for one thread. -/
def onePool : Pool := ⟨none, 0, 0, none, 1, 0, 0, -1⟩

/-- A push by one caller, with the worker that it creates. -/
def lonePush : List (Action Unit) := [.push 0 0, .start 0, .pushResume 0]

theorem limits_iff_lonePush : ∃ s,
    (∀ bs u, bs <+: lonePush → Run Steps (.start onePool) bs u → WithinLimits u) ↔
      Run (Within Timely Steps) (.start onePool) lonePush s :=
  ⟨_, limits_iff (show threadPoolNew 1 = some onePool from rfl)
    (.cons rfl (.cons rfl (.cons rfl (.nil _))))⟩

/-- Two callers push at the same time to a pool that may have one thread: both create a worker, with
the index 0. -/
theorem two_pushes_two_workers : threadPoolNew 1 = some onePool ∧
    ∃ s : State Unit, Run Steps (.start onePool) [.push 0 0, .push 1 1] s ∧ ¬ WithinLimits s := by
  refine ⟨rfl, _, .cons rfl (.cons rfl (.nil _)), fun h => ?_⟩
  exact absurd h.indices (by decide)

end SystemProgramming.ThreadPool
