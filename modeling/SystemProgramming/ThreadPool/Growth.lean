import SystemProgramming.ThreadPool.Accounting
import SystemProgramming.ThreadPool.Limits

/-!
# The growth of the thread pool

A push creates a worker only when no worker is idle.  A worker that was signalled for an earlier task
is idle until it has taken that task, so a push that comes before it has can find an idle worker with
nothing left to give to the new task.
-/

open Runs

namespace SystemProgramming.ThreadPool

variable {ρ : Type}

/-- No push waits for its worker. -/
def NoPush (s : State ρ) : Prop := ∀ c t required, s.calls c ≠ .pushing t required

/-- A push begins only when no other is in progress. -/
def PushesAlone (s : State ρ) : Action ρ → Prop
  | .push _ _ => NoPush s
  | _ => True

def Worker.alive (w : Worker ρ) : Bool :=
  match w.phase with
  | .exited => false
  | _ => true

/-- Between two pushes every pending task has an idle worker or the pool is full.  Before the pool is
deleted, as many tasks as it may have threads have a thread each. -/
def Served (s : State ρ) : Prop :=
  NoPush s →
    (s.pool.pendingTaskCount ≤ s.pool.idleThreadCount ∨
      s.pool.threadCount = s.pool.maxThreadCount) ∧
    (s.pool.threadIdxThatShouldExit = -1 →
      s.pool.pendingTaskCount + s.pool.runningTaskCount ≤ s.pool.maxThreadCount →
      s.pool.pendingTaskCount + s.pool.runningTaskCount ≤ s.workers.countP Worker.alive)

/-- A push that is not refused finds no idle worker, an idle worker that no pending task needs, or a
pool that is full. -/
def FindsWorker (s : State ρ) : Action ρ → Prop
  | .push _ _ => s.pool.pendingTaskCount < tpoolMaxTasks →
    s.pool.idleThreadCount = 0 ∨ s.pool.pendingTaskCount < s.pool.idleThreadCount ∨
      s.pool.threadCount = s.pool.maxThreadCount
  | _ => True

/-! ## The invariant -/

/-- While a push waits for its worker nothing is pending. -/
structure Growth (s : State ρ) : Prop where
  balance : s.pool.idleThreadCount + s.pool.runningTaskCount = s.pool.threadCount
  unused : s.pool.threads = none → s.pool.idleThreadCount = 0
  alive : s.pool.threadIdxThatShouldExit = -1 → ∀ w ∈ s.workers, w.alive = true
  joining : ∀ c i, s.calls c = .joiningThread i → 0 ≤ i
  alone : ∀ c d t u k m, s.calls c = .pushing t k → s.calls d = .pushing u m → c = d
  waits : ∀ c t required, s.calls c = .pushing t required →
    s.workers.length = required ∧ s.pool.pendingTaskCount ≤ 0 ∧ 0 ≤ s.pool.idleThreadCount ∧
      (s.pool.threadCount = required → 1 ≤ s.pool.idleThreadCount)
  settled : NoPush s → s.workers.length = s.pool.threadCount ∧
    (s.pool.pendingTaskCount ≤ s.pool.idleThreadCount ∨
      s.pool.threadCount = s.pool.maxThreadCount)

section

variable {s s' : State ρ}

theorem Growth.served (h : Growth s) : Served s := by
  intro hno
  obtain ⟨hlength, hpending⟩ := h.settled hno
  refine ⟨hpending, fun hexit hmax => ?_⟩
  have hcount : s.workers.countP Worker.alive = s.workers.length :=
    List.countP_eq_length.mpr (h.alive hexit)
  have hbalance := h.balance
  rw [hcount, hlength]
  rcases hpending with hle | hfull
  · omega
  · omega

/-- Every worker has counted itself when no push waits. -/
theorem LimitInv.all_counted (hlimits : LimitInv s)
    (hlength : s.workers.length = s.pool.threadCount) : ∀ w ∈ s.workers, w.counted = true := by
  refine List.countP_eq_length.mp ?_
  have hcounted := hlimits.counted
  omega

theorem LimitInv.length_ne_of_created (hlimits : LimitInv s) {i : Nat} {w : Worker ρ}
    (hw : s.workers[i]? = some w) (hphase : w.phase = .created) :
    s.workers.length ≠ s.pool.threadCount := by
  intro hlength
  have hall := hlimits.all_counted hlength w (List.mem_of_getElem? hw)
  rw [Worker.counted, hphase] at hall
  cases hall

theorem Growth.timely (h : Growth s) (hlimits : LimitInv s) {a : Action ρ}
    (halone : PushesAlone s a) (hstep : Steps s a s') : Timely s a := by
  cases hstep.effect with
  | push => exact fun _ => hlimits.all_counted (h.settled halone).1
  | start hw hphase =>
    intro c t required hcall heq
    have hlength := (h.waits c t required hcall).1
    exact hlimits.length_ne_of_created hw hphase (hlength.trans heq.symm)
  | pushResume _ =>
    intro t hcall
    have hpending := (h.waits _ t _ hcall).2.1
    change s.pool.pendingTaskCount < 100000
    omega
  | _ => trivial

/-! ## Callers -/

/-- Steps that leave the counters and the workers alone. -/
theorem Growth.frame (h : Growth s) (hpool : SameCounts s.pool s'.pool)
    (hthreads : s'.pool.threads = s.pool.threads)
    (hmax : s'.pool.maxThreadCount = s.pool.maxThreadCount) (hworkers : s'.workers = s.workers)
    (hexit : s'.pool.threadIdxThatShouldExit = -1 → s.pool.threadIdxThatShouldExit = -1)
    (hjoining : ∀ c i, s'.calls c = .joiningThread i → 0 ≤ i)
    (hcalls : ∀ c t required, s'.calls c = .pushing t required ↔ s.calls c = .pushing t required) :
    Growth s' := by
  refine ⟨?_, ?_, ?_, hjoining, ?_, ?_, ?_⟩
  · rw [hpool.idle, hpool.running, hpool.threads, h.balance]
  · rw [hthreads, hpool.idle]
    exact h.unused
  · rw [hworkers]
    exact fun hnone => h.alive (hexit hnone)
  · exact fun c d t u k m hc hd => h.alone c d t u k m ((hcalls c t k).mp hc) ((hcalls d u m).mp hd)
  · intro c t required hcall
    rw [hworkers, hpool.pending, hpool.idle, hpool.threads]
    exact h.waits c t required ((hcalls c t required).mp hcall)
  · intro hno
    rw [hworkers, hpool.pending, hpool.idle, hpool.threads, hmax]
    exact h.settled fun c t required hcall => hno c t required ((hcalls c t required).mpr hcall)

/-- A call that was no waiting push becomes another such call. -/
theorem pushing_update {c : Nat} {k : Call ρ} (hold : ∀ t required, s.calls c ≠ .pushing t required)
    (hnew : ∀ t required, k ≠ .pushing t required) (d : Nat) (t : TaskId) (required : Int) :
    Function.update s.calls c k d = .pushing t required ↔ s.calls d = .pushing t required := by
  by_cases heq : d = c
  · rw [heq, Function.update_self]
    exact ⟨fun h => absurd h (hnew t required), fun h => absurd h (hold t required)⟩
  · rw [Function.update_of_ne heq]

theorem Growth.joining_update (h : Growth s) {c : Nat} {call : Call ρ}
    (hcall : ∀ i, call = .joiningThread i → 0 ≤ i) (d : Nat) (i : Int)
    (hd : Function.update s.calls c call d = .joiningThread i) : 0 ≤ i := by
  by_cases heq : d = c
  · rw [heq, Function.update_self] at hd
    exact hcall i hd
  · rw [Function.update_of_ne heq] at hd
    exact h.joining d i hd

theorem Growth.setCall (h : Growth s) {c : Nat} {call : Call ρ}
    (hold : ∀ t required, s.calls c ≠ .pushing t required)
    (hnew : ∀ t required, call ≠ .pushing t required)
    (hjoining : ∀ i, call = .joiningThread i → 0 ≤ i) : Growth (s.setCall c call) :=
  h.frame (.refl _) rfl rfl rfl id (h.joining_update hjoining) (pushing_update hold hnew)

/-- A call that is neither a waiting push nor joins a thread. -/
def Call.Calm : Call ρ → Prop
  | .pushing _ _ => False
  | .joiningThread _ => False
  | _ => True

theorem Call.Calm.ne_pushing {call : Call ρ} (h : call.Calm) (t : TaskId) (required : Int) :
    call ≠ .pushing t required := by
  intro heq
  rw [heq] at h
  exact h

theorem Call.Calm.joining {call : Call ρ} (h : call.Calm) (i : Int)
    (heq : call = .joiningThread i) : 0 ≤ i := by
  rw [heq] at h
  exact h.elim

theorem joiningThread_ne_pushing (i : Int) (t : TaskId) (required : Int) :
    (Call.joiningThread i : Call ρ) ≠ .pushing t required := by
  intro heq
  cases heq

theorem Growth.setCalm (h : Growth s) {c : Nat} {call : Call ρ}
    (hold : ∀ t required, s.calls c ≠ .pushing t required) (hcalm : call.Calm) :
    Growth (s.setCall c call) :=
  h.setCall hold hcalm.ne_pushing hcalm.joining

theorem Growth.access (h : Growth s) (t : TaskId) (as : List Access) : Growth (s.access t as) :=
  h.frame (.refl _) rfl rfl rfl id h.joining fun _ _ _ => Iff.rfl

theorem Growth.setTask (h : Growth s) (t : TaskId) (task : Task ρ) : Growth (s.setTask t task) :=
  h.frame (.refl _) rfl rfl rfl id h.joining fun _ _ _ => Iff.rfl

theorem Growth.recordDetach (h : Growth s) (t : TaskId) : Growth (s.recordDetach t) :=
  h.frame (.refl _) rfl rfl rfl id h.joining fun _ _ _ => Iff.rfl

theorem Growth.threadTaskDelete (h : Growth s) (t : TaskId) : Growth (threadTaskDelete s t).1 := by
  rw [threadTaskDelete_eq]
  exact h.access t _

theorem not_pushing_of_idle {c : Nat} (h : (s.calls c).Idle) (t : TaskId) (required : Int) :
    s.calls c ≠ .pushing t required := by
  intro hcall
  rw [hcall] at h
  exact h

theorem Growth.joinThreads (h : Growth s) {c : Nat}
    (hold : ∀ t required, s.calls c ≠ .pushing t required) {i : Int} (hi : 0 ≤ i) : Growth (joinThreads s c i) := by
  unfold ThreadPool.joinThreads
  split
  · refine h.frame ⟨rfl, rfl, rfl, rfl, rfl⟩ rfl rfl rfl (fun hexit => ?_)
      (h.joining_update fun j hj => ?_) (pushing_update hold (joiningThread_ne_pushing i))
    · change i = -1 at hexit
      omega
    · cases hj
      exact hi
  · exact h.frame (.refl _) rfl rfl rfl id (h.joining_update (Call.Calm.joining trivial))
      (pushing_update hold (Call.Calm.ne_pushing trivial))

theorem Growth.threadPoolDelete (h : Growth s) {c : Nat} (hcall : (s.calls c).Idle) :
    Growth (threadPoolDelete s c) := by
  have hold := not_pushing_of_idle hcall
  unfold ThreadPool.threadPoolDelete
  split
  · exact h.setCalm hold trivial
  · split
    · exact h.frame (.refl _) rfl rfl rfl id (h.joining_update (Call.Calm.joining trivial))
        (pushing_update hold (Call.Calm.ne_pushing trivial))
    · exact h.joinThreads hold (le_refl 0)

/-! ## Workers -/

theorem Growth.setPhase (h : Growth s) (i : Nat) {idx : Int} {phase : Phase ρ} (hidx : 0 ≤ idx)
    (halive : Worker.alive (ρ := ρ) ⟨idx, phase⟩ = true ∨ s.pool.threadIdxThatShouldExit = idx) :
    Growth (s.setPhase i idx phase) := by
  have hlength : (s.setPhase i idx phase).workers.length = s.workers.length := List.length_set
  refine ⟨h.balance, h.unused, fun hexit w hw => ?_, h.joining, h.alone, ?_, ?_⟩
  · rcases List.mem_or_eq_of_mem_set hw with hold | rfl
    · exact h.alive hexit w hold
    · refine halive.resolve_right fun heq => ?_
      rw [setPhase_pool] at hexit
      omega
  · rw [hlength]
    exact h.waits
  · rw [hlength]
    exact h.settled

theorem Growth.dequeueTask (h : Growth s) (i : Nat) (idx : Int) (t : TaskId)
    (hpending : 1 ≤ s.pool.pendingTaskCount) (hsome : s.pool.threads ≠ none) :
    Growth (dequeueTask s i idx t) := by
  have hlength : (ThreadPool.dequeueTask s i idx t).workers.length = s.workers.length :=
    List.length_set
  have hbalance := h.balance
  refine ⟨?_, fun hnone => absurd hnone hsome, fun hexit w hw => ?_, h.joining, h.alone,
    fun c u k hcall => ?_, fun hno => ?_⟩
  · change s.pool.idleThreadCount - 1 + (s.pool.runningTaskCount + 1) = s.pool.threadCount
    omega
  · rcases List.mem_or_eq_of_mem_set hw with hold | rfl
    · exact h.alive hexit w hold
    · rfl
  · have hnothing := (h.waits c u k hcall).2.1
    omega
  · obtain ⟨hsettled, hroom⟩ := h.settled hno
    rw [hlength]
    refine ⟨hsettled, hroom.imp_left fun hle => ?_⟩
    change s.pool.pendingTaskCount - 1 ≤ s.pool.idleThreadCount - 1
    omega

theorem Growth.waitOrTake (h : Growth s) (hsome : s.pool.threads ≠ none) {i : Nat} {idx : Int}
    (hidx : 0 ≤ idx) (htake : waitOrTake s i idx = some s') : Growth s' := by
  rcases waitOrTake_cases htake with ⟨-, rfl⟩ | ⟨hexit, rfl⟩ | ⟨hpending, t, -, rfl⟩
  · exact h.setPhase i hidx (.inl rfl)
  · exact h.setPhase i hidx (.inr hexit)
  · exact h.dequeueTask i idx t hpending.1 hsome

/-- The counters after the end of a run. -/
theorem Growth.recordRun (h : Growth s) (hsome : s.pool.threads ≠ none) (t : TaskId) (push : Nat)
    (v : ρ) : Growth (addIdle (recordRun s t push v)) := by
  have hpool : (addIdle (ThreadPool.recordRun s t push v)).pool =
      { s.pool with runningTaskCount := s.pool.runningTaskCount - 1,
                    idleThreadCount := s.pool.idleThreadCount + 1 } := by
    rw [addIdle, recordRun_pool]
  have hworkers : (addIdle (ThreadPool.recordRun s t push v)).workers = s.workers :=
    recordRun_workers s t push v
  have hcalls : (addIdle (ThreadPool.recordRun s t push v)).calls = s.calls :=
    recordRun_calls s t push v
  have hbalance := h.balance
  refine ⟨?_, ?_, ?_, ?_, ?_, fun c u k hcall => ?_, fun hno => ?_⟩
  · rw [hpool]
    dsimp only
    omega
  · rw [hpool]
    exact fun hnone => absurd hnone hsome
  · rw [hpool, hworkers]
    exact h.alive
  · rw [hcalls]
    exact h.joining
  · rw [hcalls]
    exact h.alone
  · rw [hcalls] at hcall
    -- The worker that was counted as running is now counted as idle.
    obtain ⟨hlength, hpending, hidle, -⟩ := h.waits c u k hcall
    rw [hpool, hworkers]
    exact ⟨hlength, hpending, by dsimp only; omega, fun _ => by dsimp only; omega⟩
  · rw [NoPush, hcalls] at hno
    obtain ⟨hlength, hroom⟩ := h.settled hno
    rw [hpool, hworkers]
    exact ⟨hlength, hroom.imp_left fun hle => by dsimp only; omega⟩

/-- The created worker counts itself: some push waits for it. -/
theorem Growth.countThread (h : Growth s) (hsome : s.pool.threads ≠ none)
    (huncounted : s.workers.length ≠ s.pool.threadCount) : Growth (addIdle (countThread s)) := by
  have hbalance := h.balance
  refine ⟨?_, fun hnone => absurd hnone hsome, h.alive, h.joining, h.alone, fun c u k hcall => ?_,
    fun hno => absurd (h.settled hno).1 huncounted⟩
  · change s.pool.idleThreadCount + 1 + s.pool.runningTaskCount = s.pool.threadCount + 1
    omega
  · obtain ⟨hlength, hpending, hidle, -⟩ := h.waits c u k hcall
    refine ⟨hlength, hpending, ?_, fun _ => ?_⟩
    · change 0 ≤ s.pool.idleThreadCount + 1
      omega
    · change 1 ≤ s.pool.idleThreadCount + 1
      omega

/-! ## Pushes -/

/-- A push that creates a worker waits for it. -/
theorem Growth.createWorker (h : Growth s) (hlimits : LimitInv s) (hno : NoPush s)
    (hspawns : Spawns s) (threads : List (Option Nat)) (c : Nat) (t : TaskId) :
    Growth ((createWorker s threads s.pool.threadCount).setCall c
      (.pushing t (s.pool.threadCount + 1))) := by
  obtain ⟨hlength, hroom⟩ := h.settled hno
  have hbelow := (hlimits.spawnWorker_of_spawns hspawns).1
  have hidle : s.pool.idleThreadCount = 0 := hspawns.2.elim h.unused And.left
  have hpending : s.pool.pendingTaskCount ≤ 0 := by
    rcases hroom with hle | hfull
    · omega
    · omega
  -- The one call in a push is the call that created the worker.
  have honly : ∀ d u k, Function.update s.calls c (.pushing t (s.pool.threadCount + 1)) d =
      .pushing u k → d = c ∧ k = s.pool.threadCount + 1 := by
    intro d u k hd
    by_cases heq : d = c
    · rw [heq, Function.update_self] at hd
      cases hd
      exact ⟨heq, rfl⟩
    · rw [Function.update_of_ne heq] at hd
      exact absurd hd (hno d u k)
  have hworkers : (ThreadPool.createWorker s threads s.pool.threadCount).workers =
      s.workers ++ [⟨s.pool.threadCount, .created⟩] := rfl
  refine ⟨h.balance, (by intro hnone; cases hnone), fun hexit w hw => ?_,
    h.joining_update (by intro _ hj; cases hj), fun d e u v k m hd he => ?_, fun d u k hd => ?_,
    fun hnone => ?_⟩
  · rcases List.mem_append.mp hw with hold | hnew
    · exact h.alive hexit w hold
    · rw [List.mem_singleton.mp hnew]
      rfl
  · exact (honly d u k hd).1.trans (honly e v m he).1.symm
  · obtain ⟨-, rfl⟩ := honly d u k hd
    refine ⟨?_, hpending, hidle.ge, fun heq => ?_⟩
    · rw [setCall_workers, hworkers, List.length_append, List.length_singleton]
      omega
    · change s.pool.threadCount = s.pool.threadCount + 1 at heq
      omega
  · exact absurd (Function.update_self ..) (hnone c t (s.pool.threadCount + 1))

/-- A linked task, when no push is left in progress. -/
theorem Growth.linkTask (h : Growth s) {c : Nat} (t : TaskId)
    (honly : ∀ d u k, s.calls d = .pushing u k → d = c)
    (hlength : s.workers.length = s.pool.threadCount)
    (hroom : s.pool.pendingTaskCount < s.pool.idleThreadCount ∨
      s.pool.threadCount = s.pool.maxThreadCount) :
    Growth ((linkTask s t).setCall c (.done .ok none)) := by
  have hnone : NoPush ((ThreadPool.linkTask s t).setCall c (.done .ok none)) := by
    intro d u k hd
    change Function.update s.calls c (.done .ok none) d = .pushing u k at hd
    by_cases heq : d = c
    · rw [heq, Function.update_self] at hd
      cases hd
    · rw [Function.update_of_ne heq] at hd
      exact heq (honly d u k hd)
  refine ⟨h.balance, h.unused, h.alive, h.joining_update (Call.Calm.joining trivial),
    fun d e u v k m hd => absurd hd (hnone d u k), fun d u k hd => absurd hd (hnone d u k),
    fun _ => ⟨hlength, hroom.imp_left fun hlt => ?_⟩⟩
  change s.pool.pendingTaskCount + 1 ≤ s.pool.idleThreadCount
  omega

theorem Growth.push (h : Growth s) (hlimits : LimitInv s) {c : Nat} {t : TaskId} (hno : NoPush s)
    (hfinds : FindsWorker s (.push c t)) : Growth (threadPoolPushTask s c t) := by
  by_cases hpending : s.pool.pendingTaskCount < tpoolMaxTasks
  · by_cases hspawns : Spawns s
    · obtain ⟨threads, hpush⟩ := threadPoolPushTask_of_spawns hlimits hspawns c t
      rw [hpush]
      exact h.createWorker hlimits hno hspawns threads c t
    · rw [threadPoolPushTask_of_not_spawns hpending hspawns]
      refine h.linkTask t (fun d u k hd => absurd hd (hno d u k)) (h.settled hno).1 ?_
      rcases hfinds hpending with hidle | hroom
      · -- No worker is idle and none is created, so the pool is full.
        have hbelow := hlimits.within.threads
        have hfull : ¬ s.pool.threadCount < s.pool.maxThreadCount := fun hlt =>
          hspawns ⟨hpending, .inr ⟨hidle, hlt⟩⟩
        exact .inr (by omega)
      · exact hroom
  · unfold threadPoolPushTask
    rw [if_pos (by omega)]
    exact h.setCalm (hno c) trivial

/-- An idle worker that is needed for a pending task keeps the push from creating one. -/
theorem Growth.not_push (h : Growth s) {c : Nat} {t : TaskId} (hno : NoPush s)
    (hlate : ¬ FindsWorker s (.push c t)) : ¬ Served (threadPoolPushTask s c t) := by
  obtain ⟨hpending, hlate⟩ := Classical.not_imp.mp hlate
  rw [not_or, not_or] at hlate
  obtain ⟨hidle, hneeded, hroom⟩ := hlate
  have hspawns : ¬ Spawns s := fun hspawns => hidle (hspawns.2.elim h.unused And.left)
  rw [threadPoolPushTask_of_not_spawns hpending hspawns]
  intro hserved
  have hnone : NoPush ((ThreadPool.linkTask s t).setCall c (.done .ok none)) := fun d u k hd =>
    hno d u k ((pushing_update (hno c) (k := .done .ok none) (Call.Calm.ne_pushing trivial)
      d u k).mp hd)
  rcases (hserved hnone).1 with hle | hfull
  · change s.pool.pendingTaskCount + 1 ≤ s.pool.idleThreadCount at hle
    omega
  · exact hroom hfull

theorem Growth.pushResume (h : Growth s) {c : Nat} {t : TaskId} {required : Int}
    (hcall : s.calls c = .pushing t required) : Growth (awaitWorker s c t required) := by
  unfold awaitWorker
  split
  · have hsame : s.setCall c (.pushing t required) = s := by
      rw [State.setCall, ← hcall, Function.update_eq_self]
    rw [hsame]
    exact h
  · next heq =>
    obtain ⟨hlength, hpending, -, hidle⟩ := h.waits c t required hcall
    have hcount : s.pool.threadCount = required := not_not.mp heq
    have hone := hidle hcount
    exact h.linkTask t (fun d u k hd => h.alone d c u t k required hd hcall)
      (hlength.trans hcount.symm) (.inl (by omega))

/-! ## Steps -/

theorem Growth.joinSection (h : Growth s) {c : Nat} {t : TaskId} {timed : Bool}
    (hcall : s.calls c = .joining t timed) : Growth (ThreadPool.joinSection s c t) := by
  have hold : ∀ u k, s.calls c ≠ .pushing u k := by
    rw [hcall]
    exact Call.Calm.ne_pushing trivial
  unfold ThreadPool.joinSection
  dsimp only
  split
  · exact (((h.access t _).setTask t _).access t _).setCalm hold trivial
  · exact (h.access t _).access t _

theorem Growth.detachSection (h : Growth s) {c : Nat} {t : TaskId}
    (hcall : s.calls c = .detaching t) : Growth (ThreadPool.detachSection s c t) := by
  have hold : ∀ u k, s.calls c ≠ .pushing u k := by
    rw [hcall]
    exact Call.Calm.ne_pushing trivial
  have hleft := (((h.access t [.lock, .write]).setTask t { s.tasks t with pool := false }).access t
    [.read])
  unfold ThreadPool.detachSection
  dsimp only
  split
  · exact (hleft.access t _).setCalm hold trivial
  · exact (((hleft.setTask t _).access t _).recordDetach t).setCalm hold trivial

theorem LimitInv.idx_nonneg (hlimits : LimitInv s) {i : Nat} {w : Worker ρ}
    (hw : s.workers[i]? = some w) : 0 ≤ w.idx := by
  have hmem : w.idx ∈ s.workers.map Worker.idx :=
    List.mem_map.mpr ⟨w, List.mem_of_getElem? hw, rfl⟩
  rw [hlimits.indices] at hmem
  obtain ⟨n, -, hn⟩ := List.mem_map.mp hmem
  rw [← hn]
  exact Int.natCast_nonneg n

theorem LimitInv.threads_of_worker (hlimits : LimitInv s) {i : Nat} {w : Worker ρ}
    (hw : s.workers[i]? = some w) : s.pool.threads ≠ none := by
  intro hnone
  rw [hlimits.threads hnone] at hw
  cases hw

theorem Growth.step (h : Growth s) (hlimits : LimitInv s) {a : Action ρ} (halone : PushesAlone s a)
    (hfinds : FindsWorker s a) (hstep : Steps s a s') : Growth s' := by
  cases hstep.effect with
  | start hw hphase _ htake =>
    -- a new worker counts itself, and may take a task at once
    have hsome := hlimits.threads_of_worker hw
    exact (h.countThread hsome (hlimits.length_ne_of_created hw hphase)).waitOrTake hsome
      (hlimits.idx_nonneg hw) htake
  | wake hw _ _ htake =>
    exact h.waitOrTake (hlimits.threads_of_worker hw) (hlimits.idx_nonneg hw) htake
  | @run i w t push hw hphase =>
    exact ((h.setTask t _).access t _).setPhase i (hlimits.idx_nonneg hw) (.inl rfl)
  | @finish i v w t push hw hphase => exact h.setPhase i (hlimits.idx_nonneg hw) (.inl rfl)
  | @record i w t push v _ hw _ _ htake =>
    have hsome := hlimits.threads_of_worker hw
    refine (h.recordRun hsome t push v).waitOrTake ?_ (hlimits.idx_nonneg hw) htake
    rwa [addIdle, recordRun_pool]
  | push => exact h.push hlimits halone hfinds
  | @join c t timed hcall =>
    -- none of the calls that follow creates a worker or links a task
    have hold := not_pushing_of_idle hcall
    unfold threadTaskJoin
    dsimp only
    split
    · exact (h.access t _).setCalm hold trivial
    · exact (h.access t _).setCalm hold trivial
  | @detach c t hcall =>
    have hold := not_pushing_of_idle hcall
    unfold threadTaskDetach
    dsimp only
    split
    · exact (h.access t _).setCalm hold trivial
    · exact (h.access t _).setCalm hold trivial
  | @deleteTask c t hcall =>
    have hold := not_pushing_of_idle hcall
    rw [threadTaskDelete_eq]
    exact (h.access t _).setCalm hold trivial
  | deletePool hcall => exact h.threadPoolDelete hcall
  | pushResume hcall => exact h.pushResume hcall
  | joinSection hcall => exact h.joinSection hcall
  | @joinTimeout c t hcall =>
    refine (h.access t _).setCalm ?_ trivial
    rw [access_calls, hcall]
    exact Call.Calm.ne_pushing trivial
  | detachSection hcall => exact h.detachSection hcall
  | @detachDelete c t hcall =>
    have hold : ∀ u k, s.calls c ≠ .pushing u k := by
      rw [hcall]
      exact Call.Calm.ne_pushing trivial
    unfold ThreadPool.detachDelete
    rw [threadTaskDelete_eq]
    exact ((h.access t _).recordDetach t).setCalm hold trivial
  | deletePoolResume hcall =>
    refine h.joinThreads ?_ (by have := h.joining _ _ hcall; omega)
    rw [hcall]
    exact joiningThread_ne_pushing _

theorem growth_start {maxThreadCount : Int} {pool : Pool}
    (hnew : threadPoolNew maxThreadCount = some pool) : Growth (State.start (ρ := ρ) pool) := by
  unfold threadPoolNew at hnew
  split at hnew
  · cases hnew
  · cases hnew
    exact ⟨rfl, fun _ => rfl, fun _ _ hw => absurd hw List.not_mem_nil,
      (by intro _ _ hcall; cases hcall), (by intro _ _ _ _ _ _ hcall; cases hcall),
      (by intro _ _ _ hcall; cases hcall), fun _ => ⟨rfl, .inl (le_refl 0)⟩⟩

end

/-- With the pushes one at a time the pool serves its tasks in every state of a run exactly if every
push of the run finds a worker for its task. -/
theorem growth_iff {maxThreadCount : Int} {pool : Pool} {s : State ρ} {as : List (Action ρ)}
    (hnew : threadPoolNew maxThreadCount = some pool)
    (h : Run (Within PushesAlone Steps) (.start pool) as s) :
    (∀ bs u, bs <+: as → Run (Within PushesAlone Steps) (.start pool) bs u → Served u) ↔
      Run (Within FindsWorker (Within PushesAlone Steps)) (.start pool) as s := by
  refine always_iff_within (I := fun s => LimitInv s ∧ Growth s)
    (within_unique steps_unique) (fun _ hinv => hinv.2.served)
    (fun s a t hinv hfinds hst => ?_) (fun s a t hinv hlate hst => ?_)
    ⟨limitInv_start hnew, growth_start hnew⟩ h
  · obtain ⟨hlimits, hgrowth⟩ := hinv
    exact ⟨hlimits.step (hgrowth.timely hlimits hst.1 hst.2) hst.2,
      hgrowth.step hlimits hst.1 hfinds hst.2⟩
  · cases hst.2.effect with
    | push => exact hinv.2.not_push hst.1 hlate
    | _ => exact absurd trivial hlate

/-- A new pool for two threads. -/
def twoPool : Pool := ⟨none, 0, 0, none, 2, 0, 0, -1⟩

/-- A push with the worker that it creates, which then takes the task. -/
def servedPush : List (Action Unit) := [.push 0 0, .start 0, .pushResume 0, .wake 0]

theorem noPush_start (pool : Pool) : NoPush (State.start (ρ := ρ) pool) :=
  fun _ _ _ hcall => nomatch hcall

theorem growth_iff_servedPush : ∃ s,
    (∀ bs u, bs <+: servedPush → Run (Within PushesAlone Steps) (.start twoPool) bs u → Served u) ↔
      Run (Within FindsWorker (Within PushesAlone Steps)) (.start twoPool) servedPush s :=
  ⟨_, growth_iff (show threadPoolNew 2 = some twoPool from rfl)
    (.cons ⟨noPush_start twoPool, rfl⟩ (.cons ⟨trivial, rfl⟩ (.cons ⟨trivial, rfl⟩
      (.cons ⟨trivial, rfl⟩ (.nil _)))))⟩

/-- A second task is pushed before the worker of the first one wakes: both wait for one thread. -/
theorem second_push_creates_no_worker : threadPoolNew 2 = some twoPool ∧
    ∃ s : State Unit, Run (Within PushesAlone Steps) (.start twoPool)
      [.push 0 0, .start 0, .pushResume 0, .push 0 1] s ∧ ¬ Served s := by
  refine ⟨rfl, _, .cons ⟨noPush_start twoPool, rfl⟩ (.cons ⟨trivial, rfl⟩ (.cons ⟨trivial, rfl⟩
    (.cons ⟨?_, rfl⟩ (.nil _)))), fun hserved => ?_⟩
  · intro d u k hd
    cases d <;> cases hd
  · have hpending := (hserved fun d u k hd => by cases d <;> cases hd).1
    exact absurd hpending (by decide)

end SystemProgramming.ThreadPool
