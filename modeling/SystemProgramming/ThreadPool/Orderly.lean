import SystemProgramming.ThreadPool.Detach
import SystemProgramming.ThreadPool.Growth
import SystemProgramming.ThreadPool.Signals

/-!
# Orderly clients

Clients that push and delete one at a time, push a task only when it is in no pool, and never have two
calls that wait for one task.  Of their runs more is known than of others: which workers there are
while a push or a deletion is in progress, and that a task that is joined stays in the pool until its
run has ended.
-/

open Runs Ledgers SinglyLinked

namespace SystemProgramming.ThreadPool

variable {ρ : Type}

/-! ## The rules -/

/-- The calls that give the mutex of the pool up and go on later. -/
def Call.OnPool : Call ρ → Prop
  | .pushing _ _ | .joiningThread _ => True
  | _ => False

/-- The task that a call takes out of the pool. -/
def Call.takesOut : Call ρ → Option TaskId
  | .joining t _ | .detaching t => some t
  | _ => none

def Quiet (s : State ρ) : Prop := ∀ c, ¬ (s.calls c).OnPool

def Orderly (s : State ρ) : Action ρ → Prop
  | .push _ t => OutOfPool s t ∧ Quiet s
  | .deletePool _ => Quiet s
  | .join _ t _ | .detach _ t => ∀ c, (s.calls c).takesOut ≠ some t
  | _ => True

/-! ## The pool -/

/-- The pool is not being deleted. -/
def Open (s : State ρ) : Prop := s.poolFreed = false ∧ ∀ c i, s.calls c ≠ .joiningThread i

structure PoolInv (s : State ρ) : Prop where
  alone : ∀ c d, (s.calls c).OnPool → (s.calls d).OnPool → c = d
  settled : NoPush s → s.workers.length = s.pool.threadCount
  pushing : ∀ c t required, s.calls c = .pushing t required →
    s.workers.length = required ∧ s.pool.pendingTaskCount < tpoolMaxTasks
  deleting : ∀ c i, s.calls c = .joiningThread i →
    0 ≤ i ∧ i < s.pool.threadCount ∧ s.pool.threadIdxThatShouldExit = i ∧
      ∀ w ∈ s.workers, w.idx < i → w.phase = .exited
  opened : Open s → s.pool.threadIdxThatShouldExit = -1 ∧ ∀ w ∈ s.workers, w.phase ≠ .exited
  closed : ¬ Open s → s.pool.pendingTaskCount ≤ 0 ∧ s.pool.runningTaskCount ≤ 0
  freed : s.poolFreed = true → Quiet s ∧ ∀ w ∈ s.workers, w.phase = .exited
  threads : ∀ threads, s.pool.threads = some threads →
    threads = (List.range s.workers.length).map some ∧ s.workers ≠ []
  unused : s.pool.threads = none → NoPush s ∧ s.pushes = []

section

variable {s s' : State ρ} {l : List TaskId}

theorem Quiet.noPush (h : Quiet s) : NoPush s := by
  intro c t required hcall
  apply h c
  rw [hcall]
  trivial

theorem Quiet.isOpen (h : Quiet s) (hfreed : s.poolFreed = false) : Open s := by
  refine ⟨hfreed, fun c i hcall => ?_⟩
  apply h c
  rw [hcall]
  trivial

theorem PoolInv.noPush_of_deleting (h : PoolInv s) {c : Nat} {i : Int}
    (hcall : s.calls c = .joiningThread i) : NoPush s := by
  intro d t required hpush
  have heq : c = d := by
    apply h.alone
    · rw [hcall]
      trivial
    · rw [hpush]
      trivial
  rw [← heq, hcall] at hpush
  cases hpush

/-- A worker goes on.  While the pool is deleted there is nothing to run. -/
theorem PoolInv.worker (h : PoolInv s) {i : Nat} {w : Worker ρ} (hw : s.workers[i]? = some w)
    (hidx : 0 ≤ w.idx) (hphase : w.phase ≠ .exited) {phase : Phase ρ}
    (hworkers : s'.workers = s.workers.set i ⟨w.idx, phase⟩) (hcalls : s'.calls = s.calls)
    (hfreed : s'.poolFreed = s.poolFreed) (hthreads : s'.pool.threads = s.pool.threads)
    (hexit : s'.pool.threadIdxThatShouldExit = s.pool.threadIdxThatShouldExit)
    (hpushes : s'.pushes = s.pushes)
    (hcount : NoPush s → s'.pool.threadCount = s.pool.threadCount)
    (hpending : s'.pool.pendingTaskCount ≤ s.pool.pendingTaskCount)
    (hrunning : s.pool.pendingTaskCount ≤ 0 → s.pool.runningTaskCount ≤ 0 →
      s'.pool.runningTaskCount ≤ 0)
    (hexits : phase = .exited → s.pool.threadIdxThatShouldExit = w.idx) : PoolInv s' := by
  have hmem : w ∈ s.workers := List.mem_of_getElem? hw
  have hlength : s'.workers.length = s.workers.length := by rw [hworkers, List.length_set]
  have hopen : Open s' ↔ Open s := by rw [Open, Open, hfreed, hcalls]
  have hnoPush : NoPush s' ↔ NoPush s := by rw [NoPush, NoPush, hcalls]
  refine ⟨?_, fun hno => ?_, fun c t required hcall => ?_, fun c j hcall => ?_, fun hop => ?_,
    fun hcl => ?_, fun hfr => ?_, fun threads hth => ?_, fun hnone => ?_⟩
  · rw [hcalls]
    exact h.alone
  · rw [hnoPush] at hno
    rw [hlength, hcount hno]
    exact h.settled hno
  · rw [hcalls] at hcall
    obtain ⟨hreq, hroom⟩ := h.pushing c t required hcall
    exact ⟨by omega, by omega⟩
  · rw [hcalls] at hcall
    obtain ⟨hpos, hlt, hidxs, hdone⟩ := h.deleting c j hcall
    refine ⟨hpos, ?_, hexit.trans hidxs, fun w' hw' hlt' => ?_⟩
    · rw [hcount (h.noPush_of_deleting hcall)]
      exact hlt
    · rw [hworkers] at hw'
      rcases List.mem_or_eq_of_mem_set hw' with hold | rfl
      · exact hdone w' hold hlt'
      · exact absurd (hdone w hmem hlt') hphase
  · obtain ⟨hnone, halive⟩ := h.opened (hopen.mp hop)
    refine ⟨hexit.trans hnone, fun w' hw' => ?_⟩
    rw [hworkers] at hw'
    rcases List.mem_or_eq_of_mem_set hw' with hold | rfl
    · exact halive w' hold
    · intro hexited
      have heq := hexits hexited
      omega
  · obtain ⟨hp, hr⟩ := h.closed fun hop => hcl (hopen.mpr hop)
    exact ⟨hpending.trans hp, hrunning hp hr⟩
  · rw [hfreed] at hfr
    exact absurd ((h.freed hfr).2 w hmem) hphase
  · rw [hthreads] at hth
    obtain ⟨heq, hne⟩ := h.threads threads hth
    rw [hlength]
    refine ⟨heq, fun hnil => hne ?_⟩
    rw [← List.length_eq_zero_iff] at hnil ⊢
    omega
  · rw [hthreads] at hnone
    rw [hnoPush, hpushes]
    exact h.unused hnone

/-- The calls of the pool are where they were. -/
def SameOnPool (s s' : State ρ) : Prop :=
  ∀ c, s'.calls c = s.calls c ∨ ¬ (s.calls c).OnPool ∧ ¬ (s'.calls c).OnPool

theorem SameOnPool.eq (h : SameOnPool s s') {c : Nat} (hc : (s'.calls c).OnPool) :
    s'.calls c = s.calls c :=
  (h c).resolve_right fun hno => hno.2 hc

theorem SameOnPool.eq' (h : SameOnPool s s') {c : Nat} (hc : (s.calls c).OnPool) :
    s'.calls c = s.calls c :=
  (h c).resolve_right fun hno => hno.1 hc

theorem SameOnPool.noPush_iff (h : SameOnPool s s') : NoPush s' ↔ NoPush s := by
  constructor
  · intro hno c t required hcall
    apply hno c t required
    rw [h.eq' (by rw [hcall]; trivial), hcall]
  · intro hno c t required hcall
    apply hno c t required
    rw [← h.eq (by rw [hcall]; trivial), hcall]

theorem SameOnPool.open_iff (h : SameOnPool s s') (hfreed : s'.poolFreed = s.poolFreed) :
    Open s' ↔ Open s := by
  rw [Open, Open, hfreed]
  apply and_congr_right
  intro _
  constructor
  · intro hno c i hcall
    apply hno c i
    rw [h.eq' (by rw [hcall]; trivial), hcall]
  · intro hno c i hcall
    apply hno c i
    rw [← h.eq (by rw [hcall]; trivial), hcall]

theorem sameOnPool_update {c : Nat} {call : Call ρ} (hcalls : s'.calls = Function.update s.calls c call)
    (hold : ¬ (s.calls c).OnPool) (hnew : ¬ call.OnPool) : SameOnPool s s' := by
  intro d
  rw [hcalls]
  by_cases hd : d = c
  · rw [hd, Function.update_self]
    exact .inr ⟨hold, hnew⟩
  · rw [Function.update_of_ne hd]
    exact .inl rfl

theorem PoolInv.frame (h : PoolInv s) (hsame : SamePool s s') (hcalls : SameOnPool s s') :
    PoolInv s' := by
  have hnoPush := hcalls.noPush_iff
  have hopen := hcalls.open_iff hsame.poolFreed
  refine ⟨fun c d hc hd => ?_, fun hno => ?_, fun c t required hcall => ?_, fun c i hcall => ?_,
    fun hop => ?_, fun hcl => ?_, fun hfr => ?_, ?_, fun hnone => ?_⟩
  · rw [hcalls.eq hc] at hc
    rw [hcalls.eq hd] at hd
    exact h.alone c d hc hd
  · rw [hsame.workers, hsame.pool]
    exact h.settled (hnoPush.mp hno)
  · rw [hcalls.eq (by rw [hcall]; trivial)] at hcall
    rw [hsame.workers, hsame.pool]
    exact h.pushing c t required hcall
  · rw [hcalls.eq (by rw [hcall]; trivial)] at hcall
    rw [hsame.workers, hsame.pool]
    exact h.deleting c i hcall
  · rw [hsame.workers, hsame.pool]
    exact h.opened (hopen.mp hop)
  · rw [hsame.pool]
    exact h.closed fun hop => hcl (hopen.mpr hop)
  · rw [hsame.poolFreed] at hfr
    obtain ⟨hquiet, hall⟩ := h.freed hfr
    rw [hsame.workers]
    refine ⟨fun c hc => ?_, hall⟩
    rw [hcalls.eq hc] at hc
    exact hquiet c hc
  · rw [hsame.workers, hsame.pool]
    exact h.threads
  · rw [hsame.pool] at hnone
    rw [hnoPush, hsame.pushes]
    exact h.unused hnone

/-! ## Pushing -/

/-- A new thread is stored behind the others. -/
theorem PoolInv.spawnWorker (h : PoolInv s) (hlimits : LimitInv s) (hno : NoPush s)
    (hspawns : Spawns s) : ∃ threads,
    spawnWorker s = (createWorker s threads s.pool.threadCount, s.pool.threadCount + 1) ∧
      threads.set s.pool.threadCount.toNat (some s.workers.length) =
        (List.range (s.workers.length + 1)).map some := by
  have hlength := h.settled hno
  unfold ThreadPool.spawnWorker
  cases hthreads : s.pool.threads with
  | none =>
    have hzero := hlimits.threadCount_of_none hthreads
    have hnil := hlimits.threads hthreads
    refine ⟨[none], ?_, ?_⟩
    · rw [hzero]
      rfl
    · rw [hzero, hnil]
      rfl
  | some threads =>
    have hroom := hspawns.2.resolve_left (by rw [hthreads]; exact Option.some_ne_none _)
    obtain ⟨heq, -⟩ := h.threads threads hthreads
    have hlen : threads.length = s.workers.length := by
      rw [heq, List.length_map, List.length_range]
    dsimp only
    rw [if_pos hroom]
    refine ⟨_, rfl, ?_⟩
    have htoNat : (s.pool.threadCount + 1).toNat = threads.length + 1 := by omega
    have hgrown : reallocThreads threads (threads.length + 1) = threads ++ [none] := by
      unfold reallocThreads
      rw [List.take_of_length_le (by omega), show threads.length + 1 - threads.length = 1 by omega]
      rfl
    rw [htoNat, hgrown, show s.pool.threadCount.toNat = threads.length by omega,
      List.set_append_right _ _ (le_refl _), Nat.sub_self, ← hlen, List.range_succ, List.map_append,
      hlen, ← heq]
    rfl

/-- Of a call that replaces another, nothing is left. -/
theorem quiet_update {c : Nat} {call : Call ρ} (hcalls : s'.calls = Function.update s.calls c call)
    (honly : ∀ d, (s.calls d).OnPool → d = c) (hcall : ¬ call.OnPool) : Quiet s' := by
  intro d hd
  rw [hcalls] at hd
  by_cases heq : d = c
  · rw [heq, Function.update_self] at hd
    exact hcall hd
  · rw [Function.update_of_ne heq] at hd
    exact heq (honly d hd)

theorem PoolInv.createWorker (h : PoolInv s) (hlimits : LimitInv s) (hquiet : Quiet s)
    (hfreed : s.poolFreed = false) (hspawns : Spawns s) (c : Nat) (t : TaskId) :
    PoolInv (threadPoolPushTask s c t) := by
  obtain ⟨threads, hspawn, hset⟩ := h.spawnWorker hlimits hquiet.noPush hspawns
  have hlength := h.settled hquiet.noPush
  have hpending := hspawns.1
  have hpush : threadPoolPushTask s c t =
      (ThreadPool.createWorker s threads s.pool.threadCount).setCall c
        (.pushing t (s.pool.threadCount + 1)) := by
    unfold threadPoolPushTask
    rw [if_neg (by omega), hspawn]
    unfold awaitWorker
    rw [if_pos]
    show s.pool.threadCount ≠ s.pool.threadCount + 1
    omega
  rw [hpush]
  have hcalls : ∀ d, (Function.update s.calls c (.pushing t (s.pool.threadCount + 1)) d).OnPool →
      d = c := by
    intro d hd
    by_contra hne
    rw [Function.update_of_ne hne] at hd
    exact hquiet d hd
  have hself : Function.update s.calls c (.pushing t (s.pool.threadCount + 1)) c =
      .pushing t (s.pool.threadCount + 1) := Function.update_self ..
  obtain ⟨hnone, halive⟩ := h.opened (hquiet.isOpen hfreed)
  -- the call that pushes is the only one
  have hopen : Open ((ThreadPool.createWorker s threads s.pool.threadCount).setCall c
      (.pushing t (s.pool.threadCount + 1))) := by
    refine ⟨hfreed, fun d i hd => ?_⟩
    rw [setCall_calls] at hd
    obtain rfl := hcalls d (by rw [show Function.update s.calls c _ d = _ from hd]; trivial)
    rw [Function.update_self] at hd
    cases hd
  refine ⟨fun d e hd he => ?_, fun hno => ?_, fun d u required hd => ?_, fun d i hd => ?_,
    fun _ => ⟨hnone, fun w hw => ?_⟩, fun hcl => absurd hopen hcl, fun hfr => ?_,
    fun ths hths => ?_, fun hths => ?_⟩
  · exact (hcalls d hd).trans (hcalls e he).symm
  · exact absurd hself (hno c t _)
  · obtain rfl := hcalls d (by
      rw [show Function.update s.calls c _ d = .pushing u required from hd]; trivial)
    rw [setCall_calls, Function.update_self] at hd
    cases hd
    refine ⟨?_, hpending⟩
    show ((s.workers ++ [_]).length : Int) = _
    rw [List.length_append, List.length_singleton]
    omega
  · exact absurd hd (hopen.2 d i)
  · rcases List.mem_append.mp hw with hold | hnew
    · exact halive w hold
    · rw [List.mem_singleton.mp hnew]
      exact fun hphase => by cases hphase
  · rw [show s.poolFreed = true from hfr] at hfreed
    cases hfreed
  · have heq : some (threads.set s.pool.threadCount.toNat (some s.workers.length)) = some ths := hths
    rw [← Option.some.inj heq, hset]
    refine ⟨?_, fun hnil => ?_⟩
    · show _ = (List.range (s.workers ++ [_]).length).map some
      rw [List.length_append, List.length_singleton]
    · exact absurd hnil (List.append_ne_nil_of_right_ne_nil _ (List.cons_ne_nil _ _))
  · cases hths

/-- A task is linked, and no call holds the pool any longer. -/
theorem PoolInv.linkTask (h : PoolInv s) {c : Nat} (t : TaskId)
    (honly : ∀ d, (s.calls d).OnPool → d = c) (hnot : ∀ i, s.calls c ≠ .joiningThread i)
    (hfreed : s.poolFreed = false) (hlength : s.workers.length = s.pool.threadCount)
    (hthreads : s.pool.threads ≠ none) : PoolInv ((linkTask s t).setCall c (.done .ok none)) := by
  have hquiet : Quiet ((ThreadPool.linkTask s t).setCall c (.done .ok none)) :=
    quiet_update rfl honly id
  have hopen : Open s := by
    refine ⟨hfreed, fun d i hd => ?_⟩
    obtain rfl := honly d (by rw [hd]; trivial)
    exact hnot i hd
  refine ⟨fun d e hd _ => absurd hd (hquiet d), fun _ => hlength, fun d u required hd => ?_,
    fun d i hd => ?_, fun _ => h.opened hopen, fun hcl => ?_, fun hfr => ?_, h.threads,
    fun hnone => absurd hnone hthreads⟩
  · exact absurd hd (hquiet.noPush d u required)
  · exact absurd hd ((hquiet.isOpen hfreed).2 d i)
  · exact absurd (hquiet.isOpen hfreed) hcl
  · rw [show s.poolFreed = true from hfr] at hfreed
    cases hfreed

theorem PoolInv.push (h : PoolInv s) (hlimits : LimitInv s) (hquiet : Quiet s)
    (hfreed : s.poolFreed = false) (c : Nat) (t : TaskId) : PoolInv (threadPoolPushTask s c t) := by
  by_cases hpending : s.pool.pendingTaskCount < tpoolMaxTasks
  · by_cases hspawns : Spawns s
    · exact h.createWorker hlimits hquiet hfreed hspawns c t
    · rw [threadPoolPushTask_of_not_spawns hpending hspawns]
      apply h.linkTask t (fun d hd => absurd hd (hquiet d)) _ hfreed (h.settled hquiet.noPush)
      · exact fun hnone => hspawns ⟨hpending, .inl hnone⟩
      · exact (hquiet.isOpen hfreed).2 c
  · unfold threadPoolPushTask
    rw [if_pos (by omega)]
    exact h.frame ⟨rfl, rfl, rfl, rfl, rfl⟩ (sameOnPool_update rfl (hquiet c) id)

theorem PoolInv.pushResume (h : PoolInv s) {c : Nat} {t : TaskId} {required : Int}
    (hcall : s.calls c = .pushing t required) (hfreed : s.poolFreed = false) :
    PoolInv (awaitWorker s c t required) := by
  obtain ⟨hlength, hpending⟩ := h.pushing c t required hcall
  unfold awaitWorker
  split
  · have hsame : s.setCall c (.pushing t required) = s := by
      rw [State.setCall, ← hcall, Function.update_eq_self]
    rw [hsame]
    exact h
  · next heq =>
    have hon : (s.calls c).OnPool := by
      rw [hcall]
      trivial
    apply h.linkTask t (fun d hd => h.alone d c hd hon) _ hfreed _ _
    · intro i hi
      rw [hcall] at hi
      cases hi
    · rw [hlength]
      exact (not_not.mp heq).symm
    · intro hnone
      exact (h.unused hnone).1 c t required hcall

/-! ## Deleting -/

theorem LimitInv.idx_eq (h : LimitInv s) {n : Nat} {w : Worker ρ} (hw : s.workers[n]? = some w) :
    w.idx = n := by
  have hget : (s.workers.map Worker.idx)[n]? = some w.idx := by rw [List.getElem?_map, hw]; rfl
  obtain ⟨hn, -⟩ := List.getElem?_eq_some_iff.mp hw
  rw [h.indices, List.getElem?_map, List.getElem?_range hn] at hget
  exact (Option.some.inj hget).symm

theorem LimitInv.exists_idx (h : LimitInv s) {w : Worker ρ} (hw : w ∈ s.workers) :
    ∃ n, s.workers[n]? = some w ∧ w.idx = (n : Nat) := by
  obtain ⟨n, hn⟩ := List.mem_iff_getElem?.mp hw
  exact ⟨n, hn, h.idx_eq hn⟩

/-- The thread that is joined is the one that was told to exit. -/
theorem PoolInv.threadAt (h : PoolInv s) (hlimits : LimitInv s) {c : Nat} {i : Int}
    (hcall : s.calls c = .joiningThread i) :
    threadAt s i = s.workers[i.toNat]? ∧ i.toNat < s.workers.length := by
  obtain ⟨hpos, hlt, -, -⟩ := h.deleting c i hcall
  have hno := h.noPush_of_deleting hcall
  have hlength := h.settled hno
  have hi : i.toNat < s.workers.length := by omega
  refine ⟨?_, hi⟩
  unfold ThreadPool.threadAt
  cases hthreads : s.pool.threads with
  | none =>
    rw [hlimits.threads hthreads] at hi
    cases hi
  | some threads =>
    obtain ⟨heq, -⟩ := h.threads threads hthreads
    dsimp only
    rw [heq, List.getElem?_map, List.getElem?_range hi]
    rfl

theorem PoolInv.joinThreads (h : PoolInv s) {c : Nat} (honly : ∀ d, (s.calls d).OnPool → d = c)
    {i : Int} (hi : 0 ≤ i) (hdone : ∀ w ∈ s.workers, w.idx < i → w.phase = .exited)
    (hlimits : LimitInv s) (hno : NoPush s) (hfreed : s.poolFreed = false)
    (hpending : s.pool.pendingTaskCount ≤ 0) (hrunning : s.pool.runningTaskCount ≤ 0) :
    PoolInv (joinThreads s c i) := by
  have hlength := h.settled hno
  unfold ThreadPool.joinThreads
  split
  · next hlt =>
    have hself : Function.update s.calls c (Call.joiningThread i) c = .joiningThread i :=
      Function.update_self ..
    have hcalls : ∀ d, (Function.update s.calls c (Call.joiningThread i) d).OnPool → d = c := by
      intro d hd
      by_contra hne
      rw [Function.update_of_ne hne] at hd
      exact hne (honly d hd)
    refine ⟨fun d e hd he => (hcalls d hd).trans (hcalls e he).symm, fun _ => hlength,
      fun d u required hd => ?_, fun d j hd => ?_, fun hop => ?_, fun _ => ⟨hpending, hrunning⟩,
      fun hfr => ?_, h.threads, fun hnone => ?_⟩
    · obtain rfl := hcalls d (by
        rw [show Function.update s.calls c _ d = .pushing u required from hd]; trivial)
      rw [setCall_calls, Function.update_self] at hd
      cases hd
    · obtain rfl := hcalls d (by
        rw [show Function.update s.calls c _ d = .joiningThread j from hd]; trivial)
      rw [setCall_calls, Function.update_self] at hd
      cases hd
      exact ⟨hi, hlt, rfl, hdone⟩
    · exact absurd hself (hop.2 c i)
    · rw [show s.poolFreed = true from hfr] at hfreed
      cases hfreed
    · have hzero := hlimits.threadCount_of_none hnone
      omega
  · next hge =>
    have hquiet : Quiet ({ s with poolFreed := true }.setCall c (Call.done .ok none)) :=
      quiet_update rfl honly id
    -- every thread has been joined
    have hall : ∀ w ∈ s.workers, w.phase = .exited := by
      intro w hw
      apply hdone w hw
      obtain ⟨n, hn, heq⟩ := hlimits.exists_idx hw
      have hlt := (List.getElem?_eq_some_iff.mp hn).1
      omega
    refine ⟨fun d e hd _ => absurd hd (hquiet d), fun _ => hlength, fun d u required hd => ?_,
      fun d j hd => ?_, fun hop => ?_, fun _ => ⟨hpending, hrunning⟩, fun _ => ⟨hquiet, hall⟩,
      h.threads, fun hnone => ⟨hquiet.noPush, (h.unused hnone).2⟩⟩
    · exact absurd hd (hquiet.noPush d u required)
    · apply absurd _ (hquiet d)
      rw [hd]
      trivial
    · cases hop.1

theorem PoolInv.threadPoolDelete (h : PoolInv s) (hlimits : LimitInv s) (hquiet : Quiet s)
    (hfreed : s.poolFreed = false) (c : Nat) : PoolInv (threadPoolDelete s c) := by
  have honly : ∀ d, (s.calls d).OnPool → d = c := fun d hd => absurd hd (hquiet d)
  have hno := hquiet.noPush
  obtain ⟨-, halive⟩ := h.opened (hquiet.isOpen hfreed)
  unfold ThreadPool.threadPoolDelete
  split
  · exact h.frame ⟨rfl, rfl, rfl, rfl, rfl⟩ (sameOnPool_update rfl (hquiet c) id)
  · next hidle =>
    rw [not_or, not_or] at hidle
    obtain ⟨hrunning, hpending, -⟩ := hidle
    split
    · next hnone =>
      have hnil := hlimits.threads hnone
      have hquiet' : Quiet ({ s with poolFreed := true }.setCall c (Call.done .ok none)) :=
        quiet_update rfl honly id
      refine ⟨fun d e hd _ => absurd hd (hquiet' d), fun _ => h.settled hno,
        fun d u required hd => ?_, fun d j hd => ?_, fun hop => ?_, fun _ => ⟨?_, ?_⟩,
        fun _ => ⟨hquiet', fun w hw => ?_⟩, h.threads, fun _ => ⟨hquiet'.noPush, (h.unused hnone).2⟩⟩
      · exact absurd hd (hquiet'.noPush d u required)
      · apply absurd _ (hquiet' d)
        rw [hd]
        trivial
      · cases hop.1
      · show s.pool.pendingTaskCount ≤ 0
        omega
      · show s.pool.runningTaskCount ≤ 0
        omega
      · change w ∈ s.workers at hw
        rw [hnil] at hw
        cases hw
    · apply h.joinThreads honly le_rfl _ hlimits hno hfreed (by omega) (by omega)
      intro w hw hneg
      obtain ⟨n, -, heq⟩ := hlimits.exists_idx hw
      omega

theorem PoolInv.deletePoolResume (h : PoolInv s) (hlimits : LimitInv s) {c : Nat} {i : Int}
    {w : Worker ρ} (hcall : s.calls c = .joiningThread i) (hthread : ThreadPool.threadAt s i = some w)
    (hphase : w.phase = .exited) (hfreed : s.poolFreed = false) :
    PoolInv (ThreadPool.joinThreads s c (i + 1)) := by
  have hon : (s.calls c).OnPool := by
    rw [hcall]
    trivial
  obtain ⟨hpos, -, -, hdone⟩ := h.deleting c i hcall
  obtain ⟨hpending, hrunning⟩ := h.closed fun hop => hop.2 c i hcall
  rw [(h.threadAt hlimits hcall).1] at hthread
  apply h.joinThreads (fun d hd => h.alone d c hd hon) (by omega) _ hlimits
    (h.noPush_of_deleting hcall) hfreed hpending hrunning
  intro w' hw' hlt
  obtain ⟨n, hn, heq⟩ := hlimits.exists_idx hw'
  by_cases hlast : w'.idx < i
  · exact hdone w' hw' hlast
  · have hni : n = i.toNat := by omega
    rw [hni, hthread] at hn
    cases hn
    exact hphase

/-! ## Tasks -/

/-- A task that a call takes out of the pool is in it, and has been run or is yet to be. -/
structure TaskInv (s : State ρ) : Prop where
  pushing : ∀ c t required, s.calls c = .pushing t required → OutOfPool s t
  joined : ∀ c t, (s.calls c).takesOut = some t → (s.tasks t).pool = true
  once : ∀ c d t, (s.calls c).takesOut = some t → (s.calls d).takesOut = some t → c = d
  inPool : ∀ t, (s.tasks t).pool = true → (s.tasks t).isFinished = true ∨ Active s t
  detached : ∀ t, (s.tasks t).isDetached = true → (s.tasks t).pool = false

/-- A push is only of a task that is in no pool, also when it has waited. -/
theorem TaskInv.pushesOutOfPool (h : TaskInv s) {a : Action ρ} (ha : Orderly s a) :
    PushesOutOfPool s a := by
  unfold PushesOutOfPool
  cases a with
  | push c t => exact ha.1
  | pushResume c =>
    dsimp only
    split
    · next t required hcall => exact h.pushing c t required hcall
    · trivial
  | _ => trivial

/-- The calls and the places of the tasks are the same, or fewer. -/
theorem TaskInv.keep (h : TaskInv s)
    (hpushing : ∀ c t required, s'.calls c = .pushing t required → s.calls c = .pushing t required)
    (htakes : ∀ c t, (s'.calls c).takesOut = some t → (s.calls c).takesOut = some t)
    (hpool : ∀ t, (s'.tasks t).pool = (s.tasks t).pool)
    (hdetached : ∀ t, (s'.tasks t).isDetached = (s.tasks t).isDetached)
    (hin : ∀ t, (s.tasks t).pool = true → (s.tasks t).isFinished = true ∨ Active s t →
      (s'.tasks t).isFinished = true ∨ Active s' t) : TaskInv s' := by
  refine ⟨fun c t required hcall => ?_, fun c t hc => ?_, fun c d t hc hd => ?_, fun t ht => ?_,
    fun t ht => ?_⟩
  · rw [OutOfPool, hpool, hdetached]
    exact h.pushing c t required (hpushing c t required hcall)
  · rw [hpool]
    exact h.joined c t (htakes c t hc)
  · exact h.once c d t (htakes c t hc) (htakes d t hd)
  · rw [hpool] at ht
    exact hin t ht (h.inPool t ht)
  · rw [hdetached] at ht
    rw [hpool]
    exact h.detached t ht

/-- The flags of the tasks that are not about a run are the same. -/
def SameFlags (s s' : State ρ) : Prop :=
  ∀ t, (s'.tasks t).pool = (s.tasks t).pool ∧ (s'.tasks t).isDetached = (s.tasks t).isDetached ∧
    (s'.tasks t).isFinished = (s.tasks t).isFinished

theorem sameFlags_update {t : TaskId} {task : Task ρ}
    (htasks : s'.tasks = Function.update s.tasks t task) (hpool : task.pool = (s.tasks t).pool)
    (hdetached : task.isDetached = (s.tasks t).isDetached)
    (hfinished : task.isFinished = (s.tasks t).isFinished) : SameFlags s s' := by
  intro u
  rw [htasks]
  by_cases hu : u = t
  · rw [hu, Function.update_self]
    exact ⟨hpool, hdetached, hfinished⟩
  · rw [Function.update_of_ne hu]
    exact ⟨rfl, rfl, rfl⟩

theorem TaskInv.flags (h : TaskInv s) (hflags : SameFlags s s') (hcalls : s'.calls = s.calls)
    (hpushes : s'.pushes = s.pushes) (hruns : s'.runs = s.runs) : TaskInv s' := by
  apply h.keep _ _ (fun t => (hflags t).1) (fun t => (hflags t).2.1)
  · intro t _ ht
    rw [(hflags t).2.2, active_congr hpushes hruns]
    exact ht
  · rw [hcalls]
    exact fun _ _ _ => id
  · rw [hcalls]
    exact fun _ _ => id

/-- A call takes its task out of the pool. -/
theorem TaskInv.leave (h : TaskInv s) {c : Nat} {t : TaskId} {call : Call ρ} {task : Task ρ}
    (hc : (s.calls c).takesOut = some t) (hcalls : s'.calls = Function.update s.calls c call)
    (hnone : call.takesOut = none) (hpushing : ∀ u required, call ≠ .pushing u required)
    (htasks : s'.tasks = Function.update s.tasks t task) (hpool : task.pool = false)
    (hpushes : s'.pushes = s.pushes) (hruns : s'.runs = s.runs) : TaskInv s' := by
  have hother : ∀ d u, (s'.calls d).takesOut = some u → d ≠ c ∧ (s.calls d).takesOut = some u := by
    intro d u hd
    rw [hcalls] at hd
    by_cases heq : d = c
    · rw [heq, Function.update_self, hnone] at hd
      cases hd
    · rw [Function.update_of_ne heq] at hd
      exact ⟨heq, hd⟩
  refine ⟨fun d u required hd => ?_, fun d u hd => ?_, fun d e u hd he => ?_, fun u hu => ?_,
    fun u hu => ?_⟩
  · rw [hcalls] at hd
    by_cases heq : d = c
    · rw [heq, Function.update_self] at hd
      exact absurd hd (hpushing u required)
    · rw [Function.update_of_ne heq] at hd
      have hout := h.pushing d u required hd
      have hne : u ≠ t := by
        rintro rfl
        rw [OutOfPool, h.joined c u hc] at hout
        cases hout.1
      rw [OutOfPool, htasks, Function.update_of_ne hne]
      exact hout
  · obtain ⟨hne, hd⟩ := hother d u hd
    have hut : u ≠ t := by
      rintro rfl
      exact hne (h.once d c u hd hc)
    rw [htasks, Function.update_of_ne hut]
    exact h.joined d u hd
  · exact h.once d e u (hother d u hd).2 (hother e u he).2
  · by_cases heq : u = t
    · rw [heq, htasks, Function.update_self, hpool] at hu
      cases hu
    · rw [htasks, Function.update_of_ne heq] at hu ⊢
      rw [active_congr hpushes hruns]
      exact h.inPool u hu
  · by_cases heq : u = t
    · rw [heq, htasks, Function.update_self]
      exact hpool
    · rw [htasks, Function.update_of_ne heq] at hu ⊢
      exact h.detached u hu

theorem TaskInv.setCall (h : TaskInv s) {c : Nat} {call : Call ρ} (hnone : call.takesOut = none)
    (hpushing : ∀ u required, call = .pushing u required → OutOfPool s u) :
    TaskInv (s.setCall c call) := by
  have hother : ∀ d u, (Function.update s.calls c call d).takesOut = some u →
      (s.calls d).takesOut = some u := by
    intro d u hd
    by_cases heq : d = c
    · rw [heq, Function.update_self, hnone] at hd
      cases hd
    · rwa [Function.update_of_ne heq] at hd
  refine ⟨fun d u required hd => ?_, fun d u hd => h.joined d u (hother d u hd),
    fun d e u hd he => h.once d e u (hother d u hd) (hother e u he), h.inPool, h.detached⟩
  rw [setCall_calls] at hd
  by_cases heq : d = c
  · rw [heq, Function.update_self] at hd
    exact hpushing u required hd
  · rw [Function.update_of_ne heq] at hd
    exact h.pushing d u required hd

/-- A call that begins to wait for a task that is in the pool. -/
theorem TaskInv.beginTask (h : TaskInv s) {c : Nat} {t : TaskId} {call : Call ρ}
    (hcall : call.takesOut = some t) (hpool : (s.tasks t).pool = true)
    (honly : ∀ d, (s.calls d).takesOut ≠ some t) : TaskInv (s.setCall c call) := by
  have hother : ∀ d u, (Function.update s.calls c call d).takesOut = some u →
      d = c ∧ u = t ∨ d ≠ c ∧ (s.calls d).takesOut = some u := by
    intro d u hd
    by_cases heq : d = c
    · rw [heq, Function.update_self, hcall] at hd
      exact .inl ⟨heq, (Option.some.inj hd).symm⟩
    · rw [Function.update_of_ne heq] at hd
      exact .inr ⟨heq, hd⟩
  refine ⟨fun d u required hd => ?_, fun d u hd => ?_, fun d e u hd he => ?_, h.inPool, h.detached⟩
  · rw [setCall_calls] at hd
    by_cases heq : d = c
    · rw [heq, Function.update_self] at hd
      rw [hd] at hcall
      cases hcall
    · rw [Function.update_of_ne heq] at hd
      exact h.pushing d u required hd
  · rcases hother d u hd with ⟨-, rfl⟩ | ⟨-, hd⟩
    · exact hpool
    · exact h.joined d u hd
  · rcases hother d u hd with ⟨rfl, rfl⟩ | ⟨-, hd⟩
    · rcases hother e u he with ⟨rfl, -⟩ | ⟨-, he⟩
      · rfl
      · exact absurd he (honly e)
    · rcases hother e u he with ⟨-, rfl⟩ | ⟨-, he⟩
      · exact absurd hd (honly d)
      · exact h.once d e u hd he

theorem TaskInv.access (h : TaskInv s) (t : TaskId) (as : List Access) : TaskInv (s.access t as) :=
  h.flags (fun _ => ⟨rfl, rfl, rfl⟩) rfl rfl rfl

theorem TaskInv.threadTaskDelete (h : TaskInv s) (t : TaskId) : TaskInv (threadTaskDelete s t).1 := by
  rw [threadTaskDelete_eq]
  exact h.access t _

theorem TaskInv.linkTask (h : TaskInv s) (hinv : Inv s l) {c : Nat} {t : TaskId}
    (hout : OutOfPool s t) (honly : ∀ d u required, s.calls d = .pushing u required → d = c) :
    TaskInv ((linkTask s t).setCall c (.done .ok none)) := by
  have htasks : ((ThreadPool.linkTask s t).setCall c (.done .ok none)).tasks =
      Function.update s.tasks t { s.tasks t with
        pool := true, next := s.pool.pendingTaskList, isFinished := false, isRunning := false } := rfl
  have hpushes : ((ThreadPool.linkTask s t).setCall c (.done .ok none)).pushes = t :: s.pushes := rfl
  have hcalls : ((ThreadPool.linkTask s t).setCall c (.done .ok none)).calls =
      Function.update s.calls c (.done .ok none) := rfl
  have hother : ∀ d u, (Function.update s.calls c (Call.done .ok none) d).takesOut = some u →
      (s.calls d).takesOut = some u := by
    intro d u hd
    by_cases heq : d = c
    · rw [heq, Function.update_self] at hd
      cases hd
    · rwa [Function.update_of_ne heq] at hd
  refine ⟨fun d u required hd => ?_, fun d u hd => ?_, fun d e u hd he => ?_, fun u hu => ?_,
    fun u hu => ?_⟩
  · rw [hcalls] at hd
    by_cases heq : d = c
    · rw [heq, Function.update_self] at hd
      cases hd
    · rw [Function.update_of_ne heq] at hd
      exact absurd (honly d u required hd) heq
  · rw [htasks]
    by_cases heq : u = t
    · rw [heq, Function.update_self]
    · rw [Function.update_of_ne heq]
      exact h.joined d u (hother d u hd)
  · exact h.once d e u (hother d u hd) (hother e u he)
  · by_cases heq : u = t
    · -- the push is the latest one, and has not run
      refine .inr ⟨s.pushes.length, ?_, fun hrun => ?_⟩
      · rw [heq, hpushes, latestPush_cons_self]
      · have hlt := hinv.ledger.mem_iff.mp (List.mem_append_right _ hrun)
        exact absurd hlt (Nat.lt_irrefl _)
    · rw [htasks, Function.update_of_ne heq] at hu ⊢
      apply (h.inPool u hu).imp_right
      rintro ⟨k, hk, hrun⟩
      exact ⟨k, by rw [hpushes, latestPush_cons_of_ne heq, hk], hrun⟩
  · rw [htasks] at hu ⊢
    by_cases heq : u = t
    · rw [heq, Function.update_self] at hu
      have hattached : (s.tasks t).isDetached = false := hout.2
      rw [show (s.tasks t).isDetached = true from hu] at hattached
      cases hattached
    · rw [Function.update_of_ne heq] at hu ⊢
      exact h.detached u hu

theorem sameFlags_waitOrTake {i : Nat} {idx : Int}
    (htake : ThreadPool.waitOrTake s i idx = some s') : SameFlags s s' := by
  rcases waitOrTake_cases htake with ⟨-, rfl⟩ | ⟨-, rfl⟩ | ⟨-, t, -, rfl⟩
  · exact fun _ => ⟨rfl, rfl, rfl⟩
  · exact fun _ => ⟨rfl, rfl, rfl⟩
  · -- only `next` is written
    exact sameFlags_update rfl rfl rfl rfl

theorem TaskInv.waitOrTake (h : TaskInv s) {i : Nat} {idx : Int}
    (htake : ThreadPool.waitOrTake s i idx = some s') : TaskInv s' := by
  have hflags := sameFlags_waitOrTake htake
  rcases waitOrTake_cases htake with ⟨-, rfl⟩ | ⟨-, rfl⟩ | ⟨-, t, -, rfl⟩
  · exact h.flags hflags rfl rfl rfl
  · exact h.flags hflags rfl rfl rfl
  · exact h.flags hflags rfl rfl rfl

theorem sameFlags_startRun (i : Nat) (idx : Int) (t : TaskId) (push : Nat) :
    SameFlags s (ThreadPool.startRun s i idx t push) := sameFlags_update rfl rfl rfl rfl

/-- The run of the latest push makes its task finished. -/
theorem TaskInv.recordRun (h : TaskInv s) {t : TaskId} {push : Nat}
    (hlatest : latestPush s.pushes t = some push) (v : ρ) :
    TaskInv (addIdle (recordRun s t push v)) := by
  have htasks : (addIdle (ThreadPool.recordRun s t push v)).tasks =
      Function.update s.tasks t ((s.tasks t).record v) := recordRun_tasks s t push v
  have hcalls : (addIdle (ThreadPool.recordRun s t push v)).calls = s.calls :=
    recordRun_calls s t push v
  apply h.keep
  · rw [hcalls]
    exact fun _ _ _ => id
  · rw [hcalls]
    exact fun _ _ => id
  · intro u
    rw [htasks]
    by_cases hu : u = t
    · rw [hu, Function.update_self, Task.record_pool]
    · rw [Function.update_of_ne hu]
  · intro u
    rw [htasks]
    by_cases hu : u = t
    · rw [hu, Function.update_self, Task.record_isDetached]
    · rw [Function.update_of_ne hu]
  · intro u hpool hu
    rw [htasks]
    by_cases heq : u = t
    · apply Or.inl
      have hattached : ¬ (s.tasks t).isDetached = true := by
        intro hdetached
        rw [heq, h.detached t hdetached] at hpool
        cases hpool
      rw [heq, Function.update_self, Task.record, if_neg hattached]
    · rw [Function.update_of_ne heq]
      apply hu.imp_right
      rintro ⟨k, hk, hrun⟩
      refine ⟨k, (congrArg (latestPush · u) (recordRun_pushes s t push v)).trans hk, ?_⟩
      show k ∉ (ThreadPool.recordRun s t push v).runs.map Prod.fst
      rw [recordRun_runs, List.map_cons, List.mem_cons, not_or]
      refine ⟨?_, hrun⟩
      rintro rfl
      exact heq (latestPush_inj hk hlatest)

/-! ## Steps -/

theorem TaskInv.awaitWorker (h : TaskInv s) (hinv : Inv s l) {c : Nat} {t : TaskId}
    (hout : OutOfPool s t) (honly : ∀ d u required, s.calls d = .pushing u required → d = c)
    (required : Int) : TaskInv (awaitWorker s c t required) := by
  unfold ThreadPool.awaitWorker
  split
  · refine h.setCall rfl fun u required' heq => ?_
    cases heq
    exact hout
  · exact h.linkTask hinv hout honly

theorem TaskInv.spawnWorker (h : TaskInv s) : TaskInv (ThreadPool.spawnWorker s).1 := by
  have hcreate : ∀ threads idx, TaskInv (ThreadPool.createWorker s threads idx) := fun _ _ =>
    h.flags (fun _ => ⟨rfl, rfl, rfl⟩) rfl rfl rfl
  unfold ThreadPool.spawnWorker
  dsimp only
  split
  · exact hcreate _ _
  · split
    · exact hcreate _ _
    · exact h

theorem spawnWorker_calls (s : State ρ) : (ThreadPool.spawnWorker s).1.calls = s.calls := by
  unfold ThreadPool.spawnWorker
  dsimp only
  split
  · rfl
  · split <;> rfl

theorem TaskInv.threadPoolPushTask (h : TaskInv s) (hinv : Inv s l) {t : TaskId}
    (hout : OutOfPool s t) (hquiet : Quiet s) (c : Nat) : TaskInv (threadPoolPushTask s c t) := by
  unfold ThreadPool.threadPoolPushTask
  split
  · exact h.setCall rfl fun _ _ heq => by cases heq
  · apply h.spawnWorker.awaitWorker hinv.spawnWorker
    · rwa [OutOfPool, spawnWorker_tasks]
    · intro d u required hd
      rw [spawnWorker_calls] at hd
      exact absurd hd (hquiet.noPush d u required)

theorem TaskInv.joinThreads (h : TaskInv s) (c : Nat) (i : Int) :
    TaskInv (ThreadPool.joinThreads s c i) := by
  unfold ThreadPool.joinThreads
  split
  · have hexit : TaskInv { s with pool := { s.pool with threadIdxThatShouldExit := i } } :=
      h.flags (fun _ => ⟨rfl, rfl, rfl⟩) rfl rfl rfl
    exact hexit.setCall rfl fun _ _ heq => by cases heq
  · have hfreed : TaskInv { s with poolFreed := true } :=
      h.flags (fun _ => ⟨rfl, rfl, rfl⟩) rfl rfl rfl
    exact hfreed.setCall rfl fun _ _ heq => by cases heq

theorem TaskInv.threadPoolDelete (h : TaskInv s) (c : Nat) :
    TaskInv (ThreadPool.threadPoolDelete s c) := by
  unfold ThreadPool.threadPoolDelete
  split
  · exact h.setCall rfl fun _ _ heq => by cases heq
  · split
    · have hfreed : TaskInv { s with poolFreed := true } :=
        h.flags (fun _ => ⟨rfl, rfl, rfl⟩) rfl rfl rfl
      exact hfreed.setCall rfl fun _ _ heq => by cases heq
    · exact h.joinThreads c 0

theorem TaskInv.step (h : TaskInv s) (hinv : Inv s l) (hpool : PoolInv s) {a : Action ρ}
    (ha : Orderly s a) (hstep : Steps s a s') : TaskInv s' := by
  have hsetDone : ∀ {u : State ρ} (c : Nat) (ret : Ret) (result : Option ρ), TaskInv u →
      TaskInv (u.setCall c (.done ret result)) := fun c ret result hu =>
    hu.setCall rfl fun _ _ heq => by cases heq
  cases hstep.effect with
  | start _ _ _ htake =>
    have hcounted : TaskInv (addIdle (countThread s)) :=
      h.flags (fun _ => ⟨rfl, rfl, rfl⟩) rfl rfl rfl
    exact hcounted.waitOrTake htake
  | wake _ _ _ htake => exact h.waitOrTake htake
  | run => exact h.flags (sameFlags_startRun _ _ _ _) rfl rfl rfl
  | finish =>
    exact h.flags (fun _ => ⟨rfl, rfl, rfl⟩) rfl rfl rfl
  | @record i w t push v _ hw hphase _ htake =>
    exact (h.recordRun (hinv.active_of_holding hw hphase).2 v).waitOrTake htake
  | push => exact h.threadPoolPushTask hinv ha.1 ha.2 _
  | pushResume hcall =>
    apply h.awaitWorker hinv (h.pushing _ _ _ hcall)
    intro d u required hd
    apply hpool.alone
    · rw [hd]
      trivial
    · rw [hcall]
      trivial
  -- the calls on tasks
  | @join c t timed =>
    unfold threadTaskJoin
    dsimp only
    split
    · next hin => exact (h.access t _).beginTask rfl hin ha
    · exact hsetDone c _ _ (h.access t _)
  | @detach c t =>
    unfold threadTaskDetach
    dsimp only
    split
    · next hin => exact (h.access t _).beginTask rfl hin ha
    · exact hsetDone c _ _ (h.access t _)
  | @joinSection c t timed hcall =>
    have hc : (s.calls c).takesOut = some t := by
      rw [hcall]
      rfl
    unfold ThreadPool.joinSection
    dsimp only
    split
    · exact h.leave hc rfl rfl (fun _ _ heq => by cases heq) rfl rfl rfl rfl
    · exact (h.access t _).access t _
  | joinTimeout => exact hsetDone _ _ _ (h.access _ _)
  | @detachSection c t hcall =>
    have hc : (s.calls c).takesOut = some t := by
      rw [hcall]
      rfl
    unfold ThreadPool.detachSection
    simp only [setTask_tasks, access_tasks, Function.update_self]
    split
    · exact h.leave hc rfl rfl (fun _ _ heq => by cases heq) rfl rfl rfl rfl
    · have hpoolFalse : ({ s.tasks t with pool := false, isDetached := true } : Task ρ).pool = false :=
        rfl
      refine h.leave hc rfl rfl (fun _ _ heq => by cases heq) ?_ hpoolFalse rfl rfl
      simp only [setCall_tasks, State.recordDetach, access_tasks, setTask_tasks,
        Function.update_idem]
  | @detachDelete c t =>
    unfold ThreadPool.detachDelete
    have hdeleted : TaskInv ((ThreadPool.threadTaskDelete s t).1.recordDetach t) :=
      (h.threadTaskDelete t).flags (fun _ => ⟨rfl, rfl, rfl⟩) rfl rfl rfl
    exact hsetDone c _ _ hdeleted
  | deleteTask => exact hsetDone _ _ _ (h.threadTaskDelete _)
  | deletePool => exact h.threadPoolDelete _
  | deletePoolResume => exact h.joinThreads _ _

/-- A worker that looks at the list: what it leaves alone, and what it does to the rest. -/
structure Looked (s s' : State ρ) (i : Nat) (idx : Int) (phase : Phase ρ) : Prop where
  workers : s'.workers = s.workers.set i ⟨idx, phase⟩
  calls : s'.calls = s.calls
  poolFreed : s'.poolFreed = s.poolFreed
  threads : s'.pool.threads = s.pool.threads
  exit : s'.pool.threadIdxThatShouldExit = s.pool.threadIdxThatShouldExit
  threadCount : s'.pool.threadCount = s.pool.threadCount
  pushes : s'.pushes = s.pushes
  pending : s'.pool.pendingTaskCount ≤ s.pool.pendingTaskCount
  running : s.pool.pendingTaskCount ≤ 0 →
    s'.pool.runningTaskCount = s.pool.runningTaskCount
  exits : phase = .exited → s.pool.threadIdxThatShouldExit = idx

theorem exists_looked {i : Nat} {idx : Int} (htake : ThreadPool.waitOrTake s i idx = some s') :
    ∃ phase, Looked s s' i idx phase := by
  rcases waitOrTake_cases htake with ⟨-, rfl⟩ | ⟨hexit, rfl⟩ | ⟨htakes, t, -, rfl⟩
  · exact ⟨.waiting, rfl, rfl, rfl, rfl, rfl, rfl, rfl, le_rfl, fun _ => rfl, fun h => by cases h⟩
  · exact ⟨.exited, rfl, rfl, rfl, rfl, rfl, rfl, rfl, le_rfl, fun _ => rfl, fun _ => hexit⟩
  · refine ⟨_, rfl, rfl, rfl, rfl, rfl, rfl, rfl, ?_, fun hnone => ?_, fun h => by cases h⟩
    · show s.pool.pendingTaskCount - 1 ≤ s.pool.pendingTaskCount
      omega
    · exact absurd htakes.1 (by omega)

theorem recordRun_poolFreed (s : State ρ) (t : TaskId) (push : Nat) (v : ρ) :
    (ThreadPool.recordRun s t push v).poolFreed = s.poolFreed := by
  simp only [ThreadPool.recordRun, threadTaskDelete_eq]
  split <;> rfl

theorem not_onPool_of_idle {call : Call ρ} (h : call.Idle) : ¬ call.OnPool := by
  cases call <;> first | exact id | exact h.elim

theorem sameOnPool_of_onTask {a : Action ρ} (ha : a.onTask = true) (h : Steps s a s') :
    SameOnPool s s' := by
  cases h.effect with
  | @join c t timed hcall =>
    have hold := not_onPool_of_idle hcall
    unfold threadTaskJoin
    dsimp only
    split <;> exact sameOnPool_update rfl hold id
  | @detach c t hcall =>
    have hold := not_onPool_of_idle hcall
    unfold threadTaskDetach
    dsimp only
    split <;> exact sameOnPool_update rfl hold id
  | @deleteTask c t hcall =>
    rw [threadTaskDelete_eq]
    exact sameOnPool_update rfl (not_onPool_of_idle hcall) id
  | @joinSection c t timed hcall =>
    have hold : ¬ (s.calls c).OnPool := by
      rw [hcall]
      exact id
    unfold ThreadPool.joinSection
    dsimp only
    split
    · exact sameOnPool_update rfl hold id
    · exact fun _ => .inl rfl
  | @joinTimeout c t hcall =>
    apply sameOnPool_update rfl _ id
    rw [hcall]
    exact id
  | @detachSection c t hcall =>
    have hold : ¬ (s.calls c).OnPool := by
      rw [hcall]
      exact id
    unfold ThreadPool.detachSection
    dsimp only
    split <;> exact sameOnPool_update rfl hold id
  | @detachDelete c t hcall =>
    have hold : ¬ (s.calls c).OnPool := by
      rw [hcall]
      exact id
    unfold ThreadPool.detachDelete
    rw [threadTaskDelete_eq]
    exact sameOnPool_update rfl hold id
  | _ => cases ha

theorem PoolInv.step (h : PoolInv s) (hlimits : LimitInv s) {a : Action ρ} (ha : Orderly s a)
    (hstep : Steps s a s') : PoolInv s' := by
  by_cases honTask : a.onTask = true
  · exact h.frame (samePool_of_onTask honTask hstep) (sameOnPool_of_onTask honTask hstep)
  cases hstep.effect with
  | @start i w _ hw hphase _ htake =>
    obtain ⟨phase, hlooked⟩ := exists_looked htake
    have halive : w.phase ≠ .exited := by
      rw [hphase]
      exact fun heq => by cases heq
    -- somebody pushes, as not all workers are counted
    have hlate : ¬ NoPush s := fun hno =>
      hlimits.length_ne_of_created hw hphase (h.settled hno)
    exact h.worker hw (hlimits.idx_nonneg hw) halive hlooked.workers hlooked.calls
      hlooked.poolFreed hlooked.threads hlooked.exit hlooked.pushes (fun hno => absurd hno hlate)
      hlooked.pending (fun hp hr => (hlooked.running hp).le.trans hr) hlooked.exits
  | @wake i w _ hw hphase _ htake =>
    obtain ⟨phase, hlooked⟩ := exists_looked htake
    have halive : w.phase ≠ .exited := by
      rw [hphase]
      exact fun heq => by cases heq
    exact h.worker hw (hlimits.idx_nonneg hw) halive hlooked.workers hlooked.calls
      hlooked.poolFreed hlooked.threads hlooked.exit hlooked.pushes (fun _ => hlooked.threadCount)
      hlooked.pending (fun hp hr => (hlooked.running hp).le.trans hr) hlooked.exits
  | @record i w t push v _ hw hphase _ htake =>
    obtain ⟨phase, hlooked⟩ := exists_looked htake
    have halive : w.phase ≠ .exited := by
      rw [hphase]
      exact fun heq => by cases heq
    have hpool : (addIdle (ThreadPool.recordRun s t push v)).pool = { s.pool with
        runningTaskCount := s.pool.runningTaskCount - 1,
        idleThreadCount := s.pool.idleThreadCount + 1 } := by rw [addIdle, recordRun_pool]
    have hworkers : (addIdle (ThreadPool.recordRun s t push v)).workers = s.workers :=
      recordRun_workers s t push v
    have hcalls : (addIdle (ThreadPool.recordRun s t push v)).calls = s.calls :=
      recordRun_calls s t push v
    have hpushes : (addIdle (ThreadPool.recordRun s t push v)).pushes = s.pushes :=
      recordRun_pushes s t push v
    have hrunning := hlooked.running
    have hthreads := hlooked.threads
    have hexit := hlooked.exit
    have hcount := hlooked.threadCount
    have hpending := hlooked.pending
    have hexits := hlooked.exits
    rw [hpool] at hrunning hthreads hexit hcount hpending hexits
    apply h.worker hw (hlimits.idx_nonneg hw) halive (hworkers ▸ hlooked.workers)
      (hlooked.calls.trans hcalls) _ hthreads hexit (hlooked.pushes.trans hpushes) (fun _ => hcount)
      hpending _ hexits
    · rw [hlooked.poolFreed, addIdle, recordRun_poolFreed]
    · intro hp hr
      rw [hrunning hp]
      show s.pool.runningTaskCount - 1 ≤ 0
      omega
  | @run i w t push hw hphase =>
    have halive : w.phase ≠ .exited := by
      rw [hphase]
      exact fun heq => by cases heq
    exact h.worker hw (hlimits.idx_nonneg hw) halive rfl rfl rfl rfl rfl rfl (fun _ => rfl) le_rfl
      (fun _ hr => hr) fun heq => by cases heq
  | @finish i v w t push hw hphase =>
    have halive : w.phase ≠ .exited := by
      rw [hphase]
      exact fun heq => by cases heq
    exact h.worker hw (hlimits.idx_nonneg hw) halive rfl rfl rfl rfl rfl rfl (fun _ => rfl) le_rfl
      (fun _ hr => hr) fun heq => by cases heq
  | push _ hfreed => exact h.push hlimits ha.2 hfreed _ _
  | pushResume hcall hfreed => exact h.pushResume hcall hfreed
  | deletePool _ hfreed => exact h.threadPoolDelete hlimits ha hfreed _
  | deletePoolResume hcall hthread hphase hfreed =>
    exact h.deletePoolResume hlimits hcall hthread hphase hfreed
  | _ => exact absurd rfl honTask

/-! ## Runs -/

/-- What holds in a run of orderly clients. -/
structure Steady (s : State ρ) : Prop where
  inv : ∃ l, Inv s l
  limits : LimitInv s
  pool : PoolInv s
  tasks : TaskInv s

theorem PoolInv.timely (h : PoolInv s) (hlimits : LimitInv s) {a : Action ρ} (ha : Orderly s a)
    (hstep : Steps s a s') : Timely s a := by
  cases hstep.effect with
  | push => exact fun _ => hlimits.all_counted (h.settled ha.2.noPush)
  | start hw hphase =>
    intro c t required hcall heq
    exact hlimits.length_ne_of_created hw hphase ((h.pushing c t required hcall).1.trans heq.symm)
  | pushResume => exact fun t hcall => (h.pushing _ t _ hcall).2
  | _ => trivial

theorem Steady.step (h : Steady s) {a : Action ρ} (ha : Orderly s a) (hstep : Steps s a s') :
    Steady s' := by
  obtain ⟨l, hinv⟩ := h.inv
  exact ⟨hinv.step (h.tasks.pushesOutOfPool ha) hstep,
    h.limits.step (h.pool.timely h.limits ha hstep) hstep, h.pool.step h.limits ha hstep,
    h.tasks.step hinv h.pool ha hstep⟩

theorem steady_start {maxThreadCount : Int} {pool : Pool}
    (hnew : threadPoolNew maxThreadCount = some pool) : Steady (State.start (ρ := ρ) pool) := by
  have hinv : Inv (State.start (ρ := ρ) pool) [] := inv_start hnew
  refine ⟨⟨[], hinv⟩, limitInv_start hnew, ?_, ?_⟩
  · unfold threadPoolNew at hnew
    split at hnew
    · cases hnew
    · cases hnew
      refine ⟨fun _ _ hc => hc.elim, fun _ => rfl, fun _ _ _ hc => ?_, fun _ _ hc => ?_,
        fun _ => ⟨rfl, fun _ hw => absurd hw List.not_mem_nil⟩, fun _ => ⟨le_rfl, le_rfl⟩,
        fun hfr => ?_, fun _ hth => ?_, fun _ => ⟨fun _ _ _ hc => ?_, rfl⟩⟩
      · cases hc
      · cases hc
      · cases hfr
      · cases hth
      · cases hc
  · refine ⟨fun _ _ _ hc => ?_, fun _ _ hc => ?_, fun _ _ _ hc => ?_, fun _ ht => ?_, fun _ ht => ?_⟩
    · cases hc
    · cases hc
    · cases hc
    · cases ht
    · cases ht

end

end SystemProgramming.ThreadPool
