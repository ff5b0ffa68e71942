import SystemProgramming.ThreadPool.Accounting

/-!
# Detached tasks

A detached task is deleted by the client that detaches it, if it is finished, and by its worker
otherwise.  The worker then unlocks the mutex of the task that it has just deleted.
-/

open Runs Ledgers SinglyLinked

namespace SystemProgramming.ThreadPool

variable {ρ : Type}

/-! ## What should hold of detached tasks -/

def Freed (s : State ρ) (t : TaskId) : Prop := (t, Access.free) ∈ s.trace

instance (s : State ρ) (t : TaskId) : Decidable (Freed s t) :=
  inferInstanceAs (Decidable ((t, Access.free) ∈ s.trace))

/-- After the access that frees a task there is no other access to it. -/
def NoUseAfterFree (trace : List (TaskId × Access)) : Prop :=
  trace.Pairwise fun x y => x.2 = .free → y.1 ≠ x.1

instance (trace : List (TaskId × Access)) : Decidable (NoUseAfterFree trace) :=
  inferInstanceAs (Decidable (trace.Pairwise _))

/-- The runs of all pushes of the task have ended. -/
def HasRun (s : State ρ) (t : TaskId) : Prop :=
  ∀ k, latestPush s.pushes t = some k → ∃ v, (k, v) ∈ s.runs

/-- A task that has both run and been detached was freed once, and nothing uses a freed task. -/
structure DetachSafe (s : State ρ) : Prop where
  unused : NoUseAfterFree s.trace
  once : ∀ t ∈ s.detached, HasRun s t → s.trace.count (t, .free) = 1

/-- The task that a call is about. -/
def Call.task : Call ρ → Option TaskId
  | .pushing t _ | .joining t _ | .detaching t | .deletingDetached t => some t
  | _ => none

/-- The task that a call detaches. -/
def Call.detaches : Call ρ → Option TaskId
  | .detaching t | .deletingDetached t => some t
  | _ => none

/-- The task was neither deleted nor detached, and no call detaches it. -/
def Usable (s : State ρ) (t : TaskId) : Prop :=
  ¬ Freed s t ∧ (s.tasks t).isDetached = false ∧ ∀ c, (s.calls c).detaches ≠ some t

/-- The rules of the header: a task is pushed when it is in no pool, it is not used after it was
detached or deleted, and nothing else uses it when it is detached or deleted. -/
def UsesProperly (s : State ρ) (a : Action ρ) : Prop :=
  PushesOutOfPool s a ∧
    match a with
    | .push _ t | .join _ t _ => Usable s t
    | .detach _ t | .deleteTask _ t => Usable s t ∧ ∀ c, (s.calls c).task ≠ some t
    | _ => True

/-- A run that ends here is not of a detached task. -/
def EndsAttached (s : State ρ) : Action ρ → Prop
  | .record i => ∀ idx t push v, s.workers[i]? = some ⟨idx, .holding t push (.returned v)⟩ →
    (s.tasks t).isDetached = false
  | _ => True

/-! ## The trace -/

section

variable {trace : List (TaskId × Access)} {t : TaskId} {as : List Access}

/-- More accesses to a task that is not freed, of which at most the last frees it. -/
theorem NoUseAfterFree.append (h : NoUseAfterFree trace) (hfree : (t, Access.free) ∉ trace)
    (has : as.Pairwise fun a _ => a ≠ .free) : NoUseAfterFree (trace ++ as.map fun a => (t, a)) := by
  refine List.pairwise_append.mpr ⟨h, ?_, ?_⟩
  · rw [List.pairwise_map]
    exact has.imp fun hne heq => absurd heq hne
  · intro x hx y hy hxfree heq
    obtain ⟨a, -, rfl⟩ := List.mem_map.mp hy
    refine hfree ?_
    rw [show t = x.1 from heq, ← hxfree]
    exact hx

theorem NoUseAfterFree.count (h : NoUseAfterFree trace) (hmem : (t, Access.free) ∈ trace) :
    trace.count (t, .free) = 1 := by
  obtain ⟨pre, post, rfl⟩ := List.append_of_mem hmem
  obtain ⟨-, hpost, hcross⟩ := List.pairwise_append.mp h
  have hbefore : (t, Access.free) ∉ pre := fun hpre =>
    hcross _ hpre _ List.mem_cons_self rfl rfl
  have hafter : (t, Access.free) ∉ post := fun hin =>
    (List.pairwise_cons.mp hpost).1 _ hin rfl rfl
  rw [List.count_append, List.count_cons_self, List.count_eq_zero_of_not_mem hbefore,
    List.count_eq_zero_of_not_mem hafter]

theorem not_noUseAfterFree {pre post : List (TaskId × Access)} {a : Access}
    (ha : (t, a) ∈ post) : ¬ NoUseAfterFree (pre ++ (t, .free) :: post) := by
  intro h
  exact (List.pairwise_cons.mp (List.pairwise_append.mp h).2.1).1 _ ha rfl rfl

end

/-! ## Active tasks -/

/-- The latest push of the task has not run. -/
def Active (s : State ρ) (t : TaskId) : Prop :=
  ∃ k, latestPush s.pushes t = some k ∧ k ∉ s.runs.map Prod.fst

section

variable {s s' : State ρ} {l : List TaskId} {t : TaskId}

theorem latestPush_lt {pushes : List TaskId} {k : Nat} (h : latestPush pushes t = some k) :
    k < pushes.length := by
  induction pushes with
  | nil => cases h
  | cons u pushes ih =>
    unfold latestPush at h
    rw [List.length_cons]
    split at h
    · cases h
      exact Nat.lt_succ_self _
    · exact (ih h).trans (Nat.lt_succ_self _)

/-- A push is of one task. -/
theorem latestPush_inj {pushes : List TaskId} {u : TaskId} {k : Nat}
    (ht : latestPush pushes t = some k) (hu : latestPush pushes u = some k) : t = u := by
  induction pushes with
  | nil => cases ht
  | cons v pushes ih =>
    by_cases hvt : v = t
    · by_cases hvu : v = u
      · exact hvt.symm.trans hvu
      · rw [← hvt, latestPush_cons_self] at ht
        cases ht
        rw [latestPush_cons_of_ne (Ne.symm hvu)] at hu
        exact absurd (latestPush_lt hu) (Nat.lt_irrefl _)
    · rw [latestPush_cons_of_ne (Ne.symm hvt)] at ht
      by_cases hvu : v = u
      · rw [← hvu, latestPush_cons_self] at hu
        cases hu
        exact absurd (latestPush_lt ht) (Nat.lt_irrefl _)
      · rw [latestPush_cons_of_ne (Ne.symm hvu)] at hu
        exact ih ht hu

/-- What is active is listed or held. -/
theorem Inv.active_iff (h : Inv s l) : Active s t ↔ t ∈ l ∨ ∃ k, (t, k) ∈ s.held := by
  have hdisjoint := (List.nodup_append.mp h.ledger.nodup).2.2
  constructor
  · rintro ⟨k, hlatest, hrun⟩
    have hkept := h.ledger.mem_iff.mpr (latestPush_lt hlatest)
    rcases List.mem_append.mp ((List.mem_append.mp hkept).resolve_right hrun) with hlist | hheld
    · obtain ⟨u, hu, hk⟩ := List.mem_filterMap.mp hlist
      exact .inl (latestPush_inj hlatest hk ▸ hu)
    · obtain ⟨⟨u, k'⟩, hu, rfl⟩ := List.mem_map.mp hheld
      obtain rfl := latestPush_inj hlatest (h.held _ hu)
      exact .inr ⟨_, hu⟩
  · rintro (ht | ⟨k, hk⟩)
    · obtain ⟨k, hlatest⟩ := h.listed t ht
      have hmem : k ∈ pushesOf s l ++ s.held.map Prod.snd :=
        List.mem_append_left _ (List.mem_filterMap.mpr ⟨t, ht, hlatest⟩)
      exact ⟨k, hlatest, fun hrun => hdisjoint k hmem k hrun rfl⟩
    · have hmem : k ∈ pushesOf s l ++ s.held.map Prod.snd :=
        List.mem_append_right _ (List.mem_map.mpr ⟨_, hk, rfl⟩)
      exact ⟨k, h.held _ hk, fun hrun => hdisjoint k hmem k hrun rfl⟩

theorem Inv.not_active_of_outOfPool (h : Inv s l) (hout : OutOfPool s t) : ¬ Active s t := by
  rw [h.active_iff, not_or, not_exists]
  exact h.not_mem_of_outOfPool hout

theorem active_congr (hpushes : s'.pushes = s.pushes) (hruns : s'.runs = s.runs) :
    Active s' t ↔ Active s t := by
  rw [Active, Active, hpushes, hruns]

/-! ## The invariant -/

/-- What holds of each task as long as no run of a detached task ends. -/
structure TaskOk (s : State ρ) (t : TaskId) : Prop where
  freed : Freed s t → ¬ Active s t ∧ ∀ c, (s.calls c).task ≠ some t
  detached : (s.tasks t).isDetached = true →
    Active s t ∧ (s.tasks t).pool = false ∧ ∀ c, (s.calls c).task ≠ some t
  pool : (s.tasks t).pool = true → (s.tasks t).isFinished = true ∨ Active s t
  detaching : ∀ c, s.calls c = .detaching t → (s.tasks t).pool = true
  deleting : ∀ c, s.calls c = .deletingDetached t → (s.tasks t).pool = false
  alone : ∀ c d, (s.calls c).detaches = some t → (s.calls d).task = some t → d = c
  recorded : t ∈ s.detached → Freed s t ∨ (s.tasks t).isDetached = true

def DetachInv (s : State ρ) : Prop := NoUseAfterFree s.trace ∧ ∀ t, TaskOk s t

theorem DetachInv.safe (h : DetachInv s) : DetachSafe s := by
  refine ⟨h.1, fun t ht hrun => ?_⟩
  rcases (h.2 t).recorded ht with hfreed | hdetached
  · exact h.1.count hfreed
  · obtain ⟨⟨k, hlatest, hnot⟩, -⟩ := (h.2 t).detached hdetached
    obtain ⟨v, hv⟩ := hrun k hlatest
    exact absurd (List.mem_map.mpr ⟨_, hv, rfl⟩) hnot

/-- Nothing that the invariant says of the task has changed. -/
structure Untouched (s s' : State ρ) (t : TaskId) : Prop where
  freed : Freed s' t ↔ Freed s t
  active : Active s' t ↔ Active s t
  pool : (s'.tasks t).pool = (s.tasks t).pool
  isDetached : (s'.tasks t).isDetached = (s.tasks t).isDetached
  isFinished : (s'.tasks t).isFinished = (s.tasks t).isFinished
  calls : ∀ c, (s'.calls c).task = some t → s'.calls c = s.calls c
  detached : t ∈ s'.detached → t ∈ s.detached

theorem task_of_detaches {call : Call ρ} (h : call.detaches = some t) : call.task = some t := by
  cases call <;> simp_all [Call.detaches, Call.task]

theorem TaskOk.untouched (h : TaskOk s t) (hu : Untouched s s' t) : TaskOk s' t := by
  have hcalls : ∀ c, (s'.calls c).task = some t → (s.calls c).task = some t := by
    intro c hc
    rw [← hu.calls c hc]
    exact hc
  refine ⟨fun hf => ?_, fun hd => ?_, fun hp => ?_, fun c hc => ?_, fun c hc => ?_,
    fun c d hc hd => ?_, fun hm => ?_⟩
  · obtain ⟨hactive, hnone⟩ := h.freed (hu.freed.mp hf)
    exact ⟨fun ha => hactive (hu.active.mp ha), fun c hc => hnone c (hcalls c hc)⟩
  · rw [hu.isDetached] at hd
    obtain ⟨hactive, hpool, hnone⟩ := h.detached hd
    exact ⟨hu.active.mpr hactive, hu.pool.trans hpool, fun c hc => hnone c (hcalls c hc)⟩
  · rw [hu.pool] at hp
    rw [hu.isFinished, hu.active]
    exact h.pool hp
  · rw [hu.pool]
    exact h.detaching c ((hu.calls c (by rw [hc]; rfl)).symm.trans hc)
  · rw [hu.pool]
    exact h.deleting c ((hu.calls c (by rw [hc]; rfl)).symm.trans hc)
  · rw [hu.calls c (task_of_detaches hc)] at hc
    exact h.alone c d hc (hcalls d hd)
  · rw [hu.freed, hu.isDetached]
    exact h.recorded (hu.detached hm)

/-- A task that no call detaches, and that was neither freed nor detached. -/
theorem TaskOk.quiet (hfreed : ¬ Freed s t) (hdetached : (s.tasks t).isDetached = false)
    (hpool : (s.tasks t).pool = true → (s.tasks t).isFinished = true ∨ Active s t)
    (hcalls : ∀ c, (s.calls c).detaches ≠ some t) (hrecorded : t ∉ s.detached) : TaskOk s t := by
  refine ⟨fun hf => absurd hf hfreed, fun hd => ?_, hpool, fun c hc => ?_, fun c hc => ?_,
    fun c d hc => absurd hc (hcalls c), fun hm => absurd hm hrecorded⟩
  · rw [hdetached] at hd
    cases hd
  · exact absurd (by rw [hc]; rfl) (hcalls c)
  · exact absurd (by rw [hc]; rfl) (hcalls c)

/-- A task in a call is neither freed nor detached. -/
theorem TaskOk.in_call (h : TaskOk s t) {c : Nat} (hc : (s.calls c).task = some t) :
    ¬ Freed s t ∧ (s.tasks t).isDetached = false ∧ t ∉ s.detached := by
  have hfreed : ¬ Freed s t := fun hf => (h.freed hf).2 c hc
  have hdetached : (s.tasks t).isDetached = false := by
    by_contra hd
    rw [Bool.not_eq_false] at hd
    exact (h.detached hd).2.2 c hc
  refine ⟨hfreed, hdetached, fun hm => ?_⟩
  rcases h.recorded hm with hf | hd
  · exact hfreed hf
  · rw [hdetached] at hd
    cases hd

theorem TaskOk.not_recorded (h : TaskOk s t) (huse : Usable s t) : t ∉ s.detached := by
  intro hm
  rcases h.recorded hm with hf | hd
  · exact huse.1 hf
  · rw [huse.2.1] at hd
    cases hd

/-- A call that does not detach its task is not met by one that does. -/
theorem TaskOk.not_detaches (h : TaskOk s t) {c : Nat} (hc : (s.calls c).task = some t)
    (hnot : (s.calls c).detaches ≠ some t) (d : Nat) : (s.calls d).detaches ≠ some t := by
  intro hd
  obtain rfl := h.alone d c hd hc
  exact hnot hd

/-! ## Accesses and flags -/

theorem freed_append {as : List Access} {u : TaskId}
    (htrace : s'.trace = s.trace ++ as.map fun a => (t, a)) :
    Freed s' u ↔ Freed s u ∨ (u = t ∧ .free ∈ as) := by
  rw [Freed, Freed, htrace, List.mem_append, List.mem_map]
  refine or_congr_right ⟨?_, ?_⟩
  · rintro ⟨a, ha, heq⟩
    obtain ⟨rfl, rfl⟩ := Prod.mk.inj heq
    exact ⟨rfl, ha⟩
  · rintro ⟨rfl, ha⟩
    exact ⟨.free, ha, rfl⟩

theorem not_freed_append {as : List Access} {u : TaskId}
    (htrace : s'.trace = s.trace ++ as.map fun a => (t, a)) (hfreed : ¬ Freed s u)
    (has : .free ∉ as) : ¬ Freed s' u := by
  rw [freed_append htrace]
  exact fun hf => hf.elim hfreed fun hand => has hand.2

/-- A step on one task, which it may free at its end. -/
theorem DetachInv.touch (h : DetachInv s) {as : List Access} (t : TaskId)
    (hnot : as ≠ [] → ¬ Freed s t) (has : as.Pairwise fun a _ => a ≠ .free)
    (htrace : s'.trace = s.trace ++ as.map fun a => (t, a))
    (hrest : ∀ u, u ≠ t → (Active s' u ↔ Active s u))
    (htasks : ∀ u, u ≠ t → s'.tasks u = s.tasks u)
    (hcalls : ∀ c u, u ≠ t → (s'.calls c).task = some u → s'.calls c = s.calls c)
    (hdetached : ∀ u, u ≠ t → u ∈ s'.detached → u ∈ s.detached) (ht : TaskOk s' t) :
    DetachInv s' := by
  refine ⟨?_, fun u => ?_⟩
  · rw [htrace]
    by_cases hempty : as = []
    · rw [hempty, List.map_nil, List.append_nil]
      exact h.1
    · exact h.1.append (hnot hempty) has
  · by_cases hu : u = t
    · rw [hu]
      exact ht
    · refine (h.2 u).untouched ⟨?_, hrest u hu, ?_, ?_, ?_, fun c => hcalls c u hu, hdetached u hu⟩
      · rw [freed_append htrace]
        exact or_iff_left fun hand => hu hand.1
      all_goals rw [htasks u hu]

/-- A step that leaves every task alone. -/
theorem DetachInv.untouched (h : DetachInv s) (htrace : s'.trace = s.trace)
    (hu : ∀ t, Untouched s s' t) : DetachInv s' :=
  ⟨htrace ▸ h.1, fun t => (h.2 t).untouched (hu t)⟩

/-- The calls that are about a task are as they were. -/
theorem DetachInv.frame (h : DetachInv s) (htrace : s'.trace = s.trace)
    (htasks : s'.tasks = s.tasks)
    (hcalls : ∀ c t, (s'.calls c).task = some t → s'.calls c = s.calls c)
    (hpushes : s'.pushes = s.pushes) (hruns : s'.runs = s.runs)
    (hdetached : s'.detached = s.detached) : DetachInv s' := by
  refine h.untouched htrace fun t =>
    ⟨?_, active_congr hpushes hruns, ?_, ?_, ?_, fun c => hcalls c t, ?_⟩
  · rw [Freed, Freed, htrace]
  · rw [htasks]
  · rw [htasks]
  · rw [htasks]
  · rw [hdetached]
    exact id

theorem DetachInv.same (h : DetachInv s) (htrace : s'.trace = s.trace) (htasks : s'.tasks = s.tasks)
    (hcalls : s'.calls = s.calls) (hpushes : s'.pushes = s.pushes) (hruns : s'.runs = s.runs)
    (hdetached : s'.detached = s.detached) : DetachInv s' :=
  h.frame htrace htasks (fun c _ _ => by rw [hcalls]) hpushes hruns hdetached

/-- A call that is about `t` or about nothing. -/
theorem calls_update {c : Nat} (call : Call ρ) (hcall : ∀ u, call.task = some u → u = t)
    (d : Nat) {u : TaskId} (hu : u ≠ t) (hd : (Function.update s.calls c call d).task = some u) :
    Function.update s.calls c call d = s.calls d := by
  by_cases heq : d = c
  · rw [heq, Function.update_self] at hd
    exact absurd (hcall u hd) hu
  · exact Function.update_of_ne heq _ _

/-- A call about `t` goes on, and nothing but the task and the call changes. -/
theorem DetachInv.touchCall (h : DetachInv s) {as : List Access} {c : Nat} {t : TaskId}
    {task : Task ρ} {call : Call ρ} (hfreed : ¬ Freed s t)
    (has : as.Pairwise fun a _ => a ≠ .free)
    (htrace : s'.trace = s.trace ++ as.map fun a => (t, a))
    (htasks : s'.tasks = Function.update s.tasks t task)
    (hcalls : s'.calls = Function.update s.calls c call) (hcall : ∀ u, call.task = some u → u = t)
    (hpushes : s'.pushes = s.pushes) (hruns : s'.runs = s.runs)
    (hdetached : ∀ u, u ≠ t → u ∈ s'.detached → u ∈ s.detached) (ht : TaskOk s' t) :
    DetachInv s' := by
  refine h.touch t (fun _ => hfreed) has htrace (fun _ _ => active_congr hpushes hruns)
    (fun u hu => ?_) (fun d u hu => ?_) hdetached ht
  · rw [htasks, Function.update_of_ne hu]
  · rw [hcalls]
    exact calls_update call hcall d hu

theorem detaches_update {c : Nat} {call : Call ρ} (hcall : call.detaches ≠ some t)
    (hcalls : ∀ d, (s.calls d).detaches ≠ some t) (d : Nat) :
    (Function.update s.calls c call d).detaches ≠ some t := by
  by_cases heq : d = c
  · rw [heq, Function.update_self]
    exact hcall
  · rw [Function.update_of_ne heq]
    exact hcalls d

/-- The calls other than `c` are not about a task that only `c` may use. -/
theorem task_update {c : Nat} {call : Call ρ} (hcall : call.task ≠ some t)
    (halone : ∀ d, (s.calls d).task = some t → d = c) (d : Nat) :
    (Function.update s.calls c call d).task ≠ some t := by
  by_cases heq : d = c
  · rw [heq, Function.update_self]
    exact hcall
  · rw [Function.update_of_ne heq]
    exact fun hd => heq (halone d hd)

/-- No other call comes to be about the task. -/
theorem only_update {c : Nat} {call : Call ρ} (halone : ∀ d, (s.calls d).task = some t → d = c)
    (d : Nat) (hd : (Function.update s.calls c call d).task = some t) : d = c := by
  by_contra hne
  rw [Function.update_of_ne hne] at hd
  exact hne (halone d hd)

/-- A call that reads a task and returns. -/
theorem DetachInv.done (h : DetachInv s) {as : List Access} (hnot : as ≠ [] → ¬ Freed s t)
    (has : .free ∉ as) (c : Nat) (ret : Ret) (result : Option ρ) :
    DetachInv ((s.access t as).setCall c (.done ret result)) := by
  have hcalls : ∀ d u, (Function.update s.calls c (.done ret result) d).task = some u →
      Function.update s.calls c (.done ret result) d = s.calls d := by
    intro d u hd
    by_cases heq : d = c
    · rw [heq, Function.update_self] at hd
      cases hd
    · exact Function.update_of_ne heq _ _
  have hfreed : ∀ u, Freed ((s.access t as).setCall c (.done ret result)) u ↔ Freed s u := by
    intro u
    rw [freed_append (s := s) (t := t) rfl]
    exact or_iff_left fun hand => has hand.2
  have hpair : as.Pairwise fun a _ => a ≠ .free :=
    List.pairwise_of_forall_mem_list fun a ha _ _ heq => has (heq ▸ ha)
  exact h.touch t hnot hpair rfl (fun _ _ => Iff.rfl) (fun _ _ => rfl)
    (fun d u _ hd => hcalls d u hd) (fun _ _ => id)
    ((h.2 t).untouched ⟨hfreed t, Iff.rfl, rfl, rfl, rfl, fun d => hcalls d t, id⟩)

theorem DetachInv.setCall (h : DetachInv s) (c : Nat) (ret : Ret) (result : Option ρ) :
    DetachInv (s.setCall c (.done ret result)) := by
  have hsame : s.access 0 [] = s := by rw [State.access, List.map_nil, List.append_nil]
  rw [← hsame]
  exact h.done (fun hne => absurd rfl hne) (by decide) c ret result

/-! ## The steps of the callers -/

theorem DetachInv.join (h : DetachInv s) (c : Nat) {t : TaskId} (timed : Bool)
    (huse : Usable s t) : DetachInv (threadTaskJoin s c t timed) := by
  unfold threadTaskJoin
  dsimp only
  split
  · refine h.touch t (fun _ => huse.1) (by decide) rfl (fun _ _ => Iff.rfl) (fun _ _ => rfl)
      (fun d u hu => calls_update (.joining t timed) (fun v hv => (Option.some.inj hv).symm) d hu)
      (fun _ _ => id) ?_
    refine TaskOk.quiet ?_ huse.2.1 (h.2 t).pool ?_ ((h.2 t).not_recorded huse)
    · exact not_freed_append (s := s) (t := t) rfl huse.1 (by decide)
    · exact detaches_update (s := s) (fun hcall => nomatch hcall) huse.2.2
  · exact h.done (fun _ => huse.1) (by decide) c _ _

theorem DetachInv.detach (h : DetachInv s) (c : Nat) {t : TaskId} (huse : Usable s t)
    (hcalls : ∀ d, (s.calls d).task ≠ some t) : DetachInv (threadTaskDetach s c t) := by
  unfold threadTaskDetach
  dsimp only
  split
  · next hpool =>
    -- The call is the only one about the task.
    have honly : ∀ d, (Function.update s.calls c (.detaching t) d).task = some t → d = c :=
      only_update fun d hd => absurd hd (hcalls d)
    refine h.touch t (fun _ => huse.1) (by decide) rfl (fun _ _ => Iff.rfl) (fun _ _ => rfl)
      (fun d u hu => calls_update (.detaching t) (fun v hv => (Option.some.inj hv).symm) d hu)
      (fun _ _ => id) ?_
    refine ⟨fun hf => ?_, fun hd => ?_, (h.2 t).pool, fun _ _ => hpool, fun d hd => ?_,
      fun d e hd he => ?_, (fun hm => absurd hm ((h.2 t).not_recorded huse))⟩
    · exact absurd hf (not_freed_append (s := s) (t := t) rfl huse.1 (by decide))
    · exact absurd (huse.2.1.symm.trans hd) (by decide)
    · have hdc := honly d (by rw [setCall_calls, access_calls] at hd; rw [hd]; rfl)
      rw [hdc, setCall_calls, Function.update_self] at hd
      cases hd
    · rw [honly d (task_of_detaches hd), honly e he]
  · exact h.done (fun _ => huse.1) (by decide) c _ _

/-- A call that deletes a task that nothing else uses, and returns. -/
theorem DetachInv.delete (h : DetachInv s) {c : Nat} {t : TaskId} {ret : Ret}
    (hout : OutOfPool s t) (hactive : ¬ Active s t) (hfreed : ¬ Freed s t)
    (halone : ∀ d, (s.calls d).task = some t → d = c)
    (htrace : s'.trace = s.trace ++ [Access.read, .free].map fun a => (t, a))
    (htasks : s'.tasks = s.tasks) (hpushes : s'.pushes = s.pushes) (hruns : s'.runs = s.runs)
    (hcalls : s'.calls = Function.update s.calls c (.done ret none))
    (hdetached : ∀ u, u ≠ t → u ∈ s'.detached → u ∈ s.detached) : DetachInv s' := by
  have htask : s'.tasks = Function.update s.tasks t (s.tasks t) := by
    rw [htasks, Function.update_eq_self]
  refine h.touchCall hfreed (by decide) htrace htask hcalls (by intro _ hv; cases hv) hpushes
    hruns hdetached ?_
  have hnone : ∀ d, (s'.calls d).task ≠ some t := by
    rw [hcalls]
    exact task_update (fun hcall => nomatch hcall) halone
  refine ⟨fun _ => ⟨fun ha => hactive ((active_congr hpushes hruns).mp ha), hnone⟩, fun hd => ?_,
    fun hp => ?_, fun d hd => ?_, fun d hd => ?_, fun d _ hd => ?_, fun _ => .inl ?_⟩
  · rw [htasks, hout.2] at hd
    cases hd
  · rw [htasks, hout.1] at hp
    cases hp
  · exact absurd (by rw [hd]; rfl) (hnone d)
  · exact absurd (by rw [hd]; rfl) (hnone d)
  · exact absurd (task_of_detaches hd) (hnone d)
  · exact (freed_append htrace).mpr (.inr ⟨rfl, by decide⟩)

theorem DetachInv.deleteTask (h : DetachInv s) (hinv : Inv s l) (c : Nat) {t : TaskId}
    (huse : Usable s t) (hcalls : ∀ d, (s.calls d).task ≠ some t) :
    DetachInv ((threadTaskDelete s t).1.setCall c (.done (threadTaskDelete s t).2 none)) := by
  rw [threadTaskDelete_eq]
  by_cases hpool : (s.tasks t).pool = true
  · rw [if_pos hpool]
    exact h.done (fun _ => huse.1) (by decide) c _ _
  · have hout : OutOfPool s t := ⟨Bool.eq_false_iff.mpr hpool, huse.2.1⟩
    rw [if_neg hpool]
    exact h.delete hout (hinv.not_active_of_outOfPool hout) huse.1
      (fun d hd => absurd hd (hcalls d)) rfl rfl rfl rfl rfl fun _ _ => id

theorem DetachInv.detachDelete (h : DetachInv s) (hinv : Inv s l) {c : Nat} {t : TaskId}
    (hcall : s.calls c = .deletingDetached t) : DetachInv (ThreadPool.detachDelete s c t) := by
  have htask : (s.calls c).task = some t := by rw [hcall]; rfl
  obtain ⟨hfreed, hdetached, -⟩ := (h.2 t).in_call htask
  have hout : OutOfPool s t := ⟨(h.2 t).deleting c hcall, hdetached⟩
  unfold ThreadPool.detachDelete
  rw [threadTaskDelete_eq, hout.1]
  exact h.delete hout (hinv.not_active_of_outOfPool hout) hfreed
    (fun d hd => (h.2 t).alone c d (by rw [hcall]; rfl) hd) rfl rfl rfl rfl rfl
    fun u hu hm => (List.mem_cons.mp hm).resolve_left hu

theorem DetachInv.joinSection (h : DetachInv s) {c : Nat} {t : TaskId} {timed : Bool}
    (hcall : s.calls c = .joining t timed) : DetachInv (ThreadPool.joinSection s c t) := by
  have htask : (s.calls c).task = some t := by rw [hcall]; rfl
  have hnot : (s.calls c).detaches ≠ some t := by rw [hcall]; intro hd; cases hd
  obtain ⟨hfreed, hdetached, hrecorded⟩ := (h.2 t).in_call htask
  have hquiet := (h.2 t).not_detaches htask hnot
  by_cases hfin : (s.tasks t).isFinished = true
  · -- The task was run: the section takes it out of its pool and answers.
    have htrace : (ThreadPool.joinSection s c t).trace =
        s.trace ++ [Access.lock, .read, .read, .write, .unlock].map fun a => (t, a) := by
      simp [ThreadPool.joinSection, hfin]
    have htasks : (ThreadPool.joinSection s c t).tasks =
        Function.update s.tasks t { s.tasks t with pool := false } := by
      simp [ThreadPool.joinSection, hfin]
    have hcalls : (ThreadPool.joinSection s c t).calls =
        Function.update s.calls c (.done .ok (s.tasks t).result) := by
      simp [ThreadPool.joinSection, hfin]
    have hsame : (ThreadPool.joinSection s c t).pushes = s.pushes ∧
        (ThreadPool.joinSection s c t).runs = s.runs ∧
        (ThreadPool.joinSection s c t).detached = s.detached := by
      simp [ThreadPool.joinSection, hfin]
    refine h.touchCall hfreed (by decide) htrace htasks hcalls (by intro _ hv; cases hv)
      hsame.1 hsame.2.1 (fun u _ => ?_) ?_
    · rw [hsame.2.2]
      exact id
    · refine TaskOk.quiet (not_freed_append htrace hfreed (by decide)) ?_ (fun hp => ?_) ?_ ?_
      · rw [htasks, Function.update_self]
        exact hdetached
      · rw [htasks, Function.update_self] at hp
        cases hp
      · rw [hcalls]
        exact detaches_update (by intro hd; cases hd) hquiet
      · rw [hsame.2.2]
        exact hrecorded
  · -- Not run yet: the call waits, and the section has only read the task.
    have hsame : ThreadPool.joinSection s c t = s.access t [.lock, .read, .unlock] := by
      simp [ThreadPool.joinSection, hfin, State.access]
    rw [hsame]
    refine h.touch t (fun _ => hfreed) (by decide) rfl (fun _ _ => Iff.rfl) (fun _ _ => rfl)
      (fun _ _ _ _ => rfl) (fun _ _ => id) ?_
    exact TaskOk.quiet (not_freed_append rfl hfreed (by decide)) hdetached (h.2 t).pool hquiet
      hrecorded

/-- A finished task is left to the client, and an unfinished one to its worker. -/
theorem DetachInv.detachSection (h : DetachInv s) {c : Nat} {t : TaskId}
    (hcall : s.calls c = .detaching t) : DetachInv (ThreadPool.detachSection s c t) := by
  have htask : (s.calls c).task = some t := by rw [hcall]; rfl
  obtain ⟨hfreed, hdetached, hrecorded⟩ := (h.2 t).in_call htask
  have halone : ∀ d, (s.calls d).task = some t → d = c := fun d =>
    (h.2 t).alone c d (by rw [hcall]; rfl)
  by_cases hfin : (s.tasks t).isFinished = true
  · have htrace : (ThreadPool.detachSection s c t).trace =
        s.trace ++ [Access.lock, .write, .read, .unlock].map fun a => (t, a) := by
      simp [ThreadPool.detachSection, hfin]
    have htasks : (ThreadPool.detachSection s c t).tasks =
        Function.update s.tasks t { s.tasks t with pool := false } := by
      simp [ThreadPool.detachSection, hfin]
    have hcalls : (ThreadPool.detachSection s c t).calls =
        Function.update s.calls c (.deletingDetached t) := by
      simp [ThreadPool.detachSection, hfin]
    have hsame : (ThreadPool.detachSection s c t).pushes = s.pushes ∧
        (ThreadPool.detachSection s c t).runs = s.runs ∧
        (ThreadPool.detachSection s c t).detached = s.detached := by
      simp [ThreadPool.detachSection, hfin]
    have honly : ∀ d, ((ThreadPool.detachSection s c t).calls d).task = some t → d = c := by
      rw [hcalls]
      exact only_update halone
    refine h.touchCall hfreed (by decide) htrace htasks hcalls
      (fun v hv => (Option.some.inj hv).symm) hsame.1 hsame.2.1 (fun u _ => ?_) ?_
    · rw [hsame.2.2]
      exact id
    · refine ⟨fun hf => absurd hf (not_freed_append htrace hfreed (by decide)), fun hd => ?_,
        fun hp => ?_, fun d hd => ?_, fun _ _ => ?_, fun d e hd he => ?_, fun hm => ?_⟩
      · rw [htasks, Function.update_self] at hd
        exact absurd (hdetached.symm.trans hd) (by decide)
      · rw [htasks, Function.update_self] at hp
        cases hp
      · rw [honly d (by rw [hd]; rfl), hcalls, Function.update_self] at hd
        cases hd
      · rw [htasks, Function.update_self]
      · rw [honly d (task_of_detaches hd), honly e he]
      · rw [hsame.2.2] at hm
        exact absurd hm hrecorded
  · have htrace : (ThreadPool.detachSection s c t).trace =
        s.trace ++ [Access.lock, .write, .read, .write, .unlock].map fun a => (t, a) := by
      simp [ThreadPool.detachSection, hfin, State.recordDetach]
    have htasks : (ThreadPool.detachSection s c t).tasks =
        Function.update s.tasks t { s.tasks t with pool := false, isDetached := true } := by
      simp [ThreadPool.detachSection, hfin, State.recordDetach]
    have hcalls : (ThreadPool.detachSection s c t).calls =
        Function.update s.calls c (.done .ok none) := by
      simp [ThreadPool.detachSection, hfin, State.recordDetach]
    have hsame : (ThreadPool.detachSection s c t).pushes = s.pushes ∧
        (ThreadPool.detachSection s c t).runs = s.runs ∧
        (ThreadPool.detachSection s c t).detached = t :: s.detached := by
      simp [ThreadPool.detachSection, hfin, State.recordDetach]
    have hnone : ∀ d, ((ThreadPool.detachSection s c t).calls d).task ≠ some t := by
      rw [hcalls]
      exact task_update (by intro hd; cases hd) halone
    refine h.touchCall hfreed (by decide) htrace htasks hcalls (by intro _ hv; cases hv)
      hsame.1 hsame.2.1 (fun u hu hm => ?_) ?_
    · rw [hsame.2.2] at hm
      exact (List.mem_cons.mp hm).resolve_left hu
    · refine ⟨fun hf => absurd hf (not_freed_append htrace hfreed (by decide)), fun _ => ?_,
        fun hp => ?_, fun d hd => ?_, fun d hd => ?_, fun d _ hd => ?_, fun _ => .inr ?_⟩
      · -- It is in the pool and not finished, so its latest push has not run.
        have hactive := ((h.2 t).pool ((h.2 t).detaching c hcall)).resolve_left hfin
        refine ⟨(active_congr hsame.1 hsame.2.1).mpr hactive, ?_, hnone⟩
        rw [htasks, Function.update_self]
      · rw [htasks, Function.update_self] at hp
        cases hp
      · exact absurd (by rw [hd]; rfl) (hnone d)
      · exact absurd (by rw [hd]; rfl) (hnone d)
      · exact absurd (task_of_detaches hd) (hnone d)
      · rw [htasks, Function.update_self]

theorem DetachInv.link (h : DetachInv s) (hinv : Inv s l) (c : Nat) {t : TaskId}
    (hout : OutOfPool s t) (hfreed : ¬ Freed s t) (hrecorded : t ∉ s.detached)
    (hquiet : ∀ d, (s.calls d).detaches ≠ some t) :
    DetachInv ((linkTask s t).setCall c (.done .ok none)) := by
  have hlatest : latestPush (t :: s.pushes) t = some s.pushes.length := latestPush_cons_self t _
  have htrace : ((linkTask s t).setCall c (.done .ok none)).trace =
      s.trace ++ [Access.write, .write, .write, .write].map fun a => (t, a) := rfl
  refine h.touch t (fun _ => hfreed) (by decide) htrace
    (fun u hu => ?_) (fun u hu => Function.update_of_ne hu _ _)
    (fun d u hu => calls_update (.done .ok none) (fun v hv => nomatch hv) d hu) (fun _ _ => id) ?_
  · change (∃ k, latestPush (t :: s.pushes) u = some k ∧ _) ↔ _
    rw [latestPush_cons_of_ne hu]
    exact Iff.rfl
  · refine TaskOk.quiet (not_freed_append htrace hfreed (by decide)) ?_
      (fun _ => .inr ⟨_, hlatest, fun hrun => ?_⟩) (detaches_update (fun hd => nomatch hd) hquiet) hrecorded
    · change (Function.update s.tasks t _ t).isDetached = false
      rw [Function.update_self]
      exact hout.2
    · exact absurd (hinv.ledger.mem_iff.mp (List.mem_append_right _ hrun)) (Nat.lt_irrefl _)

theorem DetachInv.await (h : DetachInv s) (hinv : Inv s l) (c : Nat) {t : TaskId}
    (hout : OutOfPool s t) (hfreed : ¬ Freed s t) (hrecorded : t ∉ s.detached)
    (hquiet : ∀ d, (s.calls d).detaches ≠ some t) (required : Int) :
    DetachInv (awaitWorker s c t required) := by
  unfold awaitWorker
  split
  · have htrace : s.trace = s.trace ++ ([] : List Access).map fun a => (t, a) :=
      (List.append_nil _).symm
    refine h.touch t (fun hne => absurd rfl hne) List.Pairwise.nil htrace (fun _ _ => Iff.rfl)
      (fun _ _ => rfl) (fun d u hu => calls_update (.pushing t required)
        (fun v hv => (Option.some.inj hv).symm) d hu) (fun _ _ => id) ?_
    exact TaskOk.quiet hfreed hout.2 (h.2 t).pool (detaches_update (fun hd => nomatch hd) hquiet)
      hrecorded
  · exact h.link hinv c hout hfreed hrecorded hquiet

theorem spawnWorker_fields (s : State ρ) : (ThreadPool.spawnWorker s).1.trace = s.trace ∧
    (ThreadPool.spawnWorker s).1.calls = s.calls ∧
    (ThreadPool.spawnWorker s).1.runs = s.runs ∧
    (ThreadPool.spawnWorker s).1.detached = s.detached := by
  unfold ThreadPool.spawnWorker
  dsimp only
  split
  · exact ⟨rfl, rfl, rfl, rfl⟩
  · split <;> exact ⟨rfl, rfl, rfl, rfl⟩

theorem DetachInv.spawnWorker (h : DetachInv s) : DetachInv (ThreadPool.spawnWorker s).1 := by
  obtain ⟨htrace, hcalls, hruns, hdetached⟩ := spawnWorker_fields s
  exact h.same htrace (spawnWorker_tasks s) hcalls (spawnWorker_pushes s) hruns hdetached

theorem DetachInv.push (h : DetachInv s) (hinv : Inv s l) (c : Nat) {t : TaskId}
    (hout : OutOfPool s t) (huse : Usable s t) : DetachInv (threadPoolPushTask s c t) := by
  unfold threadPoolPushTask
  split
  · exact h.setCall c _ _
  · obtain ⟨htrace, hcalls, -, hdetached⟩ := spawnWorker_fields s
    refine h.spawnWorker.await hinv.spawnWorker c ?_ ?_ ?_ ?_ _
    · rwa [OutOfPool, spawnWorker_tasks]
    · rw [Freed, htrace]
      exact huse.1
    · rw [hdetached]
      exact (h.2 t).not_recorded huse
    · rw [hcalls]
      exact huse.2.2

theorem DetachInv.pushResume (h : DetachInv s) (hinv : Inv s l) {c : Nat} {t : TaskId}
    {required : Int} (hcall : s.calls c = .pushing t required) (hout : OutOfPool s t) :
    DetachInv (awaitWorker s c t required) := by
  have htask : (s.calls c).task = some t := by rw [hcall]; rfl
  have hnot : (s.calls c).detaches ≠ some t := by rw [hcall]; exact fun hd => nomatch hd
  obtain ⟨hfreed, -, hrecorded⟩ := (h.2 t).in_call htask
  exact h.await hinv c hout hfreed hrecorded ((h.2 t).not_detaches htask hnot) required

/-- A call becomes one that is about no task. -/
theorem DetachInv.setPoolCall (h : DetachInv s) (c : Nat) (call : Call ρ)
    (hcall : call.task = none) (htrace : s'.trace = s.trace) (htasks : s'.tasks = s.tasks)
    (hcalls : s'.calls = Function.update s.calls c call) (hpushes : s'.pushes = s.pushes)
    (hruns : s'.runs = s.runs) (hdetached : s'.detached = s.detached) : DetachInv s' := by
  refine h.frame htrace htasks (fun d t hd => ?_) hpushes hruns hdetached
  rw [hcalls] at hd ⊢
  by_cases heq : d = c
  · rw [heq, Function.update_self, hcall] at hd
    cases hd
  · exact Function.update_of_ne heq _ _

theorem DetachInv.joinThreads (h : DetachInv s) (c : Nat) (i : Int) :
    DetachInv (joinThreads s c i) := by
  unfold ThreadPool.joinThreads
  split
  · exact h.setPoolCall c (.joiningThread i) rfl rfl rfl rfl rfl rfl rfl
  · exact h.setPoolCall c (.done .ok none) rfl rfl rfl rfl rfl rfl rfl

theorem DetachInv.threadPoolDelete (h : DetachInv s) (c : Nat) :
    DetachInv (threadPoolDelete s c) := by
  unfold ThreadPool.threadPoolDelete
  split
  · exact h.setCall c _ _
  · split
    · exact h.setPoolCall c (.done .ok none) rfl rfl rfl rfl rfl rfl rfl
    · exact h.joinThreads c 0

/-! ## The steps of the workers -/

/-- A worker uses the task only, and leaves its flags. -/
theorem DetachInv.work (h : DetachInv s) {t : TaskId} {as : List Access} (hfreed : ¬ Freed s t)
    (has : .free ∉ as) (htrace : s'.trace = s.trace ++ as.map fun a => (t, a))
    (hactive : ∀ u, Active s' u ↔ Active s u)
    (htasks : ∀ u, (s'.tasks u).pool = (s.tasks u).pool ∧
      (s'.tasks u).isDetached = (s.tasks u).isDetached ∧
      (s'.tasks u).isFinished = (s.tasks u).isFinished)
    (hcalls : s'.calls = s.calls) (hdetached : s'.detached = s.detached) : DetachInv s' := by
  have hpair : as.Pairwise fun a _ => a ≠ .free :=
    List.pairwise_of_forall_mem_list fun a ha _ _ heq => has (heq ▸ ha)
  refine ⟨htrace ▸ h.1.append hfreed hpair, fun u => (h.2 u).untouched ⟨?_, hactive u,
    (htasks u).1, (htasks u).2.1, (htasks u).2.2, fun c _ => by rw [hcalls], ?_⟩⟩
  · rw [freed_append htrace]
    exact or_iff_left fun hand => has hand.2
  · rw [hdetached]
    exact id

theorem flags_update (t : TaskId) {task : Task ρ} (hpool : task.pool = (s.tasks t).pool)
    (hdetached : task.isDetached = (s.tasks t).isDetached)
    (hfinished : task.isFinished = (s.tasks t).isFinished) (u : TaskId) :
    (Function.update s.tasks t task u).pool = (s.tasks u).pool ∧
      (Function.update s.tasks t task u).isDetached = (s.tasks u).isDetached ∧
      (Function.update s.tasks t task u).isFinished = (s.tasks u).isFinished := by
  by_cases hu : u = t
  · rw [hu, Function.update_self]
    exact ⟨hpool, hdetached, hfinished⟩
  · rw [Function.update_of_ne hu]
    exact ⟨rfl, rfl, rfl⟩

theorem DetachInv.not_freed_of_active (h : DetachInv s) (hactive : Active s t) : ¬ Freed s t :=
  fun hf => ((h.2 t).freed hf).1 hactive

/-- A worker waits, or takes a task that is listed. -/
theorem DetachInv.waitOrTake (h : DetachInv s) (hinv : Inv s l) {i : Nat} {idx : Int}
    (htake : waitOrTake s i idx = some s') : DetachInv s' := by
  rcases waitOrTake_cases htake with ⟨-, rfl⟩ | ⟨-, rfl⟩ | ⟨-, t, ht, rfl⟩
  · exact h.same rfl rfl rfl rfl rfl rfl
  · exact h.same rfl rfl rfl rfl rfl rfl
  · cases l with
    | nil => exact absurd (ht.symm.trans hinv.links) (Option.some_ne_none t)
    | cons u l =>
      obtain rfl : u = t := Option.some.inj (hinv.links.1.symm.trans ht)
      have hactive := hinv.active_iff.mpr (.inl List.mem_cons_self)
      exact h.work (h.not_freed_of_active hactive) (by decide)
        (show _ = s.trace ++ [Access.read, .write].map fun a => (u, a) from rfl)
        (fun _ => Iff.rfl) (flags_update u rfl rfl rfl) rfl rfl

/-- The task of a worker is active. -/
theorem Inv.active_of_holding (h : Inv s l) {i : Nat} {w : Worker ρ} (hw : s.workers[i]? = some w)
    {push : Nat} {stage : Stage ρ} (hphase : w.phase = .holding t push stage) :
    Active s t ∧ latestPush s.pushes t = some push := by
  have hmem : (t, push) ∈ s.held := by
    refine List.mem_filterMap.mpr ⟨w, List.mem_of_getElem? hw, ?_⟩
    rw [Worker.held, hphase]
  exact ⟨h.active_iff.mpr (.inr ⟨push, hmem⟩), h.held _ hmem⟩

/-- The end of a run of a task that is not detached. -/
theorem DetachInv.recordRun (h : DetachInv s) {t : TaskId} {push : Nat} (hactive : Active s t)
    (hlatest : latestPush s.pushes t = some push) (hattached : (s.tasks t).isDetached = false)
    (v : ρ) : DetachInv (addIdle (recordRun s t push v)) := by
  have hfreed := h.not_freed_of_active hactive
  have htrace : (addIdle (ThreadPool.recordRun s t push v)).trace =
      s.trace ++ [Access.lock, .read, .write, .write, .write, .unlock].map fun a => (t, a) := by
    simp [addIdle, ThreadPool.recordRun, hattached]
  have htasks : (addIdle (ThreadPool.recordRun s t push v)).tasks =
      Function.update s.tasks t ((s.tasks t).record v) := recordRun_tasks s t push v
  have hcalls : (addIdle (ThreadPool.recordRun s t push v)).calls = s.calls :=
    recordRun_calls s t push v
  have hdetached : (addIdle (ThreadPool.recordRun s t push v)).detached = s.detached := by
    simp [addIdle, ThreadPool.recordRun, hattached]
  have hpushes : (addIdle (ThreadPool.recordRun s t push v)).pushes = s.pushes :=
    recordRun_pushes s t push v
  have hruns : (addIdle (ThreadPool.recordRun s t push v)).runs = (push, v) :: s.runs :=
    recordRun_runs s t push v
  refine h.touch t (fun _ => hfreed) (by decide) htrace (fun u hu => ?_) (fun u hu => ?_)
    (fun d u _ _ => by rw [hcalls]) (fun u _ => by rw [hdetached]; exact id) ?_
  · -- The push that has run is not that of another task.
    rw [Active, Active, hpushes, hruns, List.map_cons]
    refine exists_congr fun k => and_congr_right fun hk => ?_
    have hne : k ≠ push := fun heq => hu (latestPush_inj (heq ▸ hk) hlatest)
    exact not_congr (List.mem_cons.trans (or_iff_right hne))
  · rw [htasks, Function.update_of_ne hu]
  · -- of the task itself only the result is new, and no call about it has changed
    have hold := h.2 t
    refine ⟨fun hf => absurd hf (not_freed_append htrace hfreed (by decide)), fun hd => ?_,
      fun _ => .inl ?_, fun c hc => ?_, fun c hc => ?_, fun c d hc hd => ?_, fun hm => ?_⟩
    · rw [htasks, Function.update_self, Task.record_isDetached, hattached] at hd
      cases hd
    · rw [htasks, Function.update_self, Task.record, if_neg (by rw [hattached]; decide)]
    · rw [hcalls] at hc
      rw [htasks, Function.update_self, Task.record_pool]
      exact hold.detaching c hc
    · rw [hcalls] at hc
      rw [htasks, Function.update_self, Task.record_pool]
      exact hold.deleting c hc
    · rw [hcalls] at hc hd
      exact hold.alone c d hc hd
    · rw [hdetached] at hm
      rcases hold.recorded hm with hf | hd
      · exact absurd hf hfreed
      · rw [hattached] at hd
        cases hd

/-- The worker unlocks the mutex of a task that it has freed. -/
theorem not_detachSafe {i : Nat} {idx : Int} {t : TaskId} {push : Nat} {v : ρ}
    (hdetached : (s.tasks t).isDetached = true) (hpool : (s.tasks t).pool = false)
    (htake : waitOrTake (addIdle (recordRun s t push v)) i idx = some s') : ¬ DetachSafe s' := by
  have htrace : (addIdle (ThreadPool.recordRun s t push v)).trace =
      (s.trace ++ [(t, .lock), (t, .read), (t, .read)]) ++ (t, .free) :: [(t, .unlock)] := by
    simp [addIdle, ThreadPool.recordRun, threadTaskDelete, hdetached, hpool]
  have hmore : ∃ more, s'.trace = (addIdle (ThreadPool.recordRun s t push v)).trace ++ more := by
    rcases waitOrTake_cases htake with ⟨-, rfl⟩ | ⟨-, rfl⟩ | ⟨-, u, -, rfl⟩
    · exact ⟨[], (List.append_nil _).symm⟩
    · exact ⟨[], (List.append_nil _).symm⟩
    · exact ⟨_, rfl⟩
  obtain ⟨more, hmore⟩ := hmore
  intro hsafe
  have hunused := hsafe.unused
  rw [hmore, htrace, List.append_assoc, List.cons_append] at hunused
  exact not_noUseAfterFree (List.mem_append_left _ (List.mem_singleton.mpr rfl)) hunused

/-! ## Runs -/

theorem DetachInv.step (h : DetachInv s) (hinv : Inv s l) {a : Action ρ} (huses : UsesProperly s a)
    (hends : EndsAttached s a) (hstep : Steps s a s') : DetachInv s' := by
  obtain ⟨hpush, huses⟩ := huses
  cases hstep.effect with
  | start _ _ _ htake =>
    have hcounted : DetachInv (addIdle (countThread s)) := h.same rfl rfl rfl rfl rfl rfl
    exact hcounted.waitOrTake hinv.countThread htake
  | wake _ _ _ htake => exact h.waitOrTake hinv htake
  | @run i w t push hw hphase =>
    obtain ⟨hactive, -⟩ := hinv.active_of_holding hw hphase
    exact h.work (h.not_freed_of_active hactive) (by decide)
      (show _ = s.trace ++ [Access.write].map fun a => (t, a) from rfl)
      (fun _ => Iff.rfl) (flags_update t rfl rfl rfl) rfl rfl
  | finish => exact h.same rfl rfl rfl rfl rfl rfl
  | @record i w t push v _ hw hphase _ htake =>
    obtain ⟨hactive, hlatest⟩ := hinv.active_of_holding hw hphase
    -- The task's end is written before the worker looks for more work.
    have hattached := hends w.idx t push v (by rw [hw, ← hphase])
    have hrecorded := hinv.recordRun hw (by rw [Worker.held, hphase]) w.idx v
    rw [← waitOrTake_setPhase _ _ _ .waiting] at htake
    have hdone : DetachInv ((addIdle (ThreadPool.recordRun s t push v)).setPhase i w.idx .waiting) :=
      (h.recordRun hactive hlatest hattached v).same rfl rfl rfl rfl rfl rfl
    exact hdone.waitOrTake hrecorded htake
  | push => exact h.push hinv _ hpush huses
  | join => exact h.join _ _ huses
  | detach => exact h.detach _ huses.1 huses.2
  | deleteTask => exact h.deleteTask hinv _ huses.1 huses.2
  | deletePool => exact h.threadPoolDelete _
  | pushResume hcall =>
    unfold PushesOutOfPool at hpush
    simp only [hcall] at hpush
    exact h.pushResume hinv hcall hpush
  | joinSection hcall => exact h.joinSection hcall
  | @joinTimeout c t hcall =>
    have htask : (s.calls c).task = some t := by rw [hcall]; rfl
    exact h.done (fun _ => ((h.2 t).in_call htask).1) (by decide) _ _ _
  | detachSection hcall => exact h.detachSection hcall
  | detachDelete hcall => exact h.detachDelete hinv hcall
  | deletePoolResume => exact h.joinThreads _ _

/-- The end of a run of a detached task leads out. -/
theorem DetachInv.not_step (h : DetachInv s) {a : Action ρ} (hends : ¬ EndsAttached s a)
    (hstep : Steps s a s') : ¬ DetachSafe s' := by
  cases hstep.effect with
  | @record i w t push v _ hw hphase _ htake =>
    simp only [EndsAttached, not_forall, Bool.not_eq_false] at hends
    obtain ⟨idx, u, k, x, hget, hdetached⟩ := hends
    rw [hw] at hget
    cases hget
    cases hphase
    exact not_detachSafe hdetached ((h.2 t).detached hdetached).2.1 htake
  | _ => exact absurd trivial hends

theorem detachInv_start (pool : Pool) : DetachInv (State.start (ρ := ρ) pool) := by
  refine ⟨List.Pairwise.nil, fun t => ?_⟩
  refine TaskOk.quiet (fun hf => nomatch hf) rfl (fun hp => nomatch hp) ?_ List.not_mem_nil
  exact fun c hc => nomatch hc

end

/-- In a run in which the clients keep to the header, detached tasks are deleted once and not used
afterwards exactly if no run of a detached task ends. -/
theorem detach_safe_iff {maxThreadCount : Int} {pool : Pool} {s : State ρ} {as : List (Action ρ)}
    (hnew : threadPoolNew maxThreadCount = some pool)
    (h : Run (Within UsesProperly Steps) (.start pool) as s) :
    (∀ bs u, bs <+: as → Run (Within UsesProperly Steps) (.start pool) bs u → DetachSafe u) ↔
      Run (Within EndsAttached (Within UsesProperly Steps)) (.start pool) as s := by
  refine always_iff_within (I := fun s => (∃ l, Inv s l) ∧ DetachInv s) (within_unique steps_unique)
    (fun _ hinv => hinv.2.safe) ?_ ?_ ⟨⟨[], inv_start hnew⟩, detachInv_start pool⟩ h
  · rintro s a t ⟨⟨l, hinv⟩, hdetach⟩ hends ⟨huses, hstep⟩
    exact ⟨hinv.step huses.1 hstep, hdetach.step hinv huses hends hstep⟩
  · rintro s a t ⟨-, hdetach⟩ hends ⟨-, hstep⟩
    exact hdetach.not_step hends hstep

/-- Only the caller 0 has called, and it is in no call. -/
theorem usable_by_zero {s : State ρ} {t : TaskId} (hidle : (s.calls 0).task = none)
    (hready : ∀ c, c ≠ 0 → s.calls c = .ready) (hfreed : ¬ Freed s t)
    (hattached : (s.tasks t).isDetached = false) :
    Usable s t ∧ ∀ c, (s.calls c).task ≠ some t := by
  have hnone : ∀ c, (s.calls c).task ≠ some t := by
    intro c hc
    by_cases hzero : c = 0
    · rw [hzero, hidle] at hc
      cases hc
    · rw [hready c hzero] at hc
      cases hc
  exact ⟨⟨hfreed, hattached, fun c hc => hnone c (task_of_detaches hc)⟩, hnone⟩

/-- A new pool for two threads. -/
def newPool : Pool := ⟨none, 0, 0, none, 2, 0, 0, -1⟩

/-- Task 5 is detached when its run has ended. -/
def detachLast : List (Action Nat) :=
  [.push 0 5, .start 0, .pushResume 0, .wake 0, .run 0, .finish 0 7, .record 0, .detach 0 5,
    .detachSection 0, .detachDelete 0]

theorem detach_safe_iff_detachLast : ∃ s,
    (∀ bs u, bs <+: detachLast → Run (Within UsesProperly Steps) (.start newPool) bs u →
      DetachSafe u) ↔
    Run (Within EndsAttached (Within UsesProperly Steps)) (.start newPool) detachLast s := by
  refine ⟨_, detach_safe_iff (show threadPoolNew 2 = some newPool from rfl)
    (.cons ⟨⟨⟨rfl, rfl⟩, (usable_by_zero rfl (fun _ _ => rfl) (by decide) rfl).1⟩, rfl⟩
      (.cons ⟨⟨trivial, trivial⟩, rfl⟩ (.cons ⟨⟨⟨rfl, rfl⟩, trivial⟩, rfl⟩
        (.cons ⟨⟨trivial, trivial⟩, rfl⟩ (.cons ⟨⟨trivial, trivial⟩, rfl⟩
          (.cons ⟨⟨trivial, trivial⟩, rfl⟩ (.cons ⟨⟨trivial, trivial⟩, rfl⟩
            (.cons ⟨⟨trivial, usable_by_zero rfl (fun c hc => ?_) (by decide) rfl⟩, rfl⟩
              (.cons ⟨⟨trivial, trivial⟩, rfl⟩ (.cons ⟨⟨trivial, trivial⟩, rfl⟩
                (.nil _)))))))))))⟩
  exact (Function.update_of_ne hc _ _).trans (Function.update_of_ne hc _ _)

/-- Task 5 is detached before its run. -/
def detachFirst : List (Action Nat) :=
  [.push 0 5, .start 0, .pushResume 0, .detach 0 5, .detachSection 0, .wake 0, .run 0, .finish 0 7,
    .record 0]

/-- The worker frees the task, and then unlocks its mutex. -/
theorem detachFirst_uses_freed : threadPoolNew 2 = some newPool ∧
    ∃ s, Run (Within UsesProperly Steps) (.start newPool) detachFirst s ∧ ¬ DetachSafe s := by
  refine ⟨rfl, _, .cons ⟨⟨⟨rfl, rfl⟩, (usable_by_zero rfl (fun _ _ => rfl) (by decide) rfl).1⟩, rfl⟩
    (.cons ⟨⟨trivial, trivial⟩, rfl⟩ (.cons ⟨⟨⟨rfl, rfl⟩, trivial⟩, rfl⟩
      (.cons ⟨⟨trivial, usable_by_zero rfl (fun c hc => ?_) (by decide) rfl⟩, rfl⟩
        (.cons ⟨⟨trivial, trivial⟩, rfl⟩ (.cons ⟨⟨trivial, trivial⟩, rfl⟩
          (.cons ⟨⟨trivial, trivial⟩, rfl⟩ (.cons ⟨⟨trivial, trivial⟩, rfl⟩
            (.cons ⟨⟨trivial, trivial⟩, rfl⟩ (.nil _))))))))), fun h => ?_⟩
  · exact (Function.update_of_ne hc _ _).trans (Function.update_of_ne hc _ _)
  · exact absurd h.unused (by decide)

end SystemProgramming.ThreadPool
