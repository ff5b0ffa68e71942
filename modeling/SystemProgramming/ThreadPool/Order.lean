import SystemProgramming.ThreadPool.Accounting

/-!
# The order of the pending tasks

A push puts its task before the others and a worker takes the first one, so `pending_task_list` has
the latest push at its head.  Only a task that is alone in the list is the one that was pushed
first.
-/

open Runs SinglyLinked

namespace SystemProgramming.ThreadPool

variable {ρ : Type}

/-- The task of the push is in the list. -/
def Pending (s : State ρ) (k : Nat) : Prop :=
  ∃ l, Chain (fun t => (s.tasks t).next) s.pool.pendingTaskList l ∧ k ∈ pushesOf s l

/-- Of two pushes that are pending at the same time, the later one does not leave the list while the
earlier one is in it. -/
def TakesInOrder (step : State ρ → Action ρ → State ρ → Prop) (init : State ρ)
    (as : List (Action ρ)) : Prop :=
  ∀ bs cs u v, bs ++ cs <+: as → Run step init bs u → Run step u cs v →
    ∀ j k, j < k → Pending u j → Pending u k → ¬ Pending v k → ¬ Pending v j

/-- A worker takes a task only when no other is pending. -/
def TakesLone (s : State ρ) (a : Action ρ) : Prop := TakesTask s a → s.pool.pendingTaskCount = 1

section

variable {s s' : State ρ} {l l' : List TaskId}

theorem Inv.pending_iff (h : Inv s l) {k : Nat} : Pending s k ↔ k ∈ pushesOf s l := by
  constructor
  · rintro ⟨l', hlinks, hk⟩
    rwa [hlinks.unique h.links] at hk
  · exact fun hk => ⟨l, h.links, hk⟩

theorem Inv.length_pushesOf (h : Inv s l) : (pushesOf s l).length = l.length := by
  have hsome : ∀ xs ⊆ l, (pushesOf s xs).length = xs.length := by
    intro xs hxs
    induction xs with
    | nil => rfl
    | cons t xs ih =>
      obtain ⟨k, hk⟩ := h.listed t (hxs List.mem_cons_self)
      rw [pushesOf, List.filterMap_cons_some hk, List.length_cons, List.length_cons]
      exact congrArg (· + 1) (ih fun u hu => hxs (List.mem_cons_of_mem t hu))
  exact hsome l (List.Subset.refl l)

/-- The latest push is at the head. -/
def Descending (s : State ρ) (l : List TaskId) : Prop := (pushesOf s l).Pairwise (· > ·)

/-! ## Steps -/

/-- What a step does to the pushes of the list. -/
theorem Inv.pushesOf_step (h : Inv s l) (h' : Inv s' l') {a : Action ρ}
    (hlists : Lists s s' (TakesTask s a) l l') :
    (TakesTask s a ∧ ∃ k, pushesOf s l = k :: pushesOf s' l') ∨
      ¬ TakesTask s a ∧
        (pushesOf s' l' = pushesOf s l ∨ pushesOf s' l' = s.pushes.length :: pushesOf s l) := by
  cases hlists with
  | @taken t l htakes hpushes =>
    obtain ⟨k, hk⟩ := h.listed t List.mem_cons_self
    refine .inl ⟨htakes, k, ?_⟩
    rw [pushesOf, List.filterMap_cons_some hk, pushesOf, hpushes]
  | @linked t l htakes hpushes =>
    have hnodup := h'.accounted.2.1
    have hrest : pushesOf s' l = pushesOf s l := by
      refine List.filterMap_congr fun u hu => ?_
      have hne : u ≠ t := fun heq => (List.nodup_cons.mp hnodup).1 (heq ▸ hu)
      rw [hpushes, latestPush_cons_of_ne hne]
    refine .inr ⟨htakes, .inr ?_⟩
    rw [← hrest]
    refine List.filterMap_cons_some ?_
    rw [hpushes, latestPush_cons_self]
  | kept htakes hpushes =>
    refine .inr ⟨htakes, .inl ?_⟩
    rw [pushesOf, hpushes, pushesOf]

theorem Inv.descending (h : Inv s l) (hdesc : Descending s l) (h' : Inv s' l') {a : Action ρ}
    (hlists : Lists s s' (TakesTask s a) l l') : Descending s' l' := by
  unfold Descending at hdesc ⊢
  rcases h.pushesOf_step h' hlists with ⟨-, k, hk⟩ | ⟨-, hkept | hlinked⟩
  · rw [hk] at hdesc
    exact hdesc.of_cons
  · rwa [hkept]
  · rw [hlinked]
    refine List.pairwise_cons.mpr ⟨fun k hk => ?_, hdesc⟩
    exact h.ledger.mem_iff.mp (List.mem_append_left _ (List.mem_append_left _ hk))

/-- Two pending pushes stay, as long as a worker takes only lone tasks. -/
theorem Inv.keeps_pending (h : Inv s l) (h' : Inv s' l') {a : Action ρ}
    (hlists : Lists s s' (TakesTask s a) l l') (hlone : TakesLone s a) {j k : Nat} (hjk : j < k)
    (hj : Pending s j) (hk : Pending s k) : Pending s' j ∧ Pending s' k := by
  rw [h.pending_iff] at hj hk
  rw [h'.pending_iff, h'.pending_iff]
  rcases h.pushesOf_step h' hlists with ⟨htakes, m, hm⟩ | ⟨-, hkept | hlinked⟩
  · -- With one task listed the two pushes would be the same.
    exfalso
    have hone : (pushesOf s l).length = 1 := by
      have hcount := hlone htakes
      have hpending := h.pending
      rw [h.length_pushesOf]
      omega
    obtain ⟨n, hn⟩ := List.length_eq_one_iff.mp hone
    rw [hn] at hj hk
    have hsame := (List.mem_singleton.mp hj).trans (List.mem_singleton.mp hk).symm
    omega
  · rw [hkept]
    exact ⟨hj, hk⟩
  · rw [hlinked]
    exact ⟨List.mem_cons_of_mem _ hj, List.mem_cons_of_mem _ hk⟩

/-- Where two tasks are listed the later push is taken. -/
theorem Inv.takes_later (h : Inv s l) (hdesc : Descending s l) (h' : Inv s' l') {a : Action ρ}
    (hlists : Lists s s' (TakesTask s a) l l') (htakes : TakesTask s a)
    (htwo : s.pool.pendingTaskCount ≠ 1) :
    ∃ j k, j < k ∧ Pending s j ∧ Pending s k ∧ ¬ Pending s' k ∧ Pending s' j := by
  simp only [h.pending_iff, h'.pending_iff]
  rcases h.pushesOf_step h' hlists with ⟨-, k, hk⟩ | ⟨hno, -⟩
  · have hlength := h.length_pushesOf
    have hpending := h.pending
    rw [hk, List.length_cons] at hlength
    rw [Descending, hk, List.pairwise_cons] at hdesc
    cases hrest : pushesOf s' l' with
    | nil =>
      rw [hrest, List.length_nil] at hlength
      omega
    | cons j rest =>
      rw [hrest] at hdesc
      rw [hk, hrest]
      refine ⟨j, k, hdesc.1 j List.mem_cons_self, List.mem_cons_of_mem k List.mem_cons_self,
        List.mem_cons_self, fun hmem => ?_, List.mem_cons_self⟩
      exact absurd (hdesc.1 k hmem) (lt_irrefl k)
  · exact absurd htakes hno

end

/-! ## Runs -/

/-- The list is accounted for and descending. -/
def Ordered (s : State ρ) : Prop := ∃ l, Inv s l ∧ Descending s l

theorem Ordered.step {s s' : State ρ} (h : Ordered s) {a : Action ρ} (hpush : PushesOutOfPool s a)
    (hstep : Steps s a s') : Ordered s' := by
  obtain ⟨l, hinv, hdesc⟩ := h
  obtain ⟨l', hinv', hlists⟩ := hinv.step_lists hpush hstep
  exact ⟨l', hinv', hinv.descending hdesc hinv' hlists⟩

theorem ordered_run {maxThreadCount : Int} {pool : Pool} {s : State ρ} {as : List (Action ρ)}
    (hnew : threadPoolNew maxThreadCount = some pool)
    (h : Run (Within PushesOutOfPool Steps) (.start pool) as s) : Ordered s :=
  h.invariant (fun _ _ _ hs hstep => hs.step hstep.1 hstep.2) ⟨[], inv_start hnew, List.Pairwise.nil⟩

/-- In a run in which a task is pushed only when it is in no pool, the tasks are taken in the order of
their pushes exactly if no task is taken while another is pending. -/
theorem order_iff {maxThreadCount : Int} {pool : Pool} {s : State ρ} {as : List (Action ρ)}
    (hnew : threadPoolNew maxThreadCount = some pool)
    (h : Run (Within PushesOutOfPool Steps) (.start pool) as s) :
    TakesInOrder (Within PushesOutOfPool Steps) (.start pool) as ↔
      Run (Within TakesLone (Within PushesOutOfPool Steps)) (.start pool) as s := by
  have hdet : ∀ s a (t t' : State ρ), Within PushesOutOfPool Steps s a t →
      Within PushesOutOfPool Steps s a t' → t = t' := within_unique steps_unique
  constructor
  · intro horder
    refine h.within fun bs a u v hbs hu hst htakes => ?_
    obtain ⟨l, hinv, hdesc⟩ := ordered_run hnew hu.of_within
    obtain ⟨l', hinv', hlists⟩ := hinv.step_lists hst.1 hst.2
    by_contra htwo
    obtain ⟨j, k, hjk, hj, hk, hgone, hleft⟩ := hinv.takes_later hdesc hinv' hlists htakes htwo
    exact horder bs [a] u v hbs hu.of_within (.cons hst (.nil v)) j k hjk hj hk hgone hleft
  · intro hlone bs cs u v hbs hu hv j k hjk hj hk hgone
    obtain ⟨w, hw, hwv⟩ := run_append_iff.mp (hlone.within_prefix hdet hbs (hu.append hv))
    obtain rfl : u = w := hu.unique hdet hw.of_within
    -- Neither of the two is taken before `v`.
    have hboth : Ordered v ∧ Pending v j ∧ Pending v k := by
      refine hwv.invariant (P := fun s => Ordered s ∧ Pending s j ∧ Pending s k) ?_
        ⟨ordered_run hnew hu, hj, hk⟩
      rintro s a t ⟨⟨l, hinv, hdesc⟩, hsj, hsk⟩ ⟨hlone, hst⟩
      obtain ⟨l', hinv', hlists⟩ := hinv.step_lists hst.1 hst.2
      exact ⟨⟨l', hinv', hinv.descending hdesc hinv' hlists⟩,
        hinv.keeps_pending hinv' hlists hlone hjk hsj hsk⟩
    exact absurd hboth.2.2 hgone

/-- Two tasks are pushed and run one after the other. -/
def oneByOne : List (Action Unit) :=
  [.push 0 0, .start 0, .pushResume 0, .wake 0, .run 0, .finish 0 (), .record 0, .push 0 1, .wake 0]

theorem order_iff_oneByOne : ∃ s,
    TakesInOrder (Within PushesOutOfPool Steps) (.start ⟨none, 0, 0, none, 1, 0, 0, -1⟩) oneByOne ↔
      Run (Within TakesLone (Within PushesOutOfPool Steps)) (.start ⟨none, 0, 0, none, 1, 0, 0, -1⟩)
        oneByOne s :=
  ⟨_, order_iff (show threadPoolNew 1 = _ from rfl)
    (.cons ⟨⟨rfl, rfl⟩, rfl⟩ (.cons ⟨trivial, rfl⟩ (.cons ⟨⟨rfl, rfl⟩, rfl⟩ (.cons ⟨trivial, rfl⟩
      (.cons ⟨trivial, rfl⟩ (.cons ⟨trivial, rfl⟩ (.cons ⟨trivial, rfl⟩ (.cons ⟨⟨rfl, rfl⟩, rfl⟩
        (.cons ⟨trivial, rfl⟩ (.nil _))))))))))⟩

/-- Two pushes in a row to a pool with one thread. -/
def twoPushes : List (Action Unit) := [.push 0 0, .start 0, .pushResume 0, .push 0 1]

/-- The worker takes the second task first. -/
theorem second_push_taken_first : threadPoolNew 1 = some ⟨none, 0, 0, none, 1, 0, 0, -1⟩ ∧
    ¬ TakesInOrder (Within PushesOutOfPool (Steps (ρ := Unit)))
      (.start ⟨none, 0, 0, none, 1, 0, 0, -1⟩) (twoPushes ++ [.wake 0]) := by
  refine ⟨rfl, fun horder => ?_⟩
  refine horder twoPushes [.wake 0] _ _ (List.prefix_refl _)
    (.cons ⟨⟨rfl, rfl⟩, rfl⟩ (.cons ⟨trivial, rfl⟩ (.cons ⟨⟨rfl, rfl⟩, rfl⟩
      (.cons ⟨⟨rfl, rfl⟩, rfl⟩ (.nil _)))))
    (.cons ⟨trivial, rfl⟩ (.nil _)) 0 1 (by decide) ⟨[1, 0], ⟨rfl, rfl, rfl⟩, by decide⟩
    ⟨[1, 0], ⟨rfl, rfl, rfl⟩, by decide⟩ ?_ ⟨[0], ⟨rfl, rfl⟩, by decide⟩
  rintro ⟨l, hlinks, hmem⟩
  have hl : l = [0] := hlinks.unique (show Chain _ _ [0] from ⟨rfl, rfl⟩)
  rw [hl] at hmem
  exact absurd hmem (by decide)

end SystemProgramming.ThreadPool
