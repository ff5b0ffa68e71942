import SystemProgramming.Lib.Census
import SystemProgramming.Lib.SinglyLinked
import SystemProgramming.HeapHelp.Step

/-!
# Every record is in one place

The records are linked into the list of the blocks or into the pool, or they are in the hand of one
thread.  This holds in every state, whatever the program does with its memory.
-/

namespace SystemProgramming.HeapHelp

open Runs SinglyLinked Censuses

variable {ι : Type} {s t : State ι} {i : ι} {xs ps as bs : List Nat} {a n ptr size : Nat}

/-- The record that a thread has in hand. -/
def holds (n : Nat) : Phase → Nat
  | .filling a _ _ => if a = n then 1 else 0
  | .linking a _ _ => if a = n then 1 else 0
  | _ => 0

def State.next (s : State ι) (n : Nat) : Option Nat := (s.records n).next

section Invariant

variable [Fintype ι]

/-- `xs` are the records of the list and `ps` those of the pool. -/
structure Kept (s : State ι) (xs ps : List Nat) : Prop where
  allocs : Chain s.next s.allocs xs
  pool : Chain s.next s.allocPool ps
  place : ∀ n, xs.count n + ps.count n + census (holds n) s.phase = if n < s.issued then 1 else 0
  used : ∀ b, s.allocBatch = some b → s.used ≤ allocationBatchSize
  count : s.allocCount = xs.length
  notNegative : s.failed ≠ some .countNotNegative
  notFull : s.failed ≠ some .batchNotFull

namespace Kept

theorem nodup (h : Kept s xs ps) : xs.Nodup := by
  refine List.nodup_iff_count_le_one.mpr fun n => ?_
  have hplace := h.place n
  split at hplace <;> omega

theorem length_le (h : Kept s xs ps) : xs.length ≤ s.issued := by
  have hsub : xs ⊆ List.range s.issued := by
    intro n hn
    have hcount := List.count_pos_iff.mpr hn
    have hplace := h.place n
    refine List.mem_range.mpr ?_
    by_contra hge
    rw [if_neg hge] at hplace
    omega
  have hle := (List.subperm_of_subset h.nodup hsub).length_le
  rwa [List.length_range] at hle

/-- A record in a hand is in no list. -/
theorem notMem_of_holds (h : Kept s xs ps) (hhold : 0 < holds n (s.phase i)) :
    n ∉ xs ∧ n ∉ ps := by
  have hplace := h.place n
  have hle := le_census (holds n) s.phase i
  refine ⟨fun hmem => ?_, fun hmem => ?_⟩
  · have hcount := List.count_pos_iff.mpr hmem
    split at hplace <;> omega
  · have hcount := List.count_pos_iff.mpr hmem
    split at hplace <;> omega

/-- Only the fields that `Kept` is about matter. -/
theorem frame (h : Kept s xs ps) (hnext : t.next = s.next) (hallocs : t.allocs = s.allocs)
    (hpool : t.allocPool = s.allocPool) (hbatch : t.allocBatch = s.allocBatch)
    (hused : t.used = s.used) (hcount : t.allocCount = s.allocCount)
    (hphase : ∀ n, census (holds n) t.phase = census (holds n) s.phase)
    (hfailed : t.failed ≠ some .countNotNegative ∧ t.failed ≠ some .batchNotFull) :
    Kept t xs ps where
  allocs := by rw [hnext, hallocs]; exact h.allocs
  pool := by rw [hnext, hpool]; exact h.pool
  place n := by
    have hissued : t.issued = s.issued := by rw [State.issued, State.issued, hbatch, hused]
    rw [hphase, hissued]
    exact h.place n
  used b := by rw [hbatch, hused]; exact h.used b
  count := by rw [hcount]; exact h.count
  notNegative := hfailed.1
  notFull := hfailed.2

end Kept

theorem kept_start (memory : Nat → Allocation) : Kept (State.init (ι := ι) memory) [] [] := by
  refine ⟨rfl, rfl, fun n => ?_, nofun, rfl, nofun, nofun⟩
  have hzero : census (holds n) (State.init (ι := ι) memory).phase = 0 :=
    census_eq_zero fun _ => rfl
  rw [hzero]
  exact (if_neg (Nat.not_lt_zero n)).symm

end Invariant

/-! ## `alloc_free` -/

theorem findRecord_spec {records : Nat → Allocation} {hd : Option Nat} {fuel : Nat} (ptr : Nat)
    (prev : Option Nat)
    (h : Chain (fun n => (records n).next) hd xs) (hfuel : xs.length < fuel) :
    (State.findRecord records ptr fuel prev hd = none ∧ ∀ a ∈ xs, (records a).mem ≠ ptr) ∨
      ∃ as a bs, xs = as ++ a :: bs ∧ (records a).mem = ptr ∧
        State.findRecord records ptr fuel prev hd = some (as.getLast?.or prev, a) := by
  induction xs generalizing hd prev fuel with
  | nil =>
    obtain rfl : hd = none := h
    refine .inl ⟨?_, fun a ha => absurd ha List.not_mem_nil⟩
    cases fuel <;> rfl
  | cons x xs ih =>
    obtain ⟨rfl, hrest⟩ := h
    obtain _ | fuel := fuel
    · exact absurd hfuel (Nat.not_lt_zero _)
    rw [State.findRecord]
    by_cases hmem : (records x).mem = ptr
    · rw [if_pos hmem]
      exact .inr ⟨[], x, xs, rfl, hmem, rfl⟩
    · rw [if_neg hmem]
      obtain ⟨hnone, hall⟩ | ⟨as, a, bs, rfl, ha, hsome⟩ :=
        ih (some x) hrest (Nat.lt_of_succ_lt_succ hfuel)
      · exact .inl ⟨hnone, List.forall_mem_cons.mpr ⟨hmem, hall⟩⟩
      · refine .inr ⟨x :: as, a, bs, rfl, ha, ?_⟩
        rw [hsome]
        cases as with
        | nil => rfl
        | cons y as =>
          rw [List.getLast?_cons_cons]
          rw [List.getLast?_eq_getLast_of_ne_nil (List.cons_ne_nil y as)]
          rfl

theorem modify_next {f : Allocation → Allocation} :
    (s.modify a f).next n = if n = a then (f (s.records a)).next else s.next n := by
  show (Function.update s.records a (f (s.records a)) n).next = _
  by_cases hn : n = a
  · rw [if_pos hn, hn, Function.update_self]
  · rw [if_neg hn, Function.update_of_ne hn]
    rfl

/-- The record in hand keeps its link when it is filled. -/
theorem fill_next (s : State ι) (a ptr size : Nat) (trace : List Nat) :
    (s.modify a fun x => { x with mem := ptr, size := size, trace := trace }).next = s.next := by
  ext1 n
  rw [modify_next]
  split
  · next heq => rw [heq, State.next]
  · rfl

/-- Unlinking redirects the link in front of `a`, and that of `a` into the pool. -/
theorem unlink_next {prev : Option Nat} (hprev : prev ≠ some a) : (s.unlink prev a).next n =
    if n = a then s.allocPool else if prev = some n then s.next a else s.next n := by
  cases prev with
  | none =>
    show State.next (State.modify { s with allocs := (s.records a).next } a fun x =>
      { x with next := s.allocPool }) n = _
    rw [modify_next]
    rfl
  | some p =>
    show State.next (State.modify (s.modify p fun x => { x with next := (s.records a).next }) a fun x =>
      { x with next := s.allocPool }) n = _
    rw [modify_next]
    by_cases hn : n = a
    · rw [if_pos hn, if_pos hn]
    · rw [if_neg hn, if_neg hn, modify_next]
      by_cases hp : n = p
      · rw [if_pos hp, if_pos (congrArg some hp.symm)]
        rfl
      · rw [if_neg hp, if_neg (fun heq => hp (Option.some.inj heq).symm)]

theorem unlink_allocs (s : State ι) (prev : Option Nat) (a : Nat) : (s.unlink prev a).allocs =
    if prev.isSome then s.allocs else s.next a := by
  cases prev <;> rfl

/-- Unlinking leaves everything else as it is. -/
theorem unlink_rest (s : State ι) (prev : Option Nat) (a : Nat) :
    (s.unlink prev a).allocBatch = s.allocBatch ∧ (s.unlink prev a).used = s.used ∧
      (s.unlink prev a).phase = s.phase ∧ (s.unlink prev a).live = s.live ∧
      (s.unlink prev a).owned = s.owned ∧ (s.unlink prev a).isExitDone = s.isExitDone ∧
      (s.unlink prev a).failed = s.failed ∧ (s.unlink prev a).allocCount = s.allocCount - 1 := by
  cases prev <;> exact ⟨rfl, rfl, rfl, rfl, rfl, rfl, rfl, rfl⟩

/-- The list closes over the place of the record. -/
theorem chain_unlink (h : Chain s.next s.allocs (as ++ a :: bs)) (hnodup : (as ++ a :: bs).Nodup) :
    Chain (s.unlink as.getLast? a).next (s.unlink as.getLast? a).allocs (as ++ bs) := by
  rw [List.nodup_middle, List.nodup_cons, List.mem_append, not_or] at hnodup
  obtain ⟨⟨has, hbs⟩, hrest⟩ := hnodup
  have hnext : ∀ n, (s.unlink as.getLast? a).next n =
      if n = a then s.allocPool else if as.getLast? = some n then s.next a else s.next n :=
    fun n => unlink_next fun heq => has (List.mem_of_getLast? heq)
  rw [unlink_allocs]
  rcases List.eq_nil_or_concat as with rfl | ⟨as', p, rfl⟩
  · obtain ⟨-, hchain⟩ := h
    refine hchain.congr fun n hn => ?_
    rw [hnext, if_neg (ne_of_mem_of_not_mem hn hbs), if_neg nofun]
  · rw [List.concat_eq_append] at *
    have hlast : (as' ++ [p]).getLast? = some p := List.getLast?_concat
    rw [hlast] at hnext ⊢
    simp only [Option.isSome_some, if_true, List.append_assoc, List.singleton_append] at *
    rw [List.nodup_middle, List.nodup_cons] at hrest
    refine h.delete ?_ fun n hn => ?_
    · rw [hnext, if_neg (by rintro rfl; simp at has), if_pos rfl]
    · have hna : n ≠ a := by
        rintro rfl
        rcases List.mem_append.mp hn with hmem | hmem
        · simp [hmem] at has
        · exact hbs hmem
      have hnp : some p ≠ some n := by
        intro heq
        rw [Option.some.inj heq] at hrest
        exact hrest.1 hn
      rw [hnext, if_neg hna, if_neg hnp]

/-- A record is taken from the pool, or is the first one that was not used before. -/
theorem takeRecord_cases [DecidableEq ι] (s : State ι) (i : ι) (ptr size : Nat)
    (hused : ∀ b, s.allocBatch = some b → s.used ≤ allocationBatchSize) :
    (∃ a, s.allocPool = some a ∧ s.takeRecord i ptr size =
      { s with allocPool := s.next a }.goto i (.filling a ptr size)) ∨
    ∃ b used, allocationBatchSize * b + used = s.issued + 1 ∧ used ≤ allocationBatchSize ∧
      s.takeRecord i ptr size = { s with allocBatch := some b, used := used }.goto i
        (.filling s.issued ptr size) := by
  unfold State.takeRecord
  split
  · next a hpool => exact .inl ⟨a, hpool, rfl⟩
  · right
    split
    · next hbatch =>
      have hissued : s.issued = 0 := by rw [State.issued, hbatch]
      rw [hissued]
      exact ⟨0, 1, rfl, by decide, rfl⟩
    · next b hbatch =>
      have hissued : s.issued = allocationBatchSize * b + s.used := by rw [State.issued, hbatch]
      have hle := hused b hbatch
      split
      -- the batch is full and a new one begins
      · next hfull =>
        have hnext : s.issued = allocationBatchSize * (b + 1) := by
          rw [hissued, hfull, Nat.mul_add, Nat.mul_one]
        exact ⟨b + 1, 1, by rw [hnext], by decide, by rw [hnext]⟩
      · next hnot =>
        rw [if_pos (by omega), ← hissued]
        refine ⟨b, s.used + 1, by rw [hissued]; rfl, by omega, ?_⟩
        rw [hbatch]

section Step

variable [Fintype ι]

theorem Kept.unlink (h : Kept s (as ++ a :: bs) ps) :
    Kept (s.unlink as.getLast? a) (as ++ bs) (a :: ps) := by
  have hnodup := h.nodup
  have has : as.getLast? ≠ some a := by
    intro heq
    rw [List.nodup_middle, List.nodup_cons] at hnodup
    exact hnodup.1 (List.mem_append_left _ (List.mem_of_getLast? heq))
  -- nothing of the pool is in the list
  have hps : ∀ n ∈ ps, n ∉ as ++ a :: bs := by
    intro n hn hmem
    have hplace := h.place n
    have hpool := List.count_pos_iff.mpr hn
    have hlist := List.count_pos_iff.mpr hmem
    split at hplace <;> omega
  obtain ⟨hbatch, hused, hphase, -, -, -, hfailed, hcount⟩ := unlink_rest s as.getLast? a
  have hissued : (s.unlink as.getLast? a).issued = s.issued := by
    rw [State.issued, State.issued, hbatch, hused]
  refine ⟨chain_unlink h.allocs hnodup, ⟨rfl, ?_⟩, fun n => ?_, ?_, ?_, ?_, ?_⟩
  · rw [unlink_next has, if_pos rfl]
    refine h.pool.congr fun n hn => ?_
    have hnot := hps n hn
    rw [unlink_next has, if_neg (by rintro rfl; exact hnot (by simp)), if_neg ?_]
    exact fun heq => hnot (List.mem_append_left _ (List.mem_of_getLast? heq))
  · have hplace := h.place n
    rw [hphase, hissued, ← hplace]
    simp only [List.count_append, List.count_cons]
    omega
  · rw [hbatch, hused]
    exact h.used
  · rw [hcount, h.count]
    simp only [List.length_append, List.length_cons]
    omega
  · rw [hfailed]
    exact h.notNegative
  · rw [hfailed]
    exact h.notFull

variable [DecidableEq ι]

/-- A thread that goes on with what it has in hand. -/
theorem census_goto {ph : Phase} (hsame : ∀ n, holds n ph = holds n (s.phase i)) (n : Nat) :
    census (holds n) (s.goto i ph).phase = census (holds n) s.phase := by
  have hupdate := census_update (holds n) s.phase i ph
  rw [hsame] at hupdate
  exact Nat.add_right_cancel hupdate

theorem Kept.goto (h : Kept s xs ps) (ph : Phase) (hsame : ∀ n, holds n ph = holds n (s.phase i)) :
    Kept (s.goto i ph) xs ps :=
  h.frame rfl rfl rfl rfl rfl rfl (census_goto hsame) ⟨h.notNegative, h.notFull⟩

theorem Kept.resume {after : After} (h : Kept s xs ps) (hnone : ∀ n, holds n (s.phase i) = 0) :
    Kept (s.resume i ptr after) xs ps := by
  cases after with
  | «return» => exact h.goto _ fun n => (hnone n).symm
  | defaultFree => exact h.goto _ fun n => (hnone n).symm
  | traceNew ptr' size => exact h.goto _ fun n => (hnone n).symm

theorem Kept.freeRecord {after : After} (h : Kept s xs ps) (hnone : ∀ n, holds n (s.phase i) = 0) :
    ∃ xs' ps', Kept (s.freeRecord i ptr after) xs' ps' := by
  rw [State.freeRecord]
  obtain ⟨hnot, -⟩ | ⟨as, a, bs, rfl, -, hfound⟩ := findRecord_spec ptr none h.allocs
    (Nat.lt_succ_of_le h.length_le)
  · rw [hnot]
    exact ⟨xs, ps, h.frame rfl rfl rfl rfl rfl rfl (fun _ => rfl) ⟨nofun, nofun⟩⟩
  · rw [hfound, Option.or_none]
    have hkept := h.unlink
    have hcount : 0 ≤ (s.unlink as.getLast? a).allocCount := by
      rw [hkept.count]
      exact Int.natCast_nonneg _
    dsimp only
    rw [if_pos hcount]
    refine ⟨_, _, hkept.resume fun n => ?_⟩
    obtain ⟨-, -, hphase, -⟩ := unlink_rest s as.getLast? a
    rw [hphase]
    exact hnone n

/-! ## `alloc_trace_new` -/

/-- A record that was not used before goes into the hand of the thread. -/
theorem Kept.takeFresh (h : Kept s xs ps) (hnone : ∀ n, holds n (s.phase i) = 0) {b used : Nat}
    (hfresh : allocationBatchSize * b + used = s.issued + 1) (hused : used ≤ allocationBatchSize) :
    Kept (State.goto { s with allocBatch := some b, used := used } i
      (.filling s.issued ptr size)) xs ps := by
  refine ⟨h.allocs, h.pool, fun n => ?_, ?_, h.count, h.notNegative, h.notFull⟩
  · have hplace := h.place n
    have hupdate := census_update (holds n) s.phase i (.filling s.issued ptr size)
    rw [hnone n] at hupdate
    show xs.count n + ps.count n + census (holds n) (Function.update s.phase i _) =
      if n < allocationBatchSize * b + used then 1 else 0
    rw [hfresh]
    simp only [holds] at hupdate
    split at hplace <;> split at hupdate <;> split <;> omega
  · rintro b' ⟨⟩
    exact hused

theorem Kept.takeRecord (h : Kept s xs ps) (ptr size : Nat) (hnone : ∀ n, holds n (s.phase i) = 0) :
    ∃ ps', Kept (s.takeRecord i ptr size) xs ps' := by
  obtain ⟨a, hpool, heq⟩ | ⟨b, used, hfresh, hused, heq⟩ := takeRecord_cases s i ptr size h.used
  · rw [heq]
    have hchain := h.pool
    rw [hpool] at hchain
    cases ps with
    | nil => cases hchain
    | cons a' ps =>
      obtain ⟨hhead, hrest⟩ := hchain
      obtain rfl : a = a' := Option.some.inj hhead
      refine ⟨ps, h.allocs, hrest, fun n => ?_, h.used, h.count, h.notNegative, h.notFull⟩
      have hplace := h.place n
      have hupdate := census_update (holds n) s.phase i (.filling a ptr size)
      rw [hnone n] at hupdate
      show xs.count n + ps.count n + census (holds n) (Function.update s.phase i _) =
        if n < s.issued then 1 else 0
      rw [List.count_cons] at hplace
      simp only [holds, beq_iff_eq] at hupdate hplace
      omega
  · rw [heq]
    exact ⟨ps, h.takeFresh hnone hfresh hused⟩

theorem Kept.link (h : Kept s xs ps) (hphase : s.phase i = .linking a ptr size) :
    Kept (s.link i a ptr) (a :: xs) ps := by
  have hhold : 0 < holds a (s.phase i) := by
    rw [hphase]
    show 0 < if a = a then 1 else 0
    rw [if_pos rfl]
    exact Nat.one_pos
  obtain ⟨hxs, hps⟩ := h.notMem_of_holds hhold
  have hnext : ∀ n, (s.link i a ptr).next n = if n = a then s.allocs else s.next n := fun n =>
    modify_next (s := s) (f := fun x => { x with next := s.allocs })
  refine ⟨⟨rfl, ?_⟩, ?_, fun n => ?_, h.used, ?_, h.notNegative, h.notFull⟩
  · rw [hnext, if_pos rfl]
    exact h.allocs.congr fun n hn => by rw [hnext, if_neg (ne_of_mem_of_not_mem hn hxs)]
  · exact h.pool.congr fun n hn => by rw [hnext, if_neg (ne_of_mem_of_not_mem hn hps)]
  · have hplace := h.place n
    have hupdate := census_update (holds n) s.phase i .outside
    rw [hphase] at hupdate
    show (a :: xs).count n + ps.count n + census (holds n) (Function.update s.phase i _) =
      if n < s.issued then 1 else 0
    rw [List.count_cons, ← hplace]
    simp only [holds, beq_iff_eq] at hupdate ⊢
    omega
  · show s.allocCount + 1 = _
    rw [h.count, List.length_cons]
    rfl

/-! ## Every step -/

theorem Kept.begins {passed : Option Nat} {lost : Bool} (h : Kept s xs ps)
    (hphase : s.phase i = .outside) (hbegins : Begins s i passed lost t) : Kept t xs ps := by
  have hsame : ∀ {ph : Phase}, (∀ n, holds n ph = 0) → ∀ n, holds n ph = holds n (s.phase i) := by
    intro ph hph n
    rw [hph, hphase]
    rfl
  -- only the phase of the thread and what the program holds change
  have hkept : ∀ {u : State ι} {ph : Phase}, Kept u xs ps → u.phase = s.phase →
      (∀ n, holds n ph = 0) → Kept (u.goto i ph) xs ps := fun hu hphase' hph =>
    hu.goto _ fun n => by rw [hsame hph n, hphase']
  have hframe : ∀ {live owned : Nat → Bool}, Kept { s with live := live, owned := owned } xs ps :=
    h.frame rfl rfl rfl rfl rfl rfl (fun _ => rfl) ⟨h.notNegative, h.notFull⟩
  cases hbegins with
  | nothing => exact h
  | traced => exact hkept hframe rfl fun _ => rfl
  | moved => exact hkept hframe rfl fun _ => rfl
  | released => exact hkept hframe rfl fun _ => rfl
  | lost => exact hkept h rfl fun _ => rfl
  | free => exact hkept hframe rfl fun _ => rfl
  | fails he =>
    refine h.frame rfl rfl rfl rfl rfl rfl (fun _ => rfl) ?_
    obtain rfl | rfl := he
    · exact ⟨nofun, nofun⟩
    · exact ⟨nofun, nofun⟩

theorem Kept.go {trace : List Nat} (h : Kept s xs ps) (hgo : s.go i trace = some t) :
    ∃ xs' ps', Kept t xs' ps' := by
  rw [State.go] at hgo
  have hframe : ∀ {live owned : Nat → Bool}, Kept { s with live := live, owned := owned } xs ps :=
    h.frame rfl rfl rfl rfl rfl rfl (fun _ => rfl) ⟨h.notNegative, h.notFull⟩
  cases hphase : s.phase i with
  | outside =>
    rw [hphase] at hgo
    cases hgo
  | traceNew ptr size =>
    rw [hphase] at hgo
    obtain rfl := Option.some.inj hgo
    refine ⟨xs, ps, ?_⟩
    split
    · exact (h.goto .outside fun n => by rw [hphase]; rfl).frame rfl rfl rfl rfl rfl rfl
        (fun _ => rfl) ⟨h.notNegative, h.notFull⟩
    · exact h.goto _ fun n => by rw [hphase]; rfl
  | taking ptr size =>
    rw [hphase] at hgo
    obtain rfl := Option.some.inj hgo
    exact ⟨xs, h.takeRecord ptr size fun n => by rw [hphase]; rfl⟩
  | filling a ptr size =>
    rw [hphase] at hgo
    obtain rfl := Option.some.inj hgo
    refine ⟨xs, ps, Kept.goto (s := s.modify a _) (h.frame (fill_next s a ptr size trace) rfl rfl rfl rfl rfl
      (fun _ => rfl) ⟨h.notNegative, h.notFull⟩) _ fun n => ?_⟩
    show holds n (.linking a ptr size) = holds n (s.phase i)
    rw [hphase]
    rfl
  | linking a ptr size =>
    rw [hphase] at hgo
    obtain rfl := Option.some.inj hgo
    exact ⟨a :: xs, ps, h.link hphase⟩
  | free ptr after =>
    rw [hphase] at hgo
    obtain rfl := Option.some.inj hgo
    refine ⟨xs, ps, ?_⟩
    split
    · exact h.resume fun n => by rw [hphase]; rfl
    · exact h.goto _ fun n => by rw [hphase]; rfl
  | unlinking ptr after =>
    rw [hphase] at hgo
    obtain rfl := Option.some.inj hgo
    exact h.freeRecord fun n => by rw [hphase]; rfl
  | releasing ptr =>
    rw [hphase] at hgo
    obtain rfl := Option.some.inj hgo
    refine ⟨xs, ps, hframe.goto _ fun n => ?_⟩
    show 0 = holds n (s.phase i)
    rw [hphase]
    rfl

theorem kept_step {l : Label ι} (h : Kept s xs ps) (hstep : step s l = some t) :
    ∃ xs' ps', Kept t xs' ps' := by
  obtain ⟨-, ⟨i, hphase, hbegins⟩ | ⟨i, trace, hgo⟩ | rfl⟩ := step_cases hstep
  · exact ⟨xs, ps, h.begins hphase hbegins⟩
  · exact h.go hgo
  · exact ⟨xs, ps, h.frame rfl rfl rfl rfl rfl rfl (fun _ => rfl) ⟨h.notNegative, h.notFull⟩⟩

theorem kept_reachable {memory : Nat → Allocation} (h : Reachable Steps (State.init memory) s) :
    ∃ xs ps, Kept s xs ps := by
  refine h.invariant (P := fun s => ∃ xs ps, Kept s xs ps) ⟨[], [], kept_start memory⟩ ?_
  rintro s a t ⟨xs, ps, hkept⟩ hstep
  exact kept_step hkept hstep

/-- Whatever the program does, every record that was ever used is in the list, in the pool or in the
hand of one thread, and in no second place; the count is the length of the list.  So the list never
gets lost or tangled, and two of the assertions never fail. -/
theorem records_in_one_place {memory : Nat → Allocation}
    (h : Reachable Steps (State.init memory) s) :
    ∃ xs ps, Chain s.next s.allocs xs ∧ Chain s.next s.allocPool ps ∧
      (∀ n, xs.count n + ps.count n + census (holds n) s.phase = if n < s.issued then 1 else 0) ∧
      s.heaphGetAllocCount = xs.length ∧
      s.failed ≠ some .countNotNegative ∧ s.failed ≠ some .batchNotFull := by
  obtain ⟨xs, ps, hkept⟩ := kept_reachable h
  exact ⟨xs, ps, hkept.allocs, hkept.pool, hkept.place, hkept.count, hkept.notNegative, hkept.notFull⟩

/-- Two threads in `malloc` at once: both have a record in hand. -/
theorem records_in_one_place_twoMallocs :
    ∃ (s : State (Fin 2)) (xs ps : List Nat), s.phase 0 = .filling 0 100 8 ∧
      s.phase 1 = .filling 1 200 8 ∧ s.heaphGetAllocCount = xs.length ∧
      xs.count 1 + ps.count 1 + census (holds 1) s.phase = 1 := by
  have hreach : ∃ s : State (Fin 2), s.phase 0 = .filling 0 100 8 ∧ s.phase 1 = .filling 1 200 8 ∧
      s.issued = 2 ∧ Reachable Steps (State.init fun _ => ⟨[], 0, 0, none⟩) s :=
    ⟨_, rfl, rfl, rfl, [.malloc 0 8 (some 100), .go 0 [], .go 0 [], .malloc 1 8 (some 200), .go 1 [],
      .go 1 []], .cons rfl (.cons rfl (.cons rfl (.cons rfl (.cons rfl (.cons rfl (.nil _))))))⟩
  obtain ⟨s, hzero, hone, hissued, hreach⟩ := hreach
  obtain ⟨xs, ps, -, -, hplace, hcount, -, -⟩ := records_in_one_place hreach
  refine ⟨s, xs, ps, hzero, hone, hcount, ?_⟩
  rw [hplace 1, hissued]
  decide

end Step

end SystemProgramming.HeapHelp
