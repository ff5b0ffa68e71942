import Mathlib
import SystemProgramming.Libcoro.List

/-!
# The invariant of the scheduler

`Listed` is about the list, whoever runs; `Idle` and `Slice` say what else is true while the main
context and while a coroutine runs.  Each operation of the library has one lemma that says what it
does in such a state.
-/

namespace SystemProgramming.Libcoro

open Cooperative DoublyLinked

variable {σ κ : Type} {s t : State σ κ} {c p : Ptr} {xs : List Ptr}

namespace State

def Created (s : State σ κ) (p : Ptr) : Prop := ∃ n < s.made, p = .coro n

/-- What is left of the function of a coroutine that does not run. -/
def remaining (code : κ → Prog σ κ Int) (s : State σ κ) (p : Ptr) : Option (Prog σ κ Int) :=
  match (s.coros p).ctx with
  | some (.body _) => (s.coros p).func.map code
  | some (.yield _ _ rest) => some rest
  | _ => none

/-- A jump to `p` starts or continues the function of `p`. -/
def Parked (s : State σ κ) (p : Ptr) : Prop :=
  ((s.coros p).ctx = some (.body p) ∧ ∃ func, (s.coros p).func = some func) ∨
    ∃ rest, (s.coros p).ctx = some (.yield p p rest)

/-- The side of `coro_yield_to` that leaves `p`. -/
def park (s : State σ κ) (p : Ptr) (ctx : Context σ κ) : State σ κ :=
  s.modify (some p) fun x => { x with switchCount := x.switchCount + 1, ctx := some ctx }

end State

/-- The list has exactly the coroutines that were created and not given back; the finished ones are
those whose function returned, with its value. -/
structure Listed (s : State σ κ) (xs : List Ptr) : Prop where
  chained : s.Chained xs
  mem_iff : ∀ p, p ∈ xs ↔ s.Created p ∧ p ∉ s.returned
  returned_nodup : s.returned.Nodup
  returned_finished : ∀ p ∈ s.returned, s.Created p ∧ (s.coros p).isFinished = true
  ended_iff : ∀ p v, (p, v) ∈ s.ended ↔
    s.Created p ∧ (s.coros p).isFinished = true ∧ (s.coros p).ret = v
  ended_nodup : (s.ended.map Prod.fst).Nodup
  opening_nodup : s.opening.Nodup
  slices_prefix : s.slices <+: s.opening

/-- The main context runs. -/
structure Idle (s : State σ κ) (xs : List Ptr) : Prop where
  this : s.coroThisPtr = some .sched
  notWaiting : s.isSchedWaiting = false
  parked : ∀ p ∈ xs, (s.coros p).isFinished = false → s.Parked p

/-- The coroutine `c` runs: of the list at the hand-over those before it have had their slice, and
the coroutines made since are in front of them. -/
structure Slice (s : State σ κ) (xs : List Ptr) (c : Ptr) : Prop where
  this : s.coroThisPtr = some c
  waiting : s.isSchedWaiting = true
  home : (s.coros .sched).ctx = some (.wait .sched)
  unfinished : ∀ p ∈ xs, (s.coros p).isFinished = false
  parked : ∀ p ∈ xs, p ≠ c → s.Parked p
  round : ∃ fresh before after, xs = fresh ++ s.opening ∧ s.opening = before ++ c :: after ∧
    s.slices = before ++ [c]

def Phase (s : State σ κ) (xs : List Ptr) : Prop :=
  match s.control with
  | .user none => Idle s xs
  | .user (some none) => Idle s xs ∧ xs = []
  | .user (some (some p)) => Idle s xs ∧ s.returned.getLast? = some p
  | .waiting => Idle s xs
  | .running c _ => Slice s xs c
  | .noPlaceToReturn => False
  | .invalid => False

def Inv (s : State σ κ) : Prop := ∃ xs, Listed s xs ∧ Phase s xs

/-! ## The list -/

/-- Only the fields that `Listed` is about matter. -/
theorem Listed.congr (h : Listed s xs) (hlist : t.coroList = s.coroList) (hmade : t.made = s.made)
    (hended : t.ended = s.ended) (hreturned : t.returned = s.returned)
    (hlinks : ∀ p, (t.coros p).next = (s.coros p).next ∧ (t.coros p).prev = (s.coros p).prev)
    (hresult : ∀ p, (t.coros p).isFinished = (s.coros p).isFinished ∧
      (t.coros p).ret = (s.coros p).ret)
    (hopening : t.opening.Nodup) (hslices : t.slices <+: t.opening) : Listed t xs where
  chained := h.chained.congr hlist (fun p _ => (hlinks p).1) (fun p _ => (hlinks p).2)
  mem_iff p := by
    rw [h.mem_iff, State.Created, State.Created, hmade, hreturned]
  returned_nodup := hreturned ▸ h.returned_nodup
  returned_finished p hp := by
    rw [State.Created, hmade, (hresult p).1]
    exact h.returned_finished p (hreturned ▸ hp)
  ended_iff p v := by
    rw [hended, h.ended_iff, State.Created, State.Created, hmade, (hresult p).1, (hresult p).2]
  ended_nodup := hended ▸ h.ended_nodup
  opening_nodup := hopening
  slices_prefix := hslices

theorem Listed.length_le (h : Listed s xs) : xs.length ≤ s.made := by
  have hsub : xs ⊆ (List.range s.made).map Ptr.coro := by
    intro p hp
    obtain ⟨⟨n, hn, rfl⟩, -⟩ := (h.mem_iff p).mp hp
    exact List.mem_map_of_mem (List.mem_range.mpr hn)
  have hle := (List.subperm_of_subset h.chained.nodup hsub).length_le
  rwa [List.length_map, List.length_range] at hle

theorem Listed.ne_sched (h : Listed s xs) (hp : p ∈ xs) : p ≠ .sched := by
  obtain ⟨⟨n, -, rfl⟩, -⟩ := (h.mem_iff p).mp hp
  exact nofun

theorem Listed.made_notMem (h : Listed s xs) : Ptr.coro s.made ∉ xs := by
  intro hmem
  obtain ⟨⟨n, hn, heq⟩, -⟩ := (h.mem_iff _).mp hmem
  cases heq
  exact lt_irrefl _ hn

/-! ## Jumps -/

section

variable (code : κ → Prog σ κ Int)

/-- A jump to a parked coroutine runs what is left of its function. -/
theorem jump_parked (h : s.Parked p) : ∃ rest, s.remaining code p = some rest ∧
    s.jump code p = { s with
      coroThisPtr := some p
      control := .running p rest
      slices := s.slices ++ [p] } := by
  rcases h with ⟨hctx, func, hfunc⟩ | ⟨rest, hctx⟩
  · refine ⟨code func, ?_, ?_⟩
    · rw [State.remaining, hctx]
      exact congrArg (Option.map code) hfunc
    · rw [State.jump, hctx]
      simp only [hfunc]
  · refine ⟨rest, ?_, ?_⟩
    · rw [State.remaining, hctx]
    · rw [State.jump, hctx]

theorem jump_sched (h : (s.coros .sched).ctx = some (.wait .sched)) : s.jump code .sched =
    { s with coroThisPtr := some .sched, isSchedWaiting := false, control := .waiting } := by
  rw [State.jump, h]

theorem coroYieldTo_eq {frame : Ptr → Context σ κ} (h : s.coroThisPtr = some c) :
    s.coroYieldTo code p frame = (s.park c (frame c)).jump code p := by
  rw [State.coroYieldTo, h]
  rfl

end

theorem park_ctx_of_ne {ctx : Context σ κ} (h : p ≠ c) :
    (s.park c ctx).coros p = s.coros p := by
  rw [State.park, State.modify_coros, if_neg (fun heq => h (Option.some.inj heq).symm)]

theorem park_ctx_self {ctx : Context σ κ} : ((s.park c ctx).coros c).ctx = some ctx := by
  rw [State.park, State.modify_coros, if_pos rfl]

theorem State.Parked.congr (h : s.Parked p) (hctx : (t.coros p).ctx = (s.coros p).ctx)
    (hfunc : (t.coros p).func = (s.coros p).func) : t.Parked p := by
  unfold State.Parked
  rw [hctx, hfunc]
  exact h

theorem remaining_congr (code : κ → Prog σ κ Int) (hctx : (t.coros p).ctx = (s.coros p).ctx)
    (hfunc : (t.coros p).func = (s.coros p).func) : t.remaining code p = s.remaining code p := by
  unfold State.remaining
  rw [hctx, hfunc]

theorem park_field {β : Type} (g : Coro σ κ → β)
    (hg : ∀ x n ctx, g { x with switchCount := n, ctx := ctx } = g x) (s : State σ κ) (c : Ptr)
    (ctx : Context σ κ) (p : Ptr) : g ((s.park c ctx).coros p) = g (s.coros p) :=
  State.modify_field (fun x => hg x _ _) s _ p

/-- Leaving a coroutine touches neither the list nor the results. -/
theorem Listed.park {ctx : Context σ κ} (h : Listed s xs) (hopening : t.opening.Nodup)
    (hslices : t.slices <+: t.opening) (hcoros : t.coros = (s.park c ctx).coros)
    (hlist : t.coroList = s.coroList) (hmade : t.made = s.made) (hended : t.ended = s.ended)
    (hreturned : t.returned = s.returned) : Listed t xs := by
  refine h.congr hlist hmade hended hreturned (fun p => ?_) (fun p => ?_) hopening hslices
  · rw [hcoros]
    exact ⟨park_field Coro.next (fun _ _ _ => rfl) s c ctx p,
      park_field Coro.prev (fun _ _ _ => rfl) s c ctx p⟩
  · rw [hcoros]
    exact ⟨park_field Coro.isFinished (fun _ _ _ => rfl) s c ctx p,
      park_field Coro.ret (fun _ _ _ => rfl) s c ctx p⟩

/-! ## `coro_sched_wait` -/

/-- The scheduler hands over to the head of its list. -/
def State.handOver (s : State σ κ) (xs : List Ptr) (p : Ptr) (rest : Prog σ κ Int) : State σ κ :=
  { s.park .sched (.wait .sched) with
    coroThisPtr := some p
    isSchedWaiting := true
    control := .running p rest
    opening := xs
    slices := [p] }

theorem handOver_of_ne {q : Ptr} {rest : Prog σ κ Int} (hq : q ≠ .sched) :
    (s.handOver xs p rest).coros q = s.coros q := by
  have hsame : (s.park .sched (.wait .sched)).coros q = s.coros q := park_ctx_of_ne hq
  exact hsame

/-- The scheduler gives a finished coroutine back. -/
def State.giveBack (s : State σ κ) (p : Ptr) : State σ κ :=
  { s.coroListDelete p with
    control := .user (some (some p))
    returned := s.returned ++ [p] }

/-- What a turn of the loop does. -/
theorem wait_cases (code : κ → Prog σ κ Int) (h : Listed s xs) (hidle : Idle s xs) :
    (xs = [] ∧ s.coroSchedWait code = { s with control := .user (some none) }) ∨
    (∃ as p bs, xs = as ++ p :: bs ∧ (s.coros p).isFinished = true ∧
      s.coroSchedWait code = s.giveBack p) ∨
    ∃ p ps rest, xs = p :: ps ∧ (∀ q ∈ xs, (s.coros q).isFinished = false) ∧
      s.remaining code p = some rest ∧ s.coroSchedWait code = s.handOver xs p rest := by
  have hfind := State.findFinished_eq h.chained h.length_le
  have halong := State.along_eq h.chained h.length_le
  have hhead := h.chained.head_eq
  cases xs with
  | nil =>
    left
    refine ⟨rfl, ?_⟩
    unfold State.coroSchedWait
    split
    · rfl
    · next hsome => rw [hhead] at hsome; cases hsome
  | cons p ps =>
    right
    rw [show s.coroList = some p from hhead] at hfind halong
    -- The two ends of `coro_sched_wait`: the first finished coroutine, or a jump to the head.
    have hfinished : ∀ q, ((p :: ps).find? fun q => (s.coros q).isFinished) = some q →
        s.coroSchedWait code = s.giveBack q := by
      intro q hfound
      unfold State.coroSchedWait
      rw [hhead]
      dsimp only [List.head?_cons]
      rw [hfind, hfound]
      rfl
    have hnone : ((p :: ps).find? fun q => (s.coros q).isFinished) = none →
        s.coroSchedWait code = { s with
          isSchedWaiting := true
          opening := p :: ps
          slices := [] }.coroYieldTo code p .wait := by
      intro hfound
      unfold State.coroSchedWait
      rw [hhead]
      dsimp only [List.head?_cons]
      rw [hfind, hfound, halong]
    cases hfound : (p :: ps).find? fun q => (s.coros q).isFinished with
    | some q =>
      left
      obtain ⟨hq, as, bs, heq, -⟩ := List.find?_eq_some_iff_append.mp hfound
      exact ⟨as, q, bs, heq, hq, hfinished q hfound⟩
    | none =>
      right
      have hall : ∀ q ∈ p :: ps, (s.coros q).isFinished = false := by
        intro q hq
        simpa using List.find?_eq_none.mp hfound q hq
      have hp : p ∈ p :: ps := List.mem_cons_self
      -- The jump parks the scheduler, which is no coroutine, so it leaves `p` as it was.
      let u := { s with isSchedWaiting := true, opening := p :: ps, slices := [] }
      have hsame : (u.park .sched (.wait .sched)).coros p = s.coros p :=
        park_ctx_of_ne (h.ne_sched hp)
      have hparked : (u.park .sched (.wait .sched)).Parked p :=
        (hidle.parked p hp (hall p hp)).congr (congrArg Coro.ctx hsame) (congrArg Coro.func hsame)
      obtain ⟨rest, hrest, hjump⟩ := jump_parked code hparked
      refine ⟨p, ps, rest, rfl, hall, ?_, ?_⟩
      · rw [← hrest]
        exact (remaining_congr code (congrArg Coro.ctx hsame) (congrArg Coro.func hsame)).symm
      · exact (hnone hfound).trans ((coroYieldTo_eq code (s := u) hidle.this).trans hjump)

/-! ## `coro_yield` -/

/-- A coroutine gives way to the next one in the list, the last one to the scheduler. -/
theorem yield_cases (code : κ → Prog σ κ Int) (h : Listed s xs) (hslice : Slice s xs c)
    (rest : Prog σ κ Int) :
    (s.coroYield code c rest = { s.park c (.yield c c rest) with
      coroThisPtr := some .sched
      isSchedWaiting := false
      control := .waiting } ∧ xs.getLast? = some c) ∨
    ∃ fresh before p after rest', xs = fresh ++ s.opening ∧
      s.opening = before ++ c :: p :: after ∧ s.slices = before ++ [c] ∧
      s.remaining code p = some rest' ∧ s.coroYield code c rest = { s.park c (.yield c c rest) with
        coroThisPtr := some p
        control := .running p rest'
        slices := s.slices ++ [p] } := by
  obtain ⟨fresh, before, after, rfl, hopening, hslices⟩ := hslice.round
  have hchained := h.chained
  rw [hopening, ← List.append_assoc] at hchained
  unfold State.coroYield
  simp only [hslice.this]
  cases after with
  | nil =>
    left
    rw [hchained.next_last]
    -- the last of the list gives way to the scheduler
    have hne : Ptr.sched ≠ c := Ne.symm (h.ne_sched (by simp [hopening]))
    refine ⟨?_, by rw [hopening, ← List.append_assoc, List.getLast?_concat]⟩
    refine (coroYieldTo_eq code hslice.this).trans (jump_sched code ?_)
    rw [park_ctx_of_ne hne]
    exact hslice.home
  | cons p bs =>
    right
    rw [hchained.next_mid]
    have hmem : p ∈ fresh ++ s.opening := by simp [hopening]
    -- another coroutine is parked where it yielded, or has not started
    have hne : p ≠ c := by
      intro heq
      have hnodup := (List.nodup_append.mp hchained.nodup).2.1
      exact (List.nodup_cons.mp hnodup).1 (by simp [heq])
    have hsame : (s.park c (.yield c c rest)).coros p = s.coros p := park_ctx_of_ne hne
    have hparked : (s.park c (.yield c c rest)).Parked p :=
      (hslice.parked p hmem hne).congr (congrArg Coro.ctx hsame) (congrArg Coro.func hsame)
    obtain ⟨rest', hrest, hjump⟩ := jump_parked code hparked
    refine ⟨fresh, before, p, bs, rest', rfl, hopening, hslices, ?_, ?_⟩
    · rw [← hrest]
      exact (remaining_congr code (congrArg Coro.ctx hsame) (congrArg Coro.func hsame)).symm
    · exact (coroYieldTo_eq code hslice.this).trans hjump

/-! ## `coro_new` -/

/-- The coroutine that `coro_new` makes: a fresh one, of which only the jump into `coro_body` is
known. -/
theorem coroNew_field {β : Type} (g : Coro σ κ → β)
    (hg : ∀ x n v, g { x with next := n, prev := v } = g x) (s : State σ κ) (func : κ) (p : Ptr) :
    g ((s.coroNew func).coros p) =
      if Ptr.coro s.made = p then
        g { s.coros p with
          ret := 0
          func := some func
          isFinished := false
          switchCount := 0
          ctx := some (.body (.coro s.made)) }
      else g (s.coros p) := by
  refine (State.coroListAdd_field g hg _ _ p).trans ?_
  simp only [State.coroBodyEnter, State.modify_coros, Option.some.injEq]
  split <;> rfl

theorem created_coroNew {func : κ} :
    (s.coroNew func).Created p ↔ s.Created p ∨ p = .coro s.made := by
  change (∃ n < s.made + 1, p = .coro n) ↔ (∃ n < s.made, p = .coro n) ∨ p = .coro s.made
  constructor
  · rintro ⟨n, hn, rfl⟩
    rcases Nat.lt_succ_iff_lt_or_eq.mp hn with hlt | rfl
    · exact .inl ⟨n, hlt, rfl⟩
    · exact .inr rfl
  · rintro (⟨n, hn, rfl⟩ | rfl)
    · exact ⟨n, Nat.lt_succ_of_lt hn, rfl⟩
    · exact ⟨s.made, Nat.lt_succ_self _, rfl⟩

theorem State.Created.ne_made (h : s.Created p) : Ptr.coro s.made ≠ p := by
  obtain ⟨n, hn, rfl⟩ := h
  intro heq
  cases heq
  exact lt_irrefl _ hn

theorem coroNew_chained (func : κ) (h : s.Chained xs) (hfresh : Ptr.coro s.made ∉ xs) :
    (s.coroNew func).Chained (.coro s.made :: xs) := by
  refine State.Chained.coroListAdd (h.congr rfl (fun p hp => ?_) fun p hp => ?_) hfresh
  all_goals
    have hne : Ptr.coro s.made ≠ p := (ne_of_mem_of_not_mem hp hfresh).symm
    simp only [State.coroBodyEnter, State.modify_coros, Option.some.injEq, if_neg hne]

/-- A fresh coroutine comes to the head of the list. -/
theorem Listed.coroNew (func : κ) (h : Listed s xs) :
    Listed (s.coroNew func) (.coro s.made :: xs) := by
  -- The coroutines that were there keep their fields; the new one is not finished.
  have hfinished : ∀ p, s.Created p →
      ((s.coroNew func).coros p).isFinished = (s.coros p).isFinished := fun p hp => by
    rw [coroNew_field Coro.isFinished (fun _ _ _ => rfl), if_neg hp.ne_made]
  have hret : ∀ p, s.Created p → ((s.coroNew func).coros p).ret = (s.coros p).ret := fun p hp => by
    rw [coroNew_field Coro.ret (fun _ _ _ => rfl), if_neg hp.ne_made]
  refine ⟨coroNew_chained func h.chained h.made_notMem, fun p => ?_, h.returned_nodup,
    fun p hp => ?_, fun p v => ?_, h.ended_nodup, h.opening_nodup, h.slices_prefix⟩
  · change p ∈ Ptr.coro s.made :: xs ↔ _ ∧ p ∉ s.returned
    rw [created_coroNew, List.mem_cons, h.mem_iff]
    constructor
    · rintro (rfl | ⟨hp, hret⟩)
      · exact ⟨.inr rfl, fun hmem => (h.returned_finished _ hmem).1.ne_made rfl⟩
      · exact ⟨.inl hp, hret⟩
    · rintro ⟨hp | rfl, hret⟩
      · exact .inr ⟨hp, hret⟩
      · exact .inl rfl
  · obtain ⟨hcreated, hfin⟩ := h.returned_finished p hp
    exact ⟨created_coroNew.mpr (.inl hcreated), by rw [hfinished p hcreated, hfin]⟩
  · change (p, v) ∈ s.ended ↔ _
    rw [h.ended_iff, created_coroNew]
    constructor
    · rintro ⟨hp, hfin⟩
      exact ⟨.inl hp, by rw [hfinished p hp, hret p hp]; exact hfin⟩
    · rintro ⟨hp | rfl, hfin, hv⟩
      · exact ⟨hp, by rw [← hfinished p hp, ← hret p hp]; exact ⟨hfin, hv⟩⟩
      · rw [coroNew_field Coro.isFinished (fun _ _ _ => rfl), if_pos rfl] at hfin
        cases hfin

theorem coroNew_parked (func : κ) (h : s.Parked p) (hp : s.Created p) :
    (s.coroNew func).Parked p := by
  refine h.congr ?_ ?_
  · rw [coroNew_field Coro.ctx (fun _ _ _ => rfl), if_neg hp.ne_made]
  · rw [coroNew_field Coro.func (fun _ _ _ => rfl), if_neg hp.ne_made]

/-- The fresh coroutine itself waits for its first slice. -/
theorem coroNew_parked_made (s : State σ κ) (func : κ) :
    (s.coroNew func).Parked (.coro s.made) := by
  refine .inl ⟨?_, func, ?_⟩
  · rw [coroNew_field Coro.ctx (fun _ _ _ => rfl), if_pos rfl]
  · rw [coroNew_field Coro.func (fun _ _ _ => rfl), if_pos rfl]

/-! ## The end of a coroutine -/

/-- The function of `c` has returned `v` and the scheduler is back. -/
def State.finish (s : State σ κ) (c : Ptr) (v : Int) : State σ κ :=
  { s.modify (some c) fun x => { x with ret := v, isFinished := true } with
    ended := s.ended ++ [(c, v)]
    coroThisPtr := some .sched
    isSchedWaiting := false
    control := .waiting }

theorem finish_field {β : Type} (g : Coro σ κ → β)
    (hg : ∀ x v, g { x with ret := v, isFinished := true } = g x) (s : State σ κ) (c : Ptr) (v : Int)
    (p : Ptr) : g ((s.finish c v).coros p) = g (s.coros p) :=
  State.modify_field (fun x => hg x v) s _ p

theorem return_eq (code : κ → Prog σ κ Int) (hslice : Slice s xs c) (v : Int) :
    s.coroBodyReturn code c v = s.finish c v := by
  unfold State.coroBodyReturn
  refine (if_pos hslice.waiting).trans ((jump_sched code ?_).trans rfl)
  exact (finish_field Coro.ctx (fun _ _ => rfl) s c v .sched).trans hslice.home

theorem finish_of_ne {v : Int} (hp : p ≠ c) : (s.finish c v).coros p = s.coros p :=
  if_neg fun heq => hp (Option.some.inj heq).symm

theorem finish_self (s : State σ κ) (c : Ptr) (v : Int) :
    ((s.finish c v).coros c).isFinished = true ∧ ((s.finish c v).coros c).ret = v := by
  have hself : (s.finish c v).coros c = { s.coros c with ret := v, isFinished := true } :=
    if_pos rfl
  rw [hself]
  exact ⟨rfl, rfl⟩

/-- An unfinished coroutine of the list finishes. -/
theorem Listed.finish (h : Listed s xs) (hc : c ∈ xs) (hrunning : (s.coros c).isFinished = false)
    (v : Int) : Listed (s.finish c v) xs := by
  -- A running coroutine has not returned before.
  have hnew : ∀ w, (c, w) ∉ s.ended := fun w hmem => by
    rw [h.ended_iff, hrunning] at hmem
    exact absurd hmem.2.1 (by decide)
  refine ⟨h.chained.congr rfl (fun p _ => finish_field Coro.next (fun _ _ => rfl) s c v p)
    (fun p _ => finish_field Coro.prev (fun _ _ => rfl) s c v p), h.mem_iff, h.returned_nodup,
    fun p hp => ?_, fun p w => ?_, ?_, h.opening_nodup, h.slices_prefix⟩
  · obtain ⟨hcreated, hfin⟩ := h.returned_finished p hp
    refine ⟨hcreated, ?_⟩
    by_cases hpc : p = c
    · exact hpc ▸ (finish_self s c v).1
    · rw [finish_of_ne hpc, hfin]
  · change (p, w) ∈ s.ended ++ [(c, v)] ↔ s.Created p ∧ _
    rw [List.mem_append, List.mem_singleton, Prod.mk.injEq]
    by_cases hpc : p = c
    · subst hpc
      rw [(finish_self s p v).1, (finish_self s p v).2]
      have hcreated := ((h.mem_iff p).mp hc).1
      constructor
      · rintro (hmem | ⟨-, rfl⟩)
        · exact absurd hmem (hnew w)
        · exact ⟨hcreated, rfl, rfl⟩
      · rintro ⟨-, -, rfl⟩
        exact .inr ⟨rfl, rfl⟩
    · rw [finish_of_ne hpc, h.ended_iff]
      exact ⟨fun hmem => hmem.resolve_right fun heq => hpc heq.1, .inl⟩
  · change ((s.ended ++ [(c, v)]).map Prod.fst).Nodup
    rw [List.map_append, List.map_singleton]
    refine List.Nodup.append h.ended_nodup (List.nodup_singleton c) ?_
    rintro p hp hpc
    obtain ⟨⟨q, w⟩, hmem, rfl⟩ := List.mem_map.mp hp
    obtain rfl : q = c := List.mem_singleton.mp hpc
    exact hnew w hmem

/-- A finished coroutine leaves the list. -/
theorem Listed.giveBack {as bs : List Ptr} (h : Listed s (as ++ p :: bs))
    (hfin : (s.coros p).isFinished = true) : Listed (s.giveBack p) (as ++ bs) := by
  have hp := (h.mem_iff p).mp (by simp)
  -- Unlinking writes only the two links.
  have hfield : ∀ q, ((s.giveBack p).coros q).isFinished = (s.coros q).isFinished ∧
      ((s.giveBack p).coros q).ret = (s.coros q).ret := fun q =>
    ⟨State.coroListDelete_field Coro.isFinished (fun _ _ _ => rfl) s p q,
      State.coroListDelete_field Coro.ret (fun _ _ _ => rfl) s p q⟩
  have hnodup := h.chained.nodup
  refine ⟨h.chained.coroListDelete, fun q => ?_, ?_, fun q hq => ?_, fun q v => ?_, h.ended_nodup,
    h.opening_nodup, h.slices_prefix⟩
  · change q ∈ as ++ bs ↔ s.Created q ∧ q ∉ s.returned ++ [p]
    have hiff : q ∈ as ++ bs ↔ q ∈ as ++ p :: bs ∧ q ≠ p := by
      have hnot : p ∉ as ++ bs := (List.nodup_middle.mp hnodup |> List.nodup_cons.mp).1
      constructor
      · intro hmem
        refine ⟨?_, ne_of_mem_of_not_mem hmem hnot⟩
        rcases List.mem_append.mp hmem with hleft | hright
        · exact List.mem_append_left _ hleft
        · exact List.mem_append_right _ (List.mem_cons_of_mem _ hright)
      · rintro ⟨hmem, hne⟩
        simpa [hne] using hmem
    rw [hiff, h.mem_iff, List.mem_append, List.mem_singleton, not_or, and_assoc]
  · refine List.Nodup.append h.returned_nodup (List.nodup_singleton p) ?_
    rintro q hq hqp
    obtain rfl : q = p := List.mem_singleton.mp hqp
    exact hp.2 hq
  · rw [(hfield q).1]
    rcases List.mem_append.mp hq with hold | hnew
    · exact h.returned_finished q hold
    · obtain rfl : q = p := List.mem_singleton.mp hnew
      exact ⟨hp.1, hfin⟩
  · rw [(hfield q).1, (hfield q).2]
    exact h.ended_iff q v

end SystemProgramming.Libcoro
