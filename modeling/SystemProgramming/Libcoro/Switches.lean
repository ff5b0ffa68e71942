import SystemProgramming.Libcoro.Refinement

/-!
# What `coro_switch_count` counts

Every run of a program is a run of the machine of cooperative threads, with the main function of the
program as its surroundings.  The counter of a coroutine is how often its thread gave way there.
-/

namespace SystemProgramming.Libcoro

open Cooperative Runs

variable {σ κ : Type} {code : κ → Prog σ κ Int} {s t : State σ κ} {c p : Ptr} {xs ys : List Ptr}

namespace State

def coroStatus (s : State σ κ) (c : Ptr) : Int := (s.coros c).ret

def coroSwitchCount (s : State σ κ) (c : Ptr) : Int := (s.coros c).switchCount

def coroIsFinished (s : State σ κ) (c : Ptr) : Bool := (s.coros c).isFinished

/-- The counter of the `n`th coroutine, which is nothing before it is made. -/
def switches (s : State σ κ) (n : Nat) : Int :=
  if n < s.made then s.coroSwitchCount (.coro n) else 0

end State

/-! ## One step -/

theorem yielding_of_waiting (h : s.control = .waiting) : s.yielding = none := by
  rw [State.yielding, h]

theorem yielding_of_running {rest : Prog σ κ Int} (h : s.control = .running c rest)
    (hrest : rest.isYield = false) : s.yielding = none := by
  rw [State.yielding, h]
  cases rest with
  | yield k => cases hrest
  | ret v => cases c <;> rfl
  | act f k => cases c <;> rfl
  | new child k => cases c <;> rfl

theorem switches_congr {n : Nat} (hmade : t.made = s.made)
    (hcount : (t.coros (.coro n)).switchCount = (s.coros (.coro n)).switchCount) :
    t.switches n = s.switches n := by
  rw [State.switches, State.switches, hmade, State.coroSwitchCount, State.coroSwitchCount, hcount]

theorem park_switchCount (s : State σ κ) (c : Ptr) (ctx : Context σ κ) (p : Ptr) :
    ((s.park c ctx).coros p).switchCount =
      (s.coros p).switchCount + if c = p then 1 else 0 := by
  rw [State.park, State.modify_coros]
  by_cases hp : c = p
  · rw [if_pos hp, if_pos (congrArg some hp)]
  · rw [if_neg hp, if_neg (fun heq => hp (Option.some.inj heq))]
    omega

/-- Making a coroutine sets its own counter only. -/
theorem switches_coroNew {func : κ} (hmade : t.made = s.made + 1)
    (hcoros : t.coros = (s.coroNew func).coros) (n : Nat) : t.switches n = s.switches n := by
  have hcount := coroNew_field Coro.switchCount (fun _ _ _ => rfl) s func (.coro n)
  rw [State.switches, State.switches, State.coroSwitchCount, State.coroSwitchCount, hmade, hcoros,
    hcount]
  by_cases hn : n = s.made
  · rw [hn, if_pos (Nat.lt_succ_self _), if_pos rfl, if_neg (lt_irrefl _)]
  · have hlt : n < s.made + 1 ↔ n < s.made := by omega
    have hne : Ptr.coro s.made ≠ .coro n := fun heq => hn (by cases heq; rfl)
    rw [if_neg hne]
    simp only [hlt]

/-- A coroutine that gives way, to whoever it is. -/
theorem switches_park {i : Nat} {k : Prog σ κ Int} (ctx : Context σ κ) (hi : i < s.made)
    (hcontrol : s.control = .running (.coro i) (.yield k)) (hmade : t.made = s.made)
    (hcoros : t.coros = (s.park (.coro i) ctx).coros) (n : Nat) :
    t.switches n = s.switches n + if s.yielding = some n then 1 else 0 := by
  have hyielding : s.yielding = some i := by rw [State.yielding, hcontrol]
  rw [State.switches, State.switches, State.coroSwitchCount, State.coroSwitchCount, hmade, hcoros,
    park_switchCount, hyielding]
  by_cases hn : i = n
  · subst hn
    simp only [if_pos hi, if_true]
  · have hne : Ptr.coro i ≠ .coro n := fun heq => hn (by cases heq; rfl)
    rw [if_neg hne, if_neg (fun heq => hn (Option.some.inj heq))]
    simp only [Int.add_zero]

/-- A counter goes up when its coroutine yields, and stands still in every other step. -/
theorem Turn.switches (h : Listed s xs) (hturn : Turn code s xs t ys) (n : Nat) :
    t.switches n = s.switches n + if s.yielding = some n then 1 else 0 := by
  have hstill : s.yielding = none → t.switches n = s.switches n →
      t.switches n = s.switches n + if s.yielding = some n then 1 else 0 := by
    intro hyielding heq
    rw [heq, hyielding, if_neg nofun, Int.add_zero]
  cases hturn with
  | empty hcontrol => exact hstill (yielding_of_waiting hcontrol) (switches_congr rfl rfl)
  | @giveBack as bs p hcontrol =>
    refine hstill (yielding_of_waiting hcontrol) (switches_congr rfl ?_)
    exact State.coroListDelete_field Coro.switchCount (fun _ _ _ => rfl) s p (.coro n)
  | @handOver p ps rest hcontrol =>
    refine hstill (yielding_of_waiting hcontrol) (switches_congr rfl ?_)
    have hsame : (s.handOver xs p rest).coros (.coro n) = s.coros (.coro n) := handOver_of_ne nofun
    rw [hsame]
  | act hcontrol => exact hstill (yielding_of_running hcontrol rfl) (switches_congr rfl rfl)
  | new hcontrol => exact hstill (yielding_of_running hcontrol rfl) (switches_coroNew rfl rfl n)
  | @yieldSched c k hcontrol hslice =>
    obtain ⟨i, hi, rfl⟩ := h.exists_coro hslice.mem
    refine switches_park (.yield (.coro i) (.coro i) k) hi hcontrol ?_ ?_ n
    · rfl
    · rfl
  | @yieldNext c p k rest fresh before after hcontrol hslice =>
    obtain ⟨i, hi, rfl⟩ := h.exists_coro hslice.mem
    refine switches_park (.yield (.coro i) (.coro i) k) hi hcontrol ?_ ?_ n
    · rfl
    · rfl
  | @ret c v hcontrol =>
    refine hstill (yielding_of_running hcontrol rfl) (switches_congr rfl ?_)
    exact finish_field Coro.switchCount (fun _ _ => rfl) s c v (.coro n)

/-- What an action of the program is to the machine: what the main function does comes from outside,
and inside `coro_sched_wait` the machine moves by itself. -/
def Action.Shows : Action σ κ → List (Pool.Event σ κ) → Prop
  | .new func, es => es = [.create func]
  | .act f, es => es = [.touch f]
  | .wait, es => es = []
  | .go, es => ∃ givings : List (Option Nat), es = givings.map .inside

/-- Every step of a program is a run of the machine, in which the threads give way as often as the
counters go up. -/
theorem step_moves {a : Action σ κ} (h : Inv s) (hstep : step code s a = some t) :
    ∃ es, a.Shows es ∧ Run (Pool.Move code) (s.pool code) es (t.pool code) ∧
      ∀ n, t.switches n = s.switches n + (es.map Pool.Event.giving).count (some n) := by
  rcases step_cases hstep with rfl | ⟨⟨answer, hcontrol⟩, hcase⟩
  · obtain ⟨xs, hlisted, hphase⟩ := h
    obtain ⟨ys, hturn⟩ := turn_of_go hlisted hphase hstep
    obtain ⟨as, hrun, hcount⟩ := hturn.labelled hlisted
    refine ⟨as.map .inside, ⟨as, rfl⟩, Pool.moves_of_labelled hrun, fun n => ?_⟩
    rw [Pool.map_giving_inside, hturn.switches hlisted, hcount]
    split <;> rfl
  · have hidle : (s.pool code).current = none := current_of_user hcontrol
    obtain ⟨func, rfl, rfl⟩ | ⟨f, rfl, rfl⟩ | ⟨rfl, rfl⟩ := hcase
    · refine ⟨[.create func], rfl, .cons (pool_new hcontrol ▸ .create func hidle) (.nil _),
        fun n => ?_⟩
      exact (switches_coroNew rfl rfl n).trans (Int.add_zero _).symm
    · refine ⟨[.touch f], rfl, .cons (pool_act hcontrol ▸ .touch f hidle) (.nil _), fun n => ?_⟩
      exact (Int.add_zero _).symm
    · refine ⟨[], rfl, pool_wait hcontrol ▸ .nil _, fun n => ?_⟩
      exact (Int.add_zero _).symm

/-! ## Whole runs -/

theorem pool_start (code : κ → Prog σ κ Int) (heap : Ptr → Coro σ κ) (memory : σ) :
    (State.coroSchedInit heap memory).pool code = Pool.start memory := by
  refine Pool.ext rfl (funext fun n => ?_) rfl rfl
  show (State.coroSchedInit heap memory).thread code n = none
  exact if_neg (Nat.not_lt_zero n)

/-- The events of a run, action by action. -/
theorem run_moves {as : List (Action σ κ)} (h : Inv s) (hrun : Run (Steps code) s as t) :
    ∃ ess, List.Forall₂ Action.Shows as ess ∧
      Run (Pool.Move code) (s.pool code) ess.flatten (t.pool code) ∧
      ∀ n, t.switches n = s.switches n + (ess.flatten.map Pool.Event.giving).count (some n) := by
  induction hrun with
  | nil s => exact ⟨[], .nil, .nil _, fun n => (Int.add_zero _).symm⟩
  | cons hstep _ ih =>
    obtain ⟨es, hshows, hes, hcount⟩ := step_moves h hstep
    obtain ⟨ess, hshows', hess, hcount'⟩ := ih (inv_step h hstep)
    refine ⟨es :: ess, .cons hshows hshows', hes.append hess, fun n => ?_⟩
    rw [hcount', hcount, List.flatten_cons, List.map_append, List.count_append]
    omega

/-- The library implements cooperative threads: a run of a program is a run of the machine, to which
the main function does from outside, action by action, what it does in the program.  The memory and
the results of the coroutines are as they are in the machine, and the counters are how often the
threads have given way. -/
theorem implements_cooperative {heap : Ptr → Coro σ κ} {memory : σ} {as : List (Action σ κ)}
    (h : Run (Steps code) (State.coroSchedInit heap memory) as t) :
    ∃ ess P, List.Forall₂ Action.Shows as ess ∧
      Run (Pool.Move code) (Pool.start memory) ess.flatten P ∧ P.memory = t.memory ∧
      P.made = t.made ∧
      (∀ n < t.made,
        t.coroSwitchCount (.coro n) = (ess.flatten.map Pool.Event.giving).count (some n)) ∧
      ∀ n < t.made, ∀ v, P.threads n = some (.ended v) ↔
        t.coroIsFinished (.coro n) = true ∧ t.coroStatus (.coro n) = v := by
  obtain ⟨ess, hshows, hess, hcount⟩ := run_moves (inv_start heap memory) h
  rw [pool_start] at hess
  refine ⟨ess, _, hshows, hess, rfl, rfl, fun n hn => ?_, fun n hn v => ?_⟩
  · have hzero : (State.coroSchedInit (κ := κ) heap memory).switches n = 0 :=
      if_neg (Nat.not_lt_zero n)
    have heq := hcount n
    rw [hzero, State.switches, if_pos hn] at heq
    omega
  · show t.thread code n = _ ↔ (t.coros (.coro n)).isFinished = true ∧ (t.coros (.coro n)).ret = v
    rw [State.thread, if_pos hn]
    cases hfin : (t.coros (.coro n)).isFinished with
    | true => simp
    | false =>
      cases t.left code (.coro n) <;> simp

/-- A function that gives way on both sides of an access to the memory. -/
def countBetween : Unit → Prog Nat Unit Int
  | () => .yield (.act (· + 1) fun m => .yield (.ret m))

/-- Between its two coroutines the main function changes the memory as well. -/
def countingMain : List (Action Nat Unit) :=
  [.new (), .act (· + 5), .new (), .wait, .go, .go, .go, .go, .go, .go, .go, .go]

theorem implements_cooperative_countBetween :
    ∃ (ess : List (List (Pool.Event Nat Unit))) (P : Pool Nat Unit),
      List.Forall₂ Action.Shows countingMain ess ∧
      Run (Pool.Move countBetween) (Pool.start 0) ess.flatten P ∧ P.memory = 7 ∧
      (ess.flatten.map Pool.Event.giving).count (some 1) = 2 := by
  have hrun : ∃ t, t.coroSwitchCount (.coro 1) = 2 ∧ t.memory = 7 ∧ t.made = 2 ∧
      Run (Steps countBetween)
        (State.coroSchedInit (fun _ => ⟨0, none, none, false, 0, none, none⟩) 0) countingMain t :=
    ⟨_, rfl, rfl, rfl,
      .cons rfl (.cons rfl (.cons rfl (.cons rfl (.cons rfl (.cons rfl (.cons rfl (.cons rfl
        (.cons rfl (.cons rfl (.cons rfl (.cons rfl (.nil _))))))))))))⟩
  obtain ⟨t, hswitches, hmemory, hmade, hrun⟩ := hrun
  obtain ⟨ess, P, hshows, hess, hP, -, hcount, -⟩ := implements_cooperative hrun
  refine ⟨ess, P, hshows, hess, hP.trans hmemory, ?_⟩
  have heq := hcount 1 (by omega)
  omega

end SystemProgramming.Libcoro
