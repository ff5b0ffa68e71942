import Mathlib
import SystemProgramming.Lib.Runs
import SystemProgramming.Libcoro.Invariant

/-!
# The steps of the scheduler

`Turn` lists what a step inside `coro_sched_wait` can do in a state of the invariant.  Every step
keeps the invariant, whatever the coroutines do.
-/

namespace SystemProgramming.Libcoro

open Cooperative DoublyLinked Runs

variable {σ κ : Type} {code : κ → Prog σ κ Int} {s t : State σ κ} {c p : Ptr} {xs : List Ptr}

/-- The steps of a program as a labelled transition system. -/
def Steps (code : κ → Prog σ κ Int) : State σ κ → Action σ κ → State σ κ → Prop :=
  fun s a t => step code s a = some t

/-! ## The invariant is kept -/

theorem inv_start (heap : Ptr → Coro σ κ) (memory : σ) :
    Inv (State.coroSchedInit (κ := κ) heap memory) := by
  refine ⟨[], ⟨⟨rfl, rfl⟩, fun p => ?_, List.nodup_nil, (fun p hp => nomatch hp), fun p v => ?_,
    List.nodup_nil, List.nodup_nil, List.prefix_refl _⟩, ⟨rfl, rfl, (fun p hp => nomatch hp)⟩⟩
  · exact ⟨fun hp => (nomatch hp), fun ⟨⟨n, hn, _⟩, _⟩ => absurd hn (Nat.not_lt_zero n)⟩
  · exact ⟨fun hp => (nomatch hp), fun ⟨⟨n, hn, _⟩, _⟩ => absurd hn (Nat.not_lt_zero n)⟩

theorem Idle.coroNew (func : κ) (h : Listed s xs) (hidle : Idle s xs) :
    Idle (s.coroNew func) (.coro s.made :: xs) := by
  refine ⟨hidle.this, hidle.notWaiting, fun p hp hfin => ?_⟩
  rcases List.mem_cons.mp hp with rfl | hp
  · exact coroNew_parked_made s func
  · have hcreated := ((h.mem_iff p).mp hp).1
    refine coroNew_parked func (hidle.parked p hp ?_) hcreated
    rw [coroNew_field Coro.isFinished (fun _ _ _ => rfl), if_neg hcreated.ne_made] at hfin
    exact hfin

/-- A coroutine that makes another one goes on; the new one stands in front of the round. -/
theorem Slice.coroNew (func : κ) (h : Listed s xs) (hslice : Slice s xs c) :
    Slice (s.coroNew func) (.coro s.made :: xs) c := by
  obtain ⟨fresh, before, after, hxs, hopening, hslices⟩ := hslice.round
  refine ⟨hslice.this, hslice.waiting, ?_, fun p hp => ?_, fun p hp hpc => ?_,
    .coro s.made :: fresh, before, after, by rw [hxs]; rfl, hopening, hslices⟩
  · rw [coroNew_field Coro.ctx (fun _ _ _ => rfl), if_neg nofun]
    exact hslice.home
  · rw [coroNew_field Coro.isFinished (fun _ _ _ => rfl)]
    rcases List.mem_cons.mp hp with rfl | hp
    · rw [if_pos rfl]
    · rw [if_neg ((h.mem_iff p).mp hp).1.ne_made]
      exact hslice.unfinished p hp
  · rcases List.mem_cons.mp hp with rfl | hp
    · exact coroNew_parked_made s func
    · exact coroNew_parked func (hslice.parked p hp hpc) ((h.mem_iff p).mp hp).1

/-- The hand-over opens a round with the head of the list. -/
theorem handOver_inv {ps : List Ptr} {rest : Prog σ κ Int} (h : Listed s (p :: ps))
    (hidle : Idle s (p :: ps)) (hall : ∀ q ∈ p :: ps, (s.coros q).isFinished = false) :
    Listed (s.handOver (p :: ps) p rest) (p :: ps) ∧
      Slice (s.handOver (p :: ps) p rest) (p :: ps) p := by
  have hsame : ∀ q ∈ p :: ps, (s.handOver (p :: ps) p rest).coros q = s.coros q := fun q hq =>
    handOver_of_ne (h.ne_sched hq)
  constructor
  · exact h.park h.chained.nodup ⟨ps, rfl⟩ rfl rfl rfl rfl rfl
  · refine ⟨rfl, rfl, park_ctx_self, fun q hq => ?_, fun q hq _ => ?_, [], [], ps, rfl, rfl, rfl⟩
    · rw [hsame q hq]
      exact hall q hq
    · exact (hidle.parked q hq (hall q hq)).congr (congrArg Coro.ctx (hsame q hq))
        (congrArg Coro.func (hsame q hq))

theorem giveBack_idle {as bs : List Ptr} (hidle : Idle s (as ++ p :: bs)) :
    Idle (s.giveBack p) (as ++ bs) := by
  refine ⟨hidle.this, hidle.notWaiting, fun q hq hfin => ?_⟩
  have hmem : q ∈ as ++ p :: bs := by
    rcases List.mem_append.mp hq with hleft | hright
    · exact List.mem_append_left _ hleft
    · exact List.mem_append_right _ (List.mem_cons_of_mem _ hright)
  refine (hidle.parked q hmem ?_).congr ?_ ?_
  · rw [← hfin]
    exact (State.coroListDelete_field Coro.isFinished (fun _ _ _ => rfl) s p q).symm
  · exact State.coroListDelete_field Coro.ctx (fun _ _ _ => rfl) s p q
  · exact State.coroListDelete_field Coro.func (fun _ _ _ => rfl) s p q

/-- The last coroutine of the list gives way to the scheduler. -/
theorem yieldSched_inv {rest : Prog σ κ Int} (h : Listed s xs) (hslice : Slice s xs c)
    (ht : t = { s.park c (.yield c c rest) with
      coroThisPtr := some .sched
      isSchedWaiting := false
      control := .waiting }) : Listed t xs ∧ Idle t xs := by
  subst ht
  refine ⟨h.park h.opening_nodup h.slices_prefix rfl rfl rfl rfl rfl, rfl, rfl, fun p hp _ => ?_⟩
  by_cases hpc : p = c
  · subst hpc
    exact .inr ⟨rest, park_ctx_self⟩
  · have hsame : (s.park c (.yield c c rest)).coros p = s.coros p := park_ctx_of_ne hpc
    exact (hslice.parked p hp hpc).congr (congrArg Coro.ctx hsame) (congrArg Coro.func hsame)

/-- Any other coroutine gives way to the next one. -/
theorem yieldNext_inv {rest rest' : Prog σ κ Int} {fresh before after : List Ptr} (h : Listed s xs)
    (hslice : Slice s xs c) (hround : xs = fresh ++ s.opening)
    (hopening : s.opening = before ++ c :: p :: after) (hslices : s.slices = before ++ [c])
    (ht : t = { s.park c (.yield c c rest) with
      coroThisPtr := some p
      control := .running p rest'
      slices := s.slices ++ [p] }) : Listed t xs ∧ Slice t xs p := by
  subst ht
  have hslices' : s.slices ++ [p] <+: s.opening := ⟨after, by rw [hslices, hopening]; simp⟩
  constructor
  · exact h.park h.opening_nodup hslices' rfl rfl rfl rfl rfl
  · have hfield : ∀ q, ((s.park c (.yield c c rest)).coros q).isFinished =
        (s.coros q).isFinished := fun q => park_field Coro.isFinished (fun _ _ _ => rfl) s c _ q
    have hpc : Ptr.sched ≠ c := (h.ne_sched (by rw [hround, hopening]; simp)).symm
    refine ⟨rfl, hslice.waiting, ?_, fun q hq => (hfield q).trans (hslice.unfinished q hq),
      fun q hq hqp => ?_, fresh, before ++ [c], after, hround, ?_, ?_⟩
    · exact (congrArg Coro.ctx (park_ctx_of_ne hpc)).trans hslice.home
    · by_cases hqc : q = c
      · subst hqc
        exact .inr ⟨rest, park_ctx_self⟩
      · have hsame : (s.park c (.yield c c rest)).coros q = s.coros q := park_ctx_of_ne hqc
        exact (hslice.parked q hq hqc).congr (congrArg Coro.ctx hsame) (congrArg Coro.func hsame)
    · change s.opening = _
      rw [hopening]
      simp
    · change s.slices ++ [p] = _
      rw [hslices]

/-- A coroutine that has returned leaves the processor to the scheduler. -/
theorem finish_idle (hslice : Slice s xs c) (v : Int) : Idle (s.finish c v) xs := by
  refine ⟨rfl, rfl, fun p hp hfin => ?_⟩
  by_cases hpc : p = c
  · subst hpc
    rw [(finish_self s p v).1] at hfin
    cases hfin
  · have hsame := finish_of_ne (s := s) (v := v) hpc
    exact (hslice.parked p hp hpc).congr (congrArg Coro.ctx hsame) (congrArg Coro.func hsame)

/-! ## What a step inside `coro_sched_wait` can do -/

/-- The step from `s` with the list `xs` to `t` with the list `ys`. -/
inductive Turn (code : κ → Prog σ κ Int) (s : State σ κ) (xs : List Ptr) :
    State σ κ → List Ptr → Prop
  | empty (hcontrol : s.control = .waiting) (hidle : Idle s xs) (hxs : xs = []) :
      Turn code s xs { s with control := .user (some none) } xs
  | giveBack {as bs : List Ptr} {p : Ptr} (hcontrol : s.control = .waiting) (hidle : Idle s xs)
      (hxs : xs = as ++ p :: bs) (hfin : (s.coros p).isFinished = true) :
      Turn code s xs (s.giveBack p) (as ++ bs)
  | handOver {p : Ptr} {ps : List Ptr} {rest : Prog σ κ Int} (hcontrol : s.control = .waiting)
      (hidle : Idle s xs) (hxs : xs = p :: ps) (hall : ∀ q ∈ xs, (s.coros q).isFinished = false)
      (hrest : s.remaining code p = some rest) : Turn code s xs (s.handOver xs p rest) xs
  | act {c : Ptr} {f : σ → σ} {k : σ → Prog σ κ Int} (hcontrol : s.control = .running c (.act f k))
      (hslice : Slice s xs c) :
      Turn code s xs { s with memory := f s.memory, control := .running c (k s.memory) } xs
  | new {c : Ptr} {child : κ} {k : Prog σ κ Int} (hcontrol : s.control = .running c (.new child k))
      (hslice : Slice s xs c) :
      Turn code s xs { s.coroNew child with control := .running c k } (.coro s.made :: xs)
  | yieldSched {c : Ptr} {k : Prog σ κ Int} (hcontrol : s.control = .running c (.yield k))
      (hslice : Slice s xs c) (hlast : xs.getLast? = some c) :
      Turn code s xs { s.park c (.yield c c k) with
        coroThisPtr := some .sched
        isSchedWaiting := false
        control := .waiting } xs
  | yieldNext {c p : Ptr} {k rest : Prog σ κ Int} {fresh before after : List Ptr}
      (hcontrol : s.control = .running c (.yield k)) (hslice : Slice s xs c)
      (hround : xs = fresh ++ s.opening) (hopening : s.opening = before ++ c :: p :: after)
      (hslices : s.slices = before ++ [c]) (hrest : s.remaining code p = some rest) :
      Turn code s xs { s.park c (.yield c c k) with
        coroThisPtr := some p
        control := .running p rest
        slices := s.slices ++ [p] } xs
  | ret {c : Ptr} {v : Int} (hcontrol : s.control = .running c (.ret v)) (hslice : Slice s xs c) :
      Turn code s xs (s.finish c v) xs

theorem Slice.mem (hslice : Slice s xs c) : c ∈ xs := by
  obtain ⟨fresh, before, after, rfl, hopening, -⟩ := hslice.round
  simp [hopening]

/-- Every step inside the call is one of these. -/
theorem turn_of_go (h : Listed s xs) (hphase : Phase s xs) (hstep : step code s .go = some t) :
    ∃ ys, Turn code s xs t ys := by
  unfold Phase at hphase
  unfold step at hstep
  cases hcontrol : s.control with
  | waiting =>
    rw [hcontrol] at hphase hstep
    obtain rfl : s.coroSchedWait code = t := Option.some.inj hstep
    obtain ⟨hxs, heq⟩ | ⟨as, p, bs, hxs, hfin, heq⟩ | ⟨p, ps, rest, hxs, hall, hrest, heq⟩ :=
      wait_cases code h hphase
    · exact ⟨xs, heq ▸ .empty hcontrol hphase hxs⟩
    · exact ⟨as ++ bs, heq ▸ .giveBack hcontrol hphase hxs hfin⟩
    · exact ⟨xs, heq ▸ .handOver hcontrol hphase hxs hall hrest⟩
  | running c rest =>
    rw [hcontrol] at hphase hstep
    obtain rfl : s.execute code c rest = t := Option.some.inj hstep
    cases rest with
    | ret v =>
      rw [State.execute, return_eq code hphase v]
      exact ⟨xs, .ret hcontrol hphase⟩
    | act f k => exact ⟨xs, .act hcontrol hphase⟩
    | new child k => exact ⟨_, .new hcontrol hphase⟩
    | yield k =>
      obtain ⟨heq, hlast⟩ | ⟨fresh, before, p, after, rest', hround, hopening, hslices, hrest, heq⟩ :=
        yield_cases code h hphase k
      · rw [State.execute, heq]
        exact ⟨xs, .yieldSched hcontrol hphase hlast⟩
      · rw [State.execute, heq]
        exact ⟨xs, .yieldNext hcontrol hphase hround hopening hslices hrest⟩
  | user answer =>
    rw [hcontrol] at hstep
    cases hstep
  -- neither of the error states is a phase of the call
  | noPlaceToReturn =>
    rw [hcontrol] at hphase
    exact hphase.elim
  | invalid =>
    rw [hcontrol] at hphase
    exact hphase.elim

/-- Inside the call there is always a next step. -/
theorem go_isSome (code : κ → Prog σ κ Int)
    (hcontrol : s.control = .waiting ∨ ∃ c rest, s.control = .running c rest) :
    ∃ t, step code s .go = some t := by
  unfold step
  rcases hcontrol with h | ⟨c, rest, h⟩
  · rw [h]
    exact ⟨_, rfl⟩
  · rw [h]
    exact ⟨_, rfl⟩

theorem Turn.inv {ys : List Ptr} (h : Listed s xs) (hturn : Turn code s xs t ys) :
    Listed t ys ∧ Phase t ys := by
  cases hturn with
  | empty hcontrol hidle hxs =>
    exact ⟨h.congr rfl rfl rfl rfl (fun _ => ⟨rfl, rfl⟩) (fun _ => ⟨rfl, rfl⟩) h.opening_nodup
      h.slices_prefix, ⟨hidle.this, hidle.notWaiting, hidle.parked⟩, hxs⟩
  | giveBack hcontrol hidle hxs hfin =>
    subst hxs
    exact ⟨h.giveBack hfin, giveBack_idle hidle, List.getLast?_concat⟩
  | handOver hcontrol hidle hxs hall hrest =>
    subst hxs
    exact handOver_inv h hidle hall
  | act hcontrol hslice =>
    exact ⟨h.congr rfl rfl rfl rfl (fun _ => ⟨rfl, rfl⟩) (fun _ => ⟨rfl, rfl⟩) h.opening_nodup
      h.slices_prefix, hslice.this, hslice.waiting, hslice.home, hslice.unfinished, hslice.parked,
      hslice.round⟩
  | @new c child k hcontrol hslice =>
    have hlisted := h.coroNew child
    have hslice' := hslice.coroNew child h
    exact ⟨hlisted.congr rfl rfl rfl rfl (fun _ => ⟨rfl, rfl⟩) (fun _ => ⟨rfl, rfl⟩)
      h.opening_nodup h.slices_prefix, hslice'.this, hslice'.waiting, hslice'.home,
      hslice'.unfinished, hslice'.parked, hslice'.round⟩
  | yieldSched hcontrol hslice hlast => exact yieldSched_inv h hslice rfl
  | yieldNext hcontrol hslice hround hopening hslices hrest =>
    exact yieldNext_inv h hslice hround hopening hslices rfl
  | ret hcontrol hslice =>
    exact ⟨h.finish hslice.mem (hslice.unfinished _ hslice.mem) _, finish_idle hslice _⟩

theorem idle_of_user {answer : Option (Option Ptr)} (hphase : Phase s xs)
    (hcontrol : s.control = .user answer) : Idle s xs := by
  unfold Phase at hphase
  rw [hcontrol] at hphase
  match answer with
  | none => exact hphase
  | some none => exact hphase.1
  | some (some p) => exact hphase.1

/-- The main function acts only outside the call. -/
theorem step_cases {a : Action σ κ} (hstep : step code s a = some t) :
    a = .go ∨ (∃ answer, s.control = .user answer) ∧
      ((∃ func, a = .new func ∧ t = { s.coroNew func with control := .user none }) ∨
        (∃ f, a = .act f ∧ t = { s with memory := f s.memory, control := .user none }) ∨
        a = .wait ∧ t = { s with control := .waiting }) := by
  cases a with
  | go => exact .inl rfl
  | new func =>
    simp only [step] at hstep
    split at hstep
    · next answer hcontrol =>
      exact .inr ⟨⟨answer, hcontrol⟩, .inl ⟨func, rfl, by simpa using hstep.symm⟩⟩
    · cases hstep
  | act f =>
    simp only [step] at hstep
    split at hstep
    · next answer hcontrol =>
      exact .inr ⟨⟨answer, hcontrol⟩, .inr (.inl ⟨f, rfl, by simpa using hstep.symm⟩)⟩
    · cases hstep
  | wait =>
    simp only [step] at hstep
    split at hstep
    · next answer hcontrol =>
      exact .inr ⟨⟨answer, hcontrol⟩, .inr (.inr ⟨rfl, by simpa using hstep.symm⟩)⟩
    · cases hstep

/-- Every step keeps the invariant. -/
theorem inv_step {a : Action σ κ} (h : Inv s) (hstep : step code s a = some t) : Inv t := by
  obtain ⟨xs, hlisted, hphase⟩ := h
  have hsame : ∀ {u : State σ κ}, u.coroList = s.coroList → u.made = s.made → u.ended = s.ended →
      u.returned = s.returned → u.coros = s.coros → u.opening = s.opening →
      u.slices = s.slices → Listed u xs := by
    intro u hlist hmade hended hreturned hcoros hopening hslices
    exact hlisted.congr hlist hmade hended hreturned (fun _ => hcoros ▸ ⟨rfl, rfl⟩)
      (fun _ => hcoros ▸ ⟨rfl, rfl⟩) (hopening ▸ hlisted.opening_nodup)
      (hopening ▸ hslices ▸ hlisted.slices_prefix)
  rcases step_cases hstep with rfl | ⟨⟨answer, hcontrol⟩, hcase⟩
  · obtain ⟨ys, hturn⟩ := turn_of_go hlisted hphase hstep
    exact ⟨ys, hturn.inv hlisted⟩
  · have hidle := idle_of_user hphase hcontrol
    obtain ⟨func, -, rfl⟩ | ⟨f, -, rfl⟩ | ⟨-, rfl⟩ := hcase
    · have hidle' := hidle.coroNew func hlisted
      exact ⟨_, (hlisted.coroNew func).congr rfl rfl rfl rfl (fun _ => ⟨rfl, rfl⟩)
        (fun _ => ⟨rfl, rfl⟩) hlisted.opening_nodup hlisted.slices_prefix,
        hidle'.this, hidle'.notWaiting, hidle'.parked⟩
    · exact ⟨xs, hsame rfl rfl rfl rfl rfl rfl rfl, hidle.this, hidle.notWaiting, hidle.parked⟩
    · exact ⟨xs, hsame rfl rfl rfl rfl rfl rfl rfl, hidle.this, hidle.notWaiting, hidle.parked⟩

theorem inv_reachable {heap : Ptr → Coro σ κ} {memory : σ}
    (h : Reachable (Steps code) (State.coroSchedInit heap memory) s) : Inv s :=
  h.invariant (inv_start heap memory) fun _ _ _ => inv_step

end SystemProgramming.Libcoro
