import Mathlib
import SystemProgramming.Libcoro.Step

/-!
# Calls of the scheduler return

A call of `coro_sched_wait` returns after finitely many steps: in every round the last coroutine of
the list comes one instruction at least nearer to the end of its function, unless another one ends
before.
-/

namespace SystemProgramming.Libcoro

open Cooperative Runs

variable {σ κ : Type} {code : κ → Prog σ κ Int} {s t : State σ κ} {c p : Ptr} {xs ys : List Ptr}

/-- The call that is in progress returns. -/
def Returns (code : κ → Prog σ κ Int) (s : State σ κ) : Prop :=
  ∃ n t answer, Run (Steps code) s (List.replicate n .go) t ∧ t.control = .user (some answer)

theorem Returns.of_step (hstep : step code s .go = some t) (h : Returns code t) :
    Returns code s := by
  obtain ⟨n, u, answer, hrun, hcontrol⟩ := h
  exact ⟨n + 1, u, answer, .cons hstep hrun, hcontrol⟩

theorem returns_of_answer {answer : Option Ptr} (hstep : step code s .go = some t)
    (h : t.control = .user (some answer)) : Returns code s :=
  ⟨1, t, answer, .cons hstep (.nil t), h⟩

/-- What is left of the function of `p`, running or not. -/
def State.left (code : κ → Prog σ κ Int) (s : State σ κ) (p : Ptr) : Option (Prog σ κ Int) :=
  match s.control with
  | .running c rest => if p = c then some rest else s.remaining code p
  | _ => s.remaining code p

theorem left_of_running {rest : Prog σ κ Int} (h : s.control = .running c rest) (p : Ptr) :
    s.left code p = if p = c then some rest else s.remaining code p := by
  rw [State.left, h]

theorem left_of_waiting (h : s.control = .waiting) (p : Ptr) :
    s.left code p = s.remaining code p := by
  rw [State.left, h]

/-- How far the call is: what the last coroutine of the list has left, how many coroutines are still
to run in this round, and what the running one has left. -/
inductive Rank (code : κ → Prog σ κ Int) (s : State σ κ) (xs : List Ptr) :
    Prog σ κ Int × Nat × Prog σ κ Int → Prop
  | waiting {l : Ptr} {last current : Prog σ κ Int} (hcontrol : s.control = .waiting)
      (hl : xs.getLast? = some l) (hlast : s.left code l = some last) :
      Rank code s xs (last, xs.length, current)
  | running {c l : Ptr} {as after : List Ptr} {last current : Prog σ κ Int}
      (hcontrol : s.control = .running c current) (hxs : xs = as ++ c :: after)
      (hl : xs.getLast? = some l) (hlast : s.left code l = some last) :
      Rank code s xs (last, after.length, current)

def Lower : Prog σ κ Int × Nat × Prog σ κ Int → Prog σ κ Int × Nat × Prog σ κ Int → Prop :=
  Prod.Lex Prog.Next (Prod.Lex (· < ·) Prog.Next)

theorem lower_wellFounded : WellFounded (Lower : Prog σ κ Int × Nat × Prog σ κ Int → _ → Prop) :=
  Prog.next_wellFounded.prod_lex (Nat.lt_wfRel.wf.prod_lex Prog.next_wellFounded)

theorem remaining_of_parked (code : κ → Prog σ κ Int) (h : s.Parked p) :
    ∃ rest, s.remaining code p = some rest :=
  let ⟨rest, hrest, _⟩ := jump_parked code h
  ⟨rest, hrest⟩

/-- While a coroutine runs there is a rank. -/
theorem rank_running (code : κ → Prog σ κ Int) {current : Prog σ κ Int} (hslice : Slice s xs c)
    (hcontrol : s.control = .running c current) : ∃ r, Rank code s xs r := by
  obtain ⟨as, after, hxs⟩ := List.append_of_mem hslice.mem
  have hne : xs ≠ [] := List.ne_nil_of_mem hslice.mem
  have hl := List.getLast?_eq_getLast_of_ne_nil hne
  by_cases hlc : xs.getLast hne = c
  · exact ⟨_, .running hcontrol hxs hl ((left_of_running hcontrol _).trans (if_pos hlc))⟩
  · obtain ⟨rest, hrest⟩ := remaining_of_parked code
      (hslice.parked _ (List.getLast_mem hne) hlc)
    exact ⟨_, .running hcontrol hxs hl ((left_of_running hcontrol _).trans ((if_neg hlc).trans hrest))⟩

/-- With a finished coroutine in the list the call is about to return. -/
theorem returns_of_finished (h : Listed s xs) (hphase : Phase s xs) (hcontrol : s.control = .waiting)
    (hp : p ∈ xs) (hfin : (s.coros p).isFinished = true) : Returns code s := by
  obtain ⟨t, hstep⟩ := go_isSome code (.inl hcontrol)
  obtain ⟨ys, hturn⟩ := turn_of_go h hphase hstep
  cases hturn with
  | empty _ _ hxs => exact absurd hp (by simp [hxs])
  | giveBack => exact returns_of_answer hstep rfl
  | handOver _ _ _ hall _ => exact absurd (hall p hp) (by simp [hfin])
  | act hrunning | new hrunning | yieldSched hrunning | yieldNext hrunning | ret hrunning =>
    rw [hcontrol] at hrunning
    cases hrunning

/-! ## Every step lowers the rank -/

theorem rank_handOver {ps : List Ptr} {rest : Prog σ κ Int} {r : Prog σ κ Int × Nat × Prog σ κ Int}
    (h : Listed s xs) (hcontrol : s.control = .waiting) (hxs : xs = p :: ps)
    (hrest : s.remaining code p = some rest) (hrank : Rank code s xs r) :
    ∃ r', Rank code (s.handOver xs p rest) xs r' ∧ Lower r' r := by
  cases hrank with
  | running hrunning =>
    rw [hcontrol] at hrunning
    cases hrunning
  | @waiting l last current _ hl hlast =>
    refine ⟨(last, ps.length, rest), .running rfl (show xs = [] ++ p :: ps from hxs) hl ?_,
      .right _ (.left _ _ ?_)⟩
    · rw [left_of_running rfl]
      rw [left_of_waiting hcontrol] at hlast
      split
      · next heq => rw [← hlast, heq, hrest]
      · have hsame : (s.handOver xs p rest).coros l = s.coros l :=
          handOver_of_ne (h.ne_sched (List.mem_of_getLast? hl))
        rw [← hlast]
        exact remaining_congr code (congrArg Coro.ctx hsame) (congrArg Coro.func hsame)
    · rw [hxs]
      exact Nat.lt_succ_self _

/-- An instruction of the running coroutine that lets it run on. -/
theorem rank_next {k k' : Prog σ κ Int} {r : Prog σ κ Int × Nat × Prog σ κ Int} (new : List Ptr)
    (hcontrol : s.control = .running c k) (hnext : Prog.Next k' k)
    (hcontrol' : t.control = .running c k')
    (hsame : ∀ p ∈ xs, t.remaining code p = s.remaining code p) (hrank : Rank code s xs r) :
    ∃ r', Rank code t (new ++ xs) r' ∧ Lower r' r := by
  cases hrank with
  | waiting hwaiting =>
    rw [hcontrol] at hwaiting
    cases hwaiting
  | @running c' l as after last current hrunning hxs hl hlast =>
    rw [hcontrol] at hrunning
    cases hrunning
    have hl' : (new ++ xs).getLast? = some l := by rw [List.getLast?_append, hl]; rfl
    have hxs' : new ++ xs = (new ++ as) ++ c :: after := by rw [hxs, List.append_assoc]
    rw [left_of_running hcontrol] at hlast
    by_cases hlc : l = c
    · rw [if_pos hlc] at hlast
      cases hlast
      exact ⟨(k', after.length, k'), .running hcontrol' hxs' hl'
        ((left_of_running hcontrol' l).trans (if_pos hlc)), .left _ _ hnext⟩
    · rw [if_neg hlc, ← hsame l (List.mem_of_getLast? hl)] at hlast
      exact ⟨(last, after.length, k'), .running hcontrol' hxs' hl'
        ((left_of_running hcontrol' l).trans ((if_neg hlc).trans hlast)),
        .right _ (.right _ hnext)⟩

/-- The last coroutine has had its slice. -/
theorem rank_yieldSched {k : Prog σ κ Int} {r : Prog σ κ Int × Nat × Prog σ κ Int}
    (hcontrol : s.control = .running c (.yield k)) (hlast : xs.getLast? = some c)
    (hcontrol' : t.control = .waiting) (hrest : t.remaining code c = some k)
    (hrank : Rank code s xs r) : ∃ r', Rank code t xs r' ∧ Lower r' r := by
  cases hrank with
  | waiting hwaiting =>
    rw [hcontrol] at hwaiting
    cases hwaiting
  | @running c' l as after last current hrunning hxs hl hleft =>
    rw [hcontrol] at hrunning
    cases hrunning
    obtain rfl : c = l := by rw [hlast] at hl; exact Option.some.inj hl
    rw [left_of_running hcontrol, if_pos rfl] at hleft
    cases hleft
    exact ⟨(k, xs.length, k), .waiting hcontrol' hlast ((left_of_waiting hcontrol' c).trans hrest),
      .left _ _ (.yield k)⟩

/-- A slice of the round is over. -/
theorem rank_yieldNext {k rest : Prog σ κ Int} {r : Prog σ κ Int × Nat × Prog σ κ Int}
    {as bs : List Ptr} (hnodup : xs.Nodup) (hcontrol : s.control = .running c (.yield k))
    (hxs : xs = as ++ c :: p :: bs) (hrest : s.remaining code p = some rest)
    (hcontrol' : t.control = .running p rest)
    (hsame : ∀ q, q ≠ c → t.remaining code q = s.remaining code q) (hrank : Rank code s xs r) :
    ∃ r', Rank code t xs r' ∧ Lower r' r := by
  cases hrank with
  | waiting hwaiting =>
    rw [hcontrol] at hwaiting
    cases hwaiting
  | @running c' l as' after last current hrunning hxs' hl hlast =>
    rw [hcontrol] at hrunning
    cases hrunning
    have hc : c ∉ as' ++ after := by
      rw [hxs'] at hnodup
      exact (List.nodup_cons.mp (List.nodup_middle.mp hnodup)).1
    rw [List.mem_append, not_or] at hc
    obtain ⟨-, -, rfl⟩ := (List.append_cons_inj_of_notMem hc.1 hc.2).mp (hxs'.symm.trans hxs)
    -- The last of the list has no next coroutine, so the one that yields is not it.
    have hlc : l ≠ c := by
      rintro rfl
      have hmem : l ∈ p :: bs := by
        rw [hxs, List.getLast?_append, List.getLast?_cons_cons] at hl
        rw [List.getLast?_eq_getLast_of_ne_nil (List.cons_ne_nil p bs)] at hl
        obtain rfl : (p :: bs).getLast _ = l := Option.some.inj hl
        exact List.getLast_mem _
      exact hc.2 hmem
    rw [left_of_running hcontrol, if_neg hlc] at hlast
    have hxs'' : xs = (as ++ [c]) ++ p :: bs := by rw [hxs, List.append_cons]
    refine ⟨(last, bs.length, rest), .running hcontrol' hxs'' hl ?_,
      .right _ (.left _ _ (Nat.lt_succ_self _))⟩
    rw [left_of_running hcontrol']
    split
    · next heq => rw [← hlast, heq, hrest]
    · rw [hsame l hlc, hlast]

/-- From every state with a rank the call returns. -/
theorem returns_of_rank (r : Prog σ κ Int × Nat × Prog σ κ Int) :
    ∀ {s : State σ κ} {xs : List Ptr}, Listed s xs → Phase s xs → Rank code s xs r →
      Returns code s := by
  induction r using lower_wellFounded.induction with
  | h r ih =>
    intro s xs h hphase hrank
    have hcontrol : s.control = .waiting ∨ ∃ c rest, s.control = .running c rest := by
      cases hrank with
      | waiting hcontrol => exact .inl hcontrol
      | running hcontrol => exact .inr ⟨_, _, hcontrol⟩
    obtain ⟨t, hstep⟩ := go_isSome code hcontrol
    obtain ⟨ys, hturn⟩ := turn_of_go h hphase hstep
    obtain ⟨ht, hphase'⟩ := hturn.inv h
    have hlower : (∃ r', Rank code t ys r' ∧ Lower r' r) → Returns code s := fun ⟨r', hr, hlt⟩ =>
      .of_step hstep (ih r' hlt ht hphase' hr)
    cases hturn with
    | empty => exact returns_of_answer hstep rfl
    | giveBack => exact returns_of_answer hstep rfl
    | ret hrunning hslice =>
      refine .of_step hstep (returns_of_finished ht hphase' rfl hslice.mem ?_)
      exact (finish_self s _ _).1
    | handOver hwaiting _ hxs _ hrest => exact hlower (rank_handOver h hwaiting hxs hrest hrank)
    | act hrunning _ =>
      exact hlower (rank_next [] hrunning (.act _ _ _) rfl (fun _ _ => rfl) hrank)
    | @new c child k hrunning _ =>
      refine hlower (rank_next [.coro s.made] hrunning (.new _ _) rfl (fun p hp => ?_) hrank)
      -- the new coroutine is none of those in the list
      have hne := ((h.mem_iff p).mp hp).1.ne_made
      refine remaining_congr code ?_ ?_
      · exact (coroNew_field Coro.ctx (fun _ _ _ => rfl) s child p).trans (if_neg hne)
      · exact (coroNew_field Coro.func (fun _ _ _ => rfl) s child p).trans (if_neg hne)
    | @yieldSched c k hrunning _ hlast =>
      refine hlower (rank_yieldSched hrunning hlast rfl ?_ hrank)
      have hctx : ((s.park c (.yield c c k)).coros c).ctx = some (.yield c c k) := park_ctx_self
      simp only [State.remaining, hctx]
    | @yieldNext c p k rest fresh before after hrunning _ hround hopening _ hrest =>
      have hxs : xs = (fresh ++ before) ++ c :: p :: after := by
        rw [hround, hopening, List.append_assoc]
      refine hlower (rank_yieldNext h.chained.nodup hrunning hxs hrest rfl (fun q hq => ?_) hrank)
      have hsame : (s.park c (.yield c c k)).coros q = s.coros q := park_ctx_of_ne hq
      exact remaining_congr code (congrArg Coro.ctx hsame) (congrArg Coro.func hsame)

/-- Every call in progress returns. -/
theorem call_returns (h : Inv s)
    (hcontrol : s.control = .waiting ∨ ∃ c rest, s.control = .running c rest) :
    Returns code s := by
  obtain ⟨xs, hlisted, hphase⟩ := h
  have hrunning : ∀ {u : State σ κ} {ys : List Ptr} {c : Ptr} {rest : Prog σ κ Int},
      Listed u ys → Phase u ys → u.control = .running c rest → Returns code u := by
    intro u ys c rest hu hphase hcontrol
    have hslice : Slice u ys c := by
      unfold Phase at hphase
      rwa [hcontrol] at hphase
    obtain ⟨r, hrank⟩ := rank_running code hslice hcontrol
    exact returns_of_rank r hu hphase hrank
  rcases hcontrol with hwaiting | ⟨c, rest, hcontrol⟩
  · obtain ⟨t, hstep⟩ := go_isSome code (.inl hwaiting)
    obtain ⟨ys, hturn⟩ := turn_of_go hlisted hphase hstep
    obtain ⟨ht, hphase'⟩ := hturn.inv hlisted
    cases hturn with
    | empty => exact returns_of_answer hstep rfl
    | giveBack => exact returns_of_answer hstep rfl
    | handOver => exact .of_step hstep (hrunning ht hphase' rfl)
    | act hrun | new hrun | yieldSched hrun | yieldNext hrun | ret hrun =>
      rw [hwaiting] at hrun
      cases hrun
  · exact hrunning hlisted hphase hcontrol

end SystemProgramming.Libcoro
