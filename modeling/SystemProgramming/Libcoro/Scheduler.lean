import Mathlib
import SystemProgramming.Libcoro.Progress

/-!
# Safety of the scheduler

What holds in every reachable state of a program, whatever its coroutines do: about the list, about
the coroutine that runs, about the round of the scheduler and about what `coro_sched_wait` returns.
-/

namespace SystemProgramming.Libcoro

open Cooperative Runs

variable {σ κ : Type} {code : κ → Prog σ κ Int} {s t : State σ κ} {xs : List Ptr}

/-- `xs` is the list of the coroutines in the state `s`. -/
structure Safe (code : κ → Prog σ κ Int) (s : State σ κ) (xs : List Ptr) : Prop where
  chained : s.Chained xs
  nodup : xs.Nodup
  mem_iff : ∀ p, p ∈ xs ↔ s.Created p ∧ p ∉ s.returned
  running : ∀ c rest, s.control = .running c rest → s.coroThisPtr = some c ∧ c ∈ xs ∧
    (∀ p ∈ xs, (s.coros p).isFinished = false) ∧ s.isSchedWaiting = true
  canReturn : s.control ≠ .noPlaceToReturn
  valid : s.control ≠ .invalid
  /-- A round begins with the head of the list. -/
  handOver : ∀ t c rest, s.control = .waiting → step code s .go = some t →
    t.control = .running c rest → t.opening = xs ∧ t.slices = [c]
  /-- The slices of a round follow the list, from the head on. -/
  slices_prefix : s.slices <+: s.opening
  slices_nodup : s.slices.Nodup
  /-- During a round the list only gets new coroutines in front. -/
  round : ∀ c rest, s.control = .running c rest →
    s.slices.getLast? = some c ∧ ∃ fresh, xs = fresh ++ s.opening
  ended_nodup : (s.ended.map Prod.fst).Nodup
  returned_nodup : s.returned.Nodup
  returned_ended : ∀ p ∈ s.returned, (p, (s.coros p).ret) ∈ s.ended
  returned_step : ∀ a t, step code s a = some t → t.returned = s.returned ∨
    ∃ p, t.control = .user (some (some p)) ∧ t.returned = s.returned ++ [p]
  answer_some : ∀ p, s.control = .user (some (some p)) → s.returned.getLast? = some p
  answer_null : s.control = .user (some none) → ∀ p, s.Created p → p ∈ s.returned
  returns : s.control = .waiting ∨ (∃ c rest, s.control = .running c rest) → Returns code s

theorem slice_of_running {c : Ptr} {rest : Prog σ κ Int} (hphase : Phase s xs)
    (hcontrol : s.control = .running c rest) : Slice s xs c := by
  unfold Phase at hphase
  rwa [hcontrol] at hphase

theorem handOver_round {c : Ptr} {rest : Prog σ κ Int} (h : Listed s xs) (hphase : Phase s xs)
    (hcontrol : s.control = .waiting) (hstep : step code s .go = some t)
    (ht : t.control = .running c rest) : t.opening = xs ∧ t.slices = [c] := by
  obtain ⟨ys, hturn⟩ := turn_of_go h hphase hstep
  cases hturn with
  | empty => cases ht
  | giveBack => cases ht
  | handOver =>
    cases ht
    exact ⟨rfl, rfl⟩
  | act hrunning | new hrunning | yieldSched hrunning | yieldNext hrunning | ret hrunning =>
    rw [hcontrol] at hrunning
    cases hrunning

/-- Only an answer of the scheduler adds to what it has given back. -/
theorem returned_of_step {a : Action σ κ} (h : Listed s xs) (hphase : Phase s xs)
    (hstep : step code s a = some t) : t.returned = s.returned ∨
      ∃ p, t.control = .user (some (some p)) ∧ t.returned = s.returned ++ [p] := by
  rcases step_cases hstep with rfl | ⟨-, ⟨func, -, rfl⟩ | ⟨f, -, rfl⟩ | ⟨-, rfl⟩⟩
  · obtain ⟨ys, hturn⟩ := turn_of_go h hphase hstep
    cases hturn with
    | @giveBack as bs p => exact .inr ⟨p, rfl, rfl⟩
    | empty | handOver | act | new | yieldSched | yieldNext | ret => exact .inl rfl
  · exact .inl rfl
  · exact .inl rfl
  · exact .inl rfl

theorem safe_of_listed (code : κ → Prog σ κ Int) (h : Listed s xs) (hphase : Phase s xs) :
    Safe code s xs where
  chained := h.chained
  nodup := h.chained.nodup
  mem_iff := h.mem_iff
  running c rest hcontrol := by
    have hslice := slice_of_running hphase hcontrol
    exact ⟨hslice.this, hslice.mem, hslice.unfinished, hslice.waiting⟩
  canReturn hcontrol := by
    unfold Phase at hphase
    rwa [hcontrol] at hphase
  valid hcontrol := by
    unfold Phase at hphase
    rwa [hcontrol] at hphase
  handOver t c rest hcontrol hstep ht := handOver_round h hphase hcontrol hstep ht
  slices_prefix := h.slices_prefix
  slices_nodup := h.opening_nodup.sublist h.slices_prefix.sublist
  round c rest hcontrol := by
    obtain ⟨fresh, before, after, hxs, -, hslices⟩ := (slice_of_running hphase hcontrol).round
    exact ⟨by rw [hslices, List.getLast?_concat], fresh, hxs⟩
  ended_nodup := h.ended_nodup
  returned_nodup := h.returned_nodup
  returned_ended p hp := by
    obtain ⟨hcreated, hfin⟩ := h.returned_finished p hp
    exact (h.ended_iff p _).mpr ⟨hcreated, hfin, rfl⟩
  returned_step a t hstep := returned_of_step h hphase hstep
  answer_some p hcontrol := by
    unfold Phase at hphase
    rw [hcontrol] at hphase
    exact hphase.2
  answer_null hcontrol p hp := by
    unfold Phase at hphase
    rw [hcontrol] at hphase
    -- a coroutine that has not been returned is in the list, which is empty
    by_contra hnot
    have hmem := (h.mem_iff p).mpr ⟨hp, hnot⟩
    rw [hphase.2] at hmem
    cases hmem
  returns := call_returns ⟨xs, h, hphase⟩

/-- The scheduler is safe in every reachable state. -/
theorem scheduler_safe (code : κ → Prog σ κ Int) (heap : Ptr → Coro σ κ) (memory : σ)
    (h : Reachable (Steps code) (State.coroSchedInit heap memory) s) : ∃ xs, Safe code s xs := by
  obtain ⟨xs, hlisted, hphase⟩ := inv_reachable h
  exact ⟨xs, safe_of_listed code hlisted hphase⟩

/-- Two functions, of which the first one yields and then makes a coroutine with the second. -/
def yieldThenNew : Bool → Prog Unit Bool Int
  | true => .yield (.new false (.ret 7))
  | false => .ret 8

theorem scheduler_safe_yieldThenNew :
    ∃ s xs, s.control = .user (some (some (.coro 0))) ∧ Safe yieldThenNew s xs := by
  have hrun : ∃ s, s.control = .user (some (some (.coro 0))) ∧ Reachable (Steps yieldThenNew)
      (State.coroSchedInit (fun _ => ⟨0, none, none, false, 0, none, none⟩) ()) s :=
    ⟨_, rfl, [.new true, .wait, .go, .go, .go, .go, .go, .go],
      .cons rfl (.cons rfl (.cons rfl (.cons rfl (.cons rfl (.cons rfl (.cons rfl (.cons rfl
        (.nil _))))))))⟩
  obtain ⟨s, hcontrol, hreach⟩ := hrun
  obtain ⟨xs, hsafe⟩ := scheduler_safe yieldThenNew _ () hreach
  exact ⟨s, xs, hcontrol, hsafe⟩

end SystemProgramming.Libcoro
