import SystemProgramming.Libcoro.Refinement

/-!
# Contracts of coroutines

When every coroutine keeps its contract, so does what a call of `coro_sched_wait` runs of them; and
when the call answers with NULL all of them have done what they had to do.
-/

namespace SystemProgramming.Libcoro

open Cooperative Runs

variable {σ κ : Type} {code : κ → Prog σ κ Int} {C : Contract σ} {I : σ → Prop} {n : Nat}
  {s t : State σ κ}

/-- There are `n` coroutines, which keep their contracts. -/
structure Under (code : κ → Prog σ κ Int) (C : Contract σ) (I : σ → Prop) (n : Nat)
    (s : State σ κ) : Prop where
  inv : Inv s
  kept : Kept C I (s.pool code)
  made : s.made = n

/-- What the first `n` coroutines promise keeps `I`. -/
def Promised (C : Contract σ) (I : σ → Prop) (n : Nat) : Prop :=
  ∀ i u v, i < n → C.guar i u v → I u → I v

theorem promised_invariant (I : σ → Prop) (n : Nat) : Promised (Contract.invariant I) I n :=
  fun _ _ _ _ h => h

theorem Under.go (h : Under code C I n s) (hI : Promised C I n) (hstep : step code s .go = some t) :
    Under code C I n t := by
  obtain ⟨hinv, hkept, rfl⟩ := h
  obtain ⟨xs, hlisted, hphase⟩ := hinv
  obtain ⟨ys, hturn⟩ := turn_of_go hlisted hphase hstep
  obtain ⟨hkept', hmade⟩ := hkept.steps hI (hturn.simulates hlisted)
  exact ⟨⟨ys, hturn.inv hlisted⟩, hkept', hmade⟩

theorem thread_bounded (code : κ → Prog σ κ Int) (s : State σ κ) (i : Nat) (th : Thread σ κ)
    (h : s.thread code i = some th) : i < s.made := by
  by_contra hge
  rw [State.thread, if_neg hge] at h
  cases h

/-- Before the first coroutine. -/
theorem Under.start (code : κ → Prog σ κ Int) (C : Contract σ) (heap : Ptr → Coro σ κ) {memory : σ}
    (hI : I memory) : Under code C I 0 (State.coroSchedInit heap memory) where
  inv := inv_start heap memory
  kept := by
    have hnone : ∀ i th, State.thread code (State.coroSchedInit heap memory) i ≠ some th :=
      fun i th h => Nat.not_lt_zero i (thread_bounded code _ i th h)
    exact ⟨⟨fun i _ _ h => absurd h (hnone i _), fun i _ _ h => absurd h (hnone i _),
      fun i _ h => absurd h (hnone i _)⟩, hI, thread_bounded code (State.coroSchedInit heap memory)⟩
  made := rfl

theorem pool_idle {answer : Option (Option Ptr)} (hcontrol : s.control = .user answer) :
    (s.pool code).current = none := by
  change s.current = none
  rw [State.current, hcontrol]

/-- The main function changes the memory, as every coroutine allows. -/
theorem Under.act {answer : Option (Option Ptr)} (h : Under code C I n s)
    (hcontrol : s.control = .user answer) {f : σ → σ} (hI : I (f s.memory))
    (hf : ∀ i, C.rely i s.memory (f s.memory)) :
    Under code C I n { s with memory := f s.memory, control := .user none } where
  inv := by
    have hstep : step code s (.act f) =
        some { s with memory := f s.memory, control := .user none } := by
      rw [step, hcontrol]
    exact inv_step h.inv hstep
  kept := by
    refine ⟨?_, hI, thread_bounded code _⟩
    rw [pool_act hcontrol]
    exact h.kept.guarded.touch (pool_idle hcontrol) hf
  made := h.made

/-- It makes a coroutine, whose function keeps its contract. -/
theorem Under.new {answer : Option (Option Ptr)} (h : Under code C I n s)
    (hcontrol : s.control = .user answer) {func : κ} {J : σ → Prop} (hJ : J s.memory)
    (hfunc : ∀ t, C.rely n s.memory t →
      (code func).Valid (C.rely n) (C.guar n) (C.post n) t) :
    Under code C J (n + 1) { s.coroNew func with control := .user none } where
  inv := by
    have hstep : step code s (.new func) = some { s.coroNew func with control := .user none } := by
      rw [step, hcontrol]
    exact inv_step h.inv hstep
  kept := by
    refine ⟨?_, hJ, thread_bounded code _⟩
    have hmade : (s.pool code).made = n := h.made
    rw [pool_new hcontrol]
    refine h.kept.guarded.create (pool_idle hcontrol) ?_
    rw [hmade]
    exact hfunc
  made := congrArg (· + 1) h.made

theorem Under.wait {answer : Option (Option Ptr)} (h : Under code C I n s)
    (hcontrol : s.control = .user answer) : Under code C I n { s with control := .waiting } where
  inv := by
    have hstep : step code s .wait = some { s with control := .waiting } := by
      rw [step, hcontrol]
    exact inv_step h.inv hstep
  kept := by
    rw [pool_wait hcontrol]
    exact h.kept
  made := h.made

/-! ## Answers -/

/-- Each answer but NULL is a coroutine more that was given back. -/
theorem go_answer {p : Ptr} (h : Inv s) (hstep : step code s .go = some t)
    (ht : t.control = .user (some (some p))) : t.returned = s.returned ++ [p] := by
  obtain ⟨xs, hlisted, hphase⟩ := h
  obtain ⟨ys, hturn⟩ := turn_of_go hlisted hphase hstep
  cases hturn with
  | giveBack =>
    cases ht
    rfl
  | empty | handOver | act | new | yieldSched | yieldNext | ret => cases ht

theorem returned_go (h : Inv s) (hstep : step code s .go = some t) :
    s.returned.length ≤ t.returned.length := by
  obtain ⟨xs, hlisted, hphase⟩ := h
  obtain ⟨ys, hturn⟩ := turn_of_go hlisted hphase hstep
  cases hturn with
  | giveBack =>
    change s.returned.length ≤ (s.returned ++ [_]).length
    rw [List.length_append]
    exact Nat.le_add_right _ _
  | empty | handOver | act | new | yieldSched | yieldNext | ret => exact le_refl _

/-- The call returns, and the coroutines have kept their contracts. -/
theorem Under.call (h : Under code C I n s) (hI : Promised C I n) (hcontrol : s.control = .waiting) :
    ∃ k t answer, Run (Steps code) s (List.replicate k .go) t ∧ t.control = .user (some answer) ∧
      Under code C I n t ∧ ∀ p, answer = some p → s.returned.length < t.returned.length := by
  have hreturns : Returns code s := call_returns h.inv (.inl hcontrol)
  obtain ⟨k, t, answer, hrun, ht⟩ := hreturns
  -- The contract holds at every step of the call, and no answer is taken back.
  have hunder : ∀ {m : Nat} {u : State σ κ}, Run (Steps code) s (List.replicate m .go) u →
      Under code C I n u ∧ s.returned.length ≤ u.returned.length := by
    intro m
    induction m with
    | zero =>
      intro u hu
      cases hu
      exact ⟨h, le_refl _⟩
    | succ m ih =>
      intro u hu
      rw [List.replicate_succ'] at hu
      obtain ⟨v, hv, hlast⟩ := run_snoc_iff.mp hu
      obtain ⟨hunder, hle⟩ := ih hv
      exact ⟨hunder.go hI hlast, hle.trans (returned_go hunder.inv hlast)⟩
  refine ⟨k, t, answer, hrun, ht, (hunder hrun).1, ?_⟩
  rintro p rfl
  cases k with
  | zero =>
    cases hrun
    rw [hcontrol] at ht
    cases ht
  | succ k =>
    rw [List.replicate_succ'] at hrun
    obtain ⟨u, hu, hlast⟩ := run_snoc_iff.mp hrun
    obtain ⟨hu', hle⟩ := hunder hu
    rw [go_answer hu'.inv hlast ht, List.length_append]
    exact Nat.lt_succ_of_le hle

/-- After NULL every coroutine has returned with what its contract says. -/
theorem Under.finished (h : Under code C I n s) (hcontrol : s.control = .user (some none)) {i : Nat}
    (hi : i < n) : (s.coros (.coro i)).isFinished = true ∧
      C.post i (s.coros (.coro i)).ret s.memory := by
  obtain ⟨⟨xs, hlisted, hphase⟩, hkept, rfl⟩ := h
  have hnil : xs = [] := by
    unfold Phase at hphase
    rw [hcontrol] at hphase
    exact hphase.2
  have hcreated : s.Created (.coro i) := ⟨i, hi, rfl⟩
  have hreturned : Ptr.coro i ∈ s.returned := by
    by_contra hnot
    have hmem := (hlisted.mem_iff (.coro i)).mpr ⟨hcreated, hnot⟩
    rw [hnil] at hmem
    cases hmem
  have hfin := (hlisted.returned_finished _ hreturned).2
  refine ⟨hfin, hkept.guarded.ended i _ ?_⟩
  change s.thread code i = _
  rw [State.thread, if_pos hi, if_pos hfin]

end SystemProgramming.Libcoro
