import SystemProgramming.Libcoro.Switches

/-!
# The scheduler is fair

Within a call of `coro_sched_wait` the coroutines have their slices in turn.  `Rounds` is what holds
of the counters all along the call: every coroutine of the list has given way once in each round that
is over, and those before the running one have once more.
-/

namespace SystemProgramming.Libcoro

open Cooperative Runs

variable {σ κ : Type} {code : κ → Prog σ κ Int} {s t u : State σ κ} {c p q : Ptr} {xs ys zs : List Ptr}

/-! ## The order of the list -/

/-- `p` was made after `q`. -/
def Younger : Ptr → Ptr → Prop
  | .coro n, .coro m => m < n
  | _, _ => False

/-- A state has one list only. -/
theorem Listed.unique (h : Listed s xs) (h' : Listed s ys) : xs = ys := by
  rw [← State.along_eq h.chained h.length_le, ← State.along_eq h'.chained h'.length_le]

/-- A step takes something out of the list or puts the coroutine that it makes in front. -/
theorem listed_step {a : Action σ κ} (h : Listed s xs) (hphase : Phase s xs)
    (hstep : step code s a = some t) :
    ∃ ys, Listed t ys ∧ Phase t ys ∧ (ys.Sublist xs ∨ ys = .coro s.made :: xs) := by
  obtain ⟨ys, ht, hphase'⟩ := inv_step ⟨xs, h, hphase⟩ hstep
  refine ⟨ys, ht, hphase', ?_⟩
  have hsame : ∀ {u : State σ κ} {zs : List Ptr}, Listed u zs → t.coroList = u.coroList →
      t.made = u.made → t.ended = u.ended → t.returned = u.returned → t.coros = u.coros →
      t.opening = u.opening → t.slices = u.slices → ys = zs := by
    intro u zs hu hlist hmade hended hreturned hcoros hopening hslices
    refine ht.unique (hu.congr hlist hmade hended hreturned (fun _ => hcoros ▸ ⟨rfl, rfl⟩)
      (fun _ => hcoros ▸ ⟨rfl, rfl⟩) ?_ ?_)
    · rw [hopening]
      exact hu.opening_nodup
    · rw [hopening, hslices]
      exact hu.slices_prefix
  rcases step_cases hstep with rfl | ⟨-, hcase⟩
  · obtain ⟨zs, hturn⟩ := turn_of_go h hphase hstep
    obtain rfl : ys = zs := ht.unique (hturn.inv h).1
    cases hturn with
    | giveBack _ _ hxs =>
      rw [hxs]
      exact .inl (.append_left (List.sublist_cons_self _ _) _)
    | new => exact .inr rfl
    | empty | handOver | act | yieldSched | yieldNext | ret => exact .inl (.refl _)
  · obtain ⟨func, -, rfl⟩ | ⟨f, -, rfl⟩ | ⟨-, rfl⟩ := hcase
    · exact .inr (hsame (h.coroNew func) rfl rfl rfl rfl rfl rfl rfl)
    · exact .inl (hsame h rfl rfl rfl rfl rfl rfl rfl ▸ .refl _)
    · exact .inl (hsame h rfl rfl rfl rfl rfl rfl rfl ▸ .refl _)

/-- The list has the youngest coroutine first. -/
theorem list_ordered {heap : Ptr → Coro σ κ} {memory : σ}
    (h : Reachable (Steps code) (State.coroSchedInit heap memory) s) :
    ∃ xs, Listed s xs ∧ Phase s xs ∧ xs.Pairwise Younger := by
  refine h.invariant (P := fun s => ∃ xs, Listed s xs ∧ Phase s xs ∧ xs.Pairwise Younger) ?_ ?_
  · obtain ⟨xs, hlisted, hphase⟩ := inv_start (κ := κ) heap memory
    have hnil : xs = [] := List.eq_nil_of_length_eq_zero (Nat.le_zero.mp hlisted.length_le)
    exact ⟨xs, hlisted, hphase, hnil ▸ List.Pairwise.nil⟩
  · rintro s a t ⟨xs, hlisted, hphase, horder⟩ hstep
    obtain ⟨ys, hlisted', hphase', hsub | rfl⟩ := listed_step hlisted hphase hstep
    · exact ⟨ys, hlisted', hphase', horder.sublist hsub⟩
    · refine ⟨_, hlisted', hphase', List.pairwise_cons.mpr ⟨fun p hp => ?_, horder⟩⟩
      obtain ⟨n, hn, rfl⟩ := hlisted.exists_coro hp
      exact hn

/-! ## Rounds -/

/-- Where a call is that began in `s` with the list `xs`: in `t`, with the list `ys`, `r` rounds are
over and in this one the coroutines `before` have given way. -/
structure Round (s : State σ κ) (xs : List Ptr) (t : State σ κ) (ys : List Ptr) (r : Int)
    (fresh before after : List Ptr) : Prop where
  split : before ++ after = fresh ++ xs
  nodup : (fresh ++ xs).Nodup
  count : ∀ p ∈ xs, t.coroSwitchCount p = s.coroSwitchCount p + r + if p ∈ before then 1 else 0
  running : ∀ c rest, t.control = .running c rest →
    t.opening = fresh ++ xs ∧ t.slices = before ++ [c]
  waiting : t.control = .waiting →
    before = [] ∧ ys = fresh ++ xs ∨ ∃ p ∈ ys, (t.coros p).isFinished = true

def Rounds (s : State σ κ) (xs : List Ptr) (t : State σ κ) (ys : List Ptr) : Prop :=
  ∃ r fresh before after, Round s xs t ys r fresh before after

theorem Turn.made_le (hturn : Turn code t ys u zs) : t.made ≤ u.made := by
  cases hturn with
  | new => exact Nat.le_succ _
  | empty | giveBack | handOver | act | yieldSched | yieldNext | ret => exact le_refl _

/-- The counter of a coroutine after a step. -/
theorem Turn.count (h : Listed t ys) (hturn : Turn code t ys u zs) {n : Nat} (hn : n < t.made) :
    u.coroSwitchCount (.coro n) =
      t.coroSwitchCount (.coro n) + if t.yielding = some n then 1 else 0 := by
  have heq := hturn.switches h n
  rwa [State.switches, State.switches, if_pos hn, if_pos (hn.trans_le hturn.made_le)] at heq

/-- A step in which no coroutine gives way. -/
theorem Turn.count_still (h : Listed t ys) (hturn : Turn code t ys u zs)
    (hyielding : t.yielding = none) (hp : t.Created p) :
    u.coroSwitchCount p = t.coroSwitchCount p := by
  obtain ⟨n, hn, rfl⟩ := hp
  rw [hturn.count h hn, hyielding, if_neg nofun, Int.add_zero]

/-- A step in which `c` gives way. -/
theorem Turn.count_yield {k : Prog σ κ Int} (h : Listed t ys) (hturn : Turn code t ys u zs)
    (hcontrol : t.control = .running c (.yield k)) (hc : c ∈ ys) (hp : t.Created p) :
    u.coroSwitchCount p = t.coroSwitchCount p + if p = c then 1 else 0 := by
  obtain ⟨n, hn, rfl⟩ := hp
  obtain ⟨i, -, rfl⟩ := h.exists_coro hc
  rw [hturn.count h hn, State.yielding, hcontrol]
  simp only [Option.some.injEq, Ptr.coro.injEq, eq_comm]

theorem Listed.notMem_of_opening {before after : List Ptr} (h : Listed t ys)
    (hopening : t.opening = before ++ c :: after) : c ∉ before ∧ c ∉ after := by
  have hnodup := h.opening_nodup
  rw [hopening, List.nodup_middle, List.nodup_cons, List.mem_append, not_or] at hnodup
  exact hnodup.1

/-- Every step of the call goes on with the round or begins the next one. -/
theorem Turn.rounds (h : Listed t ys) (hturn : Turn code t ys u zs) (hxs : ∀ p ∈ xs, t.Created p)
    (hrounds : Rounds s xs t ys) : Rounds s xs u zs := by
  obtain ⟨r, fresh, before, after, hround⟩ := hrounds
  -- the counters of a step that leaves the place in the round
  have hstill : t.yielding = none → ∀ p ∈ xs, u.coroSwitchCount p =
      s.coroSwitchCount p + r + if p ∈ before then 1 else 0 := by
    intro hyielding p hp
    rw [hturn.count_still h hyielding (hxs p hp), hround.count p hp]
  have hturn' := hturn
  cases hturn with
  | empty hcontrol =>
    exact ⟨r, fresh, before, after, hround.split, hround.nodup, hstill (yielding_of_waiting hcontrol),
      nofun, nofun⟩
  | giveBack hcontrol =>
    exact ⟨r, fresh, before, after, hround.split, hround.nodup, hstill (yielding_of_waiting hcontrol),
      nofun, nofun⟩
  | @handOver p ps rest hcontrol hidle hys hall =>
    obtain ⟨rfl, hys'⟩ | ⟨q, hq, hfin⟩ := hround.waiting hcontrol
    · refine ⟨r, fresh, [], after, hround.split, hround.nodup, hstill (yielding_of_waiting hcontrol), ?_,
        nofun⟩
      rintro c rest' ⟨⟩
      exact ⟨hys', rfl⟩
    -- the scheduler does not hand over while a coroutine is finished
    · rw [hall q hq] at hfin
      cases hfin
  | @act c f k hcontrol =>
    refine ⟨r, fresh, before, after, hround.split, hround.nodup,
      hstill (yielding_of_running hcontrol rfl), ?_, nofun⟩
    rintro c' rest ⟨⟩
    exact hround.running c _ hcontrol
  | @new c child k hcontrol =>
    refine ⟨r, fresh, before, after, hround.split, hround.nodup,
      hstill (yielding_of_running hcontrol rfl), ?_, nofun⟩
    rintro c' rest ⟨⟩
    exact hround.running c _ hcontrol
  | @yieldSched c k hcontrol hslice hlast =>
    obtain ⟨hopening, hslices⟩ := hround.running c _ hcontrol
    obtain ⟨front, before', after', hys, hopening', hslices'⟩ := hslice.round
    obtain rfl : before' = before := by
      rw [hslices] at hslices'
      exact (List.append_inj_left' hslices' rfl).symm
    -- the last one of the list is the last one of the round
    have hnil : after' = [] := by
      by_contra hne
      have hmem : c ∈ after' := by
        rw [hys, hopening', List.getLast?_append, List.getLast?_append,
          List.getLast?_cons, List.getLast?_eq_getLast_of_ne_nil hne] at hlast
        exact Option.some.inj hlast ▸ List.getLast_mem hne
      exact (h.notMem_of_opening hopening').2 hmem
    have hall : ∀ p ∈ xs, p ∈ before' ∨ p = c := by
      intro p hp
      have hmem : p ∈ t.opening := by
        rw [hopening]
        exact List.mem_append_right _ hp
      rw [hopening', hnil] at hmem
      simpa using hmem
    have hsplit : ys = (front ++ fresh) ++ xs := by rw [hys, hopening, List.append_assoc]
    refine ⟨r + 1, front ++ fresh, [], ys, hsplit, hsplit ▸ h.chained.nodup, fun p hp => ?_, nofun,
      fun _ => .inl ⟨rfl, hsplit⟩⟩
    · rw [hturn'.count_yield h hcontrol hslice.mem (hxs p hp), hround.count p hp,
        if_neg (List.not_mem_nil)]
      have hc := (h.notMem_of_opening hopening').1
      rcases hall p hp with hmem | rfl
      · rw [if_pos hmem, if_neg (ne_of_mem_of_not_mem hmem hc)]
        omega
      · rw [if_neg hc, if_pos rfl]
        omega
  | @yieldNext c p k rest front before' after' hcontrol hslice hys hopening' hslices' =>
    obtain ⟨hopening, hslices⟩ := hround.running c _ hcontrol
    obtain rfl : before' = before := by
      rw [hslices] at hslices'
      exact (List.append_inj_left' hslices' rfl).symm
    refine ⟨r, fresh, before' ++ [c], p :: after', ?_, hround.nodup, fun q hq => ?_, ?_, nofun⟩
    · rw [← hopening, hopening', List.append_assoc]
      rfl
    · rw [hturn'.count_yield h hcontrol hslice.mem (hxs q hq), hround.count q hq]
      have hc := (h.notMem_of_opening hopening').1
      by_cases hqc : q = c
      · subst hqc
        simp [hc]
      · simp [hqc]
    · rintro c' rest' ⟨⟩
      exact ⟨hopening, by rw [hslices]⟩
  | @ret c v hcontrol hslice =>
    exact ⟨r, fresh, before, after, hround.split, hround.nodup,
      hstill (yielding_of_running hcontrol rfl), nofun, fun _ => .inr ⟨c, hslice.mem, (finish_self t c v).1⟩⟩

/-! ## A call -/

theorem rounds_start (h : Listed s xs) (hcontrol : s.control = .waiting) : Rounds s xs s xs := by
  refine ⟨0, [], [], xs, rfl, h.chained.nodup, fun p _ => ?_, fun c rest hrunning => ?_,
    fun _ => .inl ⟨rfl, rfl⟩⟩
  · rw [if_neg List.not_mem_nil]
    omega
  · rw [hcontrol] at hrunning
    cases hrunning

theorem rounds_run {k : Nat} (h : Listed t ys) (hphase : Phase t ys) (hxs : ∀ p ∈ xs, t.Created p)
    (hrounds : Rounds s xs t ys) (hrun : Run (Steps code) t (List.replicate k .go) u) :
    ∃ zs, Rounds s xs u zs := by
  induction k generalizing t ys with
  | zero =>
    cases hrun
    exact ⟨ys, hrounds⟩
  | succ k ih =>
    cases hrun with
    | cons hstep hrest =>
      obtain ⟨zs, hturn⟩ := turn_of_go h hphase hstep
      obtain ⟨h', hphase'⟩ := hturn.inv h
      refine ih h' hphase' (fun p hp => ?_) (hturn.rounds h hxs hrounds) hrest
      obtain ⟨n, hn, rfl⟩ := hxs p hp
      exact ⟨n, hn.trans_le hturn.made_le, rfl⟩

/-- The coroutines that have given way in this round are the first ones. -/
theorem Round.mem_before {r : Int} {fresh before after as bs : List Ptr}
    (h : Round s xs t ys r fresh before after) (hxs : xs = as ++ q :: bs) (hp : p ∈ bs)
    (hbefore : p ∈ before) : q ∈ before := by
  have hsplit : before ++ after = (fresh ++ as ++ [q]) ++ bs := by
    rw [h.split, hxs]
    simp
  have hnodup : ((fresh ++ as ++ [q]) ++ bs).Nodup := by
    rw [← hsplit, h.split]
    exact h.nodup
  obtain ⟨mid, heq, -⟩ | ⟨mid, heq, -⟩ := List.append_eq_append_iff.mp hsplit
  · have hmem : p ∈ fresh ++ as ++ [q] := heq ▸ List.mem_append_left mid hbefore
    exact absurd rfl ((List.nodup_append.mp hnodup).2.2 p hmem p hp)
  · rw [heq]
    simp

/-- Of two coroutines of the list the younger one stands in front. -/
theorem younger_first {m n : Nat} (horder : xs.Pairwise Younger) (hmn : m < n)
    (hm : .coro m ∈ xs) (hn : .coro n ∈ xs) : ∃ as bs, xs = as ++ .coro n :: bs ∧ .coro m ∈ bs := by
  obtain ⟨as, bs, rfl⟩ := List.append_of_mem hn
  refine ⟨as, bs, rfl, ?_⟩
  rcases List.mem_append.mp hm with hfront | hback
  · have hyounger : n < m := (List.pairwise_append.mp horder).2.2 _ hfront _ List.mem_cons_self
    omega
  · rcases List.mem_cons.mp hback with heq | hmem
    · cases heq
      omega
    · exact hmem

/-- As far as a call of `coro_sched_wait` has come, of two coroutines that were there at its
beginning the younger one has given way as often in it as the older one, or once more. -/
theorem slices_in_turn {heap : Ptr → Coro σ κ} {memory : σ} {m n k : Nat}
    (h : Reachable (Steps code) (State.coroSchedInit heap memory) s)
    (hcontrol : s.control = .waiting) (hrun : Run (Steps code) s (List.replicate k .go) t)
    (hmn : m < n) (hmade : n < s.made) (hm : .coro m ∉ s.returned) (hn : .coro n ∉ s.returned) :
    t.coroSwitchCount (.coro m) - s.coroSwitchCount (.coro m) ≤
        t.coroSwitchCount (.coro n) - s.coroSwitchCount (.coro n) ∧
      t.coroSwitchCount (.coro n) - s.coroSwitchCount (.coro n) ≤
        t.coroSwitchCount (.coro m) - s.coroSwitchCount (.coro m) + 1 := by
  obtain ⟨xs, hlisted, hphase, horder⟩ := list_ordered h
  have hm' : .coro m ∈ xs := (hlisted.mem_iff _).mpr ⟨⟨m, hmn.trans hmade, rfl⟩, hm⟩
  have hn' : .coro n ∈ xs := (hlisted.mem_iff _).mpr ⟨⟨n, hmade, rfl⟩, hn⟩
  obtain ⟨ys, r, fresh, before, after, hround⟩ := rounds_run hlisted hphase
    (fun p hp => ((hlisted.mem_iff p).mp hp).1) (rounds_start hlisted hcontrol) hrun
  obtain ⟨as, bs, hxs, hmem⟩ := younger_first horder hmn hm' hn'
  have hfirst := hround.mem_before hxs hmem
  rw [hround.count _ hm', hround.count _ hn']
  by_cases hbefore : Ptr.coro m ∈ before
  · rw [if_pos hbefore, if_pos (hfirst hbefore)]
    omega
  · rw [if_neg hbefore]
    split <;> omega

theorem slices_in_turn_countBetween :
    ∃ s t : State Nat Unit, s.coroSwitchCount (.coro 1) = 0 ∧ t.coroSwitchCount (.coro 1) = 2 ∧
      1 ≤ t.coroSwitchCount (.coro 0) := by
  have hrun : ∃ s t, s.control = .waiting ∧ s.returned = [] ∧ s.made = 2 ∧
      s.coroSwitchCount (.coro 0) = 0 ∧ s.coroSwitchCount (.coro 1) = 0 ∧
      t.coroSwitchCount (.coro 1) = 2 ∧
      Reachable (Steps countBetween)
        (State.coroSchedInit (fun _ => ⟨0, none, none, false, 0, none, none⟩) 0) s ∧
      Run (Steps countBetween) s (List.replicate 6 .go) t :=
    ⟨_, _, rfl, rfl, rfl, rfl, rfl, rfl,
      ⟨[.new (), .new (), .wait], .cons rfl (.cons rfl (.cons rfl (.nil _)))⟩,
      .cons rfl (.cons rfl (.cons rfl (.cons rfl (.cons rfl (.cons rfl (.nil _))))))⟩
  obtain ⟨s, t, hcontrol, hreturned, hmade, hzero, hone, htwo, hreach, hgo⟩ := hrun
  have hfair := slices_in_turn hreach hcontrol hgo (m := 0) (n := 1) (by omega) (by omega)
    (by rw [hreturned]; exact List.not_mem_nil) (by rw [hreturned]; exact List.not_mem_nil)
  exact ⟨s, t, hone, htwo, by omega⟩

end SystemProgramming.Libcoro
