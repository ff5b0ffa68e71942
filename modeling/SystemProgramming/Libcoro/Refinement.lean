import Mathlib
import SystemProgramming.Libcoro.Progress

/-!
# The library implements cooperative threads

`pool` forgets the list, the saved contexts and the pointers of the library: what is left is the
machine of cooperative threads, with the functions of the coroutines as its threads.  Every step of
the library is a step of that machine, two of them or none.
-/

namespace SystemProgramming.Libcoro

open Cooperative Runs

variable {σ κ : Type} {code : κ → Prog σ κ Int} {s t : State σ κ} {c p : Ptr} {xs ys : List Ptr}

namespace State

def thread (code : κ → Prog σ κ Int) (s : State σ κ) (n : Nat) : Option (Thread σ κ) :=
  if n < s.made then
    if (s.coros (.coro n)).isFinished then some (.ended (s.coros (.coro n)).ret)
    else (s.left code (.coro n)).map .ready
  else none

def current (s : State σ κ) : Option Nat :=
  match s.control with
  | .running (.coro n) _ => some n
  | _ => none

/-- The coroutine whose next instruction is a yield. -/
def yielding (s : State σ κ) : Option Nat :=
  match s.control with
  | .running (.coro n) (.yield _) => some n
  | _ => none

def pool (code : κ → Prog σ κ Int) (s : State σ κ) : Pool σ κ where
  memory := s.memory
  threads := s.thread code
  made := s.made
  current := s.current

end State

/-- A thread does not change with the fields that it is not about. -/
theorem thread_congr {n : Nat} (hmade : t.made = s.made)
    (hfin : (t.coros (.coro n)).isFinished = (s.coros (.coro n)).isFinished)
    (hret : (t.coros (.coro n)).ret = (s.coros (.coro n)).ret)
    (hleft : t.left code (.coro n) = s.left code (.coro n)) : t.thread code n = s.thread code n := by
  rw [State.thread, State.thread, hmade, hfin, hret, hleft]

theorem thread_ready {n : Nat} {rest : Prog σ κ Int} (hn : n < s.made)
    (hfin : (s.coros (.coro n)).isFinished = false) (hleft : s.left code (.coro n) = some rest) :
    s.thread code n = some (.ready rest) := by
  simp [State.thread, hn, hfin, hleft]

theorem left_of_user {answer : Option (Option Ptr)} (h : s.control = .user answer) (p : Ptr) :
    s.left code p = s.remaining code p := by
  rw [State.left, h]

theorem current_of_running {n : Nat} {rest : Prog σ κ Int}
    (h : s.control = .running (.coro n) rest) : s.current = some n := by
  rw [State.current, h]

theorem current_of_user {answer : Option (Option Ptr)} (h : s.control = .user answer) :
    s.current = none := by
  rw [State.current, h]

theorem current_of_waiting (h : s.control = .waiting) : s.current = none := by
  rw [State.current, h]

/-- One thread has changed. -/
theorem pool_set {n : Nat} {th : Thread σ κ} {current : Option Nat} (hmade : t.made = s.made)
    (hcurrent : t.current = current) (hn : t.thread code n = some th)
    (hothers : ∀ m, m ≠ n → t.thread code m = s.thread code m) :
    t.pool code = { (s.pool code).setThread n th with memory := t.memory, current := current } := by
  refine Pool.ext rfl (funext fun m => ?_) hmade hcurrent
  change t.thread code m = Function.update (s.thread code) n (some th) m
  by_cases hm : m = n
  · rw [hm, hn, Function.update_self]
  · rw [hothers m hm, Function.update_of_ne hm]

/-- The coroutine `n` comes in where none was running. -/
theorem pool_pick {n : Nat} {rest : Prog σ κ Int} (hmade : t.made = s.made)
    (hmemory : t.memory = s.memory) (hcoros : ∀ m, t.coros (.coro m) = s.coros (.coro m))
    (hidle : s.current = none) (hleft : ∀ p, s.left code p = s.remaining code p)
    (hcontrol : t.control = .running (.coro n) rest)
    (hrest : s.remaining code (.coro n) = some rest) (hn : n < s.made)
    (hfin : (s.coros (.coro n)).isFinished = false) : Pool.Step code (s.pool code) (t.pool code) := by
  have heq : t.pool code = { s.pool code with current := some n } := by
    refine Pool.ext hmemory (funext fun m => ?_) hmade ?_
    · refine thread_congr hmade (by rw [hcoros]) (by rw [hcoros]) ?_
      rw [left_of_running hcontrol, hleft]
      split
      · next hmn => rw [hmn, hrest]
      · exact remaining_congr code (by rw [hcoros]) (by rw [hcoros])
    · exact current_of_running hcontrol
  rw [heq]
  exact .pick hidle (thread_ready hn hfin ((hleft _).trans hrest))

/-! ## Steps outside the call -/

theorem thread_coroNew {func : κ} {n : Nat} (hn : n ≠ s.made)
    (hleft : s.left code (.coro n) = s.remaining code (.coro n))
    (hleft' : t.left code (.coro n) = t.remaining code (.coro n))
    (hcoros : t.coros = (s.coroNew func).coros) (hmade : t.made = s.made + 1) :
    t.thread code n = s.thread code n := by
  have hne : Ptr.coro s.made ≠ .coro n := fun heq => hn (by cases heq; rfl)
  have hlt : n < s.made + 1 ↔ n < s.made := by omega
  have hremaining : t.remaining code (.coro n) = s.remaining code (.coro n) := by
    refine remaining_congr code ?_ ?_
    · rw [hcoros, coroNew_field Coro.ctx (fun _ _ _ => rfl), if_neg hne]
    · rw [hcoros, coroNew_field Coro.func (fun _ _ _ => rfl), if_neg hne]
  rw [State.thread, State.thread, hleft', hleft, hremaining, hmade, hcoros,
    coroNew_field Coro.isFinished (fun _ _ _ => rfl), if_neg hne,
    coroNew_field Coro.ret (fun _ _ _ => rfl), if_neg hne]
  simp only [hlt]

/-- The coroutine that was made is ready to run its function. -/
theorem thread_coroNew_made {func : κ}
    (hleft' : t.left code (.coro s.made) = t.remaining code (.coro s.made))
    (hcoros : t.coros = (s.coroNew func).coros) (hmade : t.made = s.made + 1) :
    t.thread code s.made = some (.ready (code func)) := by
  refine thread_ready (by omega) ?_ ?_
  · rw [hcoros, coroNew_field Coro.isFinished (fun _ _ _ => rfl), if_pos rfl]
  · have hctx : (t.coros (.coro s.made)).ctx = some (.body (.coro s.made)) := by
      rw [hcoros, coroNew_field Coro.ctx (fun _ _ _ => rfl), if_pos rfl]
    have hfunc : (t.coros (.coro s.made)).func = some func := by
      rw [hcoros, coroNew_field Coro.func (fun _ _ _ => rfl), if_pos rfl]
    rw [hleft', State.remaining, hctx]
    exact congrArg (Option.map code) hfunc

theorem pool_new {func : κ} {answer : Option (Option Ptr)} (hcontrol : s.control = .user answer) :
    State.pool code { s.coroNew func with control := .user none } =
      (s.pool code).create (code func) := by
  refine Pool.ext rfl (funext fun m => ?_) rfl (current_of_user hcontrol).symm
  change State.thread code _ m = Function.update (s.thread code) s.made _ m
  by_cases hm : m = s.made
  · rw [hm, Function.update_self]
    exact thread_coroNew_made rfl rfl rfl
  · rw [Function.update_of_ne hm]
    exact thread_coroNew hm (left_of_user hcontrol _) rfl rfl rfl

theorem pool_act {f : σ → σ} {answer : Option (Option Ptr)} (hcontrol : s.control = .user answer) :
    State.pool code { s with memory := f s.memory, control := .user none } =
      (s.pool code).touch f := by
  refine Pool.ext rfl (funext fun m => ?_) rfl (current_of_user hcontrol).symm
  exact thread_congr rfl rfl rfl (left_of_user hcontrol _).symm

theorem pool_wait {answer : Option (Option Ptr)} (hcontrol : s.control = .user answer) :
    State.pool code { s with control := .waiting } = s.pool code := by
  refine Pool.ext rfl (funext fun m => ?_) rfl (current_of_user hcontrol).symm
  exact thread_congr rfl rfl rfl (left_of_user hcontrol _).symm

/-! ## Steps inside the call -/

theorem Listed.exists_coro (h : Listed s xs) (hp : p ∈ xs) : ∃ n < s.made, p = .coro n :=
  ((h.mem_iff p).mp hp).1

/-- The other threads while `n` runs. -/
theorem thread_other {n m : Nat} {k : Prog σ κ Int} (hcontrol : s.control = .running (.coro n) k)
    (hm : m ≠ n) (hmade : t.made = s.made) (hcoros : t.coros (.coro m) = s.coros (.coro m))
    (hleft : t.left code (.coro m) = t.remaining code (.coro m)) :
    t.thread code m = s.thread code m := by
  refine thread_congr hmade (by rw [hcoros]) (by rw [hcoros]) ?_
  rw [hleft, left_of_running hcontrol, if_neg (fun heq => hm (by cases heq; rfl))]
  exact remaining_congr code (by rw [hcoros]) (by rw [hcoros])

/-- A coroutine that yields, seen before anyone else runs. -/
theorem pool_yield {n : Nat} {k : Prog σ κ Int} (h : Listed s xs) (hslice : Slice s xs (.coro n))
    (hcontrol : s.control = .running (.coro n) (.yield k))
    (ht : t = { s.park (.coro n) (.yield (.coro n) (.coro n) k) with
      coroThisPtr := some .sched
      isSchedWaiting := false
      control := .waiting }) : Pool.Step code (s.pool code) (t.pool code) := by
  obtain ⟨n', hn', heq⟩ := h.exists_coro hslice.mem
  obtain rfl : n = n' := by cases heq; rfl
  have hfin := hslice.unfinished _ hslice.mem
  have hctx : (t.coros (.coro n)).ctx = some (.yield (.coro n) (.coro n) k) := by
    rw [ht]
    exact park_ctx_self
  have hfin' : (t.coros (.coro n)).isFinished = false := by
    rw [ht]
    exact (park_field Coro.isFinished (fun _ _ _ => rfl) s _ _ _).trans hfin
  have hself : t.thread code n = some (.ready k) := by
    refine thread_ready (by rw [ht]; exact hn') hfin' ?_
    rw [left_of_waiting (by rw [ht]), State.remaining, hctx]
  have hothers : ∀ m, m ≠ n → t.thread code m = s.thread code m := by
    intro m hm
    refine thread_other hcontrol hm (by rw [ht]; rfl) ?_ (left_of_waiting (by rw [ht]) _)
    rw [ht]
    exact park_ctx_of_ne fun heq => hm (by cases heq; rfl)
  have hpool : t.pool code = { (s.pool code).setThread n (.ready k) with current := none } := by
    refine (pool_set (by rw [ht]; rfl) (current_of_waiting (by rw [ht])) hself hothers).trans ?_
    rw [ht]
    rfl
  rw [hpool]
  refine .yield (current_of_running hcontrol) (thread_ready hn' hfin ?_)
  rw [left_of_running hcontrol, if_pos rfl]

/-- A return to the main context changes no thread. -/
theorem pool_return {answer : Option (Option Ptr)} (hcontrol : s.control = .waiting)
    (hcontrol' : t.control = .user answer) (hmade : t.made = s.made) (hmemory : t.memory = s.memory)
    (hfield : ∀ {β : Type} (g : Coro σ κ → β), (∀ x n v, g { x with next := n, prev := v } = g x) →
      ∀ p, g (t.coros p) = g (s.coros p)) : t.pool code = s.pool code := by
  refine Pool.ext hmemory (funext fun m => ?_) hmade ?_
  · refine thread_congr hmade (hfield _ (fun _ _ _ => rfl) _) (hfield _ (fun _ _ _ => rfl) _) ?_
    rw [left_of_user hcontrol', left_of_waiting hcontrol]
    exact remaining_congr code (hfield _ (fun _ _ _ => rfl) _) (hfield _ (fun _ _ _ => rfl) _)
  · change t.current = s.current
    rw [current_of_waiting hcontrol, State.current, hcontrol']

/-- The thread of the coroutine that runs. -/
theorem thread_running {n : Nat} {rest : Prog σ κ Int} (h : Listed s xs)
    (hslice : Slice s xs (.coro n)) (hcontrol : s.control = .running (.coro n) rest) :
    s.thread code n = some (.ready rest) := by
  obtain ⟨n', hn, heq⟩ := h.exists_coro hslice.mem
  obtain rfl : n = n' := by cases heq; rfl
  refine thread_ready hn (hslice.unfinished _ hslice.mem) ?_
  rw [left_of_running hcontrol, if_pos rfl]

/-- A coroutine that makes another one. -/
theorem pool_coroNew (code : κ → Prog σ κ Int) {n : Nat} {child : κ} {k : Prog σ κ Int}
    (hcontrol : s.control = .running (.coro n) (.new child k)) (hslice : Slice s xs (.coro n))
    (hn : n < s.made) : State.pool code { s.coroNew child with control := .running (.coro n) k } =
      ((s.pool code).setThread n (.ready k)).create (code child) := by
  let t := { s.coroNew child with control := Control.running (.coro n) k }
  have hfin : (t.coros (.coro n)).isFinished = false := by
    refine (coroNew_field Coro.isFinished (fun _ _ _ => rfl) s child _).trans ?_
    rw [if_neg (State.Created.ne_made ⟨n, hn, rfl⟩), hslice.unfinished _ hslice.mem]
  refine Pool.ext rfl (funext fun m => ?_) rfl (current_of_running hcontrol).symm
  change t.thread code m =
    Function.update (Function.update (s.thread code) n (some (.ready k))) s.made _ m
  by_cases hm : m = s.made
  · have hne : Ptr.coro s.made ≠ .coro n := State.Created.ne_made ⟨n, hn, rfl⟩
    rw [hm, Function.update_self]
    exact thread_coroNew_made ((left_of_running rfl _).trans (if_neg hne)) rfl rfl
  · rw [Function.update_of_ne hm]
    by_cases hmn : m = n
    · rw [hmn, Function.update_self]
      exact thread_ready (Nat.lt_succ_of_lt hn) hfin ((left_of_running rfl _).trans (if_pos rfl))
    · have hne : Ptr.coro m ≠ .coro n := fun heq => hmn (by cases heq; rfl)
      rw [Function.update_of_ne hmn]
      exact thread_coroNew hm ((left_of_running hcontrol _).trans (if_neg hne))
        ((left_of_running rfl _).trans (if_neg hne)) rfl rfl

/-- The library has taken one step of the machine. -/
theorem labelled_single (hstep : Pool.Step code (s.pool code) (t.pool code))
    (hgiving : (s.pool code).giving = s.yielding) :
    ∃ as, Run (Pool.Labelled code) (s.pool code) as (t.pool code) ∧
      ∀ n, as.count (some n) = if s.yielding = some n then 1 else 0 := by
  refine ⟨[s.yielding], .cons ⟨hstep, hgiving.symm⟩ (.nil _), fun n => ?_⟩
  rw [List.count_singleton]
  simp only [beq_iff_eq]

/-- The thread of a coroutine in a slice gives way when the coroutine yields. -/
theorem giving_of_running (code : κ → Prog σ κ Int) {n : Nat} {rest : Prog σ κ Int} (h : Listed s xs)
    (hslice : Slice s xs (.coro n)) (hcontrol : s.control = .running (.coro n) rest) :
    (s.pool code).giving = s.yielding := by
  rw [Pool.giving_of_ready (current_of_running hcontrol) (thread_running h hslice hcontrol),
    State.yielding, hcontrol]
  cases rest <;> rfl

/-- The library simulates the machine of cooperative threads, and a thread gives way there when a
coroutine yields. -/
theorem Turn.labelled (h : Listed s xs) (hturn : Turn code s xs t ys) :
    ∃ as, Run (Pool.Labelled code) (s.pool code) as (t.pool code) ∧
      ∀ n, as.count (some n) = if s.yielding = some n then 1 else 0 := by
  cases hturn with
  -- the scheduler returns to its caller, which the pool does not see
  | empty hcontrol =>
    have hpool : State.pool code { s with control := .user (some none) } = s.pool code :=
      pool_return hcontrol rfl rfl rfl fun _ _ _ => rfl
    refine ⟨[], hpool ▸ .nil _, fun n => ?_⟩
    rw [State.yielding, hcontrol]
    rfl
  | @giveBack as bs p hcontrol =>
    have hpool : (s.giveBack p).pool code = s.pool code :=
      pool_return hcontrol rfl rfl rfl fun g hg q => State.coroListDelete_field g hg s p q
    refine ⟨[], hpool ▸ .nil _, fun n => ?_⟩
    rw [State.yielding, hcontrol]
    rfl
  -- the first of the list goes on: the pool picks it
  | @handOver p ps rest hcontrol hidle hxs hall hrest =>
    have hp : p ∈ xs := by simp [hxs]
    obtain ⟨n, hn, rfl⟩ := h.exists_coro hp
    have hsame : ∀ m, (s.handOver xs (.coro n) rest).coros (.coro m) = s.coros (.coro m) :=
      fun m => handOver_of_ne nofun
    refine labelled_single (pool_pick rfl rfl hsame (current_of_waiting hcontrol)
      (left_of_waiting hcontrol) rfl hrest hn (hall _ hp)) ?_
    rw [Pool.giving_of_idle (current_of_waiting hcontrol), State.yielding, hcontrol]
  | @act c f k hcontrol hslice =>
    obtain ⟨n, hn, rfl⟩ := h.exists_coro hslice.mem
    -- an access to the memory changes one thread and what all of them share
    let t := { s with memory := f s.memory, control := Control.running (.coro n) (k s.memory) }
    have hself : t.thread code n = some (.ready (k s.memory)) :=
      thread_ready hn (hslice.unfinished _ hslice.mem) ((left_of_running rfl _).trans (if_pos rfl))
    have hothers : ∀ m, m ≠ n → t.thread code m = s.thread code m := fun m hm =>
      thread_other hcontrol hm rfl rfl ((left_of_running rfl _).trans
        (if_neg fun heq => hm (by cases heq; rfl)))
    have hpool : t.pool code = ((s.pool code).setThread n (.ready (k s.memory))).touch f :=
      pool_set rfl (current_of_running hcontrol).symm hself hothers
    exact labelled_single
      (hpool ▸ .act (current_of_running hcontrol) (thread_running h hslice hcontrol))
      (giving_of_running code h hslice hcontrol)
  | @new c child k hcontrol hslice =>
    obtain ⟨n, hn, rfl⟩ := h.exists_coro hslice.mem
    have hpool := pool_coroNew code hcontrol hslice hn
    exact labelled_single
      (hpool ▸ .new (current_of_running hcontrol) (thread_running h hslice hcontrol))
      (giving_of_running code h hslice hcontrol)
  | yieldSched hcontrol hslice hlast =>
    obtain ⟨n, hn, rfl⟩ := h.exists_coro hslice.mem
    exact labelled_single (pool_yield h hslice hcontrol rfl) (giving_of_running code h hslice hcontrol)
  | @yieldNext c p k rest fresh before after hcontrol hslice hround hopening hslices hrest =>
    have hp : p ∈ xs := by simp [hround, hopening]
    obtain ⟨n, hn, rfl⟩ := h.exists_coro hslice.mem
    -- a yield straight to the next coroutine is two steps of the pool
    obtain ⟨m, hm, rfl⟩ := h.exists_coro hp
    let u := { s.park (.coro n) (.yield (.coro n) (.coro n) k) with
      coroThisPtr := some .sched, isSchedWaiting := false, control := .waiting }
    have hne : Ptr.coro m ≠ .coro n := by
      intro heq
      have hnodup := h.opening_nodup
      rw [hopening] at hnodup
      exact (List.nodup_cons.mp (List.nodup_append.mp hnodup).2.1).1 (by simp [heq])
    have hsame : u.coros (.coro m) = s.coros (.coro m) := park_ctx_of_ne hne
    have hrest' : u.remaining code (.coro m) = some rest :=
      (remaining_congr code (congrArg Coro.ctx hsame) (congrArg Coro.func hsame)).trans hrest
    have hfin : (u.coros (.coro m)).isFinished = false :=
      (park_field Coro.isFinished (fun _ _ _ => rfl) s _ _ _).trans (hslice.unfinished _ hp)
    obtain ⟨as, hyield, hcount⟩ := labelled_single (t := u) (pool_yield h hslice hcontrol rfl)
      (giving_of_running code h hslice hcontrol)
    refine ⟨as ++ [none], hyield.snoc ⟨pool_pick (s := u) rfl rfl (fun _ => rfl) rfl
      (left_of_waiting rfl) rfl hrest' hm hfin, (Pool.giving_of_idle rfl).symm⟩, fun i => ?_⟩
    rw [List.count_append, hcount]
    rfl
  | @ret c v hcontrol hslice =>
    obtain ⟨n, hn, rfl⟩ := h.exists_coro hslice.mem
    have hself : (s.finish (.coro n) v).thread code n = some (.ended v) := by
      have hn' : n < (s.finish (.coro n) v).made := hn
      simp [State.thread, hn', finish_self]
    have hothers : ∀ m, m ≠ n → (s.finish (.coro n) v).thread code m = s.thread code m := by
      intro m hm
      refine thread_other hcontrol hm rfl (finish_of_ne ?_) (left_of_waiting rfl _)
      exact fun heq => hm (by cases heq; rfl)
    have hpool : (s.finish (.coro n) v).pool code =
        { (s.pool code).setThread n (.ended v) with current := none } :=
      pool_set rfl rfl hself hothers
    exact labelled_single
      (hpool ▸ .ret (current_of_running hcontrol) (thread_running h hslice hcontrol))
      (giving_of_running code h hslice hcontrol)

theorem Turn.simulates (h : Listed s xs) (hturn : Turn code s xs t ys) :
    Relation.ReflTransGen (Pool.Step code) (s.pool code) (t.pool code) := by
  obtain ⟨as, hrun, -⟩ := hturn.labelled h
  exact Pool.steps_of_labelled hrun

end SystemProgramming.Libcoro
