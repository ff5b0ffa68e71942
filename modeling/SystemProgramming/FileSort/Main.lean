import SystemProgramming.FileSort.Coroutine
import SystemProgramming.Libcoro.Contracts

/-!
# The sorting pool

`main` makes its coroutines, and calls `coro_sched_wait` until it answers with NULL.  Then every
index was taken by one coroutine, and the array at every index has the numbers of its file in order,
whatever the clock was and however many coroutines there were.  A file has less than 2³¹ numbers, so
that `count`, `low` and `high` stay within `int`.
-/

namespace SystemProgramming.FileSort

open Cooperative Libcoro Runs

/-! ## What is to be proved -/

section

variable (clock : Nat → Int) (disk : String → List Int) (args : Arguments)

/-- Only the first `n` contexts have taken something. -/
structure ClaimedBelow (paths : List String) (n : Nat) (m : Memory) : Prop where
  inv : m.Inv paths
  below : ∀ p j, (p, j) ∈ m.claims → p < n

/-- The coroutines made so far have not run. -/
structure Making (i : Nat) (s : Libcoro.State Memory Nat) : Prop where
  under : Under (code clock disk args) (contract args.paths disk) (ClaimedBelow args.paths i) i s
  control : s.control = .user none
  unclaimed : s.memory.curUnsorted = 0

variable {clock disk args} {i : Nat} {s : Libcoro.State Memory Nat}

theorem Making.claims (h : Making clock disk args i s) : s.memory.claims = [] := by
  have hclaims := h.under.kept.memory.inv.claims
  have hmemory : (s.pool (code clock disk args)).memory = s.memory := rfl
  rw [hmemory, h.unclaimed] at hclaims
  exact List.map_eq_nil_iff.mp hclaims

theorem myContextNew_same (p : Nat) (timeQuantum : Int) (m : Memory) :
    SameStorage m (m.myContextNew p timeQuantum) := ⟨rfl, rfl, rfl, rfl, rfl, rfl, rfl, rfl⟩

/-- What the calls of `my_context_new` and `coro_new` make of the library. -/
theorem perform_new (clock : Nat → Int) (disk : String → List Int) (args : Arguments)
    {answer : Option (Option Ptr)} (hcontrol : s.control = .user answer) (i : Nat) :
    perform clock disk args (perform clock disk args s
        (.act (Memory.myContextNew i args.timeQuantum))) (.new i) =
      { State.coroNew { s with
          memory := s.memory.myContextNew i args.timeQuantum, control := .user none } i with
        control := .user none } := by
  have hact : perform clock disk args s (.act (Memory.myContextNew i args.timeQuantum)) =
      { s with memory := s.memory.myContextNew i args.timeQuantum, control := .user none } := by
    rw [perform, step, hcontrol]
    rfl
  rw [hact]
  rfl

/-- `my_context_new` and `coro_new`. -/
theorem Making.new (h : Making clock disk args i s) : Making clock disk args (i + 1)
    (perform clock disk args (perform clock disk args s
      (.act (Memory.myContextNew i args.timeQuantum))) (.new i)) := by
  rw [perform_new clock disk args h.control]
  have hmemory : ClaimedBelow args.paths i s.memory := h.under.kept.memory
  have hsame := myContextNew_same i args.timeQuantum s.memory
  have hm := hsame.inv hmemory.inv
  have hclaims : (s.memory.myContextNew i args.timeQuantum).claims = [] :=
    hsame.claims.trans h.claims
  have hbelow : ∀ n, ClaimedBelow args.paths n (s.memory.myContextNew i args.timeQuantum) := by
    refine fun n => ⟨hm, fun p j hp => ?_⟩
    rw [hclaims] at hp
    cases hp
  have hact := h.under.act h.control (f := Memory.myContextNew i args.timeQuantum) (hbelow i)
    fun j hs => ⟨hsame.inv hs, hsame.keeps j⟩
  -- the new coroutine has taken nothing, whatever has changed until it runs
  refine ⟨hact.new rfl (hbelow (i + 1)) fun v hv => ?_, rfl, hsame.curUnsorted.trans h.unclaimed⟩
  obtain ⟨hinv, hkeeps⟩ := hv hm
  refine valid_coroutineFuncF clock hinv fun j hj => ?_
  have hj' := (hkeeps.claims j).mp hj
  have hnone : (i, j) ∈ (s.memory.myContextNew i args.timeQuantum).claims := hj'
  rw [hclaims] at hnone
  cases hnone

end

/-! ## The run of `main` -/

section

variable {clock : Nat → Int} {disk : String → List Int} {args : Arguments} {n : Nat}
  {s t : Libcoro.State Memory Nat}

end

end SystemProgramming.FileSort
