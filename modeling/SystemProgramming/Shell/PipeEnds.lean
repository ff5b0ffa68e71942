import SystemProgramming.Shell.Wiring

/-!
# The ends of the pipes

When the shell begins to wait for the children of a line it has closed every pipe end of the line
once, and nothing else; and of the ends a child inherits none is open when it calls `execvp`, but for
those in the place of its input and output.  So a pipe has one writer, and its reader sees the end of
the file when that has exited.
-/

open Fallible Descriptors

namespace SystemProgramming.Shell

/-! ## The shell -/

/-- The shell has closed the ends of all pipes that it opened, each of them once and no other
descriptor. -/
structure EndsClosed (own : List Int) (calls : List SystemCall) : Prop where
  closed : (shellAfter own calls).closed.Perm
    ((pipeEnds (shellAfter own calls).pipes).map some)
  table : (shellAfter own calls).table = ownTable own

theorem Holding.endsClosed {own : List Int} {n : Nat} {prevFd currFd : Int × Int}
    {prev : Option Nat} {calls : List SystemCall}
    (h : Holding own n prevFd prev currFd none calls) :
    EndsClosed own (calls ++ closesOf prevFd) := by
  have hclosed := h.closePrev
  refine ⟨?_, hclosed.table.eq⟩
  have hperm := hclosed.closed
  rw [endsAt, endsAt, List.append_nil, List.map_nil, List.append_nil] at hperm
  rw [hclosed.pipes]
  exact hperm

theorem keeps_not_waitpid (os : System) (pid : Nat) : Keeps os (.waitpid pid ∉ ·.calls) := by
  have hcall : ∀ (calls : List SystemCall) c, c ≠ .waitpid pid → .waitpid pid ∉ calls →
      .waitpid pid ∉ calls ++ [c] := by
    intro calls c hc hnot hmem
    rcases List.mem_append.mp hmem with hmem | hmem
    · exact hnot hmem
    · exact hc (List.mem_singleton.mp hmem).symm
  exact ⟨fun _ _ => hcall _ _ (fun h => nomatch h), fun _ _ => hcall _ _ (fun h => nomatch h),
    fun _ _ _ _ => hcall _ _ (fun h => nomatch h), fun _ _ _ => hcall _ _ (fun h => nomatch h)⟩

/-- The shell closes the ends before it begins to wait. -/
theorem shell_endsClosed {p q : Parser} {err : ParserError} {line : CommandLine} {os : System}
    {own : List Int} {r : ExecutionResult} (hpop : parserPopNext p = .ok (q, err, some line))
    (hos : os.Succeeds) (hfresh : FreshPipes own (callsOf os line r)) :
    ∃ before, ∃ pids : List Nat, callsOf os line r = before ++ pids.map .waitpid ∧
      (∀ pid, .waitpid pid ∉ before) ∧ EndsClosed own before := by
  cases hline : forcedCode line with
  | some code =>
    refine ⟨[], [], ?_, fun _ => List.not_mem_nil, .refl _, rfl⟩
    rw [callsOf, (myExecuteCommandLine_exit os _ r hline).1]
    rfl
  | none =>
    obtain ⟨t, hrun⟩ : ∃ t, Runs.Run (LoopStep os) (Locals.start, line.exprs ++ []) line.exprs
        (t, []) :=
      run_exists hos line.exprs fun cmd next h _ _ =>
        handleExit_of_not_forced hline cmd next ((List.append_nil _).symm.trans h)
    rw [List.append_nil] at hrun
    have hcalls : callsOf os line r =
        (t.world.calls ++ closesOf t.prevFd) ++ t.children.map .waitpid := by
      rw [callsOf, myExecuteCommandLine]
      refine (congrArg (·.1.calls) (executeLoop_run hrun r).2).trans ?_
      exact (waitLoop_calls os (closePrev t).world 0 t.children).trans
        (congrArg (· ++ _) (closePrev_calls t))
    have ht : FreshPipes own t.world.calls :=
      hfresh.of_prefix (hcalls ▸ (List.prefix_append _ _).trans (List.prefix_append _ _))
    obtain ⟨hfollow, hhead⟩ := popped_pipesFollow hpop
    have hlocated := (Located.start own hfollow hhead).run hrun ht
    refine ⟨_, t.children, hcalls, fun pid => ?_, hlocated.holding.endsClosed⟩
    rw [← closePrev_calls]
    exact (keeps_not_waitpid os pid).closePrev
      ((keeps_not_waitpid os pid).run hrun List.not_mem_nil)

/-! ## The children -/

/-- The descriptors that the child of this number has when it calls `execvp`, if its calls before
that succeed. -/
def AtExec (own : List Int) (os : System) (line : CommandLine) (r : ExecutionResult) (pid : Nat)
    (table : Table Int Object) : Prop :=
  ∃ calls cmd prevFd currFd cos outFd setup,
    calls ++ [.fork pid cmd prevFd currFd] <+: callsOf os line r ∧
    ChildSystem.Succeeds cos outFd ∧ childSetup cos line prevFd currFd = .ok setup ∧
    Along childStep FreshFile (shellAfter own calls).table setup ∧
    table = setup.foldl childStep (shellAfter own calls).table

section

variable {p q : Parser} {err : ParserError} {line : CommandLine} {os : System} {own : List Int}
  {r : ExecutionResult} {pid : Nat} {table : Table Int Object}

theorem AtExec.place (h : AtExec own os line r pid table)
    (hpop : parserPopNext p = .ok (q, err, some line)) (hzero : 0 ∈ own) (hone : 1 ∈ own)
    (hfresh : FreshPipes own (callsOf os line r)) :
    ∃ before cmd after, line.exprs = before ++ Expr.command cmd :: after ∧
      (commandsOf before).length = pid ∧
      table = childTable own line (lastPipe before) (nextPipe before after) := by
  obtain ⟨calls, cmd, prevFd, currFd, cos, outFd, setup, hfork, hcos, hsetup, hfile, rfl⟩ := h
  obtain ⟨before, after, hplace, hpid, hholding⟩ := fork_place hpop hfresh hfork
  exact ⟨before, cmd, after, hplace, hpid, child_table hzero hone hholding hcos hsetup hfile⟩

theorem ownTable_not_pipeEnd {fd : Int} {o : Object} (h : ownTable own fd = some o) :
    o.isPipeEnd = false := by
  unfold ownTable at h
  split at h
  · cases h
    rfl
  · cases h

/-- The write end of a pipe stands in the place of the output. -/
theorem childTable_writeEnd {prev curr : Option Nat} {fd : Int} {k : Nat} (hzero : 0 ∈ own)
    (hone : 1 ∈ own) (h : childTable own line prev curr fd = some (.writeEnd k)) :
    curr = some k := by
  by_cases hfd : fd = 0
  · rw [hfd, childTable_input own line prev curr hzero] at h
    cases prev <;> cases h
  · by_cases hfd' : fd = 1
    · rw [hfd', childTable_output own line prev curr hone] at h
      cases curr with
      | none =>
        dsimp only at h
        split at h <;> cases h
      | some k' =>
        cases h
        rfl
    · rw [childTable_elsewhere own line prev curr hfd hfd'] at h
      cases ownTable_not_pipeEnd h

end

theorem nextPipe_eq_some {before after : List Expr} {k : Nat}
    (h : nextPipe before after = some k) : after.head? = some .pipe ∧ pipesIn before = k := by
  unfold nextPipe at h
  split at h
  · next hhead => exact ⟨hhead, Option.some.inj h⟩
  · cases h

/-- Each `PIPE` is right after one command. -/
theorem pipe_place_unique {before before' after after' : List Expr} {cmd cmd' : Command}
    (h : before ++ Expr.command cmd :: .pipe :: after =
      before' ++ Expr.command cmd' :: .pipe :: after')
    (hcount : pipesIn before = pipesIn before') : before = before' := by
  -- Two splits at a pipe with as many pipes before them are one.
  induction before generalizing before' with
  | nil =>
    match before' with
    | [] => rfl
    | [e] => cases h
    | e :: .pipe :: before' =>
      have hpos : 0 < pipesIn (e :: .pipe :: before') :=
        List.count_pos_iff.mpr (List.mem_cons_of_mem _ List.mem_cons_self)
      have hzero : pipesIn [] = 0 := rfl
      omega
    | e :: .command c :: before' => cases h
    | e :: .and :: before' => cases h
    | e :: .or :: before' => cases h
  | cons e before ih =>
    cases before' with
    | nil =>
      match before with
      | [] => cases h
      | .pipe :: before =>
        have hpos : 0 < pipesIn (e :: .pipe :: before) :=
          List.count_pos_iff.mpr (List.mem_cons_of_mem _ List.mem_cons_self)
        have hzero : pipesIn [] = 0 := rfl
        omega
      | .command c :: before => cases h
      | .and :: before => cases h
      | .or :: before => cases h
    | cons e' before' =>
      obtain ⟨rfl, htail⟩ := List.cons.inj h
      rw [pipesIn, pipesIn, List.count_cons, List.count_cons, Nat.add_right_cancel_iff] at hcount
      rw [ih htail hcount]

/-! ## Every line -/

/-- The shell closes each end of the pipes of a line once, and nothing else, before it waits; the
children hold no end but as their input and output; and no two of them hold the write end of one
pipe. -/
theorem pipeEnds_closed {p q : Parser} {err : ParserError} {line : CommandLine} {os : System}
    {own : List Int} {r : ExecutionResult} (hpop : parserPopNext p = .ok (q, err, some line))
    (hos : os.Succeeds) (hzero : 0 ∈ own) (hone : 1 ∈ own)
    (hfresh : FreshPipes own (callsOf os line r)) :
    (∃ before, ∃ pids : List Nat, callsOf os line r = before ++ pids.map .waitpid ∧
      (∀ pid, .waitpid pid ∉ before) ∧ EndsClosed own before) ∧
    (∀ pid table, AtExec own os line r pid table → ∀ fd o, fd ≠ 0 → fd ≠ 1 →
      table fd = some o → o.isPipeEnd = false) ∧
    ∀ pid pid' table table' k fd fd', AtExec own os line r pid table →
      AtExec own os line r pid' table' → table fd = some (.writeEnd k) →
      table' fd' = some (.writeEnd k) → pid = pid' := by
  refine ⟨shell_endsClosed hpop hos hfresh, ?_, ?_⟩
  · intro pid table h fd o hfd hfd' ho
    obtain ⟨before, cmd, after, -, -, rfl⟩ := h.place hpop hzero hone hfresh
    rw [childTable_elsewhere _ _ _ _ hfd hfd'] at ho
    exact ownTable_not_pipeEnd ho
  · intro pid pid' table table' k fd fd' h h' hk hk'
    obtain ⟨before, cmd, after, hplace, rfl, rfl⟩ := h.place hpop hzero hone hfresh
    obtain ⟨before', cmd', after', hplace', rfl, rfl⟩ := h'.place hpop hzero hone hfresh
    have hnext := childTable_writeEnd hzero hone hk
    have hnext' := childTable_writeEnd hzero hone hk'
    obtain ⟨hhead, hcount⟩ := nextPipe_eq_some hnext
    obtain ⟨hhead', hcount'⟩ := nextPipe_eq_some hnext'
    obtain ⟨rest, rfl⟩ := List.head?_eq_some_iff.mp hhead
    obtain ⟨rest', rfl⟩ := List.head?_eq_some_iff.mp hhead'
    rw [pipe_place_unique (hplace.symm.trans hplace') (hcount.trans hcount'.symm)]

/-- The line `a|b`, with the pipes that `steadySystem` gives. -/
theorem pipeEnds_closed_pipe :
    (∃ before, ∃ pids : List Nat, callsOf (steadySystem fun _ => 0)
        ⟨[.command ⟨[97, 0], []⟩, .pipe, .command ⟨[98, 0], []⟩], .stdout, none, false⟩ .start =
          before ++ pids.map .waitpid ∧
      (∀ pid, .waitpid pid ∉ before) ∧ EndsClosed [0, 1, 2] before) ∧
    (∀ pid table, AtExec [0, 1, 2] (steadySystem fun _ => 0)
        ⟨[.command ⟨[97, 0], []⟩, .pipe, .command ⟨[98, 0], []⟩], .stdout, none, false⟩ .start
        pid table → ∀ fd o, fd ≠ 0 → fd ≠ 1 → table fd = some o → o.isPipeEnd = false) ∧
    ∀ pid pid' table table' k fd fd', AtExec [0, 1, 2] (steadySystem fun _ => 0)
        ⟨[.command ⟨[97, 0], []⟩, .pipe, .command ⟨[98, 0], []⟩], .stdout, none, false⟩ .start
        pid table →
      AtExec [0, 1, 2] (steadySystem fun _ => 0)
        ⟨[.command ⟨[97, 0], []⟩, .pipe, .command ⟨[98, 0], []⟩], .stdout, none, false⟩ .start
        pid' table' → table fd = some (.writeEnd k) → table' fd' = some (.writeEnd k) →
      pid = pid' := by
  have hpop : parserPopNext ⟨[97, 124, 98, 10], 4⟩ = .ok (⟨[], 4⟩, .none,
      some ⟨[.command ⟨[97, 0], []⟩, .pipe, .command ⟨[98, 0], []⟩], .stdout, none, false⟩) := by
    decide +kernel
  exact pipeEnds_closed hpop (steadySystem_assigns _).succeeds (by decide) (by decide)
    (steady_fresh _ _ _)

end SystemProgramming.Shell
