import SystemProgramming.Shell.Plumbing

/-!
# How the commands of a line are wired

A command should read from the pipe right before it and write to the pipe right after it.  What the
child of a command reads is the pipe of the last `PIPE` of the line, also when an `AND` or an `OR`
stands in between, for `prev_fd` is shifted at `PIPE` only; and the output file is opened by every
command that has no `PIPE` after it.
-/

open Fallible Descriptors

namespace SystemProgramming.Shell

/-! ## The descriptors of a child -/

def inputTable (base : Table Int Object) : Option Nat → Table Int Object
  | none => base
  | some k => install base 0 (.readEnd k)

def outputTable (base : Table Int Object) (line : CommandLine) : Option Nat → Table Int Object
  | none => if line.outType = .stdout then base else install base 1 .outFile
  | some k => install base 1 (.writeEnd k)

/-- The descriptors of a child at `execvp`. -/
def childTable (own : List Int) (line : CommandLine) (prev curr : Option Nat) :
    Table Int Object := outputTable (inputTable (ownTable own) prev) line curr

section

variable {base t : Table Int Object} {held : List (Int × Object)} {prevFd currFd : Int × Int}
  {prev curr : Option Nat} {line : CommandLine} {outFd : Int}

theorem inputCalls_table (hpair : IsPair prevFd prev) (hbase : base 0 ≠ none)
    (h : Over base (endsAt prevFd prev ++ held) t) :
    Over (inputTable base prev) held ((inputCalls prevFd).foldl childStep t) := by
  cases prev with
  | none =>
    obtain rfl : prevFd = (-1, -1) := hpair
    exact h
  | some k =>
    have hread := (h.perm (List.Perm.swap _ _ _)).close
    have hdup := hread.dup2 List.mem_cons_self hbase
    rw [inputCalls, if_pos hpair.1]
    exact hdup.close

theorem outputCalls_table (hpair : IsPair currFd curr) (hbase : base 1 ≠ none)
    (hfresh : Along childStep FreshFile t (outputCalls line currFd outFd))
    (h : Over base (endsAt currFd curr) t) :
    (outputCalls line currFd outFd).foldl childStep t = outputTable base line curr := by
  cases curr with
  | some k =>
    have hdup := h.close.dup2 List.mem_cons_self hbase
    rw [outputCalls, if_pos hpair.2]
    exact hdup.close.eq
  | none =>
    obtain rfl : currFd = (-1, -1) := hpair
    have hnot : ¬ ((-1, -1) : Int × Int).2 ≠ -1 := fun h => h rfl
    rw [outputCalls, if_neg hnot] at hfresh ⊢
    by_cases hout : line.outType = .stdout
    · rw [if_pos hout, outputTable, if_pos hout]
      exact h.eq
    · rw [if_neg hout] at hfresh
      rw [if_neg hout, outputTable, if_neg hout]
      have hfd : t outFd = none := (hfresh [] _ (List.prefix_append _ _)).2
      have hne : outFd ≠ 1 := by
        rintro rfl
        rw [h.eq] at hfd
        exact hbase hfd
      have hdup := (h.install (a := .outFile) hfd).dup2 List.mem_cons_self hbase
      rw [if_pos hne]
      exact hdup.close.eq

/-- Where the pipes of a child stand, it has them in the place of its input and output, and no end of
a pipe besides. -/
theorem child_table {own : List Int} {n : Nat} {calls : List SystemCall} {cos : ChildSystem}
    {setup : List ChildCall} (hzero : 0 ∈ own) (hone : 1 ∈ own)
    (h : Holding own n prevFd prev currFd curr calls) (hcos : cos.Succeeds outFd)
    (hsetup : childSetup cos line prevFd currFd = .ok setup)
    (hfresh : Along childStep FreshFile (shellAfter own calls).table setup) :
    setup.foldl childStep (shellAfter own calls).table = childTable own line prev curr := by
  rw [childSetup_eq hcos] at hsetup
  cases hsetup
  have hown : ∀ {fd : Int}, fd ∈ own → ownTable own fd ≠ none := fun hfd => by
    rw [ownTable, if_pos hfd]
    exact Option.some_ne_none _
  have hinput := inputCalls_table h.prevPair (hown hzero) h.table
  have hbase : inputTable (ownTable own) prev 1 ≠ none := by
    cases prev with
    | none => exact hown hone
    | some k =>
      rw [inputTable, install_of_ne (by decide)]
      exact hown hone
  rw [List.foldl_append]
  exact outputCalls_table h.currPair hbase hfresh.later hinput

theorem childTable_input (own : List Int) (line : CommandLine) (prev curr : Option Nat)
    (hzero : 0 ∈ own) : childTable own line prev curr 0 =
      match prev with
      | none => some (.inherited 0)
      | some k => some (.readEnd k) := by
  have hinput : childTable own line prev curr 0 = inputTable (ownTable own) prev 0 := by
    unfold childTable outputTable
    split
    · split
      · rfl
      · exact install_of_ne (by decide)
    · exact install_of_ne (by decide)
  rw [hinput]
  cases prev with
  | none => exact if_pos hzero
  | some k => exact install_self _ _ _

theorem childTable_output (own : List Int) (line : CommandLine) (prev curr : Option Nat)
    (hone : 1 ∈ own) : childTable own line prev curr 1 =
      match curr with
      | none => if line.outType = .stdout then some (.inherited 1) else some .outFile
      | some k => some (.writeEnd k) := by
  have hinput : inputTable (ownTable own) prev 1 = some (.inherited 1) := by
    cases prev with
    | none => exact if_pos hone
    | some k => exact (install_of_ne (by decide)).trans (if_pos hone)
  unfold childTable outputTable
  cases curr with
  | none =>
    dsimp only
    split
    · exact hinput
    · exact install_self _ _ _
  | some k => exact install_self _ _ _

theorem childTable_elsewhere (own : List Int) (line : CommandLine) (prev curr : Option Nat)
    {fd : Int} (hzero : fd ≠ 0) (hone : fd ≠ 1) :
    childTable own line prev curr fd = ownTable own fd := by
  have hinput : inputTable (ownTable own) prev fd = ownTable own fd := by
    cases prev with
    | none => rfl
    | some k => exact install_of_ne hzero
  unfold childTable outputTable
  split
  · split
    · exact hinput
    · exact (install_of_ne hone).trans hinput
  · exact (install_of_ne hone).trans hinput

/-- The output file is opened where no pipe is open for the output. -/
theorem opensFile_iff {cos : ChildSystem} {setup : List ChildCall} (hpair : IsPair currFd curr)
    (hcos : cos.Succeeds outFd) (hsetup : childSetup cos line prevFd currFd = .ok setup) :
    (∃ outType path fd, .openFile outType path fd ∈ setup) ↔
      curr = none ∧ line.outType ≠ .stdout := by
  rw [childSetup_eq hcos] at hsetup
  cases hsetup
  have hinput : ∀ outType path fd, .openFile outType path fd ∉ inputCalls prevFd := by
    intro outType path fd hmem
    unfold inputCalls at hmem
    split at hmem <;> simp at hmem
  cases curr with
  | some k =>
    rw [outputCalls, if_pos hpair.2]
    refine iff_of_false (fun ⟨outType, path, fd, hmem⟩ => ?_) fun h => nomatch h.1
    rcases List.mem_append.mp hmem with hmem | hmem
    · exact hinput _ _ _ hmem
    · simp at hmem
  | none =>
    obtain rfl : currFd = (-1, -1) := hpair
    have hnot : ¬ ((-1, -1) : Int × Int).2 ≠ -1 := fun h => h rfl
    rw [outputCalls, if_neg hnot]
    by_cases hout : line.outType = .stdout
    · rw [if_pos hout, List.append_nil]
      exact iff_of_false (fun ⟨outType, path, fd, hmem⟩ => hinput _ _ _ hmem) fun h => h.2 hout
    · rw [if_neg hout]
      exact iff_of_true ⟨_, _, _, List.mem_append_right _ List.mem_cons_self⟩ ⟨rfl, hout⟩

end

/-! ## The fork of a command -/

/-- A place of a line is known by the number of its command. -/
theorem place_unique {before before' after after' : List Expr} {cmd cmd' : Command}
    (h : before ++ Expr.command cmd :: after = before' ++ Expr.command cmd' :: after')
    (hnumber : (commandsOf before).length = (commandsOf before').length) :
    before = before' ∧ cmd = cmd' ∧ after = after' := by
  induction before generalizing before' with
  | nil =>
    cases before' with
    | nil =>
      cases h
      exact ⟨rfl, rfl, rfl⟩
    | cons e before' =>
      cases h
      cases hnumber
  | cons e before ih =>
    cases before' with
    | nil =>
      cases h
      cases hnumber
    | cons e' before' =>
      obtain ⟨rfl, htail⟩ := List.cons.inj h
      rw [commandsOf_cons e before, commandsOf_cons e before', List.length_append,
        List.length_append, Nat.add_left_cancel_iff] at hnumber
      obtain ⟨rfl, hcmd, hafter⟩ := ih htail hnumber
      exact ⟨rfl, hcmd, hafter⟩

/-- A line that the parser returns begins with a command, and a `PIPE` follows a command. -/
theorem popped_pipesFollow {p q : Parser} {err : ParserError} {line : CommandLine}
    (hpop : parserPopNext p = .ok (q, err, some line)) :
    PipesFollow line.exprs ∧ line.exprs.head? ≠ some .pipe := by
  obtain ⟨-, -, -, st, -, -, rfl, -⟩ := popped_line_faithful hpop
  obtain ⟨hfollow, cmd, rest, hhead⟩ := joinedExprs_pipesFollow st.joined st.last
  refine ⟨hfollow, ?_⟩
  rw [show st.commandLine.exprs = _ from hhead]
  exact fun h => nomatch h

section

variable {p q : Parser} {err : ParserError} {line : CommandLine} {os : System} {own : List Int}
  {r : ExecutionResult} {calls : List SystemCall} {cmd : Command} {prevFd currFd : Int × Int}
  {before after : List Expr}

/-- A fork has a place in the line, where it finds the pipes. -/
theorem fork_place {pid : Nat} (hpop : parserPopNext p = .ok (q, err, some line))
    (hfresh : FreshPipes own (callsOf os line r))
    (hfork : calls ++ [SystemCall.fork pid cmd prevFd currFd] <+: callsOf os line r) :
    ∃ before after, line.exprs = before ++ Expr.command cmd :: after ∧
      (commandsOf before).length = pid ∧
      Holding own (opened before after) prevFd (lastPipe before) currFd (nextPipe before after)
        calls := by
  obtain ⟨hfollow, hhead⟩ := popped_pipesFollow hpop
  rcases fork_executeLoop hfork with hnil | ⟨before, u, after, t, hrun, hopen, hpid, hcalls, hprev,
    hcurr⟩
  · exact absurd (List.prefix_nil.mp hnil) (List.append_ne_nil_of_right_ne_nil _
      (List.cons_ne_nil _ _))
  · have ht : FreshPipes own t.world.calls :=
      hfresh.of_prefix (hcalls ▸ (List.prefix_append _ _).trans hfork)
    have hu : FreshPipes own u.world.calls :=
      ht.of_prefix ((keeps_calls os _).openPipe hopen (List.prefix_refl _))
    have hlocated := (Located.start own hfollow hhead).run hrun hu
    have hnumber : t.world.commands = (commandsOf before).length :=
      (openPipe_commands hopen).trans ((run_commands hrun).trans (Nat.zero_add _))
    refine ⟨before, after, (executeLoop_run hrun r).1, hnumber.symm.trans hpid, ?_⟩
    rw [← hprev, ← hcurr, ← hcalls]
    exact hlocated.openPipe hopen ht

/-- At a given place. -/
theorem fork_holding (hpop : parserPopNext p = .ok (q, err, some line))
    (hfresh : FreshPipes own (callsOf os line r))
    (hplace : line.exprs = before ++ Expr.command cmd :: after)
    (hfork : calls ++ [SystemCall.fork (commandsOf before).length cmd prevFd currFd] <+:
      callsOf os line r) :
    Holding own (opened before after) prevFd (lastPipe before) currFd (nextPipe before after)
      calls := by
  obtain ⟨before', after', hplace', hpid, hholding⟩ := fork_place hpop hfresh hfork
  obtain ⟨rfl, -, rfl⟩ := place_unique (hplace.symm.trans hplace') hpid.symm
  exact hholding

/-- When every call succeeds every command but `cd` is forked, in a line that forces no exit. -/
theorem fork_exists (hos : os.Succeeds) (hline : forcedCode line = none)
    (hplace : line.exprs = before ++ Expr.command cmd :: after)
    (hcd : handleCd (.command cmd) = false) (r : ExecutionResult) :
    ∃ calls prevFd currFd, calls ++ [SystemCall.fork (commandsOf before).length cmd prevFd currFd] <+:
      callsOf os line r := by
  have hexit : ∀ c next, before ++ Expr.command cmd :: after = .command c :: next →
      Locals.start.first = true → handleCd (.command c) = false → handleExit c next = -1 :=
    fun c next h _ _ => handleExit_of_not_forced hline c next (hplace.trans h)
  -- No `exit` and no failing call ends the loop before it comes to the command.
  obtain ⟨t, hrun⟩ := run_exists hos before hexit
  rw [← hplace] at hrun
  have hloop := (executeLoop_run hrun r).2
  have hbody : ∀ c, Expr.command cmd = .command c → t.first = true →
      handleCd (.command c) = false → handleExit c after = -1 := by
    intro c hc hfirst _
    cases before with
    | nil => exact handleExit_of_not_forced hline c after (hplace.trans (hc ▸ rfl))
    | cons e before => exact absurd hfirst (by rw [run_first hrun]; decide)
  obtain ⟨u, hu, -⟩ := executeExpr_ok hos hbody
  obtain ⟨v, hopen, hcases⟩ := executeExpr_cases hu
  have hnumber : v.world.commands = (commandsOf before).length :=
    (openPipe_commands hopen).trans ((run_commands hrun).trans (Nat.zero_add _))
  have hprefix : u.world.calls <+: (executeLoop os r t (.command cmd :: after)).1.calls := by
    rw [executeLoop, hu]
    exact calls_executeLoop os r { u with first := false } after
  obtain ⟨c, hc, hcd', -⟩ | ⟨c, hc, -, rfl⟩ | ⟨hc, -⟩ | ⟨hc | hc, -⟩ := hcases
  · cases hc
    rw [hcd] at hcd'
    cases hcd'
  · cases hc
    refine ⟨v.world.calls, v.prevFd, v.currFd, ?_⟩
    rw [callsOf, myExecuteCommandLine, ← hnumber]
    exact hloop ▸ hprefix
  · cases hc
  · cases hc
  · cases hc

end

/-! ## Commands and their neighbours -/

/-- The child of a command reads from the pipe right before it or from what the shell reads from,
writes to the pipe right after it, and opens the output file at the end of the line only. -/
structure Wired (before after : List Expr) (setup : List ChildCall) (table : Table Int Object) :
    Prop where
  readsPipe : before.getLast? = some .pipe → table 0 = some (.readEnd (pipesIn before - 1))
  readsOwn : before.getLast? ≠ some .pipe → table 0 = some (.inherited 0)
  writesPipe : table 1 = some (.writeEnd (pipesIn before)) ↔ after.head? = some .pipe
  opensFile : (∃ outType path fd, .openFile outType path fd ∈ setup) → after = []

/-- Every child of the line is wired so when it calls `execvp`. -/
def WiredAsNeighbours (line : CommandLine) : Prop :=
  ∀ os own r, os.Succeeds → 0 ∈ own → 1 ∈ own → FreshPipes own (callsOf os line r) →
    ∀ before cmd after calls prevFd currFd, line.exprs = before ++ .command cmd :: after →
      calls ++ [.fork (commandsOf before).length cmd prevFd currFd] <+: callsOf os line r →
      ∀ cos outFd setup, cos.Succeeds outFd → childSetup cos line prevFd currFd = .ok setup →
        Along childStep FreshFile (shellAfter own calls).table setup →
        Wired before after setup (setup.foldl childStep (shellAfter own calls).table)

/-- A `PIPE` before the command is right before it; and if the output goes to a file, the command is
the last or has a `PIPE` right after it. -/
structure PipesAdjoin (line : CommandLine) (before after : List Expr) : Prop where
  input : .pipe ∈ before → before.getLast? = some .pipe
  output : line.outType ≠ .stdout → after = [] ∨ after.head? = some .pipe

/-- A child is wired as its neighbours say exactly if the pipes of the line are next to it. -/
theorem wired_iff {p q : Parser} {err : ParserError} {line : CommandLine} {os : System}
    {own : List Int} {r : ExecutionResult} {before after : List Expr} {cmd : Command}
    {calls : List SystemCall} {prevFd currFd : Int × Int} {cos : ChildSystem} {outFd : Int}
    {setup : List ChildCall} (hpop : parserPopNext p = .ok (q, err, some line))
    (hzero : 0 ∈ own) (hone : 1 ∈ own) (hfresh : FreshPipes own (callsOf os line r))
    (hplace : line.exprs = before ++ Expr.command cmd :: after)
    (hfork : calls ++ [SystemCall.fork (commandsOf before).length cmd prevFd currFd] <+:
      callsOf os line r) (hcos : cos.Succeeds outFd)
    (hsetup : childSetup cos line prevFd currFd = .ok setup)
    (hfile : Along childStep FreshFile (shellAfter own calls).table setup) :
    Wired before after setup (setup.foldl childStep (shellAfter own calls).table) ↔
      PipesAdjoin line before after := by
  have hholding := fork_holding hpop hfresh hplace hfork
  have hopens := opensFile_iff hholding.currPair hcos hsetup
  have hinput := childTable_input own line (lastPipe before) (nextPipe before after) hzero
  have houtput := childTable_output own line (lastPipe before) (nextPipe before after) hone
  rw [child_table hzero hone hholding hcos hsetup hfile]
  constructor
  · intro hwired
    refine ⟨fun hmem => ?_, fun hout => ?_⟩
    · -- a pipe before the command is inherited, and it is the own one only if it is the last
      by_contra hlast
      have hown := hwired.readsOwn hlast
      rw [hinput, lastPipe, if_pos hmem] at hown
      cases hown
    · -- the first of two commands writes into the pipe between them
      by_cases hhead : after.head? = some .pipe
      · exact .inr hhead
      · exact .inl (hwired.opensFile (hopens.mpr ⟨nextPipe_eq_none hhead, hout⟩))
  · intro hadjoin
    refine ⟨fun hlast => ?_, fun hlast => ?_, ?_, fun hopen => ?_⟩
    · have hmem : .pipe ∈ before := List.mem_of_getLast? hlast
      rw [hinput, lastPipe, if_pos hmem]
    · have hmem : .pipe ∉ before := fun hmem => hlast (hadjoin.input hmem)
      rw [hinput, lastPipe, if_neg hmem]
    · rw [houtput]
      by_cases hhead : after.head? = some .pipe
      · rw [nextPipe, if_pos hhead]
        exact iff_of_true rfl hhead
      · rw [nextPipe, if_neg hhead]
        refine iff_of_false (fun h => ?_) hhead
        dsimp only at h
        split at h <;> cases h
    · obtain ⟨hnext, hout⟩ := hopens.mp hopen
      refine (hadjoin.output hout).resolve_right fun hhead => ?_
      rw [nextPipe, if_pos hhead] at hnext
      cases hnext

/-! ## Pipes that are always new -/

/-- The pipes of `steadySystem` so far are new, and those to come will be. -/
structure Steady (w : World) : Prop where
  fresh : FreshPipes [0, 1, 2] w.calls
  pipes : (shellAfter [0, 1, 2] w.calls).pipes = w.pipes
  free : ∀ fd : Int, 2 * w.pipes + 3 ≤ fd → (shellAfter [0, 1, 2] w.calls).table fd = none

/-- A call that opens nothing. -/
theorem Steady.call {w : World} (h : Steady w) {n : Nat} {c : SystemCall}
    (hfresh : ∀ d : Process, d.Fresh c) (hpipes : ∀ d : Process, (d.step c).pipes = d.pipes)
    (htable : ∀ (d : Process) fd, d.table fd = none → (d.step c).table fd = none) :
    Steady ({ w with commands := n }.call c) where
  fresh := h.fresh.snoc (hfresh _)
  pipes := by
    rw [World.call, shellAfter_snoc]
    exact (hpipes _).trans h.pipes
  free fd hfd := by
    rw [World.call, shellAfter_snoc]
    exact htable _ fd (h.free fd hfd)

theorem keeps_steady (status : Nat → UInt8) : Keeps (steadySystem status) Steady where
  close w fd h := by
    refine h.call (n := w.commands) (fun _ => trivial) (fun _ => rfl) fun d fd' hfd' => ?_
    by_cases heq : fd' = fd
    · rw [Process.step, heq]
      exact close_self _ _
    · exact (close_of_ne heq).trans hfd'
  chdir w path h := h.call (fun _ => trivial) (fun _ => rfl) fun _ _ h => h
  fork w cmd prevFd currFd h := h.call (fun _ => trivial) (fun _ => rfl) fun _ _ h => h
  pipe w fd hfd h := by
    obtain rfl : (2 * (w.pipes : Int) + 3, 2 * (w.pipes : Int) + 4) = fd := Option.some.inj hfd
    refine ⟨h.fresh.snoc ?_, ?_, fun fd hle => ?_⟩
    · exact ⟨by omega, by omega, by omega, h.free _ (by omega), h.free _ (by omega)⟩
    · rw [World.call, shellAfter_snoc, Process.step]
      exact congrArg (· + 1) h.pipes
    · have hle : 2 * ((w.pipes + 1 : Nat) : Int) + 3 ≤ fd := hle
      rw [World.call, shellAfter_snoc, Process.step]
      dsimp only
      rw [install_of_ne (by omega), install_of_ne (by omega)]
      exact h.free fd (by omega)

theorem steady_fresh (status : Nat → UInt8) (line : CommandLine) (r : ExecutionResult) :
    FreshPipes [0, 1, 2] (callsOf (steadySystem status) line r) := by
  have hstart : Steady .start := by
    refine ⟨.nil, rfl, fun fd hle => if_neg fun hmem => ?_⟩
    have hle : 2 * ((0 : Nat) : Int) + 3 ≤ fd := hle
    simp only [List.mem_cons, List.not_mem_nil, or_false] at hmem
    omega
  have hwait : ∀ w pid, Steady w → Steady (w.call (.waitpid pid)) := fun w _ h =>
    h.call (n := w.commands) (fun _ => trivial) (fun _ => rfl) fun _ _ h => h
  exact ((keeps_steady status).executeLoop hwait r (s := Locals.start) hstart).fresh

/-- The first descriptor that the shell does not have is new for the output file, as the child has
closed all others. -/
theorem steady_file {n : Nat} {calls : List SystemCall} {line : CommandLine}
    {prevFd currFd : Int × Int} {prev curr : Option Nat} {setup : List ChildCall}
    (h : Holding [0, 1, 2] n prevFd prev currFd curr calls)
    (hsetup : childSetup ⟨true, true, some 3, true⟩ line prevFd currFd = .ok setup) :
    Along childStep FreshFile (shellAfter [0, 1, 2] calls).table setup := by
  have hcos : (ChildSystem.mk true true (some 3) true).Succeeds 3 := ⟨rfl, rfl, rfl⟩
  rw [childSetup_eq hcos] at hsetup
  cases hsetup
  have hinput := inputCalls_table h.prevPair (by decide) h.table
  -- before the file is opened no call of the child opens one
  have hcalls : ∀ c ∈ inputCalls prevFd, ∀ t, FreshFile t c := by
    intro c hc t
    unfold inputCalls at hc
    split at hc
    · simp only [List.mem_cons, List.not_mem_nil, or_false] at hc
      rcases hc with rfl | rfl | rfl <;> trivial
    · cases hc
  refine (Along.of_forall hcalls _).append ?_
  unfold outputCalls
  have hcurr := h.currPair
  split
  · refine .of_forall (fun c hc t => ?_) _
    simp only [List.mem_cons, List.not_mem_nil, or_false] at hc
    rcases hc with rfl | rfl | rfl <;> trivial
  · next hnot =>
    split
    · exact .nil
    · obtain rfl : curr = none := by
        cases curr with
        | none => rfl
        | some k => exact absurd hcurr.2 hnot
      -- descriptor 3 is free where the file is opened
      have hthree : inputTable (ownTable [0, 1, 2]) prev 3 = none := by
        cases prev with
        | none => rfl
        | some k => rfl
      have hfile : Along childStep FreshFile
          ((inputCalls prevFd).foldl childStep (shellAfter [0, 1, 2] calls).table)
          ([] ++ [ChildCall.openFile line.outType line.outFile (some 3)]) :=
        Along.nil.snoc ⟨by decide, by rw [List.foldl_nil, hinput.eq, hthree]⟩
      rw [if_pos (by decide)]
      refine hfile.append (.of_forall (fun c hc t => ?_) _)
      simp only [List.mem_cons, List.not_mem_nil, or_false] at hc
      rcases hc with rfl | rfl <;> trivial

/-! ## All lines -/

theorem exprs_of_forced {line : CommandLine} (h : forcedCode line ≠ none) :
    ∃ cmd, line.exprs = [.command cmd] := by
  unfold forcedCode at h
  split at h
  · next cmd hexprs => exact ⟨cmd, hexprs⟩
  · exact absurd rfl h

section

variable {p q : Parser} {err : ParserError} {line : CommandLine}

/-- Where the children are wired as their neighbours say, the pipes are next to every child. -/
theorem WiredAsNeighbours.adjoin {before after : List Expr} {cmd : Command}
    (h : WiredAsNeighbours line) (hpop : parserPopNext p = .ok (q, err, some line))
    (hplace : line.exprs = before ++ Expr.command cmd :: after)
    (hcd : handleCd (.command cmd) = false) : PipesAdjoin line before after := by
  by_cases hline : forcedCode line = none
  · have hos := (steadySystem_assigns fun _ => 0).succeeds
    obtain ⟨calls, prevFd, currFd, hfork⟩ := fork_exists hos hline hplace hcd .start
    have hfresh := steady_fresh (fun _ => 0) line .start
    have hholding := fork_holding hpop hfresh hplace hfork
    have hcos : (ChildSystem.mk true true (some 3) true).Succeeds 3 := ⟨rfl, rfl, rfl⟩
    have hsetup := childSetup_eq hcos line prevFd currFd
    have hfile := steady_file hholding hsetup
    exact (wired_iff hpop (by decide) (by decide) hfresh hplace hfork hcos hsetup hfile).mp
      (h _ _ _ hos (by decide) (by decide) hfresh _ _ _ _ _ _ hplace hfork _ _ _ hcos hsetup hfile)
  · obtain ⟨c, hexprs⟩ := exprs_of_forced hline
    rw [hexprs] at hplace
    cases before with
    | nil =>
      cases hplace
      exact ⟨(fun h => nomatch h), fun _ => .inl rfl⟩
    | cons e before => cases before <;> cases hplace

/-- The commands of a line that the parser returns are wired as their neighbours say exactly if, for
every command but `cd`, no `PIPE` is further before it, and, where the output goes to a file, only
the last command has no `PIPE` right after it. -/
theorem wiredAsNeighbours_iff (hpop : parserPopNext p = .ok (q, err, some line)) :
    WiredAsNeighbours line ↔
      ∀ before cmd after, line.exprs = before ++ .command cmd :: after →
        handleCd (.command cmd) = false → PipesAdjoin line before after := by
  constructor
  · exact fun h _ _ _ hplace hcd => h.adjoin hpop hplace hcd
  · intro hadjoin os own r _ hzero hone hfresh before cmd after calls prevFd currFd hplace hfork cos
      outFd setup hcos hsetup hfile
    have hmem : cmd ∈ forksOf (callsOf os line r) :=
      mem_forksOf.mpr ⟨_, _, _, hfork.subset (List.mem_append_right _ List.mem_cons_self)⟩
    have hcd : handleCd (.command cmd) = false := by
      have hforked := (forksOf_callsOf_isPrefix os line r).subset hmem
      unfold forkedCommands at hforked
      split at hforked
      · exact Bool.not_eq_true' _ ▸ (List.mem_filter.mp hforked).2
      · cases hforked
    exact (wired_iff hpop hzero hone hfresh hplace hfork hcos hsetup hfile).mpr
      (hadjoin before cmd after hplace hcd)

end

/-- The line `a|b>f`. -/
theorem wiredAsNeighbours_iff_pipe :
    WiredAsNeighbours ⟨[.command ⟨[97, 0], []⟩, .pipe, .command ⟨[98, 0], []⟩], .fileNew,
        some [102, 0], false⟩ ↔
      ∀ before cmd after, [.command ⟨[97, 0], []⟩, .pipe, .command ⟨[98, 0], []⟩] =
          before ++ .command cmd :: after →
        handleCd (.command cmd) = false →
        PipesAdjoin ⟨[.command ⟨[97, 0], []⟩, .pipe, .command ⟨[98, 0], []⟩], .fileNew,
          some [102, 0], false⟩ before after := by
  have hpop : parserPopNext ⟨[97, 124, 98, 62, 102, 10], 6⟩ = .ok (⟨[], 6⟩, .none,
      some ⟨[.command ⟨[97, 0], []⟩, .pipe, .command ⟨[98, 0], []⟩], .fileNew,
        some [102, 0], false⟩) := by
    decide +kernel
  exact wiredAsNeighbours_iff hpop

/-- In `a|b&&c` the command `c` reads from the pipe of `a`, and in `a&&b>f` the command `a` opens the
file. -/
theorem stale_pipe_and_early_file :
    (parserPopNext ⟨[97, 124, 98, 38, 38, 99, 10], 7⟩ = .ok (⟨[], 7⟩, .none,
        some ⟨[.command ⟨[97, 0], []⟩, .pipe, .command ⟨[98, 0], []⟩, .and,
          .command ⟨[99, 0], []⟩], .stdout, none, false⟩) ∧
      ¬ WiredAsNeighbours ⟨[.command ⟨[97, 0], []⟩, .pipe, .command ⟨[98, 0], []⟩, .and,
          .command ⟨[99, 0], []⟩], .stdout, none, false⟩) ∧
    parserPopNext ⟨[97, 38, 38, 98, 62, 102, 10], 7⟩ = .ok (⟨[], 7⟩, .none,
        some ⟨[.command ⟨[97, 0], []⟩, .and, .command ⟨[98, 0], []⟩], .fileNew,
          some [102, 0], false⟩) ∧
      ¬ WiredAsNeighbours ⟨[.command ⟨[97, 0], []⟩, .and, .command ⟨[98, 0], []⟩], .fileNew,
          some [102, 0], false⟩ := by
  have hstale : parserPopNext ⟨[97, 124, 98, 38, 38, 99, 10], 7⟩ = .ok (⟨[], 7⟩, .none,
      some ⟨[.command ⟨[97, 0], []⟩, .pipe, .command ⟨[98, 0], []⟩, .and,
        .command ⟨[99, 0], []⟩], .stdout, none, false⟩) := by
    decide +kernel
  have hearly : parserPopNext ⟨[97, 38, 38, 98, 62, 102, 10], 7⟩ = .ok (⟨[], 7⟩, .none,
      some ⟨[.command ⟨[97, 0], []⟩, .and, .command ⟨[98, 0], []⟩], .fileNew,
        some [102, 0], false⟩) := by
    decide +kernel
  refine ⟨⟨hstale, fun h => ?_⟩, hearly, fun h => ?_⟩
  · have hplace : [.command ⟨[97, 0], []⟩, .pipe, .command ⟨[98, 0], []⟩, .and,
        .command ⟨[99, 0], []⟩] = [Expr.command ⟨[97, 0], []⟩, .pipe, .command ⟨[98, 0], []⟩, .and] ++
          Expr.command ⟨[99, 0], []⟩ :: [] := rfl
    -- `a | b && c`: the last command still reads the pipe of the first two.
    have hinput := (h.adjoin hstale hplace (by decide +kernel)).input (by decide +kernel)
    revert hinput
    decide +kernel
  · have hplace : [.command ⟨[97, 0], []⟩, .and, .command ⟨[98, 0], []⟩] =
        [] ++ Expr.command ⟨[97, 0], []⟩ :: [.and, .command ⟨[98, 0], []⟩] := rfl
    -- `a && b > f`: the file is already the output of the first command.
    have houtput := (h.adjoin hearly hplace (by decide +kernel)).output (by decide)
    revert houtput
    decide +kernel

end SystemProgramming.Shell
