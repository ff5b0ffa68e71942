import SystemProgramming.Shell.ExitStatus

/-!
# The children of the shell

What `my_execute_command_line` does in a child: it puts the ends of the pipes in place, or opens the
output file, and executes the command.  Where one of the calls fails the child returns to `main`, as
the parent does, and only the forced exit code keeps it from reading on.
-/

open Fallible

namespace SystemProgramming.Shell

/-! ## The child -/

/-- Whether the calls of `dup2` onto the standard input and output succeed, the descriptor that
`open` returns, and whether `execvp` succeeds. -/
structure ChildSystem where
  dupInput : Bool
  dupOutput : Bool
  openFile : Option Int
  exec : Bool

inductive ChildCall
  | close (fd : Int)
  | dup2 (fd onto : Int)
  | openFile (outType : OutputType) (path : Option (List UInt8)) (fd : Option Int)
  | execvp (cmd : Command)
  | waitpid (pid : Nat)
  deriving DecidableEq, Repr

/-- How a child leaves `my_execute_command_line`: as another program, by a null pointer, or with a
result for `main`. -/
inductive ChildEnd
  | executed
  | nullPointer
  | returned (r : ExecutionResult)
  deriving DecidableEq, Repr

def redirectInput (os : ChildSystem) (prevFd : Int × Int) (calls : List ChildCall) :
    Except (List ChildCall × Int) (List ChildCall) :=
  if prevFd.1 ≠ -1 then
    let calls := calls ++ [.close prevFd.2, .dup2 prevFd.1 0]
    if os.dupInput then .ok (calls ++ [.close prevFd.1]) else .error (calls, 1)
  else .ok calls

/-- `out_fd` is put in the place of the standard output. -/
def dupOutFd (os : ChildSystem) (outFd : Int) (calls : List ChildCall) :
    Except (List ChildCall × Int) (List ChildCall) :=
  if outFd ≠ 1 then
    let calls := calls ++ [.dup2 outFd 1]
    if os.dupOutput then .ok (calls ++ [.close outFd]) else .error (calls, 1)
  else .ok calls

def redirectOutput (os : ChildSystem) (line : CommandLine) (currFd : Int × Int)
    (calls : List ChildCall) : Except (List ChildCall × Int) (List ChildCall) :=
  -- with a pipe to the next command the file of the line is not opened
  if currFd.2 ≠ -1 then
    let calls := calls ++ [.close currFd.1, .dup2 currFd.2 1]
    if os.dupOutput then .ok (calls ++ [.close currFd.2]) else .error (calls, 1)
  else if line.outType = .stdout then .ok calls
  else
    let calls := calls ++ [.openFile line.outType line.outFile os.openFile]
    match os.openFile with
    | none => .error (calls, 1)
    | some outFd => dupOutFd os outFd calls

/-- The calls of the child before `execvp`; it fails with the code of a forced exit. -/
def childSetup (os : ChildSystem) (line : CommandLine) (prevFd currFd : Int × Int) :
    Except (List ChildCall × Int) (List ChildCall) := do
  let calls ← redirectInput os prevFd []
  redirectOutput os line currFd calls

/-- `forceExit` in the child, which waits for the children of its parent in vain. -/
def childForceExit (calls : List ChildCall) (children : List Nat) (r : ExecutionResult)
    (code : Int) : List ChildCall × ChildEnd :=
  (calls ++ children.map .waitpid, .returned { r with forceExitCode := code })

/-- The child of a command, after `fork`.  Where there are no arguments `args` is a null pointer. -/
def childCommand (os : ChildSystem) (line : CommandLine) (cmd : Command) (prevFd currFd : Int × Int)
    (children : List Nat) (r : ExecutionResult) : List ChildCall × ChildEnd :=
  match childSetup os line prevFd currFd with
  | .error (calls, code) => childForceExit calls children r code
  | .ok calls =>
    let calls := calls ++ [.execvp cmd]
    -- `execvp` returns only when it fails, and the code is read from the first argument
    if os.exec then (calls, .executed)
    else
      match cmd.args with
      | [] => (calls, .nullPointer)
      | arg :: _ => childForceExit calls children r (atoi arg)

/-! ## Back in `main` -/

/-- What `main` does after `my_execute_command_line` has returned in the inner loop. -/
def afterLine {σ : Type} (exec : σ → CommandLine → ExecutionResult → σ × ExecutionResult)
    (fuel : Nat) (s : ShellState σ) (cs : List (List UInt8)) :
    List Event × Except Crash (ShellState σ) :=
  if s.result.forceExitCode ≠ -1 then ([], .ok s)
  else
    match popLoop exec fuel s with
    | (events, .error c) => (events, .error c)
    | (events, .ok s) =>
      if s.result.forceExitCode ≠ -1 then (events, .ok s)
      else
        let rest := mainLoop exec s cs
        (events ++ rest.1, rest.2)

/-- The child does not come back to the loops of `main`: whatever there is to read, it takes no
further line. -/
def ChildEnd.Stops : ChildEnd → Prop
  | .executed => True
  | .nullPointer => True
  | .returned r => ∀ (σ : Type) exec fuel p (w : σ) cs,
    afterLine exec fuel ⟨p, w, r⟩ cs = ([], .ok ⟨p, w, r⟩)

theorem stops_returned_iff (r : ExecutionResult) :
    (ChildEnd.returned r).Stops ↔ r.forceExitCode ≠ -1 := by
  constructor
  · intro hstops hcode
    -- With a line in the buffer the loops go on.
    have hrun := hstops Unit (fun w _ _ => (w, ⟨0, 0⟩)) 1 ⟨[97, 10], 2⟩ () []
    have hpop : parserPopNext ⟨[97, 10], 2⟩ =
        .ok (⟨[], 2⟩, .none, some ⟨[.command ⟨[97, 0], []⟩], .stdout, none, false⟩) := by
      decide +kernel
    simp only [afterLine, hcode, ne_eq, not_true_eq_false, if_false, popLoop, hpop] at hrun
    cases hrun
  · intro hcode σ exec fuel p w cs
    rw [afterLine, if_pos hcode]

theorem redirectInput_code {os : ChildSystem} {prevFd : Int × Int} {calls calls' : List ChildCall}
    {code : Int} (h : redirectInput os prevFd calls = .error (calls', code)) : code = 1 := by
  unfold redirectInput at h
  split at h
  · dsimp only at h
    split at h
    · cases h
    · cases h
      rfl
  · cases h

theorem dupOutFd_code {os : ChildSystem} {outFd : Int} {calls calls' : List ChildCall}
    {code : Int} (h : dupOutFd os outFd calls = .error (calls', code)) : code = 1 := by
  unfold dupOutFd at h
  split at h
  · dsimp only at h
    split at h
    · cases h
    · cases h
      rfl
  · cases h

theorem redirectOutput_code {os : ChildSystem} {line : CommandLine} {currFd : Int × Int}
    {calls calls' : List ChildCall} {code : Int}
    (h : redirectOutput os line currFd calls = .error (calls', code)) : code = 1 := by
  unfold redirectOutput at h
  split at h
  · dsimp only at h
    split at h
    · cases h
    · cases h
      rfl
  · split at h
    · cases h
    · dsimp only at h
      split at h
      · cases h
        rfl
      · exact dupOutFd_code h

/-- A call that fails before `execvp` forces the exit with `EXIT_FAILURE`. -/
theorem childSetup_code {os : ChildSystem} {line : CommandLine} {prevFd currFd : Int × Int}
    {calls : List ChildCall} {code : Int}
    (h : childSetup os line prevFd currFd = .error (calls, code)) : code = 1 := by
  unfold childSetup at h
  cases hinput : redirectInput os prevFd [] with
  | error failed =>
    rw [hinput] at h
    cases h
    exact redirectInput_code hinput
  | ok calls =>
    rw [hinput, ok_bind] at h
    exact redirectOutput_code h

/-- Whichever call fails, the child of the command stops. -/
def AlwaysStops (line : CommandLine) (cmd : Command) (prevFd currFd : Int × Int) : Prop :=
  ∀ os children r, (childCommand os line cmd prevFd currFd children r).2.Stops

/-- The first argument is not a numeral for the code that stands for no exit. -/
def ForcesExit (cmd : Command) : Prop := ∀ arg, cmd.args.head? = some arg → atoi arg ≠ -1

/-! ## Calls that succeed -/

/-- Every call before `execvp` succeeds. -/
structure ChildSystem.Succeeds (os : ChildSystem) (outFd : Int) : Prop where
  dupInput : os.dupInput = true
  dupOutput : os.dupOutput = true
  openFile : os.openFile = some outFd

def inputCalls (prevFd : Int × Int) : List ChildCall :=
  if prevFd.1 ≠ -1 then [.close prevFd.2, .dup2 prevFd.1 0, .close prevFd.1] else []

def outputCalls (line : CommandLine) (currFd : Int × Int) (outFd : Int) : List ChildCall :=
  if currFd.2 ≠ -1 then [.close currFd.1, .dup2 currFd.2 1, .close currFd.2]
  else if line.outType = .stdout then []
  else
    .openFile line.outType line.outFile (some outFd) ::
      if outFd ≠ 1 then [.dup2 outFd 1, .close outFd] else []

theorem redirectInput_eq {os : ChildSystem} {outFd : Int} (hos : os.Succeeds outFd)
    (prevFd : Int × Int) : redirectInput os prevFd [] = .ok (inputCalls prevFd) := by
  unfold redirectInput inputCalls
  dsimp only
  rw [if_pos hos.dupInput]
  split <;> rfl

theorem redirectOutput_eq {os : ChildSystem} {outFd : Int} (hos : os.Succeeds outFd)
    (line : CommandLine) (currFd : Int × Int) (calls : List ChildCall) :
    redirectOutput os line currFd calls = .ok (calls ++ outputCalls line currFd outFd) := by
  unfold redirectOutput outputCalls
  dsimp only
  rw [hos.openFile, if_pos hos.dupOutput]
  split
  · rw [List.append_assoc]
    rfl
  · split
    · rw [List.append_nil]
    · unfold dupOutFd
      dsimp only
      rw [if_pos hos.dupOutput]
      split
      · rw [List.append_assoc, List.append_assoc]
        rfl
      · rfl

theorem childSetup_eq {os : ChildSystem} {outFd : Int} (hos : os.Succeeds outFd)
    (line : CommandLine) (prevFd currFd : Int × Int) : childSetup os line prevFd currFd =
      .ok (inputCalls prevFd ++ outputCalls line currFd outFd) := by
  rw [childSetup, redirectInput_eq hos, ok_bind, redirectOutput_eq hos]

theorem alwaysStops_iff (line : CommandLine) (cmd : Command) (prevFd currFd : Int × Int) :
    AlwaysStops line cmd prevFd currFd ↔ ForcesExit cmd := by
  constructor
  · intro hstops arg harg
    obtain ⟨rest, hargs⟩ := List.head?_eq_some_iff.mp harg
    -- Only `execvp` fails.
    have hos : (ChildSystem.mk true true (some 3) false).Succeeds 3 := ⟨rfl, rfl, rfl⟩
    have hend := hstops ⟨true, true, some 3, false⟩ [] .start
    simp only [childCommand, childSetup_eq hos, hargs, Bool.false_eq_true, if_false,
      childForceExit] at hend
    exact (stops_returned_iff _).mp hend
  · intro hforces os children r
    unfold childCommand
    cases hsetup : childSetup os line prevFd currFd with
    | error failed =>
      obtain ⟨calls, code⟩ := failed
      obtain rfl : code = 1 := childSetup_code hsetup
      exact (stops_returned_iff _).mpr (show (1 : Int) ≠ -1 by decide)
    | ok calls =>
      dsimp only
      split
      · trivial
      · cases hargs : cmd.args with
        | nil => trivial
        | cons arg rest =>
          exact (stops_returned_iff _).mpr (hforces arg (by rw [hargs, List.head?_cons]))

/-! ## The children of a line -/

/-- The commands of expressions that have a child. -/
def childrenOf (es : List Expr) : List Command :=
  (commandsOf es).filter fun cmd => !handleCd (.command cmd)

/-- The commands of a line that have a child: none where the line forces the exit of the shell. -/
def forkedCommands (line : CommandLine) : List Command :=
  if forcedCode line = none then childrenOf line.exprs else []

/-- The commands that were forked. -/
def forksOf (calls : List SystemCall) : List Command :=
  calls.filterMap fun
    | .fork _ cmd _ _ => some cmd
    | _ => none

theorem mem_forksOf {calls : List SystemCall} {cmd : Command} :
    cmd ∈ forksOf calls ↔ ∃ pid prevFd currFd, .fork pid cmd prevFd currFd ∈ calls := by
  rw [forksOf, List.mem_filterMap]
  constructor
  · rintro ⟨call, hcall, hcmd⟩
    cases call with
    | fork pid cmd' prevFd currFd =>
      cases hcmd
      exact ⟨pid, prevFd, currFd, hcall⟩
    | _ => cases hcmd
  · rintro ⟨pid, prevFd, currFd, hcall⟩
    exact ⟨_, hcall, rfl⟩

theorem forksOf_append (calls calls' : List SystemCall) :
    forksOf (calls ++ calls') = forksOf calls ++ forksOf calls' := List.filterMap_append

theorem forksOf_call (w : World) (c : SystemCall) :
    forksOf (w.call c).calls = forksOf w.calls ++ forksOf [c] := forksOf_append _ _

/-- The calls that close a pair of descriptors. -/
def closesOf (fd : Int × Int) : List SystemCall :=
  (if fd.1 ≠ -1 then [.close fd.1] else []) ++ if fd.2 ≠ -1 then [.close fd.2] else []

theorem closePrev_calls (s : Locals) :
    (closePrev s).world.calls = s.world.calls ++ closesOf s.prevFd := by
  unfold closePrev closesOf Locals.call
  dsimp only
  split
  · split
    · rw [World.call, World.call, List.append_assoc]
    · rw [World.call, List.append_nil]
  · split
    · rw [World.call, List.nil_append]
    · rw [List.append_nil, List.append_nil]

theorem forksOf_closePrev (s : Locals) : forksOf (closePrev s).world.calls = forksOf s.world.calls := by
  have hnone : forksOf (closesOf s.prevFd) = [] := by
    unfold closesOf
    split <;> split <;> rfl
  rw [closePrev_calls, forksOf_append, hnone, List.append_nil]

theorem waitLoop_calls (os : System) (w : World) (last : Int) (pids : List Nat) :
    (waitLoop os w last pids).1.calls = w.calls ++ pids.map .waitpid := by
  induction pids generalizing w last with
  | nil => rw [waitLoop, List.map_nil, List.append_nil]
  | cons pid pids ih =>
    rw [waitLoop, ih, List.map_cons, World.call, List.append_assoc, List.singleton_append]

theorem forksOf_wait (os : System) (w : World) (last : Int) (pids : List Nat) :
    forksOf (waitLoop os w last pids).1.calls = forksOf w.calls := by
  have hnone : forksOf (pids.map .waitpid) = [] := by
    rw [forksOf, List.filterMap_map]
    exact List.filterMap_eq_nil_iff.mpr fun _ _ => rfl
  rw [waitLoop_calls, forksOf_append, hnone, List.append_nil]

theorem openPipe_cases {os : System} {s t : Locals} {next : List Expr}
    (h : openPipe os s next = .ok t) :
    (∃ fd, next.head? = some .pipe ∧ os.pipe s.world.pipes = some fd ∧ t = { s with
      world := { s.world with pipes := s.world.pipes + 1 }.call (.pipe fd), currFd := fd }) ∨
    (next.head? ≠ some .pipe ∧ t = s) := by
  unfold openPipe at h
  split at h
  · split at h
    · cases h
    · next fd hfd =>
      cases h
      exact .inl ⟨fd, rfl, hfd, rfl⟩
  · next hnext =>
    cases h
    refine .inr ⟨fun hhead => ?_, rfl⟩
    obtain ⟨rest, hrest⟩ := List.head?_eq_some_iff.mp hhead
    exact hnext rest hrest

theorem openPipe_error {os : System} {s t : Locals} {next : List Expr} {code : Int}
    (h : openPipe os s next = .error (t, code)) : t = s := by
  unfold openPipe at h
  split at h
  · split at h
    · cases h
      rfl
    · cases h
  · cases h

/-- The locals after a fork. -/
def forked (s : Locals) (cmd : Command) : Locals :=
  addChildProcess { s with
    world := { s.world with commands := s.world.commands + 1 }.call
      (.fork s.world.commands cmd s.prevFd s.currFd) } s.world.commands

/-- What the body of the loop does when it does not fail. -/
theorem executeExpr_cases {os : System} {s t : Locals} {e : Expr} {next : List Expr}
    (h : executeExpr os s e next = .ok t) : ∃ u, openPipe os s next = .ok u ∧
      ((∃ cmd, e = .command cmd ∧ handleCd (.command cmd) = true ∧ t = changeDirectory u cmd) ∨
        (∃ cmd, e = .command cmd ∧ handleCd (.command cmd) = false ∧ t = forked u cmd) ∨
        (e = .pipe ∧ t = shiftPipe u) ∨ ((e = .and ∨ e = .or) ∧ t = u)) := by
  unfold executeExpr at h
  obtain ⟨u, hopen, h⟩ := bind_eq_ok.mp h
  refine ⟨u, hopen, ?_⟩
  -- After the pipe is opened, each kind of expression is one branch of the switch.
  cases e with
  | command cmd =>
    dsimp only at h
    split at h
    · next hcd =>
      cases h
      exact .inl ⟨cmd, rfl, hcd, rfl⟩
    · next hcd =>
      split at h
      · cases h
      · unfold forkCommand at h
        dsimp only at h
        split at h
        · cases h
          exact .inr (.inl ⟨cmd, rfl, Bool.eq_false_iff.mpr hcd, rfl⟩)
        · cases h
  | pipe =>
    cases h
    exact .inr (.inr (.inl ⟨rfl, rfl⟩))
  | and =>
    cases h
    exact .inr (.inr (.inr ⟨.inl rfl, rfl⟩))
  | or =>
    cases h
    exact .inr (.inr (.inr ⟨.inr rfl, rfl⟩))

/-- Where it fails it has done nothing but to open the pipe. -/
theorem executeExpr_error {os : System} {s t : Locals} {e : Expr} {next : List Expr} {code : Int}
    (h : executeExpr os s e next = .error (t, code)) : t = s ∨ openPipe os s next = .ok t := by
  unfold executeExpr at h
  cases hopen : openPipe os s next with
  | error failed =>
    obtain ⟨u, failedCode⟩ := failed
    rw [hopen] at h
    cases h
    exact .inl (openPipe_error hopen)
  | ok u =>
    rw [hopen, ok_bind] at h
    refine .inr ?_
    cases e with
    | command cmd =>
      dsimp only at h
      split at h
      · cases h
      · split at h
        · cases h
          rfl
        · unfold forkCommand at h
          dsimp only at h
          split at h
          · cases h
          · cases h
            rfl
    | _ => cases h

theorem forksOf_openPipe {os : System} {s t : Locals} {next : List Expr}
    (h : openPipe os s next = .ok t) : forksOf t.world.calls = forksOf s.world.calls := by
  obtain ⟨fd, -, -, rfl⟩ | ⟨-, rfl⟩ := openPipe_cases h
  · exact (forksOf_call _ _).trans (List.append_nil _)
  · rfl

theorem childrenOf_command {cmd : Command} (hcd : handleCd (.command cmd) = false) :
    childrenOf [.command cmd] = [cmd] := by
  rw [childrenOf, commandsOf, commandsOf, List.filter_cons_of_pos]
  · rfl
  · rw [hcd]
    rfl

theorem childrenOf_cd {cmd : Command} (hcd : handleCd (.command cmd) = true) :
    childrenOf [.command cmd] = [] := by
  rw [childrenOf, commandsOf, commandsOf, List.filter_cons_of_neg]
  · rfl
  · rw [hcd]
    decide

/-- The body of the loop forks the command of its expression, if that has a child. -/
theorem forksOf_executeExpr {os : System} {s t : Locals} {e : Expr} {next : List Expr}
    (h : executeExpr os s e next = .ok t) :
    forksOf t.world.calls = forksOf s.world.calls ++ childrenOf [e] := by
  obtain ⟨u, hopen, hcases⟩ := executeExpr_cases h
  rw [← forksOf_openPipe hopen]
  obtain ⟨cmd, rfl, hcd, rfl⟩ | ⟨cmd, rfl, hcd, rfl⟩ | ⟨rfl, rfl⟩ | ⟨rfl | rfl, rfl⟩ := hcases
  · rw [childrenOf_cd hcd]
    exact forksOf_call _ _
  · rw [childrenOf_command hcd]
    exact forksOf_call _ _
  · exact (forksOf_closePrev u).trans (List.append_nil _).symm
  · exact (List.append_nil _).symm
  · exact (List.append_nil _).symm

theorem forksOf_executeExpr_error {os : System} {s t : Locals} {e : Expr} {next : List Expr}
    {code : Int} (h : executeExpr os s e next = .error (t, code)) :
    forksOf t.world.calls = forksOf s.world.calls := by
  rcases executeExpr_error h with rfl | hopen
  · rfl
  · exact forksOf_openPipe hopen

theorem childrenOf_cons (e : Expr) (es : List Expr) :
    childrenOf (e :: es) = childrenOf [e] ++ childrenOf es := by
  rw [childrenOf, commandsOf_cons, List.filter_append]
  rfl

/-- The children are forked in the order of the commands, as far as the loop gets. -/
theorem forksOf_executeLoop (os : System) (r : ExecutionResult) (s : Locals) (es : List Expr) :
    forksOf (executeLoop os r s es).1.calls <+: forksOf s.world.calls ++ childrenOf es := by
  induction es generalizing s with
  | nil =>
    have hforks : forksOf (executeLoop os r s []).1.calls = forksOf s.world.calls :=
      (forksOf_wait os (closePrev s).world 0 s.children).trans (forksOf_closePrev s)
    rw [hforks]
    exact List.prefix_append _ _
  | cons e es ih =>
    rw [executeLoop]
    cases hexpr : executeExpr os s e es with
    | error failed =>
      obtain ⟨t, code⟩ := failed
      have hforks : forksOf (forceExit os t.world r t.children code).1.calls =
          forksOf s.world.calls :=
        (forksOf_wait os t.world 0 t.children).trans (forksOf_executeExpr_error hexpr)
      dsimp only
      rw [hforks]
      exact List.prefix_append _ _
    | ok t =>
      have hrest := ih { t with first := false }
      dsimp only at hrest ⊢
      rwa [forksOf_executeExpr hexpr, List.append_assoc, ← childrenOf_cons] at hrest

/-- When every call succeeds the loop gets to the end. -/
theorem forksOf_executeLoop_eq {os : System} {status : Nat → UInt8} (hos : os.Assigns status)
    (r : ExecutionResult) {s : Locals} {es : List Expr}
    (hexit : ∀ cmd next, es = .command cmd :: next → s.first = true →
      handleCd (.command cmd) = false → handleExit cmd next = -1) :
    forksOf (executeLoop os r s es).1.calls = forksOf s.world.calls ++ childrenOf es := by
  induction es generalizing s with
  | nil =>
    exact ((forksOf_wait os (closePrev s).world 0 s.children).trans (forksOf_closePrev s)).trans
      (List.append_nil _).symm
  | cons e es ih =>
    have hbody : ∀ cmd, e = .command cmd → s.first = true → handleCd (.command cmd) = false →
        handleExit cmd es = -1 := fun cmd he => hexit cmd es (he ▸ rfl)
    obtain ⟨t, ht, -⟩ := executeExpr_ok hos.succeeds hbody
    have hrest := ih (s := { t with first := false }) fun _ _ _ h => nomatch h
    rw [executeLoop, ht]
    dsimp only at hrest ⊢
    rw [hrest, forksOf_executeExpr ht, List.append_assoc, ← childrenOf_cons]

/-- The calls of the shell for a line. -/
def callsOf (os : System) (line : CommandLine) (r : ExecutionResult) : List SystemCall :=
  (myExecuteCommandLine os .start line r).1.calls

theorem forksOf_callsOf {os : System} {status : Nat → UInt8} (hos : os.Assigns status)
    (line : CommandLine) (r : ExecutionResult) :
    forksOf (callsOf os line r) = forkedCommands line := by
  unfold forkedCommands
  cases hline : forcedCode line with
  | none =>
    rw [if_pos rfl]
    exact forksOf_executeLoop_eq hos r fun cmd next hes _ _ =>
      handleExit_of_not_forced hline cmd next hes
  | some code =>
    rw [if_neg (Option.some_ne_none code), callsOf, (myExecuteCommandLine_exit os _ r hline).1]
    rfl

theorem forksOf_callsOf_isPrefix (os : System) (line : CommandLine) (r : ExecutionResult) :
    forksOf (callsOf os line r) <+: forkedCommands line := by
  unfold forkedCommands
  cases hline : forcedCode line with
  | none =>
    rw [if_pos rfl]
    exact forksOf_executeLoop os r _ line.exprs
  | some code =>
    rw [if_neg (Option.some_ne_none code), callsOf, (myExecuteCommandLine_exit os _ r hline).1]
    exact List.prefix_refl _

/-- Whatever fails, no child of the line comes back to the loops of `main`. -/
def ChildrenStop (line : CommandLine) : Prop :=
  ∀ os r pid cmd prevFd currFd, .fork pid cmd prevFd currFd ∈ callsOf os line r →
    AlwaysStops line cmd prevFd currFd

/-- The children of a line stop exactly if no command of them has a first argument that `atoi` makes
`-1` of. -/
theorem childrenStop_iff (line : CommandLine) :
    ChildrenStop line ↔ ∀ cmd ∈ forkedCommands line, ForcesExit cmd := by
  constructor
  · intro hstop cmd hcmd
    have hos := steadySystem_assigns fun _ => 0
    rw [← forksOf_callsOf hos line .start] at hcmd
    obtain ⟨pid, prevFd, currFd, hcall⟩ := mem_forksOf.mp hcmd
    exact (alwaysStops_iff line cmd prevFd currFd).mp (hstop _ _ pid cmd prevFd currFd hcall)
  · intro hforces os r pid cmd prevFd currFd hcall
    have hmem := mem_forksOf.mpr ⟨pid, prevFd, currFd, hcall⟩
    exact (alwaysStops_iff line cmd prevFd currFd).mpr
      (hforces cmd ((forksOf_callsOf_isPrefix os line r).subset hmem))

/-- The line `nosuch -1`. -/
def minusOneLine : CommandLine :=
  ⟨[.command ⟨[110, 111, 115, 117, 99, 104, 0], [[45, 49, 0]]⟩], .stdout, none, false⟩

/-- Its child goes on as a second shell when there is no such program. -/
theorem minusOneLine_comes_back :
    parserPopNext ⟨[110, 111, 115, 117, 99, 104, 32, 45, 49, 10], 10⟩ =
        .ok (⟨[], 10⟩, .none, some minusOneLine) ∧
      ¬ ChildrenStop minusOneLine := by
  refine ⟨by decide +kernel, fun hstop => ?_⟩
  have hfork : .fork 0 ⟨[110, 111, 115, 117, 99, 104, 0], [[45, 49, 0]]⟩ (-1, -1) (-1, -1) ∈
      callsOf (steadySystem fun _ => 0) minusOneLine .start := by
    decide +kernel
  have hforces := (alwaysStops_iff _ _ _ _).mp (hstop _ _ _ _ _ _ hfork)
  exact hforces [45, 49, 0] rfl (by decide +kernel)

end SystemProgramming.Shell
