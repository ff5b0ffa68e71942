import SystemProgramming.Shell.Execute

/-!
# The exit status of the shell

The status should be that of the last command, or the number given to `exit`.  The children are
waited for from the one forked last to the one forked first, so that the status of a line is that of
its first child; and `main` puts the status of an earlier line over the code that `exit` forced.
-/

open Fallible

namespace SystemProgramming.Shell

/-! ## Commands and their statuses -/

def commandsOf : List Expr → List Command
  | [] => []
  | .command cmd :: es => cmd :: commandsOf es
  | _ :: es => commandsOf es

/-- The commands of these lines, which are numbered in the order they are started in. -/
def commandCount (lines : List CommandLine) : Nat :=
  (lines.map fun line => (commandsOf line.exprs).length).sum

/-- Every call succeeds, and every child exits with the status of its command. -/
structure System.Assigns (os : System) (status : Nat → UInt8) : Prop where
  pipe : ∀ n, os.pipe n ≠ none
  fork : ∀ n, os.fork n = true
  wait : ∀ n, os.wait n = .exited (status n)

/-- Every `pipe` and every `fork` succeeds. -/
structure System.Succeeds (os : System) : Prop where
  pipe : ∀ n, os.pipe n ≠ none
  fork : ∀ n, os.fork n = true

theorem System.Assigns.succeeds {os : System} {status : Nat → UInt8} (h : os.Assigns status) :
    os.Succeeds := ⟨h.pipe, h.fork⟩

/-- The status of the last command of a line, which ends the count up to the line. -/
def lastStatus (status : Nat → UInt8) (before : List CommandLine) (line : CommandLine) : Int :=
  (status (commandCount (before ++ [line]) - 1)).toNat

/-- The status of the first of the commands that is not `cd`, and zero if there is none. -/
def firstChildStatus (status : Nat → UInt8) : Nat → List Command → Int
  | _, [] => 0
  | n, cmd :: cmds =>
    if handleCd (.command cmd) then firstChildStatus status (n + 1) cmds else (status n).toNat

/-- The status of the first child of a line. -/
def firstStatus (status : Nat → UInt8) (before : List CommandLine) (line : CommandLine) : Int :=
  firstChildStatus status (commandCount before) (commandsOf line.exprs)

/-! ## Exits -/

/-- The code of a line that forces the exit of the shell. -/
def forcedCode (line : CommandLine) : Option Int :=
  match line.exprs with
  | [.command cmd] => if handleExit cmd [] ≠ -1 then some (handleExit cmd []) else none
  | _ => none

/-- A number as it is written. -/
def decimal (n : Nat) : List UInt8 := (Nat.toDigits 10 n).map fun c => c.toNat.toUInt8

/-- `exit`, or `exit n` with `n` at most 255. -/
inductive ExitLine : Nat → CommandLine → Prop
  | bare {line : CommandLine}
      (h : line.exprs = [.command ⟨[101, 120, 105, 116, 0], []⟩]) : ExitLine 0 line
  | numeral {n : Nat} {line : CommandLine} (hn : n ≤ 255)
      (h : line.exprs = [.command ⟨[101, 120, 105, 116, 0], [decimal n ++ [0]]⟩]) : ExitLine n line

/-! ## What the status should be, and when it is -/

/-- At the end of the input the status is that of the last command of the last line.  A line `exit`
or `exit n` is the last to run, and the status is its code. -/
structure StatusOfLast (os : System) (status : Nat → UInt8) (chunks : List (List UInt8))
    (lines : List CommandLine) : Prop where
  endOfInput : ∀ before line, lines = before ++ [line] → (∀ l ∈ lines, forcedCode l = none) →
    shellMain (myExecuteCommandLine os) .start chunks =
      (lines.map Event.execute, .ok (lastStatus status before line))
  exit : ∀ before line later n, lines = before ++ line :: later →
    (∀ l ∈ before, forcedCode l = none) → ExitLine n line →
    shellMain (myExecuteCommandLine os) .start chunks =
      ((before ++ [line]).map Event.execute, .ok n)

/-- Where the input ends, the first child of the last line has the status of its last command.
Where `exit` ends it, there is no earlier line, or the first child of the last of them has the
status `n`. -/
structure FirstChildAgrees (status : Nat → UInt8) (lines : List CommandLine) : Prop where
  endOfInput : ∀ before line, lines = before ++ [line] → (∀ l ∈ lines, forcedCode l = none) →
    firstStatus status before line = lastStatus status before line
  exit : ∀ before line prev later n, lines = before ++ prev :: line :: later →
    (∀ l ∈ before ++ [prev], forcedCode l = none) → ExitLine n line →
    firstStatus status before prev = n

/-! ## One line -/

section

variable {os : System} {status : Nat → UInt8}

/-- The statuses of children, from the head of the list. -/
def statuses (status : Nat → UInt8) (pids : List Nat) : List Int :=
  pids.map fun pid => ((status pid).toNat : Int)

theorem waitLoop_status (hos : os.Assigns status) (w : World) (last : Int) (pids : List Nat) :
    (waitLoop os w last pids).1.commands = w.commands ∧
      (waitLoop os w last pids).2 = (statuses status pids).getLastD last := by
  induction pids generalizing w last with
  | nil => exact ⟨rfl, rfl⟩
  | cons pid pids ih =>
    rw [waitLoop, hos.wait, statuses, List.map_cons, List.getLastD_cons]
    exact ih (w.call (.waitpid pid)) (status pid).toNat

theorem openPipe_ok (hos : os.Succeeds) (s : Locals) (next : List Expr) :
    ∃ s', openPipe os s next = .ok s' ∧ s'.children = s.children ∧ s'.first = s.first ∧
      s'.world.commands = s.world.commands := by
  unfold openPipe
  split
  · obtain ⟨fd, hfd⟩ := Option.ne_none_iff_exists'.mp (hos.pipe s.world.pipes)
    rw [hfd]
    exact ⟨_, rfl, rfl, rfl, rfl⟩
  · exact ⟨s, rfl, rfl, rfl, rfl⟩

@[simp] theorem closePrev_children (s : Locals) : (closePrev s).children = s.children := by
  unfold closePrev
  dsimp only
  split <;> split <;> rfl

@[simp] theorem closePrev_commands (s : Locals) :
    (closePrev s).world.commands = s.world.commands := by
  unfold closePrev
  dsimp only
  split <;> split <;> rfl

/-- Only a command that is not `cd` has a child, whose number is that of the command. -/
theorem executeExpr_ok (hos : os.Succeeds) {s : Locals} {e : Expr} {next : List Expr}
    (hexit : ∀ cmd, e = .command cmd → s.first = true → handleCd (.command cmd) = false →
      handleExit cmd next = -1) :
    ∃ s', executeExpr os s e next = .ok s' ∧
      s'.world.commands = s.world.commands + (commandsOf [e]).length ∧
      s'.children = match commandsOf [e] with
        | cmd :: _ => if handleCd (.command cmd) then s.children
          else s.world.commands :: s.children
        | [] => s.children := by
  obtain ⟨t, ht, hchildren, hfirst, hcommands⟩ := openPipe_ok hos s next
  unfold executeExpr
  rw [ht, ok_bind]
  cases e with
  | command cmd =>
    by_cases hcd : handleCd (.command cmd) = true
    · simp only [hcd, if_true, commandsOf]
      refine ⟨_, rfl, ?_, hchildren⟩
      rw [changeDirectory, World.call_commands, hcommands, List.length_singleton]
    · rw [Bool.not_eq_true] at hcd
      -- A forced exit is excluded, so the command is forked.
      have hnot : ¬ (t.first = true ∧ handleExit cmd next ≠ -1) :=
        fun h => h.2 (hexit cmd rfl (hfirst ▸ h.1) hcd)
      simp only [hcd, hnot, if_false, commandsOf, forkCommand, hos.fork, if_true,
        Bool.false_eq_true]
      refine ⟨_, rfl, ?_, ?_⟩
      · rw [addChildProcess, World.call_commands, hcommands, List.length_singleton]
      · rw [addChildProcess, hchildren, hcommands]
  | pipe =>
    refine ⟨_, rfl, ?_, ?_⟩
    · rw [shiftPipe, closePrev_commands, hcommands]
      rfl
    · rw [shiftPipe, closePrev_children, hchildren]
      rfl
  | and => exact ⟨t, rfl, hcommands, hchildren⟩
  | or => exact ⟨t, rfl, hcommands, hchildren⟩

theorem commandsOf_cons (e : Expr) (es : List Expr) :
    commandsOf (e :: es) = commandsOf [e] ++ commandsOf es := by
  cases e <;> rfl

/-- The status of the rest of a line is that of the oldest child so far, or else that of the first
child to come. -/
theorem executeLoop_status (hos : os.Assigns status) (r : ExecutionResult) {s : Locals}
    {es : List Expr}
    (hexit : ∀ cmd next, es = .command cmd :: next → s.first = true →
      handleCd (.command cmd) = false → handleExit cmd next = -1) :
    (executeLoop os r s es).1.commands = s.world.commands + (commandsOf es).length ∧
      (executeLoop os r s es).2 = { r with
        exitCode := (statuses status s.children).getLastD
          (firstChildStatus status s.world.commands (commandsOf es)) } := by
  induction es generalizing s with
  | nil =>
    have hwait := waitLoop_status hos (closePrev s).world 0 s.children
    simp only [executeLoop, gracefulExit, waitForChildProcesses, hwait]
    exact ⟨closePrev_commands s, rfl⟩
  | cons e es ih =>
    have hbody : ∀ cmd, e = .command cmd → s.first = true → handleCd (.command cmd) = false →
        handleExit cmd es = -1 := fun cmd he => hexit cmd es (he ▸ rfl)
    obtain ⟨t, ht, hcommands, hchildren⟩ := executeExpr_ok hos.succeeds hbody
    have hrest := ih (s := { t with first := false }) fun _ _ _ h => nomatch h
    simp only [executeLoop, ht]
    rw [hrest.1, hrest.2, commandsOf_cons, List.length_append]
    refine ⟨by rw [hcommands]; omega, ?_⟩
    rw [hcommands, hchildren]
    cases e with
    | command cmd =>
      by_cases hcd : handleCd (.command cmd) = true
      · simp only [commandsOf, hcd, if_true, List.singleton_append, firstChildStatus,
          List.length_singleton]
      · simp only [commandsOf, hcd, if_false, List.singleton_append, firstChildStatus,
          Bool.false_eq_true, statuses, List.map_cons, List.getLastD_cons]
    | _ => rfl

/-- Only a command that is alone in its line forces the exit. -/
theorem handleExit_of_not_forced {line : CommandLine} (h : forcedCode line = none) (cmd : Command)
    (next : List Expr) (hes : line.exprs = .command cmd :: next) : handleExit cmd next = -1 := by
  by_contra hcode
  cases next with
  | nil =>
    rw [forcedCode, hes] at h
    simp only [hcode, ne_eq, not_false_eq_true, if_true] at h
    cases h
  | cons e next =>
    apply hcode
    unfold handleExit
    split <;> rfl

/-- A line that does not force the exit has the status of its first child. -/
theorem myExecuteCommandLine_status (hos : os.Assigns status) (w : World) {line : CommandLine}
    (r : ExecutionResult) (hline : forcedCode line = none) :
    (myExecuteCommandLine os w line r).1.commands = w.commands + (commandsOf line.exprs).length ∧
      (myExecuteCommandLine os w line r).2 =
        { r with exitCode := firstChildStatus status w.commands (commandsOf line.exprs) } := by
  exact executeLoop_status hos r fun cmd next hes _ _ => handleExit_of_not_forced hline cmd next hes

theorem handleCd_eq_false {cmd : Command} {next : List Expr} (h : handleExit cmd next ≠ -1) :
    handleCd (.command cmd) = false := by
  unfold handleExit at h
  by_cases hname : cString cmd.exe = [101, 120, 105, 116]
  · rw [handleCd, hname]
    rfl
  · rw [if_pos hname] at h
    exact absurd rfl h

/-- A line that forces the exit runs nothing. -/
theorem myExecuteCommandLine_exit (os : System) (w : World) {line : CommandLine}
    (r : ExecutionResult) {code : Int}
    (hline : forcedCode line = some code) :
    myExecuteCommandLine os w line r = (w, { r with forceExitCode := code }) ∧ code ≠ -1 := by
  unfold forcedCode at hline
  split at hline
  · next cmd hes =>
    by_cases hcode : handleExit cmd [] = -1
    · simp [hcode] at hline
    · rw [if_pos hcode, Option.some_inj] at hline
      subst hline
      refine ⟨?_, hcode⟩
      have hcd := handleCd_eq_false hcode
      simp only [myExecuteCommandLine, hes, executeLoop, executeExpr, openPipe, ok_bind, hcd,
        Bool.false_eq_true, if_false, hcode, ne_eq, not_false_eq_true, and_self, if_true]
      rfl
  · cases hline

/-! ## All lines -/

/-- The outputs of a parser that yields these lines. -/
def poppedLines (lines : List CommandLine) : List Popped := lines.map fun line => (.none, some line)

/-- Lines that force no exit are all executed, and the exit code is that of the last of them. -/
theorem serve_lines (hos : os.Assigns status) {lines : List CommandLine}
    (hlines : ∀ l ∈ lines, forcedCode l = none) {w : World} {r : ExecutionResult}
    (hr : r.forceExitCode = -1) :
    ∃ w' code, serve (myExecuteCommandLine os) w r (poppedLines lines) =
        (lines.map Event.execute, w', ⟨code, -1⟩) ∧
      w'.commands = w.commands + commandCount lines ∧
      (lines = [] → code = r.exitCode) ∧
      ∀ before line, lines = before ++ [line] →
        code = firstChildStatus status (w.commands + commandCount before)
          (commandsOf line.exprs) := by
  induction lines generalizing w r with
  | nil =>
    refine ⟨w, r.exitCode, ?_, rfl, fun _ => rfl, fun before line h => ?_⟩
    · rw [← hr]
      rfl
    · exact absurd h.symm (List.append_ne_nil_of_right_ne_nil _ (List.cons_ne_nil _ _))
  | cons line lines ih =>
    -- the line leaves the status of its first child
    have hstep := myExecuteCommandLine_status hos w r (hlines line List.mem_cons_self)
    rcases hdone : myExecuteCommandLine os w line r with ⟨w₁, r₁⟩
    rw [hdone] at hstep
    obtain ⟨hcount, rfl⟩ := hstep
    obtain ⟨w', code, hserve, hcount', hnil, hlast⟩ :=
      ih (fun l hl => hlines l (List.mem_cons_of_mem _ hl)) (w := w₁)
        (r := ⟨firstChildStatus status w.commands (commandsOf line.exprs), r.forceExitCode⟩) hr
    refine ⟨w', code, ?_, ?_, fun h => absurd h (List.cons_ne_nil _ _), fun before last h => ?_⟩
    · simp only [poppedLines, List.map_cons, serve, hdone, hr, ne_eq, not_true_eq_false, if_false]
      rw [hr] at hserve
      exact congrArg (Event.before (.execute line)) hserve
    · rw [hcount', hcount, Nat.add_assoc]
      rfl
    · -- the last line is this one, or one of the others
      cases before with
      | nil =>
        obtain ⟨rfl, rfl⟩ := List.cons.inj h
        exact hnil rfl
      | cons l before =>
        obtain ⟨rfl, rfl⟩ := List.cons.inj h
        rw [hlast before last rfl, hcount, Nat.add_assoc]
        rfl

/-- The line that forces the exit is the last to be executed. -/
theorem serve_exit (hos : os.Assigns status) {before later : List CommandLine}
    {line : CommandLine} {code : Int} (hbefore : ∀ l ∈ before, forcedCode l = none)
    (hline : forcedCode line = some code) :
    ∃ w' last, serve (myExecuteCommandLine os) .start .start
        (poppedLines (before ++ line :: later)) =
          ((before ++ [line]).map Event.execute, w', ⟨last, code⟩) ∧
      (before = [] → last = -1) ∧
      ∀ first prev, before = first ++ [prev] → last = firstStatus status first prev := by
  obtain ⟨w₁, last, hserve, -, hnil, hlast⟩ :=
    serve_lines hos hbefore (w := .start) (r := .start) rfl
  obtain ⟨hexit, hcode⟩ := myExecuteCommandLine_exit os w₁ ⟨last, -1⟩ hline
  refine ⟨(myExecuteCommandLine os w₁ line ⟨last, -1⟩).1, last, ?_, hnil,
    fun first prev h => ?_⟩
  · rw [poppedLines, List.map_append, List.map_cons, serve_append _ _ rfl]
    simp only [poppedLines] at hserve
    simp only [hserve, if_true, serve, hexit, hcode, ne_eq, not_false_eq_true, List.map_append,
      List.map_cons, List.map_nil]
  · rw [hlast first prev h, World.start, Nat.zero_add]
    rfl

theorem errorFree_lines (lines : List CommandLine) (w : World) (r : ExecutionResult) :
    ErrorFree (myExecuteCommandLine os) w r (poppedLines lines) := by
  induction lines generalizing w r with
  | nil => trivial
  | cons line lines ih => exact fun _ => ih _ _

/-- `main` serves the lines and merges the two codes. -/
theorem shellMain_lines {chunks : List (List UInt8)} {lines : List CommandLine} {p : Parser}
    (hlines : session parserNew chunks = (poppedLines lines, .ok p)) :
    shellMain (myExecuteCommandLine os) .start chunks =
      ((serve (myExecuteCommandLine os) .start .start (poppedLines lines)).1,
        .ok (serve (myExecuteCommandLine os) .start .start (poppedLines lines)).2.2.status) := by
  obtain ⟨q, hmain⟩ := mainLoop_errorFree (s := ⟨parserNew, World.start, .start⟩) rfl hlines
    (errorFree_lines lines .start .start)
  unfold shellMain
  rw [hmain]
  rfl

/-! ## The two ends of a run -/

theorem firstChildStatus_nonneg (status : Nat → UInt8) (n : Nat) (cmds : List Command) :
    0 ≤ firstChildStatus status n cmds := by
  induction cmds generalizing n with
  | nil => exact le_refl _
  | cons cmd cmds ih =>
    unfold firstChildStatus
    split
    · exact ih (n + 1)
    · exact Int.natCast_nonneg _

/-- At the end of the input the status is that of the first child of the last line. -/
theorem shellMain_endOfInput (hos : os.Assigns status) {chunks : List (List UInt8)}
    {lines : List CommandLine} {p : Parser}
    (hlines : session parserNew chunks = (poppedLines lines, .ok p))
    {before : List CommandLine} {line : CommandLine} (heq : lines = before ++ [line])
    (hnone : ∀ l ∈ lines, forcedCode l = none) :
    shellMain (myExecuteCommandLine os) .start chunks =
      (lines.map Event.execute, .ok (firstStatus status before line)) := by
  obtain ⟨w', code, hserve, -, -, hlast⟩ := serve_lines hos hnone (w := .start) (r := .start) rfl
  have hcode : code = firstStatus status before line := by
    rw [hlast before line heq, World.start, Nat.zero_add]
    rfl
  have hpos : firstStatus status before line ≠ -1 := by
    have h := firstChildStatus_nonneg status (commandCount before)
      (commandsOf line.exprs)
    unfold firstStatus
    omega
  rw [shellMain_lines hlines, hserve, hcode]
  simp only [ExecutionResult.status, ne_eq, hpos, not_false_eq_true, if_true]

/-- After a forced exit the status is the code if nothing ran before, and otherwise that of the first
child of the line before. -/
theorem shellMain_exit (hos : os.Assigns status) {chunks : List (List UInt8)}
    {lines : List CommandLine} {p : Parser}
    (hlines : session parserNew chunks = (poppedLines lines, .ok p))
    {before later : List CommandLine} {line : CommandLine} {code : Int}
    (heq : lines = before ++ line :: later) (hbefore : ∀ l ∈ before, forcedCode l = none)
    (hline : forcedCode line = some code) :
    ∃ result, shellMain (myExecuteCommandLine os) .start chunks =
        ((before ++ [line]).map Event.execute, .ok result) ∧
      (before = [] → result = code) ∧
      ∀ first prev, before = first ++ [prev] → result = firstStatus status first prev := by
  obtain ⟨w', last, hserve, hnil, hlast⟩ := serve_exit hos hbefore hline
  rw [shellMain_lines hlines, heq, hserve]
  refine ⟨_, rfl, fun h => ?_, fun first prev h => ?_⟩
  · rw [hnil h]
    have hcode := (myExecuteCommandLine_exit os .start .start hline).2
    simp only [ExecutionResult.status, ne_eq, hcode, not_false_eq_true, if_true,
      not_true_eq_false, if_false]
  · have hpos := firstChildStatus_nonneg status (commandCount first)
      (commandsOf prev.exprs)
    have hne : last ≠ -1 := by
      rw [hlast first prev h]
      unfold firstStatus
      omega
    simp only [ExecutionResult.status, ne_eq, hne, not_false_eq_true, if_true]
    exact hlast first prev h

/-! ## The status of the last command -/

/-- `exit` takes the number that is written. -/
theorem atoi_decimal (n : Nat) (hn : n ≤ 255) : atoi (decimal n ++ [0]) = n := by
  have hall : ∀ m : Fin 256, atoi (decimal m ++ [0]) = (m : Nat) := by decide +kernel
  exact hall ⟨n, by omega⟩

theorem ExitLine.forcedCode {n : Nat} {line : CommandLine} (h : ExitLine n line) :
    forcedCode line = some (n : Int) := by
  cases h with
  | bare h =>
    rw [Shell.forcedCode, h]
    rfl
  | numeral hn h =>
    have hcode : handleExit ⟨[101, 120, 105, 116, 0], [decimal n ++ [0]]⟩ [] = n :=
      atoi_decimal n hn
    rw [Shell.forcedCode, h]
    simp only [hcode]
    rw [if_pos (by omega)]

/-- The shell exits with the status of the last command, or with the number given to `exit`, exactly
if the first child of the line that decides has that status. -/
theorem exitStatus_iff (hos : os.Assigns status) (chunks : List (List UInt8))
    (lines : List CommandLine) (p : Parser)
    (hlines : session parserNew chunks = (poppedLines lines, .ok p)) :
    StatusOfLast os status chunks lines ↔ FirstChildAgrees status lines := by
  constructor
  · intro h
    refine ⟨fun before line heq hnone => ?_, fun before line prev later n heq hbefore hline => ?_⟩
    · have hmain := shellMain_endOfInput hos hlines heq hnone
      rw [h.endOfInput before line heq hnone] at hmain
      exact (Except.ok.inj (Prod.mk.inj hmain).2).symm
    · -- The status `exit` may fall back to is that of the line before it.
      have heq' : lines = (before ++ [prev]) ++ line :: later := by
        rw [heq, List.append_assoc, List.singleton_append]
      obtain ⟨result, hmain, -, hresult⟩ :=
        shellMain_exit hos hlines heq' hbefore hline.forcedCode
      rw [h.exit _ line later n heq' hbefore hline] at hmain
      rw [← hresult before prev rfl]
      exact (Except.ok.inj (Prod.mk.inj hmain).2).symm
  · intro h
    refine ⟨fun before line heq hnone => ?_, fun before line later n heq hbefore hline => ?_⟩
    · rw [shellMain_endOfInput hos hlines heq hnone, h.endOfInput before line heq hnone]
    · obtain ⟨result, hmain, hnil, hresult⟩ :=
        shellMain_exit hos hlines heq hbefore hline.forcedCode
      rw [hmain]
      rcases List.eq_nil_or_concat before with hempty | ⟨first, prev, rfl⟩
      · rw [hnil hempty]
      · rw [hresult first prev List.concat_eq_append, h.exit first line prev later n]
        · rw [heq, List.concat_eq_append, List.append_assoc, List.singleton_append]
        · rwa [List.concat_eq_append] at hbefore
        · exact hline

end

/-- A system in which every call succeeds. -/
def steadySystem (status : Nat → UInt8) : System :=
  ⟨fun n => some (2 * n + 3, 2 * n + 4), fun _ => true, fun n => .exited (status n)⟩

theorem steadySystem_assigns (status : Nat → UInt8) : (steadySystem status).Assigns status :=
  ⟨fun _ => Option.some_ne_none _, fun _ => rfl, fun _ => rfl⟩

/-- The line `a`, ended by `exit 7`. -/
theorem exitStatus_iff_two :
    StatusOfLast (steadySystem fun _ => 7) (fun _ => 7) [[97, 10, 101, 120, 105, 116, 32, 55, 10]]
        [⟨[.command ⟨[97, 0], []⟩], .stdout, none, false⟩,
          ⟨[.command ⟨[101, 120, 105, 116, 0], [[55, 0]]⟩], .stdout, none, false⟩] ↔
      FirstChildAgrees (fun _ => 7)
        [⟨[.command ⟨[97, 0], []⟩], .stdout, none, false⟩,
          ⟨[.command ⟨[101, 120, 105, 116, 0], [[55, 0]]⟩], .stdout, none, false⟩] :=
  exitStatus_iff (steadySystem_assigns _) _ _ ⟨[], 9⟩ (by decide +kernel)

/-- Only the first command fails. -/
def firstFails (n : Nat) : UInt8 := if n = 0 then 1 else 0

/-- The line `a | b` exits with the status of `a`, and `exit` after `a` with the status of `a`. -/
theorem first_child_decides :
    (session parserNew [[97, 124, 98, 10]] =
        (poppedLines [⟨[.command ⟨[97, 0], []⟩, .pipe, .command ⟨[98, 0], []⟩], .stdout, none, false⟩],
          .ok ⟨[], 4⟩) ∧
      ¬ StatusOfLast (steadySystem firstFails) firstFails [[97, 124, 98, 10]]
        [⟨[.command ⟨[97, 0], []⟩, .pipe, .command ⟨[98, 0], []⟩], .stdout, none, false⟩]) ∧
    session parserNew [[97, 10, 101, 120, 105, 116, 10]] =
        (poppedLines [⟨[.command ⟨[97, 0], []⟩], .stdout, none, false⟩,
          ⟨[.command ⟨[101, 120, 105, 116, 0], []⟩], .stdout, none, false⟩], .ok ⟨[], 7⟩) ∧
      ¬ StatusOfLast (steadySystem firstFails) firstFails [[97, 10, 101, 120, 105, 116, 10]]
        [⟨[.command ⟨[97, 0], []⟩], .stdout, none, false⟩,
          ⟨[.command ⟨[101, 120, 105, 116, 0], []⟩], .stdout, none, false⟩] := by
  refine ⟨⟨by decide +kernel, fun h => ?_⟩, by decide +kernel, fun h => ?_⟩
  · exact absurd (h.endOfInput [] _ rfl (by decide +kernel)) (by decide +kernel)
  · exact absurd (h.exit [_] _ [] 0 rfl (by decide +kernel) (.bare rfl)) (by decide +kernel)

end SystemProgramming.Shell
