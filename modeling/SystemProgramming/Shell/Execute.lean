import SystemProgramming.Shell.Main

/-!
# Executing a command line

`my_execute_command_line` of `solution.c` and the functions it calls, as the process of the shell
runs them.  What the system calls return is a parameter, and the calls are recorded in order.  What
a child does after `fork` is seen only in the status it is waited for with.
-/

open Fallible

namespace SystemProgramming.Shell

/-! ## The system -/

/-- `WIFEXITED` with its `WEXITSTATUS`, or any other end. -/
inductive WaitStatus
  | exited (status : UInt8)
  | signaled
  deriving DecidableEq, Repr

/-- The calls of the shell.  A fork is recorded with the locals that the child reads. -/
inductive SystemCall
  | pipe (fd : Int × Int)
  | close (fd : Int)
  | chdir (path : Option (List UInt8))
  | fork (pid : Nat) (cmd : Command) (prevFd currFd : Int × Int)
  | waitpid (pid : Nat)
  deriving DecidableEq, Repr

/-- The commands and the pipes of a run are numbered, and the system answers by number.  The number
of a command is the pid of its child. -/
structure System where
  pipe : Nat → Option (Int × Int)
  fork : Nat → Bool
  wait : Nat → WaitStatus

structure World where
  commands : Nat
  pipes : Nat
  calls : List SystemCall
  deriving DecidableEq, Repr

def World.start : World := ⟨0, 0, []⟩

def World.call (w : World) (c : SystemCall) : World := { w with calls := w.calls ++ [c] }

@[simp] theorem World.call_commands (w : World) (c : SystemCall) :
    (w.call c).commands = w.commands := rfl

/-! ## C strings -/

/-- The bytes before the terminating zero, which is what `strcmp` compares. -/
def cString (s : List UInt8) : List UInt8 := s.takeWhile (· ≠ 0)

def isDigit (b : UInt8) : Bool := 48 ≤ b && b ≤ 57

/-- The sign of a numeral, and what follows it. -/
def takeSign : List UInt8 → Bool × List UInt8
  | 45 :: s => (true, s)
  | 43 :: s => (false, s)
  | s => (false, s)

/-- `strtol` in base ten, cut to an `int`. -/
def atoi (s : List UInt8) : Int :=
  let signed := takeSign ((cString s).dropWhile isSpace)
  let value : Int := (signed.2.takeWhile isDigit).foldl (fun v d => 10 * v + (d.toNat - 48 : Nat)) 0
  let long : Int := if signed.1 then max (-value) (-2 ^ 63) else min value (2 ^ 63 - 1)
  long.bmod (2 ^ 32)

/-! ## The children -/

/-- The loop of `waitForChildProcesses`, with the last status so far. -/
def waitLoop (os : System) : World → Int → List Nat → World × Int
  | w, lastStatus, [] => (w, lastStatus)
  | w, lastStatus, pid :: pids =>
    let lastStatus := match os.wait pid with
      | .exited status => (status.toNat : Int)
      | .signaled => lastStatus
    waitLoop os (w.call (.waitpid pid)) lastStatus pids

/-- From the head of the list, which is the child forked last. -/
def waitForChildProcesses (os : System) (w : World) (children : List Nat) : World × Int :=
  waitLoop os w 0 children

def handleCd : Expr → Bool
  | .command cmd => cString cmd.exe = [99, 100]
  | _ => false

/-- The code that `exit` forces, or `-1`. -/
def handleExit (cmd : Command) (next : List Expr) : Int :=
  if cString cmd.exe ≠ [101, 120, 105, 116] then -1
  else if next ≠ [] then -1
  else
    match cmd.args with
    | [] => 0
    | arg :: _ => atoi arg

def forceExit (os : System) (w : World) (r : ExecutionResult) (children : List Nat) (code : Int) :
    World × ExecutionResult :=
  ((waitForChildProcesses os w children).1, { r with forceExitCode := code })

def gracefulExit (os : System) (w : World) (r : ExecutionResult) (children : List Nat) :
    World × ExecutionResult :=
  let waited := waitForChildProcesses os w children
  (waited.1, { r with exitCode := waited.2 })

/-! ## The line -/

/-- The locals of `my_execute_command_line`, with the world. -/
structure Locals where
  world : World
  children : List Nat
  prevFd : Int × Int
  currFd : Int × Int
  first : Bool
  deriving DecidableEq, Repr

def addChildProcess (s : Locals) (pid : Nat) : Locals := { s with children := pid :: s.children }

def Locals.call (s : Locals) (c : SystemCall) : Locals := { s with world := s.world.call c }

/-- A pipe is opened at the expression before a `PIPE`. -/
def openPipe (os : System) (s : Locals) : List Expr → Except (Locals × Int) Locals
  | .pipe :: _ =>
    match os.pipe s.world.pipes with
    | none => .error (s, 1)
    | some fd =>
      .ok { s with
        world := { s.world with pipes := s.world.pipes + 1 }.call (.pipe fd), currFd := fd }
  | _ => .ok s

/-- `cd` is a command without a child. -/
def changeDirectory (s : Locals) (cmd : Command) : Locals :=
  { s with world := { s.world with commands := s.world.commands + 1 }.call (.chdir cmd.args.head?) }

/-- `fork`, on the side of the parent. -/
def forkCommand (os : System) (s : Locals) (cmd : Command) : Except (Locals × Int) Locals :=
  let pid := s.world.commands
  if os.fork pid then
    let world := { s.world with commands := pid + 1 }.call (.fork pid cmd s.prevFd s.currFd)
    .ok (addChildProcess { s with world := world } pid)
  else .error (s, 1)

def closePrev (s : Locals) : Locals :=
  let s := if s.prevFd.1 ≠ -1 then s.call (.close s.prevFd.1) else s
  if s.prevFd.2 ≠ -1 then s.call (.close s.prevFd.2) else s

def shiftPipe (s : Locals) : Locals :=
  let s := closePrev s
  { s with prevFd := s.currFd, currFd := (-1, -1) }

/-- The body of the loop.  It fails with the code of a forced exit. -/
def executeExpr (os : System) (s : Locals) (e : Expr) (next : List Expr) :
    Except (Locals × Int) Locals := do
  let s ← openPipe os s next
  match e with
  | .command cmd =>
    if handleCd e then .ok (changeDirectory s cmd)
    else
      let exitCode := handleExit cmd next
      -- `exit` alone on the line ends the shell
      if s.first ∧ exitCode ≠ -1 then .error (s, exitCode)
      else forkCommand os s cmd
  | .pipe => .ok (shiftPipe s)
  | .and => .ok s
  | .or => .ok s

def executeLoop (os : System) (r : ExecutionResult) : Locals → List Expr → World × ExecutionResult
  | s, [] => gracefulExit os (closePrev s).world r s.children
  | s, e :: next =>
    match executeExpr os s e next with
    | .error (s, code) => forceExit os s.world r s.children code
    | .ok s => executeLoop os r { s with first := false } next

def myExecuteCommandLine (os : System) (w : World) (line : CommandLine) (r : ExecutionResult) :
    World × ExecutionResult :=
  executeLoop os r ⟨w, [], (-1, -1), (-1, -1), true⟩ line.exprs

end SystemProgramming.Shell
