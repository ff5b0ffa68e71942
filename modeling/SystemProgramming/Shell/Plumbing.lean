import SystemProgramming.Lib.Descriptors
import SystemProgramming.Lib.Runs
import SystemProgramming.Shell.Child
import SystemProgramming.Shell.Faithful

/-!
# The pipes of a line

The descriptors of the shell and of its children, as the calls of `my_execute_command_line` leave
them.  Between two expressions of a line the shell has at most two pipes open: the one shifted to
`prev_fd` by the last `PIPE`, and the one of the next `PIPE`, at which it stands, in `curr_fd`.
-/

open Fallible Descriptors Runs

namespace SystemProgramming.Shell

/-! ## Descriptors -/

/-- What a descriptor refers to: what the shell was started with, an end of a pipe, by the number of
the pipe in its line, or the file that the output goes to. -/
inductive Object
  | inherited (fd : Int)
  | readEnd (pipe : Nat)
  | writeEnd (pipe : Nat)
  | outFile
  deriving DecidableEq, Repr

def Object.isPipeEnd : Object → Bool
  | .readEnd _ => true
  | .writeEnd _ => true
  | _ => false

/-- The descriptors of the shell, with what `close` was called on. -/
structure Process where
  table : Table Int Object
  pipes : Nat
  closed : List (Option Object)

/-- The descriptors that the shell has for itself. -/
def ownTable (own : List Int) : Table Int Object :=
  fun fd => if fd ∈ own then some (.inherited fd) else none

def Process.start (own : List Int) : Process := ⟨ownTable own, 0, []⟩

def Process.step (d : Process) : SystemCall → Process
  | .pipe fd => { d with
      table := install (install d.table fd.1 (.readEnd d.pipes)) fd.2 (.writeEnd d.pipes)
      pipes := d.pipes + 1 }
  | .close fd => { d with table := close d.table fd, closed := d.closed ++ [d.table fd] }
  | .chdir _ => d
  | .fork _ _ _ _ => d
  | .waitpid _ => d

/-- `pipe` returns two descriptors that are not open. -/
def Process.Fresh (d : Process) : SystemCall → Prop
  | .pipe fd => 0 ≤ fd.1 ∧ 0 ≤ fd.2 ∧ fd.1 ≠ fd.2 ∧ d.table fd.1 = none ∧ d.table fd.2 = none
  | _ => True

def shellAfter (own : List Int) (calls : List SystemCall) : Process :=
  calls.foldl Process.step (.start own)

theorem shellAfter_snoc (own : List Int) (calls : List SystemCall) (c : SystemCall) :
    shellAfter own (calls ++ [c]) = (shellAfter own calls).step c := by
  rw [shellAfter, List.foldl_append]
  rfl

def FreshPipes (own : List Int) (calls : List SystemCall) : Prop :=
  Along Process.step Process.Fresh (.start own) calls

/-- The descriptors of a child, which starts with those of the shell. -/
def childStep (t : Table Int Object) : ChildCall → Table Int Object
  | .close fd => close t fd
  | .dup2 fd onto => dup2 t fd onto
  | .openFile _ _ (some fd) => install t fd .outFile
  | .openFile _ _ none => t
  | .execvp _ => t
  | .waitpid _ => t

/-- `open` returns a descriptor that is not open. -/
def FreshFile (t : Table Int Object) : ChildCall → Prop
  | .openFile _ _ (some fd) => 0 ≤ fd ∧ t fd = none
  | _ => True

/-! ## The pipes that are open -/

/-- The number of pipes is that of the `PIPE` operators so far. -/
def pipesIn (before : List Expr) : Nat := before.count .pipe

/-- The pipe of the last `PIPE`. -/
def lastPipe (before : List Expr) : Option Nat :=
  if .pipe ∈ before then some (pipesIn before - 1) else none

/-- The pipe of a `PIPE` that follows. -/
def nextPipe (before after : List Expr) : Option Nat :=
  if after.head? = some .pipe then some (pipesIn before) else none

/-- A pair of descriptors stands for a pipe, or is unused. -/
def IsPair (fd : Int × Int) : Option Nat → Prop
  | none => fd = (-1, -1)
  | some _ => fd.1 ≠ -1 ∧ fd.2 ≠ -1

def endsAt (fd : Int × Int) : Option Nat → List (Int × Object)
  | none => []
  | some k => [(fd.1, .readEnd k), (fd.2, .writeEnd k)]

/-- The ends of the first pipes of a line. -/
def pipeEnds (n : Nat) : List Object :=
  (List.range n).flatMap fun k => [.readEnd k, .writeEnd k]

theorem pipeEnds_succ (n : Nat) :
    pipeEnds (n + 1) = pipeEnds n ++ [Object.readEnd n, .writeEnd n] := by
  rw [pipeEnds, List.range_succ, List.flatMap_append]
  rfl

/-- After `n` pipes were opened, the two pipes are open on top of what the shell has for itself, and
every other end was closed, once. -/
structure Holding (own : List Int) (n : Nat) (prevFd : Int × Int) (prev : Option Nat)
    (currFd : Int × Int) (curr : Option Nat) (calls : List SystemCall) : Prop where
  prevPair : IsPair prevFd prev
  currPair : IsPair currFd curr
  pipes : (shellAfter own calls).pipes = n
  table : Over (ownTable own) (endsAt prevFd prev ++ endsAt currFd curr)
    (shellAfter own calls).table
  closed : ((shellAfter own calls).closed ++
    (endsAt prevFd prev ++ endsAt currFd curr).map (some ∘ Prod.snd)).Perm
      ((pipeEnds n).map some)

section

variable {own : List Int} {n : Nat} {prevFd currFd : Int × Int} {prev curr : Option Nat}
  {calls : List SystemCall}

theorem Holding.start (own : List Int) : Holding own 0 (-1, -1) none (-1, -1) none [] where
  prevPair := rfl
  currPair := rfl
  pipes := rfl
  table := .refl _
  closed := .refl _

/-- A call that has nothing to do with descriptors. -/
theorem Holding.other (h : Holding own n prevFd prev currFd curr calls) {c : SystemCall}
    (hc : ∀ d : Process, d.step c = d) :
    Holding own n prevFd prev currFd curr (calls ++ [c]) := by
  have hafter : shellAfter own (calls ++ [c]) = shellAfter own calls :=
    (shellAfter_snoc own calls c).trans (hc _)
  exact ⟨h.prevPair, h.currPair, hafter ▸ h.pipes, hafter ▸ h.table, hafter ▸ h.closed⟩

/-- A pipe is opened while there is none in `curr_fd`. -/
theorem Holding.pipe (h : Holding own n prevFd prev currFd none calls) {fd : Int × Int}
    (hfresh : (shellAfter own calls).Fresh (.pipe fd)) :
    Holding own (n + 1) prevFd prev fd (some n) (calls ++ [SystemCall.pipe fd]) := by
  obtain ⟨hread, hwrite, hne, hfree₁, hfree₂⟩ := hfresh
  have htable := h.table
  have hclosed := h.closed
  rw [endsAt, List.append_nil] at htable hclosed
  have hpipes := h.pipes
  refine ⟨h.prevPair, ⟨by omega, by omega⟩, ?_, ?_, ?_⟩
  · rw [shellAfter_snoc, Process.step, hpipes]
  · rw [shellAfter_snoc, Process.step, hpipes]
    have hboth : Over (ownTable own) ((fd.2, .writeEnd n) :: (fd.1, .readEnd n) ::
        endsAt prevFd prev) _ :=
      (htable.install hfree₁).install (a := .writeEnd n) ((install_of_ne hne.symm).trans hfree₂)
    refine hboth.perm (List.perm_append_comm.trans ?_)
    exact List.Perm.swap _ _ _
  · rw [shellAfter_snoc, Process.step, pipeEnds_succ, List.map_append, List.map_append,
      ← List.append_assoc]
    exact hclosed.append_right _

/-- The head of what is held is closed. -/
theorem Holding.close_step {held : List (Int × Object)} {e : Int × Object} {all : List Object}
    (htable : Over (ownTable own) (e :: held) (shellAfter own calls).table)
    (hclosed : ((shellAfter own calls).closed ++
      (e :: held).map (some ∘ Prod.snd)).Perm (all.map some)) :
    Over (ownTable own) held (shellAfter own (calls ++ [SystemCall.close e.1])).table ∧
      ((shellAfter own (calls ++ [SystemCall.close e.1])).closed ++
        held.map (some ∘ Prod.snd)).Perm (all.map some) ∧
      (shellAfter own (calls ++ [SystemCall.close e.1])).pipes = (shellAfter own calls).pipes := by
  rw [shellAfter_snoc, Process.step]
  refine ⟨htable.close, ?_, rfl⟩
  dsimp only
  rw [htable.refers e List.mem_cons_self, List.append_assoc]
  exact hclosed

/-- `prev_fd` is closed. -/
theorem Holding.closePrev (h : Holding own n prevFd prev currFd curr calls) :
    Holding own n (-1, -1) none currFd curr (calls ++ closesOf prevFd) := by
  have hprev := h.prevPair
  cases prev with
  | none =>
    obtain rfl : prevFd = (-1, -1) := hprev
    rw [show closesOf (-1, -1) = [] from rfl, List.append_nil]
    exact h
  | some k =>
    obtain ⟨hread, hwrite⟩ := hprev
    obtain ⟨htable₁, hclosed₁, hpipes₁⟩ := close_step h.table h.closed
    obtain ⟨htable₂, hclosed₂, hpipes₂⟩ := close_step htable₁ hclosed₁
    have hcalls : calls ++ closesOf prevFd =
        calls ++ [SystemCall.close prevFd.1] ++ [SystemCall.close prevFd.2] := by
      rw [closesOf, if_pos hread, if_pos hwrite, List.append_assoc]
    rw [hcalls]
    exact ⟨rfl, h.currPair, hpipes₂.trans (hpipes₁.trans h.pipes), htable₂, hclosed₂⟩

/-- `curr_fd` is shifted to `prev_fd`. -/
theorem Holding.shift (h : Holding own n (-1, -1) none currFd curr calls) :
    Holding own n currFd curr (-1, -1) none calls where
  prevPair := h.currPair
  currPair := rfl
  pipes := h.pipes
  table := h.table.perm (.of_eq (List.append_nil _))
  closed := by
    have hclosed := h.closed
    rwa [show endsAt (-1, -1) none ++ endsAt currFd curr =
      endsAt currFd curr ++ endsAt (-1, -1) none from (List.append_nil _).symm] at hclosed

end

/-! ## The loop -/

/-- The loop takes an expression and goes on. -/
inductive LoopStep (os : System) : Locals × List Expr → Expr → Locals × List Expr → Prop
  | taken {s t : Locals} {e : Expr} {next : List Expr} (h : executeExpr os s e next = .ok t) :
      LoopStep os (s, e :: next) e ({ t with first := false }, next)

theorem LoopStep.eq {os : System} {x y : Locals × List Expr} {e : Expr} (h : LoopStep os x e y)
    (r : ExecutionResult) :
    x.2 = e :: y.2 ∧ executeLoop os r x.1 x.2 = executeLoop os r y.1 y.2 := by
  cases h with
  | taken h => exact ⟨rfl, by rw [executeLoop, h]⟩

theorem LoopStep.first {os : System} {x y : Locals × List Expr} {e : Expr}
    (h : LoopStep os x e y) : y.1.first = false := by
  cases h
  rfl

/-- After the first expression `first` is never set again. -/
theorem run_first {os : System} {x y : Locals × List Expr} {e : Expr} {before : List Expr}
    (h : Runs.Run (LoopStep os) x (e :: before) y) : y.1.first = false := by
  cases h with
  | cons hstep hrest => exact hrest.invariant (fun _ _ _ _ hst => hst.first) hstep.first

/-- The loop goes on from wherever it has come to. -/
theorem executeLoop_run {os : System} {x y : Locals × List Expr} {before : List Expr}
    (h : Runs.Run (LoopStep os) x before y) (r : ExecutionResult) :
    x.2 = before ++ y.2 ∧ executeLoop os r x.1 x.2 = executeLoop os r y.1 y.2 := by
  induction h with
  | nil => exact ⟨rfl, rfl⟩
  | cons hstep _ ih =>
    obtain ⟨hrest, hloop⟩ := hstep.eq r
    rw [hloop, hrest, ih.1]
    exact ⟨rfl, ih.1 ▸ ih.2⟩

/-- The locals that a line is begun with. -/
def Locals.start : Locals := ⟨.start, [], (-1, -1), (-1, -1), true⟩

/-- When every call succeeds the loop comes to every place of the line. -/
theorem run_exists {os : System} (hos : os.Succeeds) (before : List Expr) {after : List Expr}
    {s : Locals}
    (hexit : ∀ cmd next, before ++ after = .command cmd :: next → s.first = true →
      handleCd (.command cmd) = false → handleExit cmd next = -1) :
    ∃ t, Runs.Run (LoopStep os) (s, before ++ after) before (t, after) := by
  induction before generalizing s with
  | nil => exact ⟨s, .nil _⟩
  | cons e before ih =>
    have hbody : ∀ cmd, e = .command cmd → s.first = true → handleCd (.command cmd) = false →
        handleExit cmd (before ++ after) = -1 := fun cmd he => hexit cmd _ (he ▸ rfl)
    obtain ⟨t, ht, -⟩ := executeExpr_ok hos hbody
    obtain ⟨u, hu⟩ := ih (s := { t with first := false }) fun _ _ _ h => nomatch h
    exact ⟨u, .cons (.taken ht) hu⟩

/-- What every call of the loop keeps. -/
structure Keeps (os : System) (P : World → Prop) : Prop where
  close : ∀ w fd, P w → P (w.call (.close fd))
  chdir : ∀ w path, P w → P ({ w with commands := w.commands + 1 }.call (.chdir path))
  fork : ∀ w cmd prevFd currFd, P w →
    P ({ w with commands := w.commands + 1 }.call (.fork w.commands cmd prevFd currFd))
  pipe : ∀ w fd, os.pipe w.pipes = some fd → P w →
    P ({ w with pipes := w.pipes + 1 }.call (.pipe fd))

section

variable {os : System} {P : World → Prop}

theorem Keeps.openPipe (hP : Keeps os P) {s t : Locals} {next : List Expr}
    (h : openPipe os s next = .ok t) (hs : P s.world) : P t.world := by
  obtain ⟨fd, -, hfd, rfl⟩ | ⟨-, rfl⟩ := openPipe_cases h
  · exact hP.pipe _ fd hfd hs
  · exact hs

theorem Keeps.closePrev (hP : Keeps os P) {s : Locals} (hs : P s.world) :
    P (closePrev s).world := by
  unfold Shell.closePrev
  dsimp only
  split
  · split
    · exact hP.close _ _ (hP.close _ _ hs)
    · exact hP.close _ _ hs
  · split
    · exact hP.close _ _ hs
    · exact hs

theorem Keeps.executeExpr (hP : Keeps os P) {s t : Locals} {e : Expr} {next : List Expr}
    (h : executeExpr os s e next = .ok t) (hs : P s.world) : P t.world := by
  obtain ⟨u, hopen, hcases⟩ := executeExpr_cases h
  have hu := hP.openPipe hopen hs
  obtain ⟨cmd, -, -, rfl⟩ | ⟨cmd, -, -, rfl⟩ | ⟨-, rfl⟩ | ⟨-, rfl⟩ := hcases
  · exact hP.chdir _ _ hu
  · exact hP.fork _ _ _ _ hu
  · exact hP.closePrev hu
  · exact hu

theorem Keeps.run (hP : Keeps os P) {x y : Locals × List Expr} {before : List Expr}
    (h : Runs.Run (LoopStep os) x before y) (hx : P x.1.world) : P y.1.world := by
  refine h.invariant (P := fun x => P x.1.world) (fun _ _ _ hs hst => ?_) hx
  cases hst with
  | taken hexpr =>
    have ht := hP.executeExpr hexpr hs
    exact ht

theorem keeps_waitLoop (hwait : ∀ w pid, P w → P (w.call (.waitpid pid))) {w : World} (hw : P w)
    (last : Int) (pids : List Nat) : P (waitLoop os w last pids).1 := by
  induction pids generalizing w last with
  | nil => exact hw
  | cons pid pids ih => exact ih (hwait w pid hw) _

theorem Keeps.executeLoop (hP : Keeps os P) (hwait : ∀ w pid, P w → P (w.call (.waitpid pid)))
    (r : ExecutionResult) {s : Locals} {es : List Expr} (hs : P s.world) :
    P (executeLoop os r s es).1 := by
  induction es generalizing s with
  | nil => exact keeps_waitLoop hwait (hP.closePrev hs) 0 s.children
  | cons e es ih =>
    rw [Shell.executeLoop]
    cases hexpr : Shell.executeExpr os s e es with
    | error failed =>
      obtain ⟨t, code⟩ := failed
      have ht : P t.world := by
        rcases executeExpr_error hexpr with rfl | hopen
        · exact hs
        · exact hP.openPipe hopen hs
      exact keeps_waitLoop hwait ht 0 t.children
    | ok t =>
      have ht := hP.executeExpr hexpr hs
      exact ih (s := { t with first := false }) ht

end

theorem keeps_calls (os : System) (calls : List SystemCall) : Keeps os (calls <+: ·.calls) where
  close _ _ h := h.trans (List.prefix_append _ _)
  chdir _ _ h := h.trans (List.prefix_append _ _)
  fork _ _ _ _ h := h.trans (List.prefix_append _ _)
  pipe _ _ _ h := h.trans (List.prefix_append _ _)

theorem calls_executeLoop (os : System) (r : ExecutionResult) (s : Locals) (es : List Expr) :
    s.world.calls <+: (executeLoop os r s es).1.calls :=
  (keeps_calls os s.world.calls).executeLoop (fun _ _ h => h.trans (List.prefix_append _ _)) r
    (List.prefix_refl _)

/-! ## Forks -/

section

variable {os : System} {pid : Nat} {cmd : Command} {prevFd currFd : Int × Int}
  {calls : List SystemCall}

theorem fork_closePrev {s : Locals}
    (h : calls ++ [SystemCall.fork pid cmd prevFd currFd] <+: (closePrev s).world.calls) :
    calls ++ [SystemCall.fork pid cmd prevFd currFd] <+: s.world.calls := by
  rw [closePrev_calls] at h
  refine prefix_of_not_mem h fun hmem => ?_
  unfold closesOf at hmem
  rcases List.mem_append.mp hmem with hmem | hmem <;> split at hmem <;> simp at hmem

theorem fork_waitLoop {w : World} {last : Int} {pids : List Nat}
    (h : calls ++ [SystemCall.fork pid cmd prevFd currFd] <+: (waitLoop os w last pids).1.calls) :
    calls ++ [SystemCall.fork pid cmd prevFd currFd] <+: w.calls := by
  rw [waitLoop_calls] at h
  refine prefix_of_not_mem h fun hmem => ?_
  obtain ⟨_, -, heq⟩ := List.mem_map.mp hmem
  cases heq

theorem fork_openPipe {s t : Locals} {next : List Expr} (hopen : openPipe os s next = .ok t)
    (h : calls ++ [SystemCall.fork pid cmd prevFd currFd] <+: t.world.calls) :
    calls ++ [SystemCall.fork pid cmd prevFd currFd] <+: s.world.calls := by
  obtain ⟨fd, -, -, rfl⟩ | ⟨-, rfl⟩ := openPipe_cases hopen
  · refine prefix_of_not_mem h fun hmem => ?_
    cases List.mem_singleton.mp hmem
  · exact h

@[simp] theorem closePrev_currFd (s : Locals) : (closePrev s).currFd = s.currFd := by
  unfold closePrev
  dsimp only
  split <;> split <;> rfl

theorem openPipe_commands {s t : Locals} {next : List Expr} (h : openPipe os s next = .ok t) :
    t.world.commands = s.world.commands := by
  obtain ⟨_, -, -, rfl⟩ | ⟨-, rfl⟩ := openPipe_cases h <;> rfl

theorem executeExpr_commands {s t : Locals} {e : Expr} {next : List Expr}
    (h : executeExpr os s e next = .ok t) :
    t.world.commands = s.world.commands + (commandsOf [e]).length := by
  obtain ⟨u, hopen, hcases⟩ := executeExpr_cases h
  rw [← openPipe_commands hopen]
  obtain ⟨_, rfl, -, rfl⟩ | ⟨_, rfl, -, rfl⟩ | ⟨rfl, rfl⟩ | ⟨rfl | rfl, rfl⟩ := hcases
  · rfl
  · rfl
  · exact closePrev_commands u
  · rfl
  · rfl

/-- The commands are numbered as they are taken. -/
theorem run_commands {x y : Locals × List Expr} {before : List Expr}
    (h : Runs.Run (LoopStep os) x before y) :
    y.1.world.commands = x.1.world.commands + (commandsOf before).length := by
  induction h with
  | nil => rfl
  | cons hstep _ ih =>
    cases hstep with
    | taken hexpr =>
      rw [ih, commandsOf_cons, List.length_append, ← Nat.add_assoc, ← executeExpr_commands hexpr]

/-- A fork comes from a command that the loop takes, with the pipes that are open then. -/
theorem fork_executeLoop {r : ExecutionResult} {s : Locals} {es : List Expr}
    (h : calls ++ [SystemCall.fork pid cmd prevFd currFd] <+: (executeLoop os r s es).1.calls) :
    calls ++ [SystemCall.fork pid cmd prevFd currFd] <+: s.world.calls ∨
      ∃ before u after t, Runs.Run (LoopStep os) (s, es) before (u, .command cmd :: after) ∧
        openPipe os u after = .ok t ∧ t.world.commands = pid ∧ t.world.calls = calls ∧
        t.prevFd = prevFd ∧ t.currFd = currFd := by
  induction es generalizing s with
  | nil => exact .inl (fork_closePrev (fork_waitLoop h))
  | cons e es ih =>
    rw [executeLoop] at h
    cases hexpr : executeExpr os s e es with
    | error failed =>
      obtain ⟨t, code⟩ := failed
      rw [hexpr] at h
      have ht := fork_waitLoop h
      rcases executeExpr_error hexpr with rfl | hopen
      · exact .inl ht
      · exact .inl (fork_openPipe hopen ht)
    | ok t =>
      rw [hexpr] at h
      rcases ih h with ht | ⟨before, u, after, v, hrun, hrest⟩
      · obtain ⟨u, hopen, hcases⟩ := executeExpr_cases hexpr
        -- The last call of this round is the fork, or the fork is an earlier one.
        obtain ⟨cd, -, -, rfl⟩ | ⟨cmd', rfl, hcd, rfl⟩ | ⟨-, rfl⟩ | ⟨-, rfl⟩ := hcases
        · refine .inl (fork_openPipe hopen (prefix_of_not_mem ht fun hmem => ?_))
          cases List.mem_singleton.mp hmem
        · rcases List.prefix_concat_iff.mp ht with heq | hu
          · obtain ⟨hcalls, hlast⟩ := List.append_inj' heq rfl
            cases hlast
            exact .inr ⟨[], s, es, u, .nil _, hopen, rfl, hcalls.symm, rfl, rfl⟩
          · exact .inl (fork_openPipe hopen hu)
        · exact .inl (fork_openPipe hopen (fork_closePrev ht))
        · exact .inl (fork_openPipe hopen ht)
      · exact .inr ⟨e :: before, u, after, v, .cons (.taken hexpr) hrun, hrest⟩

end

/-! ## Places of a line -/

/-- A `PIPE` follows a command. -/
def PipesFollow : List Expr → Prop
  | [] => True
  | e :: next => (next.head? = some .pipe → ∃ cmd, e = .command cmd) ∧ PipesFollow next

/-- In the line of a statement it does. -/
theorem joinedExprs_pipesFollow (joined : List (Simple × Op)) (last : Simple) :
    PipesFollow (joinedExprs joined ++ [Expr.command last.command]) ∧
      ∃ cmd rest, joinedExprs joined ++ [Expr.command last.command] = .command cmd :: rest := by
  induction joined with
  | nil => exact ⟨⟨(fun h => nomatch h), trivial⟩, _, _, rfl⟩
  | cons c joined ih =>
    obtain ⟨hfollow, cmd, rest, heq⟩ := ih
    have hexprs : joinedExprs (c :: joined) ++ [Expr.command last.command] =
        .command c.1.command :: c.2.expr :: (joinedExprs joined ++ [Expr.command last.command]) := by
      rw [joinedExprs, List.flatMap_cons, List.append_assoc]
      rfl
    rw [hexprs]
    refine ⟨⟨fun _ => ⟨_, rfl⟩, fun h => ?_, hfollow⟩, _, _, rfl⟩
    rw [heq] at h
    cases h

theorem pipesIn_snoc (before : List Expr) (e : Expr) :
    pipesIn (before ++ [e]) = pipesIn before + if e = .pipe then 1 else 0 := by
  rw [pipesIn, List.count_append, List.count_singleton]
  simp only [beq_iff_eq]
  rfl

theorem lastPipe_pipe (before : List Expr) :
    lastPipe (before ++ [Expr.pipe]) = some (pipesIn before) := by
  rw [lastPipe, if_pos (List.mem_append_right _ List.mem_cons_self), pipesIn_snoc, if_pos rfl,
    Nat.add_sub_cancel]

theorem lastPipe_other {before : List Expr} {e : Expr} (he : e ≠ .pipe) :
    lastPipe (before ++ [e]) = lastPipe before := by
  have hmem : Expr.pipe ∈ before ++ [e] ↔ .pipe ∈ before := by
    rw [List.mem_append, List.mem_singleton, or_iff_left he.symm]
  unfold lastPipe
  rw [pipesIn_snoc, if_neg he, Nat.add_zero]
  simp only [hmem]

theorem nextPipe_other {before after : List Expr} {e : Expr} (he : e ≠ .pipe) :
    nextPipe (before ++ [e]) after = nextPipe before after := by
  rw [nextPipe, pipesIn_snoc, if_neg he, Nat.add_zero, nextPipe]

theorem nextPipe_eq_none {before after : List Expr} (h : after.head? ≠ some .pipe) :
    nextPipe before after = none := if_neg h

/-- The pipes that were opened by a place of the line. -/
def opened (before after : List Expr) : Nat :=
  pipesIn before + if after.head? = some .pipe then 1 else 0

/-- The loop has come to a place of a line. -/
structure Located (own : List Int) (before after : List Expr) (s : Locals) : Prop where
  follow : PipesFollow after
  holding : Holding own (opened before after) s.prevFd (lastPipe before) s.currFd
    (nextPipe before after) s.world.calls

section

variable {os : System} {own : List Int} {before after next : List Expr} {s t : Locals}

theorem Located.start (own : List Int) {exprs : List Expr} (hfollow : PipesFollow exprs)
    (hhead : exprs.head? ≠ some .pipe) : Located own [] exprs .start where
  follow := hfollow
  holding := by
    rw [nextPipe_eq_none hhead, opened, if_neg hhead]
    exact .start own

/-- At an expression that no `PIPE` is before or at, the pipe of the next `PIPE` is opened. -/
theorem Holding.openPipe {n : Nat} {prev : Option Nat}
    (h : Holding own n s.prevFd prev s.currFd none s.world.calls)
    (hopen : openPipe os s next = .ok t) (hfresh : FreshPipes own t.world.calls) :
    Holding own (n + if next.head? = some .pipe then 1 else 0) t.prevFd prev t.currFd
      (if next.head? = some .pipe then some n else none) t.world.calls := by
  obtain ⟨fd, hhead, -, rfl⟩ | ⟨hhead, rfl⟩ := openPipe_cases hopen
  · rw [if_pos hhead, if_pos hhead]
    exact h.pipe hfresh.last
  · rw [if_neg hhead, if_neg hhead]
    exact h

/-- The pipes that are open at the fork of a command. -/
theorem Located.openPipe {cmd : Command} (h : Located own before (.command cmd :: next) s)
    (hopen : openPipe os s next = .ok t) (hfresh : FreshPipes own t.world.calls) :
    Holding own (opened before next) t.prevFd (lastPipe before) t.currFd (nextPipe before next)
      t.world.calls := by
  have hhead : (Expr.command cmd :: next).head? ≠ some .pipe := fun h => nomatch h
  have hholding := h.holding
  rw [nextPipe_eq_none hhead, opened, if_neg hhead, Nat.add_zero] at hholding
  exact hholding.openPipe hopen hfresh

theorem openPipe_other {e : Expr} (hfollow : PipesFollow (e :: next))
    (he : ∀ cmd, e ≠ .command cmd) (hopen : openPipe os s next = .ok t) :
    t = s ∧ next.head? ≠ some .pipe := by
  have hhead : next.head? ≠ some .pipe := fun hhead =>
    let ⟨cmd, hcmd⟩ := hfollow.1 hhead
    he cmd hcmd
  obtain ⟨_, hhead', -⟩ | ⟨-, rfl⟩ := openPipe_cases hopen
  · exact absurd hhead' hhead
  · exact ⟨rfl, hhead⟩

theorem Located.command {cmd : Command} (hfollow : PipesFollow (.command cmd :: next))
    (hholding : Holding own (opened before next) t.prevFd (lastPipe before) t.currFd
      (nextPipe before next) t.world.calls) :
    Located own (before ++ [Expr.command cmd]) next t := by
  have hne : Expr.command cmd ≠ .pipe := fun h => nomatch h
  refine ⟨hfollow.2, ?_⟩
  rw [lastPipe_other hne, nextPipe_other hne, opened, pipesIn_snoc, if_neg hne, Nat.add_zero]
  exact hholding

/-- The loop goes on to the next place. -/
theorem Located.step {e : Expr} (h : Located own before (e :: next) s)
    (hexpr : executeExpr os s e next = .ok t) (hfresh : FreshPipes own t.world.calls) :
    Located own (before ++ [e]) next { t with first := false } := by
  obtain ⟨u, hopen, hcases⟩ := executeExpr_cases hexpr
  obtain ⟨cmd, rfl, hcd, rfl⟩ | ⟨cmd, rfl, hcd, rfl⟩ | ⟨rfl, rfl⟩ | ⟨hop, rfl⟩ := hcases
  · have hholding := h.openPipe hopen (hfresh.of_prefix (List.prefix_append _ _))
    exact .command h.follow (hholding.other fun _ => rfl)
  · have hholding := h.openPipe hopen (hfresh.of_prefix (List.prefix_append _ _))
    exact .command h.follow (hholding.other fun _ => rfl)
  · obtain ⟨rfl, hhead⟩ := openPipe_other h.follow (fun _ h => nomatch h) hopen
    have hshift := h.holding.closePrev.shift
    rw [nextPipe, List.head?_cons, if_pos rfl, opened, List.head?_cons, if_pos rfl] at hshift
    refine ⟨h.follow.2, ?_⟩
    rw [lastPipe_pipe, nextPipe_eq_none hhead, opened, if_neg hhead, pipesIn_snoc, if_pos rfl]
    dsimp only [shiftPipe]
    rw [closePrev_calls, closePrev_currFd]
    exact hshift
  · obtain ⟨rfl, hhead⟩ := openPipe_other h.follow
      (fun _ he => by rcases hop with rfl | rfl <;> cases he) hopen
    have hne : e ≠ .pipe := by
      rintro rfl
      rcases hop with hop | hop <;> cases hop
    have hholding := h.holding
    have hhead' : (e :: next).head? ≠ some .pipe := fun h => hne (Option.some.inj h)
    rw [nextPipe_eq_none hhead', opened, if_neg hhead'] at hholding
    refine ⟨h.follow.2, ?_⟩
    rw [lastPipe_other hne, nextPipe_eq_none hhead, opened, if_neg hhead, pipesIn_snoc, if_neg hne]
    exact hholding

/-- The loop keeps to the places of the line. -/
theorem Located.run {exprs : List Expr} (hstart : Located own [] exprs s)
    (hrun : Runs.Run (LoopStep os) (s, exprs) before (t, after))
    (hfresh : FreshPipes own t.world.calls) : Located own before after t := by
  induction before using List.reverseRecOn generalizing t after with
  | nil =>
    cases hrun
    exact hstart
  | append_singleton before e ih =>
    obtain ⟨x, hx, hlast⟩ := run_snoc_iff.mp hrun
    cases hlast with
    | taken hexpr =>
      have hcalls := (keeps_calls os _).executeExpr hexpr (List.prefix_refl _)
      exact (ih hx (hfresh.of_prefix hcalls)).step hexpr hfresh

end

end SystemProgramming.Shell
