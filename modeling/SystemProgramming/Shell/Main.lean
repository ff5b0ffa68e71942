import SystemProgramming.Shell.Session

/-!
# The main loop of the shell

`main` of `solution.c`: read, feed, pop until there is nothing to pop, execute each line and report
each error.  The function that executes a line is a parameter, with a state for all that it finds
and changes outside; the chunks are what the calls of `read` return.
-/

namespace SystemProgramming.Shell

structure ExecutionResult where
  exitCode : Int
  forceExitCode : Int
  deriving DecidableEq, Repr

/-- What the loop does that can be seen. -/
inductive Event
  | execute (line : CommandLine)
  | report (err : ParserError)
  deriving DecidableEq, Repr

/-- Why the shell stops before `main` returns. -/
inductive Crash
  | nullPointer
  | fault (f : Fault)
  deriving DecidableEq, Repr

structure ShellState (σ : Type) where
  parser : Parser
  world : σ
  result : ExecutionResult

/-- `command_line_delete` reads the head of its argument. -/
def commandLineDelete : Option CommandLine → Except Crash Unit
  | none => .error .nullPointer
  | some _ => .ok ()

/-- Put an event before those of the rest. -/
def Event.before {α : Type} (e : Event) (r : List Event × α) : List Event × α := (e :: r.1, r.2)

section

variable {σ : Type} (exec : σ → CommandLine → ExecutionResult → σ × ExecutionResult)

/-- The inner loop: pop until there is nothing to pop, or a line forces the exit. -/
def popLoop : Nat → ShellState σ → List Event × Except Crash (ShellState σ)
  | 0, _ => ([], .error (.fault .endless))
  | fuel + 1, s =>
    match parserPopNext s.parser with
    | .error f => ([], .error (.fault f))
    -- nothing is left to pop
    | .ok (p, .none, none) => ([], .ok { s with parser := p })
    | .ok (p, .none, some line) =>
      let done := exec s.world line s.result
      if done.2.forceExitCode ≠ -1 then ([.execute line], .ok ⟨p, done.1, done.2⟩)
      else Event.before (.execute line) (popLoop fuel ⟨p, done.1, done.2⟩)
    -- an error is reported, and what was popped with it is deleted
    | .ok (p, err, line) =>
      Event.before (.report err)
        (match commandLineDelete line with
        | .error c => ([], .error c)
        | .ok () => popLoop fuel { s with parser := p })

/-- The outer loop, on the chunks that `read` returns. -/
def mainLoop (s : ShellState σ) : List (List UInt8) → List Event × Except Crash (ShellState σ)
  | [] => ([], .ok s)
  | c :: cs =>
    match parserFeed s.parser c with
    | .error f => ([], .error (.fault f))
    | .ok p =>
      match popLoop exec (p.buffer.length + 1) { s with parser := p } with
      | (events, .error c) => (events, .error c)
      | (events, .ok s) =>
        if s.result.forceExitCode ≠ -1 then (events, .ok s)
        else
          let rest := mainLoop s cs
          (events ++ rest.1, rest.2)

/-- What `main` makes of the two codes in the end. -/
def ExecutionResult.status (r : ExecutionResult) : Int :=
  let exitCode := 0
  let exitCode := if r.forceExitCode ≠ -1 then r.forceExitCode else exitCode
  if r.exitCode ≠ -1 then r.exitCode else exitCode

/-- `{-1, -1}`. -/
def ExecutionResult.start : ExecutionResult := ⟨-1, -1⟩

/-- The events of a run of the shell, and what `main` returns. -/
def shellMain (w : σ) (chunks : List (List UInt8)) : List Event × Except Crash Int :=
  let run := mainLoop exec ⟨parserNew, w, .start⟩ chunks
  (run.1, run.2.map fun s => s.result.status)

/-! ## What the loop is for -/

/-- Execute every line and report every error, in order, up to a forced exit. -/
def serve (w : σ) (r : ExecutionResult) : List Popped → List Event × σ × ExecutionResult
  | [] => ([], w, r)
  | (.none, some line) :: outs =>
    let done := exec w line r
    if done.2.forceExitCode ≠ -1 then ([.execute line], done)
    else Event.before (.execute line) (serve done.1 done.2 outs)
  | (err, _) :: outs => Event.before (.report err) (serve w r outs)

/-- No error comes before the first forced exit. -/
def ErrorFree (w : σ) (r : ExecutionResult) : List Popped → Prop
  | [] => True
  | (.none, some line) :: outs =>
    let done := exec w line r
    done.2.forceExitCode = -1 → ErrorFree done.1 done.2 outs
  | _ :: _ => False

variable {exec}

/-- The shell does what it is for: it executes and reports what the parser yields, and gives
`command_line_delete` no null pointer. -/
def Serves (exec : σ → CommandLine → ExecutionResult → σ × ExecutionResult) (w : σ)
    (chunks : List (List UInt8)) : Prop :=
  (shellMain exec w chunks).1 = (serve exec w .start (session parserNew chunks).1).1 ∧
    (shellMain exec w chunks).2 ≠ .error .nullPointer

/-! ## What a pop leaves to the loops -/

/-- The ways in which a pop and all pops after it can go. -/
theorem popAll_cases (fuel : Nat) (p : Parser) :
    (parserPopNext p = .ok (p, .none, none) ∧ popAll (fuel + 1) p = ([], .ok p)) ∨
      (∃ f, parserPopNext p = .error f ∧ popAll (fuel + 1) p = ([], .error f)) ∨
      (∃ q line, parserPopNext p = .ok (q, .none, some line) ∧
        popAll (fuel + 1) p = ((.none, some line) :: (popAll fuel q).1, (popAll fuel q).2)) ∨
      ∃ q err, err ≠ .none ∧ parserPopNext p = .ok (q, err, none) ∧
        popAll (fuel + 1) p = ((err, none) :: (popAll fuel q).1, (popAll fuel q).2) := by
  rcases parserPopNext_cases p with hp | ⟨f, -, hp⟩ | ⟨n, err, line, -, -, hret, hp⟩
  · exact .inl ⟨hp, by rw [popAll, hp]; rfl⟩
  · exact .inr (.inl ⟨f, hp, by rw [popAll, hp]⟩)
  · cases line with
    | some line =>
      obtain rfl : err = .none := hret.mpr (Option.some_ne_none line)
      exact .inr (.inr (.inl ⟨_, line, hp, by rw [popAll, hp]; rfl⟩))
    | none =>
      have herr : err ≠ .none := fun h => hret.mp h rfl
      refine .inr (.inr (.inr ⟨_, err, herr, hp, ?_⟩))
      rw [popAll, hp]
      simp only [herr, false_and, if_false]

theorem popLoop_report {fuel : Nat} {s : ShellState σ} {q : Parser} {err : ParserError}
    (herr : err ≠ .none) (hp : parserPopNext s.parser = .ok (q, err, none)) :
    popLoop exec (fuel + 1) s = ([.report err], .error .nullPointer) := by
  rw [popLoop, hp]
  cases err with
  | none => exact absurd rfl herr
  | _ => rfl

theorem serve_report {w : σ} {r : ExecutionResult} {err : ParserError}
    {line : Option CommandLine} (h : ¬ (err = .none ∧ line ≠ none)) (outs : List Popped) :
    serve exec w r ((err, line) :: outs) = Event.before (.report err) (serve exec w r outs) := by
  cases err with
  | none =>
    cases line with
    | none => rfl
    | some line => exact absurd ⟨rfl, Option.some_ne_none line⟩ h
  | _ => rfl

theorem not_errorFree {w : σ} {r : ExecutionResult} {err : ParserError}
    {line : Option CommandLine} (h : ¬ (err = .none ∧ line ≠ none)) (outs : List Popped) :
    ¬ ErrorFree exec w r ((err, line) :: outs) := by
  cases err with
  | none =>
    cases line with
    | none => exact id
    | some line => exact absurd ⟨rfl, Option.some_ne_none line⟩ h
  | _ => exact id

/-! ## The inner loop -/

/-- Without an error the inner loop serves what is popped. -/
theorem popLoop_errorFree {fuel : Nat} {s : ShellState σ} {outs : List Popped} {p : Parser}
    (hpop : popAll fuel s.parser = (outs, .ok p)) (hfree : ErrorFree exec s.world s.result outs) :
    ∃ q, popLoop exec fuel s = ((serve exec s.world s.result outs).1,
        .ok ⟨q, (serve exec s.world s.result outs).2.1, (serve exec s.world s.result outs).2.2⟩) ∧
      ((serve exec s.world s.result outs).2.2.forceExitCode = -1 → q = p) := by
  induction fuel generalizing s outs with
  | zero => cases hpop
  | succ fuel ih =>
    rcases popAll_cases fuel s.parser with ⟨hp, hall⟩ | ⟨f, hp, hall⟩ | ⟨q, line, hp, hall⟩ |
      ⟨q, err, herr, hp, hall⟩
    · rw [hall] at hpop
      cases hpop
      rw [popLoop, hp]
      exact ⟨s.parser, rfl, fun _ => rfl⟩
    · rw [hall] at hpop
      cases hpop
    · rw [hall] at hpop
      have hsplit := Prod.mk.inj hpop
      rw [← hsplit.1] at hfree ⊢
      rw [popLoop, hp]
      simp only [serve, ErrorFree] at hfree ⊢
      by_cases hforce : (exec s.world line s.result).2.forceExitCode = -1
      · -- A line that does not exit hands its state to the lines behind it.
        rcases ih (s := ⟨q, _, _⟩) (Prod.ext rfl hsplit.2) (hfree hforce) with ⟨q', hloop, hq'⟩
        simp only [hforce, ne_eq, not_true_eq_false, if_false]
        rw [hloop]
        exact ⟨q', rfl, hq'⟩
      · simp only [hforce, ne_eq, not_false_eq_true, if_true]
        exact ⟨q, rfl, fun h => h.elim⟩
    · rw [hall] at hpop
      rw [← (Prod.mk.inj hpop).1] at hfree
      exact absurd hfree (not_errorFree (fun h => herr h.1) _)

/-- With an error the inner loop gives `command_line_delete` a null pointer. -/
theorem popLoop_error {fuel : Nat} {s : ShellState σ} {outs : List Popped} {p : Parser}
    (hpop : popAll fuel s.parser = (outs, .ok p))
    (hfree : ¬ ErrorFree exec s.world s.result outs) :
    (popLoop exec fuel s).2 = .error .nullPointer := by
  induction fuel generalizing s outs with
  | zero => cases hpop
  | succ fuel ih =>
    rcases popAll_cases fuel s.parser with ⟨hp, hall⟩ | ⟨f, hp, hall⟩ | ⟨q, line, hp, hall⟩ |
      ⟨q, err, herr, hp, hall⟩
    · rw [hall] at hpop
      cases hpop
      exact absurd trivial hfree
    · rw [hall] at hpop
      cases hpop
    · rw [hall] at hpop
      have hsplit := Prod.mk.inj hpop
      rw [← hsplit.1] at hfree
      rw [popLoop, hp]
      simp only [ErrorFree, Classical.not_imp] at hfree ⊢
      rw [if_neg (not_not.mpr hfree.1)]
      exact ih (s := ⟨q, _, _⟩) (Prod.ext rfl hsplit.2) hfree.2
    · rw [popLoop_report herr hp]

/-! ## Serving one chunk after the other -/

theorem serve_append (w : σ) (r : ExecutionResult) (hr : r.forceExitCode = -1)
    (outs outs' : List Popped) : serve exec w r (outs ++ outs') =
      let first := serve exec w r outs
      if first.2.2.forceExitCode = -1 then
        let rest := serve exec first.2.1 first.2.2 outs'
        (first.1 ++ rest.1, rest.2)
      else first := by
  have hreport : ∀ (e : Event) (x : List Event × σ × ExecutionResult),
      Event.before e (if x.2.2.forceExitCode = -1 then
        (x.1 ++ (serve exec x.2.1 x.2.2 outs').1, (serve exec x.2.1 x.2.2 outs').2) else x) =
      if x.2.2.forceExitCode = -1 then
        ((Event.before e x).1 ++ (serve exec x.2.1 x.2.2 outs').1, (serve exec x.2.1 x.2.2 outs').2)
      else Event.before e x := by
    intro e x
    split <;> rfl
  induction outs generalizing w r with
  | nil => simp [serve, hr]
  | cons out outs ih =>
    rcases out with ⟨err, line⟩
    by_cases hline : err = .none ∧ line ≠ none
    · rcases hline with ⟨rfl, hline⟩
      rcases Option.ne_none_iff_exists'.mp hline with ⟨line, rfl⟩
      simp only [List.cons_append, serve]
      by_cases hforce : (exec w line r).2.forceExitCode = -1
      · simp only [hforce, ne_eq, not_true_eq_false, if_false, ih _ _ hforce]
        exact hreport _ _
      · simp only [hforce, ne_eq, not_false_eq_true, if_true, if_false]
    · rw [List.cons_append, serve_report hline, serve_report hline, ih w r hr]
      exact hreport _ _

theorem errorFree_append (w : σ) (r : ExecutionResult) (hr : r.forceExitCode = -1)
    (outs outs' : List Popped) : ErrorFree exec w r (outs ++ outs') ↔
      ErrorFree exec w r outs ∧ ((serve exec w r outs).2.2.forceExitCode = -1 →
        ErrorFree exec (serve exec w r outs).2.1 (serve exec w r outs).2.2 outs') := by
  induction outs generalizing w r with
  | nil => simp [serve, hr, ErrorFree]
  | cons out outs ih =>
    rcases out with ⟨err, line⟩
    by_cases hline : err = .none ∧ line ≠ none
    · rcases hline with ⟨rfl, hline⟩
      rcases Option.ne_none_iff_exists'.mp hline with ⟨line, rfl⟩
      simp only [List.cons_append, serve, ErrorFree]
      by_cases hforce : (exec w line r).2.forceExitCode = -1
      · simp only [hforce, ne_eq, not_true_eq_false, if_false, forall_const, ih _ _ hforce]
        rfl
      · simp only [hforce, ne_eq, not_false_eq_true, if_true, false_imp_iff, and_self]
    · simp only [List.cons_append, not_errorFree hline, false_and]

/-- The session on one more chunk. -/
theorem session_cons {p q : Parser} {c : List UInt8} {cs : List (List UInt8)} {outs : List Popped}
    (h : session p (c :: cs) = (outs, .ok q)) : ∃ p₁ p₂ outs₁ outs₂, parserFeed p c = .ok p₁ ∧
      popAll (p₁.buffer.length + 1) p₁ = (outs₁, .ok p₂) ∧ session p₂ cs = (outs₂, .ok q) ∧
      outs = outs₁ ++ outs₂ := by
  unfold session at h
  cases hfeed : parserFeed p c with
  | error f =>
    rw [hfeed] at h
    cases h
  | ok p₁ =>
    simp only [hfeed] at h
    rcases hpop : popAll (p₁.buffer.length + 1) p₁ with ⟨outs₁, _ | p₂⟩
    · rw [hpop] at h
      cases h
    · rw [hpop] at h
      have hsplit := Prod.mk.inj h
      exact ⟨p₁, p₂, outs₁, (session p₂ cs).1, rfl, hpop, Prod.ext rfl hsplit.2, hsplit.1.symm⟩

/-- Without an error the main loop serves what the session yields. -/
theorem mainLoop_errorFree {cs : List (List UInt8)} {s : ShellState σ} {outs : List Popped}
    {p : Parser} (hr : s.result.forceExitCode = -1) (h : session s.parser cs = (outs, .ok p))
    (hfree : ErrorFree exec s.world s.result outs) :
    ∃ q, mainLoop exec s cs = ((serve exec s.world s.result outs).1,
        .ok ⟨q, (serve exec s.world s.result outs).2.1, (serve exec s.world s.result outs).2.2⟩) := by
  induction cs generalizing s outs with
  | nil =>
    cases h
    exact ⟨s.parser, rfl⟩
  | cons c cs ih =>
    rcases session_cons h with ⟨p₁, p₂, outs₁, outs₂, hfeed, hpop, hrest, rfl⟩
    rw [errorFree_append _ _ hr] at hfree
    rcases popLoop_errorFree (s := { s with parser := p₁ }) hpop hfree.1 with ⟨q, hloop, hq⟩
    rw [mainLoop, hfeed]
    simp only [hloop, serve_append _ _ hr]
    by_cases hforce : (serve exec s.world s.result outs₁).2.2.forceExitCode = -1
    · rw [hq hforce]
      rcases ih (s := ⟨p₂, _, _⟩) hforce hrest (hfree.2 hforce) with ⟨q', hmain⟩
      simp only [hforce, ne_eq, not_true_eq_false, if_false, if_true, hmain]
      exact ⟨q', rfl⟩
    · simp only [hforce, ne_eq, not_false_eq_true, if_true, if_false]
      exact ⟨q, rfl⟩

/-- With an error before the first forced exit it ends on a null pointer. -/
theorem mainLoop_error {cs : List (List UInt8)} {s : ShellState σ} {outs : List Popped}
    {p : Parser} (hr : s.result.forceExitCode = -1) (h : session s.parser cs = (outs, .ok p))
    (hfree : ¬ ErrorFree exec s.world s.result outs) :
    (mainLoop exec s cs).2 = .error .nullPointer := by
  induction cs generalizing s outs with
  | nil =>
    cases h
    exact absurd trivial hfree
  | cons c cs ih =>
    rcases session_cons h with ⟨p₁, p₂, outs₁, outs₂, hfeed, hpop, hrest, rfl⟩
    rw [errorFree_append _ _ hr] at hfree
    rw [mainLoop, hfeed]
    by_cases hfirst : ErrorFree exec s.world s.result outs₁
    · rcases popLoop_errorFree (s := { s with parser := p₁ }) hpop hfirst with ⟨q, hloop, hq⟩
      have hlater := not_and.mp hfree hfirst
      rw [Classical.not_imp] at hlater
      simp only [hloop, hlater.1, ne_eq, not_true_eq_false, if_false]
      rw [hq hlater.1]
      exact ih (s := ⟨p₂, _, _⟩) hlater.1 hrest hlater.2
    · have hloop := popLoop_error (s := { s with parser := p₁ }) hpop hfirst
      rcases hrun : popLoop exec (p₁.buffer.length + 1) { s with parser := p₁ } with ⟨events, r⟩
      rw [hrun] at hloop
      obtain rfl : r = .error .nullPointer := hloop
      simp only [hrun]

/-- On a stream on which no assertion fails, the shell executes and reports everything up to the
first forced exit exactly if nothing before that exit is malformed. -/
theorem main_serves_iff (exec : σ → CommandLine → ExecutionResult → σ × ExecutionResult) (w : σ)
    (chunks : List (List UInt8)) (hok : ∃ p, (session parserNew chunks).2 = .ok p) :
    Serves exec w chunks ↔ ErrorFree exec w .start (session parserNew chunks).1 := by
  rcases hok with ⟨p, hok⟩
  have hsession : session parserNew chunks = ((session parserNew chunks).1, .ok p) :=
    Prod.ext rfl hok
  unfold Serves shellMain
  constructor
  · intro hserves
    by_contra hfree
    have hend := mainLoop_error (s := ⟨parserNew, w, .start⟩) rfl hsession hfree
    simp only [hend] at hserves
    exact hserves.2 rfl
  · intro hfree
    rcases mainLoop_errorFree (s := ⟨parserNew, w, .start⟩) rfl hsession hfree with ⟨q, hmain⟩
    simp only [hmain]
    exact ⟨trivial, fun h => by cases h⟩

end

/-- An executor that counts the lines. -/
def countLines (n : Nat) (_ : CommandLine) (r : ExecutionResult) : Nat × ExecutionResult := (n + 1, r)

/-- `a` and `b &`, cut in the middle. -/
theorem main_serves_iff_two :
    Serves countLines 0 [[97, 10, 98], [38, 10]] ↔
      ErrorFree countLines 0 .start (session parserNew [[97, 10, 98], [38, 10]]).1 :=
  main_serves_iff countLines 0 _ ⟨⟨[], 3⟩, by decide +kernel⟩

/-- `| a`, and then `b`: the parser yields an error and a line, and the shell ends on a null pointer
when it has reported the error. -/
theorem malformed_line_crashes :
    (session parserNew [[124, 32, 97, 10, 98, 10]]).2 = .ok ⟨[], 6⟩ ∧
      (session parserNew [[124, 32, 97, 10, 98, 10]]).1 =
        [(.pipeWithNoLeftArg, none), (.none, some ⟨[.command ⟨[98, 0], []⟩], .stdout, none, false⟩)] ∧
      shellMain countLines 0 [[124, 32, 97, 10, 98, 10]] =
        ([.report .pipeWithNoLeftArg], .error .nullPointer) := by
  decide +kernel

end SystemProgramming.Shell
