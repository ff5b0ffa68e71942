import SystemProgramming.FileSort.Main

/-!
# The work time of a coroutine

The work time should be what the slices of the coroutine have taken.  But `work_time` and `start_time`
are not set when a context is made, and every file that is taken sets `start_time` again without
adding what has passed since the slice began.
-/

namespace SystemProgramming.FileSort

open Cooperative Libcoro

/-! ## Slices -/

/-- A slice begins when the first file is taken and after a yield; `ran` is how long the slices took
that have ended. -/
structure Slices where
  began : Option Int
  ran : Int

def Slices.next (v : Slices) : Mark → Slices
  | .claimed time => { v with began := some (v.began.getD time) }
  | .resumed time => { v with began := some time }
  | .stopped time => ⟨none, v.ran + (v.began.map (time - ·)).getD 0⟩
  | .finished => v

/-- The sum over the slices of their ends less their beginnings. -/
def runningTime (log : List Mark) : Int := (log.foldl Slices.next ⟨none, 0⟩).ran

/-- `started` is `start_time`.  In a slice the time before the last file was taken is lost; and a
coroutine that stops outside a slice counts the time since whatever is in `start_time`. -/
structure Clockwork where
  slices : Slices
  started : Int
  lost : Int
  outside : Int

def Clockwork.next (v : Clockwork) (x : Mark) : Clockwork :=
  match x with
  | .claimed time => { v with slices := v.slices.next x, started := time }
  | .resumed time => { v with slices := v.slices.next x, started := time }
  | .stopped time =>
    match v.slices.began with
    | some began => { v with slices := v.slices.next x, lost := v.lost + (v.started - began) }
    | none => { v with slices := v.slices.next x, outside := v.outside + (time - v.started) }
  | .finished => { v with slices := v.slices.next x }

/-- From a context whose `start_time` is `started`. -/
def clockwork (started : Int) (log : List Mark) : Clockwork :=
  log.foldl Clockwork.next ⟨⟨none, 0⟩, started, 0, 0⟩

/-- The time between the beginning of a slice and the last file that is taken in it. -/
def lostTime (started : Int) (log : List Mark) : Int := (clockwork started log).lost

/-- The time between what was in `start_time` and the end of a coroutine that took no file. -/
def outsideTime (started : Int) (log : List Mark) : Int := (clockwork started log).outside

theorem Clockwork.next_slices (v : Clockwork) (x : Mark) :
    (v.next x).slices = v.slices.next x := by
  cases x with
  | stopped time =>
    unfold Clockwork.next
    dsimp only
    split <;> rfl
  | _ => rfl

theorem clockwork_snoc (started : Int) (log : List Mark) (x : Mark) :
    clockwork started (log ++ [x]) = (clockwork started log).next x := List.foldl_append

theorem clockwork_ran (started : Int) (log : List Mark) :
    (clockwork started log).slices.ran = runningTime log := by
  have hslices : (clockwork started log).slices = log.foldl Slices.next ⟨none, 0⟩ := by
    induction log using List.reverseRecOn with
    | nil => rfl
    | append_singleton log x ih => rw [clockwork_snoc, Clockwork.next_slices, ih, List.foldl_append]; rfl
  rw [hslices, runningTime]

/-- What is counted when the coroutine stops. -/
def Clockwork.counted (v : Clockwork) : Int := v.slices.ran - v.lost + v.outside

theorem Clockwork.counted_stopped (v : Clockwork) (time : Int) :
    (v.next (.stopped time)).counted = v.counted + (time - v.started) ∧
      (v.next (.stopped time)).started = v.started := by
  unfold Clockwork.next
  dsimp only
  cases hbegan : v.slices.began with
  | some began =>
    refine ⟨?_, rfl⟩
    simp only [Clockwork.counted, Slices.next, hbegan, Option.map_some, Option.getD_some]
    ring
  | none =>
    refine ⟨?_, rfl⟩
    simp only [Clockwork.counted, Slices.next, hbegan, Option.map_none, Option.getD_none]
    ring

/-! ## What `work_time` is -/

/-- The times of every context are those of its marks, with what was in its memory before. -/
def TimesCounted (contexts : Nat → MyContext) (m : Memory) : Prop :=
  ∀ p, (m.contexts p).startTime = (clockwork (contexts p).startTime (m.log p)).started ∧
    (m.contexts p).workTime =
      (contexts p).workTime + (clockwork (contexts p).startTime (m.log p)).counted

section

variable {contexts : Nat → MyContext} {m m' : Memory} {p : Nat} {ctx : MyContext}

theorem TimesCounted.congr (h : TimesCounted contexts m)
    (htimes : ∀ q, (m'.contexts q).startTime = (m.contexts q).startTime ∧
      (m'.contexts q).workTime = (m.contexts q).workTime) (hlog : m'.log = m.log) :
    TimesCounted contexts m' := by
  intro q
  rw [(htimes q).1, (htimes q).2, hlog]
  exact h q

/-- A context of which neither time is set. -/
theorem TimesCounted.setContext (h : TimesCounted contexts m)
    (hstart : ctx.startTime = (m.contexts p).startTime)
    (hwork : ctx.workTime = (m.contexts p).workTime) : TimesCounted contexts (m.setContext p ctx) := by
  refine h.congr (fun q => ?_) rfl
  dsimp only [Memory.setContext]
  by_cases hq : q = p
  · rw [hq, Function.update_self]
    exact ⟨hstart, hwork⟩
  · rw [Function.update_of_ne hq]
    exact ⟨rfl, rfl⟩

/-- A context gets new times, with the mark that stands for them. -/
theorem TimesCounted.mark (h : TimesCounted contexts m) {x : Mark}
    (hstart : ctx.startTime =
      ((clockwork (contexts p).startTime (m.log p)).next x).started)
    (hwork : ctx.workTime = (contexts p).workTime +
      ((clockwork (contexts p).startTime (m.log p)).next x).counted) :
    TimesCounted contexts ((m.setContext p ctx).mark p x) := by
  intro q
  dsimp only [Memory.mark, Memory.setContext]
  by_cases hq : q = p
  · rw [hq, Function.update_self, Function.update_self, clockwork_snoc]
    exact ⟨hstart, hwork⟩
  · rw [Function.update_of_ne hq, Function.update_of_ne hq]
    exact h q

theorem counted_stampStart (clock : Nat → Int) {x : Int → Mark}
    (hx : ∀ v time, (Clockwork.next v (x time)).started = time ∧
      (Clockwork.next v (x time)).counted = v.counted)
    (h : TimesCounted contexts m) : TimesCounted contexts (m.stampStart clock x p) := by
  have hread : TimesCounted contexts { m with readings := m.readings + 1 } := h
  refine hread.mark ?_ ?_
  · rw [(hx _ _).1]
  · rw [(hx _ _).2]
    exact (h p).2

theorem counted_addWorkTime (h : TimesCounted contexts m) :
    TimesCounted contexts (m.addWorkTime p) := by
  obtain ⟨hstart, hwork⟩ := h p
  obtain ⟨hcounted, hstarted⟩ :=
    (clockwork (contexts p).startTime (m.log p)).counted_stopped (m.contexts p).endTime
  refine h.mark ?_ ?_
  · rw [hstarted]
    exact hstart
  · rw [hcounted, ← hstart, ← add_assoc, ← hwork]
    rfl

theorem counted_finished (h : TimesCounted contexts m) :
    TimesCounted contexts (m.mark p .finished) := by
  intro q
  dsimp only [Memory.mark]
  by_cases hq : q = p
  · rw [hq, Function.update_self, clockwork_snoc]
    exact h p
  · rw [Function.update_of_ne hq]
    exact h q

theorem counted_stampEnd (clock : Nat → Int) (h : TimesCounted contexts m) :
    TimesCounted contexts (m.stampEnd clock p) := by
  have hread : TimesCounted contexts { m with readings := m.readings + 1 } := h
  exact hread.setContext rfl rfl

theorem counted_readFileContent (disk : String → List Int) (c : Int) (h : TimesCounted contexts m) :
    TimesCounted contexts (m.readFileContent disk p c) := by
  have hset : TimesCounted contexts
      (m.setContext p { m.contexts p with curData := some m.allocated }) := h.setContext rfl rfl
  exact hset.congr (fun _ => ⟨rfl, rfl⟩) rfl

theorem counted_load (arr : FileId) (j : Int) (h : TimesCounted contexts m) :
    TimesCounted contexts (m.load arr j) := by
  unfold Memory.load
  split
  · exact h
  · exact h.congr (fun _ => ⟨rfl, rfl⟩) rfl

theorem counted_swap (arr : FileId) (i j : Int) (h : TimesCounted contexts m) :
    TimesCounted contexts (m.swap arr i j) := by
  unfold Memory.swap
  split
  · exact h.congr (fun _ => ⟨rfl, rfl⟩) rfl
  · exact h.congr (fun _ => ⟨rfl, rfl⟩) rfl

end

/-! ## The coroutines -/

section

variable (contexts : Nat → MyContext) (clock : Nat → Int) (disk : String → List Int) (p : Nat)

theorem preserves_calculateCoroutineTime :
    (calculateCoroutineTime clock p).Preserves (TimesCounted contexts) :=
  (Prog.preserves_modify fun _ h => counted_stampEnd clock h).bind fun _ =>
    Prog.preserves_modify fun _ h => counted_addWorkTime h

theorem preserves_yield : (yield clock p).Preserves (TimesCounted contexts) := by
  refine (Prog.preserves_modify fun _ h => counted_stampEnd clock h).bind fun _ =>
    Prog.preserves_get.bind fun m => ?_
  split
  · exact Prog.preserves_pure ()
  · exact (preserves_calculateCoroutineTime contexts clock p).bind fun _ =>
      Prog.preserves_pause.bind fun _ => Prog.preserves_modify fun _ h =>
        counted_stampStart clock (fun _ _ => ⟨rfl, rfl⟩) h

theorem preserves_partitionLoop (arr : FileId) (pivot : Int) {low high : Int}
    (v : Cursor low high) :
    (partitionLoop clock arr pivot p v).Preserves (TimesCounted contexts) := by
  induction hn : (high - v.j).toNat using Nat.strong_induction_on generalizing v with
  | h n ih =>
    rw [partitionLoop]
    split
    · next hj =>
      refine (Prog.preserves_modifyGet fun _ h => counted_load arr v.j h).bind fun x => ?_
      split
      · refine (Prog.preserves_modify fun _ h => counted_swap arr _ _ h).bind fun _ =>
          (preserves_yield contexts clock p).bind fun _ => ih _ ?_ (v.small hj) rfl
        simp only [Cursor.small]
        omega
      · refine (preserves_yield contexts clock p).bind fun _ => ih _ ?_ (v.skip hj) rfl
        simp only [Cursor.skip]
        omega
    · exact Prog.preserves_pure _

theorem preserves_partition (arr : FileId) {low high : Int} (h : low < high) :
    (partition clock arr low high p h).Preserves (TimesCounted contexts) :=
  (Prog.preserves_modifyGet fun _ h => counted_load arr high h).bind fun _ =>
    (preserves_partitionLoop contexts clock p arr _ _).bind fun _ =>
      (Prog.preserves_modify fun _ h => counted_swap arr _ _ h).bind fun _ =>
        Prog.preserves_pure _

theorem preserves_quicksort (arr : FileId) (low high : Int) :
    (quicksort clock arr low high p).Preserves (TimesCounted contexts) := by
  induction hn : (high - low + 1).toNat using Nat.strong_induction_on generalizing low high with
  | h n ih =>
    rw [quicksort]
    split
    · next h =>
      refine (preserves_partition contexts clock p arr h).bind fun pi => ?_
      have hpi := pi.2
      refine (ih _ ?_ low (pi.1 - 1) rfl).bind fun _ => ih _ ?_ (pi.1 + 1) high rfl
      · omega
      · omega
    · exact Prog.preserves_pure ()

theorem preserves_sortFile (curInd : Int) :
    (sortFile clock disk p curInd).Preserves (TimesCounted contexts) := by
  refine (Prog.preserves_modifyGet fun _ h => h.congr (fun _ => ⟨rfl, rfl⟩) rfl).bind fun _ =>
    (Prog.preserves_modify fun _ h => h.setContext rfl rfl).bind fun _ =>
      (Prog.preserves_modify fun _ h => counted_stampStart clock (fun _ _ => ⟨rfl, rfl⟩) h).bind
        fun _ => (Prog.preserves_modify fun _ h => counted_readFileContent disk curInd h).bind
          fun _ => Prog.preserves_get.bind fun m => ?_
  split
  · exact Prog.preserves_modify fun _ h => h.congr (fun _ => ⟨rfl, rfl⟩) rfl
  · exact preserves_quicksort contexts clock p _ _ _

theorem preserves_sortFiles (turns : Nat) (curInd : Int) :
    (sortFiles clock disk p turns curInd).Preserves (TimesCounted contexts) := by
  induction turns generalizing curInd with
  | zero =>
    unfold sortFiles
    split
    · exact Prog.preserves_pure ()
    · exact Prog.preserves_modify fun _ h => h.congr (fun _ => ⟨rfl, rfl⟩) rfl
  | succ turns ih =>
    unfold sortFiles
    split
    · exact Prog.preserves_pure ()
    · exact (preserves_sortFile contexts clock disk p curInd).bind fun _ =>
        Prog.preserves_get.bind fun m => ih m.haveFiles

theorem preserves_coroutineFuncF (turns : Nat) :
    (coroutineFuncF clock disk turns p).Preserves (TimesCounted contexts) :=
  Prog.preserves_get.bind fun m =>
    (preserves_sortFiles contexts clock disk p turns m.haveFiles).bind fun _ =>
      (preserves_calculateCoroutineTime contexts clock p).bind fun _ =>
        (Prog.preserves_modify fun _ h => counted_finished h).bind fun _ => Prog.preserves_pure 0

end

/-! ## The run of `main` -/

/-- The times are counted, and `main` makes coroutines outside the calls of the scheduler only. -/
structure Counting (clock : Nat → Int) (disk : String → List Int) (args : Arguments)
    (contexts : Nat → MyContext) (process : Process) : Prop where
  under : ∃ n, Under (code clock disk args) (Contract.invariant (TimesCounted contexts))
    (TimesCounted contexts) n process.library
  creating : ∀ i, process.pc = .creating i → ∃ answer, process.library.control = .user answer

section

variable {clock : Nat → Int} {disk : String → List Int} {args : Arguments}
  {contexts : Nat → MyContext} {process : Process}

theorem counting_start (heap : Ptr → Coro Memory Nat) :
    Counting clock disk args contexts (Process.start args heap contexts) where
  under := by
    have hcounted : TimesCounted contexts (Memory.start args.paths contexts) :=
      fun p => ⟨rfl, (add_zero _).symm⟩
    exact ⟨0, .start _ _ heap hcounted⟩
  creating _ _ := ⟨none, rfl⟩

/-- A call of the scheduler, or a step in it. -/
theorem Counting.perform (h : Counting clock disk args contexts process)
    {a : Action Memory Nat} (ha : a = .wait ∨ a = .go) :
    ∃ n, Under (code clock disk args) (Contract.invariant (TimesCounted contexts))
      (TimesCounted contexts) n (perform clock disk args process.library a) := by
  obtain ⟨n, hunder⟩ := h.under
  refine ⟨n, ?_⟩
  unfold FileSort.perform
  cases hstep : step (code clock disk args) process.library a with
  | none => exact hunder
  | some t =>
    rw [Option.getD_some]
    rcases ha with rfl | rfl
    · obtain hgo | ⟨⟨answer, hcontrol⟩, ⟨_, hnew, -⟩ | ⟨_, hact, -⟩ | ⟨-, rfl⟩⟩ :=
        step_cases hstep
      · cases hgo
      · cases hnew
      · cases hact
      · exact hunder.wait hcontrol
    · exact hunder.go (promised_invariant _ n) hstep

theorem Counting.new (h : Counting clock disk args contexts process) {i : Nat}
    (hpc : process.pc = .creating i) :
    Counting clock disk args contexts ⟨.creating (i + 1), FileSort.perform clock disk args
      (FileSort.perform clock disk args process.library
        (.act (Memory.myContextNew i args.timeQuantum))) (.new i)⟩ := by
  obtain ⟨n, hunder⟩ := h.under
  obtain ⟨answer, hcontrol⟩ := h.creating i hpc
  have hcounted : TimesCounted contexts process.library.memory := hunder.kept.memory
  have hset : TimesCounted contexts
      (process.library.memory.myContextNew i args.timeQuantum) := hcounted.setContext rfl rfl
  have hact := hunder.act hcontrol (f := Memory.myContextNew i args.timeQuantum) hset
    fun _ _ => hset
  have hnew := hact.new rfl hset fun t _ =>
    preserves_coroutineFuncF contexts clock disk i (args.paths.length + 1) t
  rw [perform_new clock disk args hcontrol]
  exact ⟨⟨n + 1, hnew⟩, fun _ _ => ⟨none, rfl⟩⟩

theorem Counting.step (h : Counting clock disk args contexts process) :
    Counting clock disk args contexts (mainStep clock disk args process) := by
  unfold mainStep
  split
  · next i hpc =>
    split
    · split
      · exact h.new hpc
      · exact ⟨h.under, fun _ _ => h.creating i hpc⟩
    · exact ⟨h.perform (.inl rfl), fun _ h => nomatch h⟩
  · split
    · exact ⟨h.under, fun _ h => nomatch h⟩
    · exact ⟨h.perform (.inl rfl), fun _ h => nomatch h⟩
    · exact ⟨h.perform (.inr rfl), fun _ h => nomatch h⟩
  · exact h

theorem counting_run (clock : Nat → Int) (disk : String → List Int) (args : Arguments)
    (heap : Ptr → Coro Memory Nat) (contexts : Nat → MyContext) (k : Nat) :
    Counting clock disk args contexts
      ((mainStep clock disk args)^[k] (Process.start args heap contexts)) := by
  induction k with
  | zero => exact counting_start heap
  | succ k ih =>
    rw [Function.iterate_succ_apply']
    exact ih.step

end

/-- The work time of a context is what its slices took. -/
def ReportsRunningTime (m : Memory) (p : Nat) : Prop :=
  (m.contexts p).workTime = runningTime (m.log p)

instance (m : Memory) (p : Nat) : Decidable (ReportsRunningTime m p) :=
  inferInstanceAs (Decidable (_ = _))

/-- At every moment of a run, and so when the coroutine finishes, its work time is what its slices
took exactly if the memory of the context held what the slices lose, less what is counted outside
them. -/
theorem reportsRunningTime_iff (clock : Nat → Int) (disk : String → List Int) (args : Arguments)
    (heap : Ptr → Coro Memory Nat) (contexts : Nat → MyContext) (k p : Nat) :
    ReportsRunningTime
        ((mainStep clock disk args)^[k] (Process.start args heap contexts)).library.memory p ↔
      (contexts p).workTime = lostTime (contexts p).startTime
          (((mainStep clock disk args)^[k]
            (Process.start args heap contexts)).library.memory.log p) -
        outsideTime (contexts p).startTime
          (((mainStep clock disk args)^[k]
            (Process.start args heap contexts)).library.memory.log p) := by
  obtain ⟨n, hunder⟩ := (counting_run clock disk args heap contexts k).under
  generalize (mainStep clock disk args)^[k] (Process.start args heap contexts) = process at *
  have hcounted : TimesCounted contexts process.library.memory := hunder.kept.memory
  obtain ⟨-, hwork⟩ := hcounted p
  rw [ReportsRunningTime, hwork, Clockwork.counted, clockwork_ran, lostTime, outsideTime]
  constructor
  · intro h
    linarith
  · intro h
    linarith

/-- The time before the second file is lost though all memory was zero; and a context whose
`work_time` was 5 reports that time, too. -/
theorem workTime_wrong :
    (.finished ∈ ((mainStep (fun n => n) (fun _ => [1]) ⟨1, 1, ["a", "b"]⟩)^[22]
        (Process.start ⟨1, 1, ["a", "b"]⟩ (fun _ => ⟨0, none, none, false, 0, none, none⟩)
          fun _ => ⟨"", none, 0, 0, 0, 0⟩)).library.memory.log 0 ∧
      ¬ ReportsRunningTime ((mainStep (fun n => n) (fun _ => [1]) ⟨1, 1, ["a", "b"]⟩)^[22]
        (Process.start ⟨1, 1, ["a", "b"]⟩ (fun _ => ⟨0, none, none, false, 0, none, none⟩)
          fun _ => ⟨"", none, 0, 0, 0, 0⟩)).library.memory 0) ∧
    .finished ∈ ((mainStep (fun n => n) (fun _ => [1]) ⟨1, 1, ["a"]⟩)^[22]
        (Process.start ⟨1, 1, ["a"]⟩ (fun _ => ⟨0, none, none, false, 0, none, none⟩)
          fun _ => ⟨"", none, 5, 0, 0, 0⟩)).library.memory.log 0 ∧
      ¬ ReportsRunningTime ((mainStep (fun n => n) (fun _ => [1]) ⟨1, 1, ["a"]⟩)^[22]
        (Process.start ⟨1, 1, ["a"]⟩ (fun _ => ⟨0, none, none, false, 0, none, none⟩)
          fun _ => ⟨"", none, 5, 0, 0, 0⟩)).library.memory 0 := by
  decide +kernel

end SystemProgramming.FileSort
