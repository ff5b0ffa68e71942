import SystemProgramming.Lib.DoublePrecision
import SystemProgramming.ThreadPool.State

/-!
# The deadline of a timed join

`thread_task_timed_join` splits its timeout, a finite `double`, into seconds and nanoseconds and adds
them to the time of the day.  Every operation on doubles is rounded, and an operation that leaves the
range of `long` has no result.
-/

open DoublePrecision

namespace SystemProgramming.ThreadPool

/-! ## The function -/

/-- A value of the 64-bit `long`. -/
def long (n : Int) : Option Int := if -2 ^ 63 ≤ n ∧ n < 2 ^ 63 then some n else none

/-- `(long)x`, which cuts the fraction off. -/
def castLong (x : ℚ) : Option Int := long (if 0 ≤ x then ⌊x⌋ else ⌈x⌉)

structure Timeval where
  tvSec : Int
  tvUsec : Int
  deriving DecidableEq, Repr

structure Timespec where
  tvSec : Int
  tvNsec : Int
  deriving DecidableEq, Repr

/-- The time in nanoseconds. -/
def Timespec.nsec (ts : Timespec) : Int := ts.tvSec * 1000000000 + ts.tvNsec

/-- The literal `0.000000001`, the double nearest to it. -/
def nanosecond : ℚ := rounded (1 / 1000000000)

/-- `(double)n`. -/
def castDouble (n : Int) : ℚ := rounded n

/-- `ts`, from the timeout and the time of the day. -/
def deadline (timeout : Double) (tv : Timeval) : Option Timespec := do
  let timeoutSec ← castLong timeout.value
  let fraction := rounded (timeout.value - castDouble timeoutSec)
  let timeoutNsec ← castLong (rounded (fraction * castDouble 1000000000))
  let nsec ← long (tv.tvUsec * 1000)
  let totalNsec ← long (nsec + timeoutNsec)
  let sec ← long (tv.tvSec + timeoutSec)
  let totalSec ← long (sec + totalNsec.tdiv 1000000000)
  some ⟨totalSec, totalNsec.tmod 1000000000⟩

/-- A return of `pthread_cond_timedwait`: its time in nanoseconds, whether the task is finished by
then, and whether the result is `ETIMEDOUT`. -/
structure Waking where
  clock : Int
  isFinished : Bool
  timedOut : Bool
  deriving DecidableEq, Repr

/-- What a call has come to, after the wakings so far. -/
inductive TimedJoin
  | overflow
  | waiting
  | returned (ret : Ret) (clock : Int)
  deriving DecidableEq, Repr

/-- The loop of the wait, and the check after it. -/
def timedWait (clock : Int) (isFinished timedOut : Bool) : List Waking → TimedJoin
  | [] =>
    if !isFinished && !timedOut then .waiting
    else .returned (if timedOut then .timeout else .ok) clock
  | w :: ws =>
    if !isFinished && !timedOut then timedWait w.clock w.isFinished w.timedOut ws
    else .returned (if timedOut then .timeout else .ok) clock

/-- `clock` is the time of the call in nanoseconds, which `gettimeofday` tells in `tv`. -/
def threadTaskTimedJoin {ρ : Type} (task : Task ρ) (timeout : Double) (clock : Int) (tv : Timeval)
    (ws : List Waking) : TimedJoin :=
  if !task.pool then .returned .taskNotPushed clock
  -- no wait at all for less than a nanosecond
  else if timeout.value < nanosecond then
    .returned (if !task.isFinished then .timeout else .ok) clock
  else
    match deadline timeout tv with
    | none => .overflow
    | some _ => timedWait clock task.isFinished false ws

/-! ## The deadline -/

/-- The time of the day and the timeout together, exactly. -/
def dueTime (timeout : Double) (tv : Timeval) : ℚ :=
  tv.tvSec + tv.tvUsec / 1000000 + timeout.value

/-- The deadline is computed without an overflow, is a proper time, and is the due time rounded down
to a nanosecond. -/
def ExactDeadline (timeout : Double) (tv : Timeval) : Prop :=
  ∃ ts, deadline timeout tv = some ts ∧ 0 ≤ ts.tvNsec ∧ ts.tvNsec < 1000000000 ∧
    ts.nsec = ⌊dueTime timeout tv * 1000000000⌋

/-- The wait times out only from the deadline on. -/
def KeepsDeadline (timeout : Double) (tv : Timeval) (ws : List Waking) : Prop :=
  ∀ ts, deadline timeout tv = some ts → ∀ w ∈ ws, w.timedOut = true → ts.nsec ≤ w.clock

/-- No join of a pushed task ends with a timeout before the due time, and none is undefined. -/
def WaitsUntilDue (timeout : Double) (tv : Timeval) : Prop :=
  ∀ (ρ : Type) (task : Task ρ) clock ws, task.pool = true → KeepsDeadline timeout tv ws →
    threadTaskTimedJoin task timeout clock tv ws ≠ .overflow ∧
    ∀ later, threadTaskTimedJoin task timeout clock tv ws = .returned .timeout later →
      ⌊dueTime timeout tv * 1000000000⌋ ≤ later

/-- The nanoseconds of the timeout beyond its whole seconds, exactly. -/
def fractionNsec (timeout : Double) : ℚ := Int.fract timeout.value * 1000000000

theorem long_of_nonneg {n : Int} (h : 0 ≤ n) : long n = if n < 2 ^ 63 then some n else none := by
  unfold long
  refine if_congr ?_ rfl rfl
  constructor
  · exact And.right
  · exact fun hlt => ⟨by omega, hlt⟩

theorem castLong_of_floor_nonneg {x : ℚ} (h : 0 ≤ ⌊x⌋) :
    castLong x = if ⌊x⌋ < 2 ^ 63 then some ⌊x⌋ else none := by
  rw [castLong, if_pos (Int.floor_nonneg.mp h), long_of_nonneg h]

theorem nanosecond_le {timeout : Double} (h : 1 / 1000000000 ≤ timeout.value) :
    nanosecond ≤ timeout.value :=
  rounded_le (by norm_num) timeout.representable h

theorem fractionNsec_bounds (timeout : Double) :
    0 ≤ fractionNsec timeout ∧ fractionNsec timeout < 1000000000 := by
  have hnonneg := Int.fract_nonneg timeout.value
  have hlt := Int.fract_lt_one timeout.value
  unfold fractionNsec
  constructor
  · positivity
  · linarith

theorem abs_fractionNsec_lt (timeout : Double) : |fractionNsec timeout| < 2 ^ 52 := by
  obtain ⟨hnonneg, hlt⟩ := fractionNsec_bounds timeout
  rw [abs_of_nonneg hnonneg]
  exact hlt.trans (by norm_num)

/-- The rounded nanoseconds can come to a whole second. -/
theorem floor_rounded_fractionNsec_bounds (timeout : Double) :
    0 ≤ ⌊rounded (fractionNsec timeout)⌋ ∧ ⌊rounded (fractionNsec timeout)⌋ ≤ 1000000000 := by
  obtain ⟨hnonneg, hlt⟩ := fractionNsec_bounds timeout
  have hlow := floor_le_floor_rounded (abs_fractionNsec_lt timeout)
  have hhigh := floor_rounded_le (abs_fractionNsec_lt timeout)
  have hfloor := Int.floor_nonneg.mpr hnonneg
  have hfloor' : ⌊fractionNsec timeout⌋ < 1000000000 := Int.floor_lt.mpr (by exact_mod_cast hlt)
  omega

/-- The due time in nanoseconds, added up from its parts. -/
theorem floor_dueTime (timeout : Double) (tv : Timeval) : ⌊dueTime timeout tv * 1000000000⌋ =
    (tv.tvSec + ⌊timeout.value⌋) * 1000000000 + (tv.tvUsec * 1000 + ⌊fractionNsec timeout⌋) := by
  have hsplit : dueTime timeout tv * 1000000000 =
      (((tv.tvSec + ⌊timeout.value⌋) * 1000000000 + tv.tvUsec * 1000 : Int) : ℚ) +
        fractionNsec timeout := by
    rw [dueTime, fractionNsec, Int.fract]
    push_cast
    ring
  rw [hsplit, Int.floor_intCast_add]
  ring

/-- Of the operations on doubles only the product is rounded. -/
theorem deadline_product {timeout : Double} (htimeout : 0 ≤ timeout.value) :
    rounded (rounded (timeout.value - castDouble ⌊timeout.value⌋) * castDouble 1000000000) =
      rounded (fractionNsec timeout) := by
  have hfloor : castDouble ⌊timeout.value⌋ = ⌊timeout.value⌋ :=
    (timeout.representable.floor htimeout).rounded_eq
  have hfraction : rounded (Int.fract timeout.value) = Int.fract timeout.value :=
    (timeout.representable.fract htimeout).rounded_eq
  have hfactor : castDouble 1000000000 = 1000000000 := by
    apply Representable.rounded_eq
    exact ⟨1000000000, 0, by decide, by decide, by decide, by norm_num⟩
  rw [hfloor, hfactor]
  change rounded (rounded (Int.fract timeout.value) * 1000000000) = _
  rw [hfraction]
  rfl

/-- The additions, for a timeout that is not negative. -/
theorem deadline_eq {timeout : Double} {tv : Timeval} (htimeout : 0 ≤ timeout.value)
    (hsec : 0 ≤ tv.tvSec) (husec : 0 ≤ tv.tvUsec) (husec' : tv.tvUsec < 1000000) :
    deadline timeout tv =
      let totalNsec := tv.tvUsec * 1000 + ⌊rounded (fractionNsec timeout)⌋
      if tv.tvSec + ⌊timeout.value⌋ + totalNsec / 1000000000 < 2 ^ 63 then
        some ⟨tv.tvSec + ⌊timeout.value⌋ + totalNsec / 1000000000, totalNsec % 1000000000⟩
      else none := by
  have hfloor := Int.floor_nonneg.mpr htimeout
  obtain ⟨hnsec, hnsec'⟩ := floor_rounded_fractionNsec_bounds timeout
  have hfraction : castLong (rounded (fractionNsec timeout)) =
      some ⌊rounded (fractionNsec timeout)⌋ := by
    rw [castLong_of_floor_nonneg hnsec, if_pos (by omega)]
  have htotal : 0 ≤ tv.tvUsec * 1000 + ⌊rounded (fractionNsec timeout)⌋ := by omega
  have hcarry : 0 ≤ (tv.tvUsec * 1000 + ⌊rounded (fractionNsec timeout)⌋) / 1000000000 := by omega
  unfold deadline
  dsimp only
  rw [castLong_of_floor_nonneg hfloor]
  by_cases hsecs : ⌊timeout.value⌋ < 2 ^ 63
  · rw [if_pos hsecs]
    simp only [Option.bind_eq_bind, Option.bind_some, deadline_product htimeout, hfraction]
    rw [long_of_nonneg (n := tv.tvUsec * 1000) (by omega), if_pos (by omega), Option.bind_some,
      long_of_nonneg htotal, if_pos (by omega), Option.bind_some,
      long_of_nonneg (n := tv.tvSec + ⌊timeout.value⌋) (by omega),
      Int.tdiv_eq_ediv_of_nonneg htotal, Int.tmod_eq_emod_of_nonneg htotal]
    by_cases hsum : tv.tvSec + ⌊timeout.value⌋ < 2 ^ 63
    · rw [if_pos hsum, Option.bind_some, long_of_nonneg (by omega)]
      split <;> rfl
    · rw [if_neg hsum, if_neg (by omega)]
      rfl
  · rw [if_neg hsecs, if_neg (by omega)]
    rfl

theorem dueTime_lt_iff (timeout : Double) (tv : Timeval) : dueTime timeout tv < 2 ^ 63 ↔
    tv.tvSec + ⌊timeout.value⌋ + (tv.tvUsec * 1000 + ⌊fractionNsec timeout⌋) / 1000000000
      < 2 ^ 63 := by
  have hfloor : ⌊dueTime timeout tv * 1000000000⌋ < 2 ^ 63 * 1000000000 ↔
      dueTime timeout tv < 2 ^ 63 := by
    rw [Int.floor_lt]
    push_cast
    constructor
    · intro h
      linarith
    · intro h
      linarith
  rw [← hfloor, floor_dueTime]
  omega

/-- An exact deadline is one that fits, and whose product was not rounded up to the next integer. -/
theorem exactDeadline_iff {timeout : Double} {tv : Timeval} (htimeout : 0 ≤ timeout.value)
    (hsec : 0 ≤ tv.tvSec) (husec : 0 ≤ tv.tvUsec) (husec' : tv.tvUsec < 1000000) :
    ExactDeadline timeout tv ↔ dueTime timeout tv < 2 ^ 63 ∧
      fractionNsec timeout + ulp (fractionNsec timeout) / 2 < ⌊fractionNsec timeout⌋ + 1 := by
  have hdue := floor_dueTime timeout tv
  rw [← floor_rounded_eq_iff (abs_fractionNsec_lt timeout), dueTime_lt_iff, ExactDeadline,
    deadline_eq htimeout hsec husec husec', hdue]
  dsimp only
  constructor
  · rintro ⟨ts, hts, -, -, hexact⟩
    split at hts
    · next hlt =>
      cases hts
      unfold Timespec.nsec at hexact
      dsimp only at hexact
      have hsame : ⌊rounded (fractionNsec timeout)⌋ = ⌊fractionNsec timeout⌋ := by omega
      exact ⟨by rwa [← hsame], hsame⟩
    · cases hts
  · rintro ⟨hlt, hsame⟩
    rw [hsame, if_pos hlt]
    refine ⟨_, rfl, ?_, ?_, ?_⟩
    · show 0 ≤ (tv.tvUsec * 1000 + ⌊fractionNsec timeout⌋) % 1000000000
      omega
    · show (tv.tvUsec * 1000 + ⌊fractionNsec timeout⌋) % 1000000000 < 1000000000
      omega
    · unfold Timespec.nsec
      dsimp only
      omega

/-! ## The wait -/

/-- A wait that ends with a timeout ends with a waking that timed out. -/
theorem timedWait_timeout {clock later : Int} {isFinished timedOut : Bool} {ws : List Waking}
    (h : timedWait clock isFinished timedOut ws = .returned .timeout later) :
    timedOut = true ∧ later = clock ∨ ∃ w ∈ ws, w.timedOut = true ∧ w.clock = later := by
  induction ws generalizing clock isFinished timedOut with
  | nil =>
    unfold timedWait at h
    split at h
    · cases h
    · cases timedOut with
      | true =>
        cases h
        exact .inl ⟨rfl, rfl⟩
      | false => cases h
  | cons w ws ih =>
    unfold timedWait at h
    split at h
    · rcases ih h with ⟨hout, hclock⟩ | ⟨w', hw', hout⟩
      · exact .inr ⟨w, List.mem_cons_self, hout, hclock.symm⟩
      · exact .inr ⟨w', List.mem_cons_of_mem w hw', hout⟩
    · cases timedOut with
      | true =>
        cases h
        exact .inl ⟨rfl, rfl⟩
      | false => cases h

theorem timedWait_ne_overflow (clock : Int) (isFinished timedOut : Bool) (ws : List Waking) :
    timedWait clock isFinished timedOut ws ≠ .overflow := by
  induction ws generalizing clock isFinished timedOut with
  | nil =>
    unfold timedWait
    split
    · exact fun h => nomatch h
    · exact fun h => nomatch h
  | cons w ws ih =>
    unfold timedWait
    split
    · exact ih _ _ _
    · exact fun h => nomatch h

/-- With an exact deadline the wait does not end with a timeout before the due time. -/
theorem ExactDeadline.waitsUntilDue {timeout : Double} {tv : Timeval}
    (h : ExactDeadline timeout tv) (htimeout : 1 / 1000000000 ≤ timeout.value) :
    WaitsUntilDue timeout tv := by
  obtain ⟨ts, hts, -, -, hdue⟩ := h
  intro ρ task clock ws hpool hkeeps
  have hjoin : threadTaskTimedJoin task timeout clock tv ws =
      timedWait clock task.isFinished false ws := by
    rw [threadTaskTimedJoin, hpool, if_neg (by decide), if_neg (not_lt.mpr (nanosecond_le htimeout)),
      hts]
  rw [hjoin]
  refine ⟨timedWait_ne_overflow _ _ _ ws, fun later hlater => ?_⟩
  rcases timedWait_timeout hlater with ⟨hout, -⟩ | ⟨w, hw, hout, rfl⟩
  · cases hout
  · rw [← hdue]
    exact hkeeps ts hts w hw hout

/-- The deadline is exact, and the wait keeps to it, exactly if the due time is less than 2⁶³ seconds
and the nanoseconds of the timeout are further than half a unit from the next integer. -/
theorem deadline_iff {timeout : Double} {tv : Timeval}
    (htimeout : 1 / 1000000000 ≤ timeout.value) (hsec : 0 ≤ tv.tvSec) (husec : 0 ≤ tv.tvUsec)
    (husec' : tv.tvUsec < 1000000) :
    ExactDeadline timeout tv ∧ WaitsUntilDue timeout tv ↔
      tv.tvSec + tv.tvUsec / 1000000 + timeout.value < (2 ^ 63 : ℚ) ∧
        fractionNsec timeout + ulp (fractionNsec timeout) / 2 < ⌊fractionNsec timeout⌋ + 1 := by
  have hnonneg : 0 ≤ timeout.value := le_trans (by norm_num) htimeout
  have hexact := exactDeadline_iff hnonneg hsec husec husec'
  exact ⟨fun h => hexact.mp h.1, fun h => ⟨hexact.mpr h, (hexact.mpr h).waitsUntilDue htimeout⟩⟩

def halfSecond : Double :=
  ⟨1 / 2, 1, -1, by decide, by decide, by decide, by norm_num⟩

theorem deadline_iff_halfSecond :
    ExactDeadline halfSecond ⟨1700000000, 750000⟩ ∧
      WaitsUntilDue halfSecond ⟨1700000000, 750000⟩ := by
  have hnsec : fractionNsec halfSecond = 500000000 := by
    have hfract : Int.fract (1 / 2 : ℚ) = 1 / 2 := Int.fract_eq_self.mpr (by norm_num)
    rw [fractionNsec, halfSecond, hfract]
    norm_num
  have hunit : ulp 500000000 ≤ 1 := by
    rw [← hnsec]
    exact ulp_le_one (abs_fractionNsec_lt halfSecond)
  have hlong : 1 / 1000000000 ≤ halfSecond.value := by
    unfold halfSecond
    norm_num
  apply (deadline_iff hlong (by decide) (by decide) (by decide)).mpr
  constructor
  · unfold halfSecond
    norm_num
  · rw [hnsec, Int.floor_ofNat]
    push_cast
    linarith

/-- `DBL_MAX`. -/
def dblMax : Double :=
  ⟨(2 ^ 53 - 1) * 2 ^ 971, 2 ^ 53 - 1, 971, by decide, by decide, by decide, by norm_num⟩

/-- The largest timeout, which the header gives for an infinite one, has no deadline. -/
theorem dblMax_has_no_deadline :
    1 / 1000000000 ≤ dblMax.value ∧ ¬ ExactDeadline dblMax ⟨1700000000, 0⟩ := by
  have hlarge : (2 : ℚ) ^ 63 ≤ dblMax.value := by
    have hpow : (2 : ℚ) ^ 63 ≤ 2 ^ 971 := pow_le_pow_right₀ (by norm_num) (by decide)
    exact hpow.trans (le_mul_of_one_le_left (by positivity) (by norm_num))
  have hsmall : 1 / 1000000000 ≤ dblMax.value := le_trans (by norm_num) hlarge
  refine ⟨hsmall, fun hexact => ?_⟩
  have hdue := ((exactDeadline_iff (le_trans (by norm_num) hsmall) (by decide) (by decide)
    (by decide)).mp hexact).1
  rw [dueTime] at hdue
  push_cast at hdue
  linarith

/-- The literal `0.3`. -/
def threeTenths : Double :=
  ⟨5404319552844595 / 2 ^ 54, 5404319552844595, -54, by decide, by decide, by decide, by norm_num⟩

/-- The nanoseconds are a little less than 300000000, and rounded to them. -/
theorem threeTenths_rounded_up :
    dueTime threeTenths ⟨1700000000, 0⟩ < 2 ^ 63 ∧
      ¬ ExactDeadline threeTenths ⟨1700000000, 0⟩ := by
  have hnsec : fractionNsec threeTenths = 5404319552844595 / 2 ^ 54 * 1000000000 := by
    have hfract : Int.fract (5404319552844595 / 2 ^ 54 : ℚ) = 5404319552844595 / 2 ^ 54 :=
      Int.fract_eq_self.mpr (by norm_num)
    rw [fractionNsec, threeTenths, hfract]
  have hfloor : ⌊(5404319552844595 / 2 ^ 54 * 1000000000 : ℚ)⌋ = 299999999 := by
    rw [Int.floor_eq_iff]
    norm_num
  have hunit : ulp (5404319552844595 / 2 ^ 54 * 1000000000) = 2 ^ (28 - 52 : ℤ) :=
    ulp_eq (by norm_num) (by norm_num) (by decide)
  constructor
  · unfold dueTime threeTenths
    norm_num
  · intro hexact
    have hnonneg : 0 ≤ threeTenths.value := by
      unfold threeTenths
      norm_num
    have hclear := ((exactDeadline_iff hnonneg (by decide) (by decide) (by decide)).mp hexact).2
    rw [hnsec, hfloor, hunit] at hclear
    norm_num at hclear

end SystemProgramming.ThreadPool
