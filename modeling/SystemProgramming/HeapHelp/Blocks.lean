import SystemProgramming.HeapHelp.Records

/-!
# The records are the blocks

A program that frees only what it holds never meets the assertion "freeing bad memory", although a
block and its record come and go at different times: a thread in `realloc` gives its old block up
first and removes the record later, when another thread may have the same address again.  Outside
the calls the records are exactly the blocks that are not freed.
-/

namespace SystemProgramming.HeapHelp

open Runs SinglyLinked Censuses

variable {ι : Type} {s t : State ι} {i : ι} {xs ys ps as bs : List Nat} {a n p q x ptr size : Nat}

/-- The program passes only blocks that it holds, and `realloc` always finds memory. -/
def WellBehaved (s : State ι) (a : Label ι) : Prop :=
  (∀ p, a.passes = some p → s.owned p = true) ∧ a.outOfMemory = false

/-! ## What a thread in a call is going to do with the block `x` -/

/-- It is going to remove a record of it. -/
def removing (x : Nat) : Phase → Nat
  | .free p _ => if p = x then 1 else 0
  | .unlinking p _ => if p = x then 1 else 0
  | _ => 0

/-- It is going to remove a record of it, whether or not the program is in its exit. -/
def unlinking (x : Nat) : Phase → Nat
  | .unlinking p _ => if p = x then 1 else 0
  | _ => 0

def After.pending (x : Nat) : After → Nat
  | .traceNew p _ => if p = x then 1 else 0
  | _ => 0

/-- It has it from the default allocator and is going to return it to the program. -/
def pending (x : Nat) : Phase → Nat
  | .traceNew p _ => if p = x then 1 else 0
  | .taking p _ => if p = x then 1 else 0
  | .filling _ p _ => if p = x then 1 else 0
  | .linking _ p _ => if p = x then 1 else 0
  | .free _ after => after.pending x
  | .unlinking _ after => after.pending x
  | _ => 0

def After.freeing (p x : Nat) : After → Nat
  | .defaultFree => if p = x then 1 else 0
  | _ => 0

/-- It has it from the program and is going to return it to the default allocator. -/
def freeing (x : Nat) : Phase → Nat
  | .free p after => after.freeing p x
  | .unlinking p after => after.freeing p x
  | .releasing p => if p = x then 1 else 0
  | _ => 0

theorem unlinking_le_removing (ph : Phase) : unlinking x ph ≤ removing x ph := by
  cases ph <;> simp [unlinking, removing]

/-- How many records of the list are about the block `x`. -/
def State.recorded (s : State ι) (xs : List Nat) (x : Nat) : Nat :=
  (xs.map fun a => (s.records a).mem).count x

/-- A live block is in one place: with the program or with one thread.  It has a record for each
thread that is going to remove one and for the program that holds it, before the exit. -/
structure Tracks [Fintype ι] (s : State ι) (xs : List Nat) : Prop where
  live : ∀ x, census (pending x) s.phase + census (freeing x) s.phase + (s.owned x).toNat =
    (s.live x).toNat
  exact : s.isExitDone = false → ∀ x,
    s.recorded xs x = census (removing x) s.phase + (s.owned x).toNat
  enough : ∀ x, census (unlinking x) s.phase ≤ s.recorded xs x
  filled : ∀ i a p n, s.phase i = .linking a p n → (s.records a).mem = p
  safe : s.failed ≠ some .freeingBadMemory

/-- Where `resume` leads. -/
def After.phase (ptr : Nat) : After → Phase
  | .return => .outside
  | .defaultFree => .releasing ptr
  | .traceNew ptr' size => .traceNew ptr' size

theorem resume_eq [DecidableEq ι] (s : State ι) (i : ι) (ptr : Nat) (after : After) :
    s.resume i ptr after = s.goto i (after.phase ptr) := by
  cases after <;> rfl

theorem after_phase (after : After) (ptr x : Nat) :
    pending x (after.phase ptr) = after.pending x ∧
      freeing x (after.phase ptr) = after.freeing ptr x ∧ removing x (after.phase ptr) = 0 ∧
      unlinking x (after.phase ptr) = 0 ∧ ∀ a p n, after.phase ptr ≠ .linking a p n := by
  cases after <;> exact ⟨rfl, rfl, rfl, rfl, nofun⟩

theorem unlink_mem (s : State ι) (prev : Option Nat) (a b : Nat) :
    ((s.unlink prev a).records b).mem = (s.records b).mem := by
  have hmodify : ∀ (u : State ι) (c : Nat) (next : Option Nat),
      ((u.modify c fun x => { x with next := next }).records b).mem = (u.records b).mem := by
    intro u c next
    show (Function.update u.records c { u.records c with next := next } b).mem = _
    by_cases hb : b = c
    · rw [hb, Function.update_self]
    · rw [Function.update_of_ne hb]
  cases prev with
  | none => exact hmodify { s with allocs := (s.records a).next } a s.allocPool
  | some p =>
    have hprev := hmodify s p (s.records a).next
    exact (hmodify (s.modify p fun x => { x with next := (s.records a).next }) a s.allocPool).trans
      hprev

section Step

variable [Fintype ι]

theorem Tracks.owned_live (h : Tracks s xs) (hp : s.owned p = true) :
    s.live p = true ∧ census (pending p) s.phase = 0 ∧ census (freeing p) s.phase = 0 := by
  have hlive := h.live p
  rw [hp] at hlive
  cases hb : s.live p with
  | true =>
    rw [hb] at hlive
    simp only [Bool.toNat_true] at hlive
    exact ⟨rfl, by omega, by omega⟩
  | false =>
    rw [hb] at hlive
    simp only [Bool.toNat_true, Bool.toNat_false] at hlive
    omega

theorem tracks_start (memory : Nat → Allocation) : Tracks (State.init (ι := ι) memory) [] := by
  have hzero : ∀ f : Phase → Nat, f .outside = 0 →
      census f (State.init (ι := ι) memory).phase = 0 := fun f hf => census_eq_zero fun _ => hf
  refine ⟨fun x => ?_, fun _ x => ?_, fun x => ?_, nofun, nofun⟩
  · rw [hzero _ rfl, hzero _ rfl]
    rfl
  · rw [hzero _ rfl]
    rfl
  · rw [hzero _ rfl]
    exact Nat.zero_le _

/-- What a thread is going to return the program does not hold. -/
theorem Tracks.not_owned (h : Tracks s xs) (hp : 0 < pending p (s.phase i)) :
    s.owned p = false := by
  have hle := le_census (pending p) s.phase i
  cases howned : s.owned p with
  | false => rfl
  | true =>
    obtain ⟨-, hzero, -⟩ := h.owned_live howned
    omega

/-- Before the exit there are enough records because there are exactly as many as there should be. -/
theorem Tracks.of_exact (hlive : ∀ x, census (pending x) s.phase + census (freeing x) s.phase +
      (s.owned x).toNat = (s.live x).toNat)
    (hexact : ∀ x, s.recorded xs x = census (removing x) s.phase + (s.owned x).toNat)
    (hfilled : ∀ i a p n, s.phase i = .linking a p n → (s.records a).mem = p)
    (hsafe : s.failed ≠ some .freeingBadMemory) : Tracks s xs where
  live := hlive
  exact _ := hexact
  enough x := by
    have hle : census (unlinking x) s.phase ≤ census (removing x) s.phase :=
      census_mono unlinking_le_removing
    rw [hexact]
    omega
  filled := hfilled
  safe := hsafe

variable [DecidableEq ι]

/-- One thread goes on.  The changes of the counts are those of its own terms and of the list. -/
theorem Tracks.move (h : Tracks s xs) (ph : Phase) (hphase : t.phase = Function.update s.phase i ph)
    (hlive : ∀ x, pending x ph + freeing x ph + (t.owned x).toNat + (s.live x).toNat =
      pending x (s.phase i) + freeing x (s.phase i) + (s.owned x).toNat + (t.live x).toNat)
    (hexit : t.isExitDone = s.isExitDone)
    (hexact : s.isExitDone = false → ∀ x,
      t.recorded ys x + removing x (s.phase i) + (s.owned x).toNat =
        s.recorded xs x + removing x ph + (t.owned x).toNat)
    (henough : s.isExitDone = true → ∀ x,
      s.recorded xs x + unlinking x ph ≤ t.recorded ys x + unlinking x (s.phase i))
    (hothers : ∀ j a p n, j ≠ i → s.phase j = .linking a p n →
      (t.records a).mem = (s.records a).mem)
    (hself : ∀ a p n, ph = .linking a p n → (t.records a).mem = p)
    (hsafe : t.failed = s.failed) : Tracks t ys := by
  have hlive' : ∀ x, census (pending x) t.phase + census (freeing x) t.phase + (t.owned x).toNat =
      (t.live x).toNat := by
    intro x
    have hold := h.live x
    have hpending := census_update (pending x) s.phase i ph
    have hfreeing := census_update (freeing x) s.phase i ph
    have hchange := hlive x
    rw [hphase]
    omega
  have hfilled : ∀ j a p n, t.phase j = .linking a p n → (t.records a).mem = p := by
    intro j a p n hj
    rw [hphase] at hj
    by_cases hji : j = i
    · subst hji
      rw [Function.update_self] at hj
      exact hself a p n hj
    · rw [Function.update_of_ne hji] at hj
      exact (hothers j a p n hji hj).trans (h.filled j a p n hj)
  have hsafe' : t.failed ≠ some .freeingBadMemory := hsafe ▸ h.safe
  cases hdone : s.isExitDone with
  | false =>
    refine .of_exact hlive' (fun x => ?_) hfilled hsafe'
    have hold := h.exact hdone x
    have hremoving := census_update (removing x) s.phase i ph
    have hchange := hexact hdone x
    rw [hphase]
    omega
  | true =>
    refine ⟨hlive', fun hfalse => ?_, fun x => ?_, hfilled, hsafe'⟩
    · rw [hexit, hdone] at hfalse
      cases hfalse
    · have hold := h.enough x
      have hunlinking := census_update (unlinking x) s.phase i ph
      have hchange := henough hdone x
      rw [hphase]
      omega

/-- One thread goes on and leaves the list alone. -/
theorem Tracks.leave (h : Tracks s xs) (ph : Phase) (hphase : t.phase = Function.update s.phase i ph)
    (hlive : ∀ x, pending x ph + freeing x ph + (t.owned x).toNat + (s.live x).toNat =
      pending x (s.phase i) + freeing x (s.phase i) + (s.owned x).toNat + (t.live x).toNat)
    (hexit : t.isExitDone = s.isExitDone) (hrecords : t.records = s.records)
    (hexact : s.isExitDone = false → ∀ x, removing x (s.phase i) + (s.owned x).toNat =
      removing x ph + (t.owned x).toNat)
    (henough : s.isExitDone = true → ∀ x, unlinking x ph ≤ unlinking x (s.phase i))
    (hself : ∀ a p n, ph ≠ .linking a p n) (hsafe : t.failed = s.failed) : Tracks t xs := by
  have hrecorded : ∀ x, t.recorded xs x = s.recorded xs x := fun x => by
    rw [State.recorded, State.recorded, hrecords]
  refine h.move ph hphase hlive hexit (fun hdone x => ?_) (fun hdone x => ?_) (fun j a p n _ _ => ?_)
    (fun a p n hph => absurd hph (hself a p n)) hsafe
  · have hchange := hexact hdone x
    rw [hrecorded]
    omega
  · have hchange := henough hdone x
    rw [hrecorded]
    omega
  · rw [hrecords]

theorem toNat_update (f : Nat → Bool) (p : Nat) (b : Bool) (x : Nat) :
    (Function.update f p b x).toNat = if p = x then b.toNat else (f x).toNat := by
  by_cases hp : p = x
  · rw [if_pos hp, hp, Function.update_self]
  · rw [if_neg hp, Function.update_of_ne (Ne.symm hp)]

/-- The first step of a call of a program that passes what it holds. -/
theorem Tracks.begins {passed : Option Nat} (h : Tracks s xs) (hphase : s.phase i = .outside)
    (howned : ∀ p, passed = some p → s.owned p = true) (hbegins : Begins s i passed false t) :
    Tracks t xs := by
  cases hbegins with
  | nothing => exact h
  | @traced size ptr hfree =>
    refine h.leave (.traceNew ptr size) rfl (fun x => ?_) rfl rfl (fun _ x => ?_)
      (fun _ x => Nat.zero_le _) nofun rfl
    · simp only [State.goto, State.setLive, toNat_update, hphase, pending, freeing, Bool.toNat_true]
      split
      · next hx =>
        rw [← hx, hfree, Bool.toNat_false]
        omega
      · omega
    · rw [hphase]
      rfl
  | @moved size p q hne hfree =>
    obtain ⟨hlive, -, -⟩ := h.owned_live (howned p rfl)
    have howned' := howned p rfl
    refine h.leave (.free p (.traceNew q size)) rfl (fun x => ?_) rfl rfl (fun _ x => ?_)
      (fun _ x => Nat.zero_le _) nofun rfl
    · simp only [State.goto, State.setLive, State.take, toNat_update, hphase, pending, freeing,
        After.pending, After.freeing, Bool.toNat_true, Bool.toNat_false]
      by_cases hp : p = x
      · rw [if_pos hp, if_pos hp, ← hp, if_neg hne, hlive, howned', Bool.toNat_true]
      · rw [if_neg hp, if_neg hp]
        split
        · next hq =>
          rw [← hq, hfree, Bool.toNat_false]
          omega
        · omega
    · simp only [State.goto, State.setLive, State.take, toNat_update, hphase, removing,
        Bool.toNat_false]
      split
      · next hp => rw [← hp, howned', Bool.toNat_true]
      · omega
  | @released p =>
    obtain ⟨hlive, -, -⟩ := h.owned_live (howned p rfl)
    have howned' := howned p rfl
    refine h.leave (.free p .return) rfl (fun x => ?_) rfl rfl (fun _ x => ?_)
      (fun _ x => Nat.zero_le _) nofun rfl
    · simp only [State.goto, State.setLive, State.take, toNat_update, hphase, pending, freeing,
        After.pending, After.freeing, Bool.toNat_false]
      split
      · next hp =>
        rw [← hp, hlive, howned', Bool.toNat_true]
      · omega
    · simp only [State.goto, State.setLive, State.take, toNat_update, hphase, removing,
        Bool.toNat_false]
      split
      · next hp => rw [← hp, howned', Bool.toNat_true]
      · omega
  | @free p =>
    have howned' := howned p rfl
    refine h.leave (.free p .defaultFree) rfl (fun x => ?_) rfl rfl (fun _ x => ?_)
      (fun _ x => Nat.zero_le _) nofun rfl
    · simp only [State.goto, State.take, toNat_update, hphase, pending, freeing,
        After.pending, After.freeing, Bool.toNat_false]
      split
      · next hp => rw [← hp, howned', Bool.toNat_true]
      · omega
    · simp only [State.goto, State.take, toNat_update, hphase, removing, Bool.toNat_false]
      split
      · next hp => rw [← hp, howned', Bool.toNat_true]
      · omega
  | fails he =>
    refine ⟨h.live, h.exact, h.enough, h.filled, ?_⟩
    obtain rfl | rfl := he
    · exact nofun
    · exact nofun

/-! ## The other steps -/

/-- The test of `alloc_trace_new`: during the exit the call returns without a record. -/
theorem Tracks.traceNew (h : Tracks s xs) (hphase : s.phase i = .traceNew ptr size) :
    Tracks (if s.isExitDone then s.give i ptr else s.goto i (.taking ptr size)) xs := by
  split
  · next hdone =>
    have howned : s.owned ptr = false := h.not_owned (i := i) (by
      rw [hphase]
      simp [pending])
    refine h.leave .outside rfl (fun x => ?_) rfl rfl (fun hfalse => ?_)
      (fun _ x => Nat.zero_le _) nofun rfl
    · simp only [State.give, State.goto, toNat_update, hphase, pending, freeing, Bool.toNat_true]
      split
      · next hx => rw [← hx, howned, Bool.toNat_false]
      · omega
    · rw [hdone] at hfalse
      cases hfalse
  · refine h.leave (.taking ptr size) rfl (fun x => ?_) rfl rfl (fun _ x => ?_)
      (fun _ x => Nat.zero_le _) nofun rfl
    · rw [hphase]
      rfl
    · rw [hphase]
      rfl

theorem Tracks.takeRecord (h : Tracks s xs) (hkept : Kept s xs ps)
    (hphase : s.phase i = .taking ptr size) : Tracks (s.takeRecord i ptr size) xs := by
  -- whichever record it is, only the phase of the thread matters here
  have hfilling : ∀ {u : State ι} (a : Nat), u.phase = s.phase → u.live = s.live →
      u.owned = s.owned → u.isExitDone = s.isExitDone → u.records = s.records →
      u.failed = s.failed → Tracks (u.goto i (.filling a ptr size)) xs := by
    intro u a hsame hlive howned hexit hrecords hfailed
    refine h.leave (i := i) (.filling a ptr size) ?_ (fun x => ?_) hexit hrecords (fun _ x => ?_)
      (fun _ x => Nat.zero_le _) nofun hfailed
    · show Function.update u.phase i _ = _
      rw [hsame]
    · show _ + _ + (u.owned x).toNat + _ = _ + _ + _ + (u.live x).toNat
      rw [howned, hlive, hphase]
      rfl
    · show _ = _ + (u.owned x).toNat
      rw [howned, hphase]
      rfl
  obtain ⟨a, -, heq⟩ | ⟨b, used, -, -, heq⟩ := takeRecord_cases s i ptr size hkept.used
  · rw [heq]
    exact hfilling a rfl rfl rfl rfl rfl rfl
  · rw [heq]
    exact hfilling _ rfl rfl rfl rfl rfl rfl

/-- The record in hand gets its contents, which no one else sees. -/
theorem Tracks.fill {trace : List Nat} (h : Tracks s xs) (hkept : Kept s xs ps)
    (hphase : s.phase i = .filling a ptr size) :
    Tracks ((s.modify a fun x => { x with mem := ptr, size := size, trace := trace }).goto i
      (.linking a ptr size)) xs := by
  have hhold : holds a (s.phase i) = 1 := by
    rw [hphase]
    exact if_pos rfl
  obtain ⟨hxs, -⟩ := hkept.notMem_of_holds (i := i) (n := a) (by omega)
  let filled : Allocation := { s.records a with mem := ptr, size := size, trace := trace }
  have hmem : ∀ b, b ≠ a → (Function.update s.records a filled b).mem = (s.records b).mem :=
    fun b hb => congrArg Allocation.mem (Function.update_of_ne hb _ _)
  have hself : (Function.update s.records a filled a).mem = ptr := by rw [Function.update_self]
  have hrecorded : ∀ x, (xs.map fun b => (Function.update s.records a filled b).mem).count x =
      s.recorded xs x := fun x =>
    congrArg (List.count x) (List.map_congr_left fun b hb => hmem b (ne_of_mem_of_not_mem hb hxs))
  refine h.move (.linking a ptr size) rfl (fun x => ?_) rfl (fun _ x => ?_) (fun _ x => ?_)
    (fun j b p n hji hj => ?_) ?_ rfl
  · rw [hphase]
    rfl
  · rw [hphase]
    exact congrArg (fun k => k + 0 + (s.owned x).toNat) (hrecorded x)
  · rw [hphase]
    exact (hrecorded x).ge
  · -- another thread has another record in hand
    refine hmem b ?_
    rintro rfl
    have htwo := add_le_census (holds b) s.phase hji
    have hj' : holds b (s.phase j) = 1 := by
      rw [hj]
      exact if_pos rfl
    have hplace := hkept.place b
    split at hplace <;> omega
  · rintro b p n ⟨⟩
    exact hself

/-- The new record comes into the list when its block comes to the program. -/
theorem Tracks.link (h : Tracks s xs) (hphase : s.phase i = .linking a ptr size) :
    Tracks (s.link i a ptr) (a :: xs) := by
  have howned : s.owned ptr = false := h.not_owned (i := i) (by
    rw [hphase]
    simp [pending])
  have hmem : ∀ b, ((s.link i a ptr).records b).mem = (s.records b).mem := by
    intro b
    show (Function.update s.records a { s.records a with next := s.allocs } b).mem = _
    by_cases hb : b = a
    · rw [hb, Function.update_self]
    · rw [Function.update_of_ne hb]
  have hrecorded : ∀ x, (s.link i a ptr).recorded (a :: xs) x =
      s.recorded xs x + if ptr = x then 1 else 0 := by
    intro x
    simp only [State.recorded, List.map_cons, List.count_cons, hmem, h.filled i a ptr size hphase,
      beq_iff_eq]
  have hgive : ∀ x, ((s.link i a ptr).owned x).toNat = (s.owned x).toNat + if ptr = x then 1 else 0 := by
    intro x
    show (Function.update s.owned ptr true x).toNat = _
    rw [toNat_update]
    split
    · next hx =>
      rw [← hx, howned]
      rfl
    · rfl
  refine h.move .outside rfl (fun x => ?_) rfl (fun _ x => ?_) (fun _ x => ?_)
    (fun j b p n _ _ => hmem b) nofun rfl
  · rw [hgive, hphase]
    show 0 + 0 + _ + (s.live x).toNat = (if ptr = x then 1 else 0) + 0 + _ + (s.live x).toNat
    omega
  · rw [hgive, hrecorded, hphase]
    show _ + 0 + _ = _ + 0 + _
    omega
  · rw [hrecorded, hphase]
    show _ + 0 ≤ _ + 0
    omega

/-- A thread that is going to remove a record finds one. -/
theorem Tracks.freeRecord {after : After} (h : Tracks s xs) (hkept : Kept s xs ps)
    (hphase : s.phase i = .unlinking ptr after) :
    ∃ ys ps', Kept (s.freeRecord i ptr after) ys ps' ∧ Tracks (s.freeRecord i ptr after) ys := by
  have hunlinking : 0 < s.recorded xs ptr := by
    have hle := le_census (unlinking ptr) s.phase i
    have hself : unlinking ptr (s.phase i) = 1 := by
      rw [hphase]
      exact if_pos rfl
    have henough := h.enough ptr
    omega
  rw [State.freeRecord]
  obtain ⟨-, hnot⟩ | ⟨as, a, bs, rfl, hmem, hfound⟩ := findRecord_spec ptr none hkept.allocs
    (Nat.lt_succ_of_le hkept.length_le)
  · obtain ⟨b, hb, heq⟩ := List.mem_map.mp (List.count_pos_iff.mp hunlinking)
    exact absurd heq (hnot b hb)
  · rw [hfound, Option.or_none]
    have hkept' := hkept.unlink
    have hcount : 0 ≤ (s.unlink as.getLast? a).allocCount := by
      rw [hkept'.count]
      exact Int.natCast_nonneg _
    obtain ⟨-, -, hsame, hlive, howned, hexit, hfailed, -⟩ := unlink_rest s as.getLast? a
    dsimp only
    rw [if_pos hcount]
    refine ⟨as ++ bs, a :: ps, hkept'.resume fun n => ?_, ?_⟩
    · rw [hsame, hphase]
      rfl
    · have hrecorded : ∀ x, s.recorded (as ++ a :: bs) x =
          ((s.unlink as.getLast? a).resume i ptr after).recorded (as ++ bs) x +
            if ptr = x then 1 else 0 := by
        intro x
        rw [resume_eq]
        simp only [State.recorded, State.goto, unlink_mem, List.map_append, List.map_cons,
          List.count_append, List.count_cons, hmem, beq_iff_eq]
        omega
      have hphase' := after_phase after ptr
      rw [resume_eq] at hrecorded ⊢
      refine h.move (i := i) (after.phase ptr) ?_ (fun x => ?_) hexit (fun _ x => ?_)
        (fun _ x => ?_) (fun j b p n _ _ => unlink_mem s _ a b)
        (fun b p n heq => absurd heq ((hphase' ptr).2.2.2.2 b p n)) hfailed
      · show Function.update (s.unlink as.getLast? a).phase i _ = _
        rw [hsame]
      · show _ + _ + ((s.unlink as.getLast? a).owned x).toNat + _ =
          _ + _ + _ + ((s.unlink as.getLast? a).live x).toNat
        rw [howned, hlive, (hphase' x).1, (hphase' x).2.1, hphase]
        rfl
      · show _ + _ + _ = _ + _ + ((s.unlink as.getLast? a).owned x).toNat
        rw [howned, hrecorded, (hphase' x).2.2.1, hphase]
        rfl
      · rw [hrecorded, (hphase' x).2.2.2.1, hphase]
        show _ + _ + 0 ≤ _ + if ptr = x then 1 else 0
        omega

/-- The test of `alloc_free`: during the exit the record stays. -/
theorem Tracks.free {after : After} (h : Tracks s xs) (hphase : s.phase i = .free ptr after) :
    Tracks (if s.isExitDone then s.resume i ptr after else s.goto i (.unlinking ptr after)) xs := by
  have hphase' := after_phase after ptr
  split
  · next hdone =>
    rw [resume_eq]
    refine h.leave (after.phase ptr) rfl (fun x => ?_) rfl rfl (fun hfalse => ?_) (fun _ x => ?_)
      (hphase' ptr).2.2.2.2 rfl
    · rw [(hphase' x).1, (hphase' x).2.1, hphase]
      rfl
    · rw [hdone] at hfalse
      cases hfalse
    · rw [(hphase' x).2.2.2.1]
      exact Nat.zero_le _
  · next hdone =>
    refine h.leave (.unlinking ptr after) rfl (fun x => ?_) rfl rfl (fun _ x => ?_)
      (fun htrue => absurd htrue hdone) nofun rfl
    · rw [hphase]
      rfl
    · rw [hphase]
      rfl

/-- The default allocator takes a block back. -/
theorem Tracks.release (h : Tracks s xs) (hphase : s.phase i = .releasing ptr) :
    Tracks ((s.setLive ptr false).goto i .outside) xs := by
  have hlive : s.live ptr = true := by
    have hle := le_census (freeing ptr) s.phase i
    have hself : freeing ptr (s.phase i) = 1 := by
      rw [hphase]
      exact if_pos rfl
    have hplace := h.live ptr
    cases hb : s.live ptr with
    | true => rfl
    | false =>
      rw [hb, Bool.toNat_false] at hplace
      omega
  refine h.leave .outside rfl (fun x => ?_) rfl rfl (fun _ x => ?_) (fun _ x => Nat.zero_le _)
    nofun rfl
  · simp only [State.goto, State.setLive, toNat_update, hphase, pending, freeing, Bool.toNat_false]
    split
    · next hx =>
      rw [← hx, hlive, Bool.toNat_true]
      omega
    · omega
  · rw [hphase]
    rfl

/-- A thread goes on with its call. -/
theorem Tracks.go {trace : List Nat} (h : Tracks s xs) (hkept : Kept s xs ps)
    (hgo : s.go i trace = some t) : ∃ ys ps', Kept t ys ps' ∧ Tracks t ys := by
  obtain ⟨ys, ps', hkept'⟩ := hkept.go hgo
  -- where the list stays the same it is the list of the new state
  have hlist : t.next = s.next → t.allocs = s.allocs → Tracks t xs →
      ∃ ys ps', Kept t ys ps' ∧ Tracks t ys := by
    intro hnext hallocs htracks
    have hchain := hkept'.allocs
    rw [hnext, hallocs] at hchain
    obtain rfl := hchain.unique hkept.allocs
    exact ⟨ys, ps', hkept', htracks⟩
  rw [State.go] at hgo
  cases hphase : s.phase i with
  | outside =>
    rw [hphase] at hgo
    cases hgo
  | traceNew ptr size =>
    rw [hphase] at hgo
    obtain rfl := Option.some.inj hgo
    exact hlist (by split <;> rfl) (by split <;> rfl) (h.traceNew hphase)
  | taking ptr size =>
    rw [hphase] at hgo
    obtain rfl := Option.some.inj hgo
    obtain ⟨ps', hkept'⟩ := hkept.takeRecord (i := i) ptr size fun n => by
      rw [hphase]
      rfl
    exact ⟨xs, ps', hkept', h.takeRecord hkept hphase⟩
  | filling a ptr size =>
    rw [hphase] at hgo
    obtain rfl := Option.some.inj hgo
    exact hlist (fill_next s a ptr size trace) rfl (h.fill hkept hphase)
  | linking a ptr size =>
    rw [hphase] at hgo
    obtain rfl := Option.some.inj hgo
    exact ⟨a :: xs, ps, hkept.link hphase, h.link hphase⟩
  | free ptr after =>
    rw [hphase] at hgo
    obtain rfl := Option.some.inj hgo
    refine hlist ?_ ?_ (h.free hphase)
    · rw [resume_eq]
      split <;> rfl
    · rw [resume_eq]
      split <;> rfl
  | unlinking ptr after =>
    rw [hphase] at hgo
    obtain rfl := Option.some.inj hgo
    exact h.freeRecord hkept hphase
  | releasing ptr =>
    rw [hphase] at hgo
    obtain rfl := Option.some.inj hgo
    exact hlist rfl rfl (h.release hphase)

/-! ## Whole runs -/

theorem tracks_step {l : Label ι} (h : Tracks s xs) (hkept : Kept s xs ps)
    (hstep : Within WellBehaved Steps s l t) : ∃ ys ps', Kept t ys ps' ∧ Tracks t ys := by
  obtain ⟨⟨howned, hmemory⟩, hstep⟩ := hstep
  obtain ⟨-, ⟨i, hphase, hbegins⟩ | ⟨i, trace, hgo⟩ | rfl⟩ := step_cases hstep
  · refine ⟨xs, ps, hkept.begins hphase hbegins, ?_⟩
    rw [hmemory] at hbegins
    exact h.begins hphase howned hbegins
  · exact h.go hkept hgo
  · refine ⟨xs, ps, hkept.frame rfl rfl rfl rfl rfl rfl (fun _ => rfl)
      ⟨hkept.notNegative, hkept.notFull⟩, h.live, nofun, h.enough, h.filled, h.safe⟩

theorem tracks_run {memory : Nat → Allocation} {as : List (Label ι)}
    (h : Run (Within WellBehaved Steps) (State.init memory) as s) :
    ∃ xs ps, Kept s xs ps ∧ Tracks s xs := by
  refine h.invariant (P := fun s => ∃ xs ps, Kept s xs ps ∧ Tracks s xs) ?_
    ⟨[], [], kept_start memory, tracks_start memory⟩
  rintro s a t ⟨xs, ps, hkept, htracks⟩ hstep
  exact tracks_step htracks hkept hstep

/-- Whatever the threads of a well-behaved program do, in whatever order, they never meet "freeing
bad memory"; and when none of them is in a call the list has a record for every block that is live
and for nothing else, and the count is the number of these blocks. -/
theorem records_are_blocks {memory : Nat → Allocation} {as : List (Label ι)}
    (h : Run (Within WellBehaved Steps) (State.init memory) as s) :
    s.failed ≠ some .freeingBadMemory ∧
      (s.isExitDone = false → (∀ i, s.phase i = .outside) →
        ∃ xs, Chain s.next s.allocs xs ∧ (xs.map fun a => (s.records a).mem).Nodup ∧
          (∀ p, p ∈ xs.map (fun a => (s.records a).mem) ↔ s.live p = true) ∧
          s.heaphGetAllocCount = xs.length) := by
  obtain ⟨xs, ps, hkept, htracks⟩ := tracks_run h
  refine ⟨htracks.safe, fun hexit houtside => ?_⟩
  have hzero : ∀ f : Phase → Nat, f .outside = 0 → census f s.phase = 0 := fun f hf =>
    census_eq_zero fun i => by rw [houtside i, hf]
  -- nobody is on the way, so the program holds what is live and has one record for it
  have hrecorded : ∀ x, (xs.map fun a => (s.records a).mem).count x = (s.live x).toNat := by
    intro x
    have hexact := htracks.exact hexit x
    have hlive := htracks.live x
    rw [hzero _ rfl] at hexact
    rw [hzero _ rfl, hzero _ rfl] at hlive
    rw [State.recorded] at hexact
    omega
  refine ⟨xs, hkept.allocs, List.nodup_iff_count_le_one.mpr fun x => ?_, fun p => ?_, hkept.count⟩
  · rw [hrecorded]
    exact Bool.toNat_le _
  · rw [← List.count_pos_iff, hrecorded]
    cases s.live p <;> decide

/-- One thread moves its block from 100 to 200, and another one gets 100 and records it before the
first one has removed its old record. -/
theorem records_are_blocks_sameAddress :
    ∃ (s : State (Fin 2)) (xs : List Nat), s.live 100 = true ∧ s.live 200 = true ∧
      (∀ p, p ∈ xs.map (fun a => (s.records a).mem) ↔ s.live p = true) ∧
      s.heaphGetAllocCount = xs.length ∧ s.failed ≠ some .freeingBadMemory := by
  have hrun : ∃ s : State (Fin 2), s.live 100 = true ∧ s.live 200 = true ∧ s.isExitDone = false ∧
      s.phase 0 = .outside ∧ s.phase 1 = .outside ∧
      Run (Within WellBehaved Steps) (State.init fun _ => ⟨[], 0, 0, none⟩)
        [.malloc 0 8 (some 100), .go 0 [1], .go 0 [1], .go 0 [1], .go 0 [1],
          .realloc 0 (some 100) 16 (some 200) true,
          .malloc 1 8 (some 100), .go 1 [2], .go 1 [2], .go 1 [2], .go 1 [2],
          .go 0 [1], .go 0 [1], .go 0 [1], .go 0 [1], .go 0 [1], .go 0 [1]] s :=
    ⟨_, rfl, rfl, rfl, rfl, rfl,
      .cons ⟨⟨nofun, rfl⟩, rfl⟩ <| .cons ⟨⟨nofun, rfl⟩, rfl⟩ <| .cons ⟨⟨nofun, rfl⟩, rfl⟩ <|
      .cons ⟨⟨nofun, rfl⟩, rfl⟩ <| .cons ⟨⟨nofun, rfl⟩, rfl⟩ <|
      .cons ⟨⟨by rintro p ⟨⟩; rfl, rfl⟩, rfl⟩ <| .cons ⟨⟨nofun, rfl⟩, rfl⟩ <|
      .cons ⟨⟨nofun, rfl⟩, rfl⟩ <| .cons ⟨⟨nofun, rfl⟩, rfl⟩ <| .cons ⟨⟨nofun, rfl⟩, rfl⟩ <|
      .cons ⟨⟨nofun, rfl⟩, rfl⟩ <| .cons ⟨⟨nofun, rfl⟩, rfl⟩ <| .cons ⟨⟨nofun, rfl⟩, rfl⟩ <|
      .cons ⟨⟨nofun, rfl⟩, rfl⟩ <| .cons ⟨⟨nofun, rfl⟩, rfl⟩ <| .cons ⟨⟨nofun, rfl⟩, rfl⟩ <|
      .cons ⟨⟨nofun, rfl⟩, rfl⟩ <| .nil _⟩
  obtain ⟨s, hlive, hlive', hexit, hzero, hone, hrun⟩ := hrun
  obtain ⟨hsafe, hblocks⟩ := records_are_blocks hrun
  obtain ⟨xs, -, -, hmem, hcount⟩ := hblocks hexit (Fin.forall_fin_two.mpr ⟨hzero, hone⟩)
  exact ⟨s, xs, hlive, hlive', hmem, hcount, hsafe⟩

end Step

end SystemProgramming.HeapHelp
