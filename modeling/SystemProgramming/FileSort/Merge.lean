import SystemProgramming.Lib.KWayMerge

/-!
# The merge of the sorted files

`merge_sorted_files` looks in every round for the least number that is next in a file.  It begins
with `INT_MAX` and takes only what is less, so a round that finds nothing but `INT_MAX` has no file
whose index it could advance.
-/

open KWayMerge

namespace SystemProgramming.FileSort

variable {n : Nat}

def intMax : Int := 2147483647

/-! ## The function -/

/-- The variables of the loop over the files.  `minInd` has no value where it is -1. -/
structure Scan (n : Nat) where
  done : Bool
  minVal : Int
  minInd : Option (Fin n)

def scanFile (filesData : Fin n → List Int) (indices : Fin n → Nat) (scan : Scan n) (i : Fin n) :
    Scan n :=
  if h : indices i < (filesData i).length then
    let scan := { scan with done := false }
    -- strictly below, so `INT_MAX` is never taken
    if (filesData i)[indices i] < scan.minVal then
      { scan with minVal := (filesData i)[indices i], minInd := some i }
    else scan
  else scan

def scanFiles (filesData : Fin n → List Int) (indices : Fin n → Nat) : Scan n :=
  (List.finRange n).foldl (scanFile filesData indices) ⟨true, intMax, none⟩

/-- The variables of the outer loop, with the numbers written so far.  `outOfBounds` is set when
`indices[-1]` is advanced. -/
structure Merge (n : Nat) where
  indices : Fin n → Nat
  output : List Int
  done : Bool
  outOfBounds : Bool

def Merge.start (n : Nat) : Merge n := ⟨fun _ => 0, [], false, false⟩

def mergeRound (filesData : Fin n → List Int) (m : Merge n) : Merge n :=
  if m.done || m.outOfBounds then m
  else
    let scan := scanFiles filesData m.indices
    if scan.done then { m with done := true }
    else
      let m := { m with output := m.output ++ [scan.minVal] }
      match scan.minInd with
      | some i => { m with indices := Function.update m.indices i (m.indices i + 1) }
      -- `indices[min_ind]`, with `min_ind` still -1
      | none => { m with outOfBounds := true }

/-- `merge_sorted_files` ends, stays inside its arrays, and writes the sorted union. -/
def MergesSorted (filesData : Fin n → List Int) : Prop :=
  ∃ rounds, let m := (mergeRound filesData)^[rounds] (.start n)
    m.done = true ∧ m.outOfBounds = false ∧
      m.output.Pairwise (· ≤ ·) ∧ m.output.Perm (concat filesData)

/-! ## A round -/

/-- What is left of the files. -/
def left (filesData : Fin n → List Int) (indices : Fin n → Nat) (i : Fin n) : List Int :=
  (filesData i).drop (indices i)

/-- What the loop knows after it has looked at the files `fs`. -/
structure Scanned (rest : Fin n → List Int) (fs : List (Fin n)) (scan : Scan n) : Prop where
  done : scan.done = true ↔ ∀ i ∈ fs, rest i = []
  least : ∀ i ∈ fs, ∀ x xs, rest i = x :: xs → scan.minVal ≤ x
  found : ∀ i, scan.minInd = some i → scan.minVal < intMax ∧ ∃ xs, rest i = scan.minVal :: xs
  missing : scan.minInd = none → scan.minVal = intMax

theorem scanned_nil (rest : Fin n → List Int) : Scanned rest [] ⟨true, intMax, none⟩ :=
  ⟨⟨fun _ _ h => absurd h List.not_mem_nil, fun _ => rfl⟩, fun _ h => absurd h List.not_mem_nil,
    (fun _ h => nomatch h), fun _ => rfl⟩

theorem left_eq_nil_iff {filesData : Fin n → List Int} {indices : Fin n → Nat} {i : Fin n} :
    left filesData indices i = [] ↔ ¬ indices i < (filesData i).length := by
  rw [left, List.drop_eq_nil_iff, not_lt]

theorem left_eq_cons {filesData : Fin n → List Int} {indices : Fin n → Nat} {i : Fin n}
    (h : indices i < (filesData i).length) :
    left filesData indices i = (filesData i)[indices i] :: (filesData i).drop (indices i + 1) := by
  rw [left, List.drop_eq_getElem_cons h]

theorem Scanned.scanFile {filesData : Fin n → List Int} {indices : Fin n → Nat}
    {fs : List (Fin n)} {scan : Scan n} (h : Scanned (left filesData indices) fs scan) (i : Fin n) :
    Scanned (left filesData indices) (fs ++ [i]) (scanFile filesData indices scan i) := by
  unfold FileSort.scanFile
  split
  · next hlt =>
    have hcons := left_eq_cons hlt
    -- an element is left, so the merge is not done
    have hdone : ¬ ∀ j ∈ fs ++ [i], left filesData indices j = [] := fun hall => by
      have hnil := hall i (List.mem_append_right fs (List.mem_singleton_self i))
      rw [hcons] at hnil
      cases hnil
    dsimp only
    split
    · next hless =>
      refine ⟨⟨fun hd => (nomatch hd), fun hall => absurd hall hdone⟩, fun j hj x xs hx => ?_,
        fun j hj => ?_, fun hnone => (nomatch hnone)⟩
      · rcases List.mem_append.mp hj with hfs | hlast
        · exact hless.le.trans (h.least j hfs x xs hx)
        · rw [List.mem_singleton.mp hlast, hcons] at hx
          exact (List.cons.inj hx).1.le
      · cases hj
        -- the new minimum is below the old one, or below `INT_MAX`
        refine ⟨hless.trans_le ?_, _, hcons⟩
        cases hind : scan.minInd with
        | none => exact (h.missing hind).le
        | some j => exact (h.found j hind).1.le
    · next hless =>
      refine ⟨⟨fun hd => (nomatch hd), fun hall => absurd hall hdone⟩, fun j hj x xs hx => ?_,
        h.found, h.missing⟩
      rcases List.mem_append.mp hj with hfs | hlast
      · exact h.least j hfs x xs hx
      · rw [List.mem_singleton.mp hlast, hcons] at hx
        rw [← (List.cons.inj hx).1]
        exact not_lt.mp hless
  · next hend =>
    -- the file has run out
    have hnil : left filesData indices i = [] := left_eq_nil_iff.mpr hend
    refine ⟨?_, fun j hj x xs hx => ?_, h.found, h.missing⟩
    · rw [h.done]
      refine ⟨fun hall j hj => ?_, fun hall j hj => hall j (List.mem_append_left _ hj)⟩
      rcases List.mem_append.mp hj with hfs | hlast
      · exact hall j hfs
      · rw [List.mem_singleton.mp hlast, hnil]
    · rcases List.mem_append.mp hj with hfs | hlast
      · exact h.least j hfs x xs hx
      · rw [List.mem_singleton.mp hlast, hnil] at hx
        cases hx

theorem scanned_foldl {filesData : Fin n → List Int} {indices : Fin n → Nat} {fs gs : List (Fin n)}
    {scan : Scan n} (h : Scanned (left filesData indices) fs scan) :
    Scanned (left filesData indices) (fs ++ gs) (gs.foldl (scanFile filesData indices) scan) := by
  induction gs generalizing fs scan with
  | nil =>
    rw [List.append_nil]
    exact h
  | cons i gs ih =>
    have hnext := ih (h.scanFile i)
    rwa [List.append_assoc] at hnext

theorem scanned_scanFiles (filesData : Fin n → List Int) (indices : Fin n → Nat) :
    Scanned (left filesData indices) (List.finRange n) (scanFiles filesData indices) :=
  scanned_foldl (scanned_nil _)

/-! ## Rounds -/

theorem left_advance (filesData : Fin n → List Int) (indices : Fin n → Nat) {i : Fin n} {x : Int}
    {xs : List Int} (h : left filesData indices i = x :: xs) :
    left filesData (Function.update indices i (indices i + 1)) =
      Function.update (left filesData indices) i xs := by
  funext j
  by_cases hj : j = i
  · subst hj
    rw [Function.update_self, left, Function.update_self, ← List.drop_drop, ← left, h]
    rfl
  · rw [Function.update_of_ne hj, left, left, Function.update_of_ne hj]

/-- The invariant of the rounds, up to an access out of bounds. -/
structure Merge.Inv (filesData : Fin n → List Int) (m : Merge n) : Prop where
  merged : m.outOfBounds = false → Merged filesData (left filesData m.indices) m.output
  small : m.outOfBounds = false → ∀ x ∈ m.output, x < intMax
  done : m.done = true → m.outOfBounds = false ∧ ∀ i, left filesData m.indices i = []

theorem Merge.inv_start {filesData : Fin n → List Int} (h : ∀ i, (filesData i).Pairwise (· ≤ ·)) :
    (Merge.start n).Inv filesData :=
  ⟨fun _ => .start h, fun _ _ hx => absurd hx List.not_mem_nil, fun hd => nomatch hd⟩

/-- What a round does. -/
theorem mergeRound_cases {filesData : Fin n → List Int} {m : Merge n} (hdone : m.done = false)
    (hbounds : m.outOfBounds = false) :
    (mergeRound filesData m = { m with done := true } ∧ ∀ i, left filesData m.indices i = []) ∨
      (∃ i x xs, left filesData m.indices i = x :: xs ∧ x < intMax ∧
        (∀ j y ys, left filesData m.indices j = y :: ys → x ≤ y) ∧
        mergeRound filesData m = { m with
          output := m.output ++ [x]
          indices := Function.update m.indices i (m.indices i + 1) }) ∨
      (mergeRound filesData m).outOfBounds = true ∧ (mergeRound filesData m).done = false ∧
        ∃ i x xs, left filesData m.indices i = x :: xs ∧ intMax ≤ x := by
  have hscan := scanned_scanFiles filesData m.indices
  have hround : mergeRound filesData m = if (scanFiles filesData m.indices).done then
      { m with done := true }
    else
      let m' := { m with output := m.output ++ [(scanFiles filesData m.indices).minVal] }
      match (scanFiles filesData m.indices).minInd with
      | some i => { m' with indices := Function.update m'.indices i (m'.indices i + 1) }
      | none => { m' with outOfBounds := true } := by
    rw [mergeRound, hdone, hbounds]
    rfl
  rw [hround]
  by_cases hall : (scanFiles filesData m.indices).done = true
  · rw [if_pos hall]
    exact .inl ⟨rfl, fun i => hscan.done.mp hall i (List.mem_finRange i)⟩
  · rw [if_neg hall]
    cases hind : (scanFiles filesData m.indices).minInd with
    | some i =>
      obtain ⟨hsmall, xs, hxs⟩ := hscan.found i hind
      exact .inr (.inl ⟨i, _, xs, hxs, hsmall, fun j => hscan.least j (List.mem_finRange j), rfl⟩)
    | none =>
      -- Numbers are left, yet none is below `INT_MAX`: the round indexes with `-1`.
      have hleft := mt hscan.done.mpr hall
      simp only [not_forall] at hleft
      obtain ⟨i, hi, hne⟩ := hleft
      obtain ⟨x, xs, hxs⟩ := List.exists_cons_of_ne_nil hne
      refine .inr (.inr ⟨rfl, hdone, i, x, xs, hxs, ?_⟩)
      rw [← hscan.missing hind]
      exact hscan.least i hi x xs hxs

theorem mergeRound_stopped {filesData : Fin n → List Int} {m : Merge n}
    (h : m.done = true ∨ m.outOfBounds = true) : mergeRound filesData m = m := by
  rw [mergeRound, if_pos]
  rwa [Bool.or_eq_true]

theorem Merge.Inv.round {filesData : Fin n → List Int} {m : Merge n} (h : m.Inv filesData) :
    (mergeRound filesData m).Inv filesData := by
  by_cases hstopped : m.done = true ∨ m.outOfBounds = true
  · rw [mergeRound_stopped hstopped]
    exact h
  · simp only [not_or, Bool.not_eq_true] at hstopped
    obtain ⟨hdone, hbounds⟩ := hstopped
    rcases mergeRound_cases hdone hbounds with
      ⟨hround, hnil⟩ | ⟨i, x, xs, hi, hsmall, hmin, hround⟩ | ⟨hout, hnot, -⟩
    · rw [hround]
      exact ⟨h.merged, h.small, fun _ => ⟨hbounds, hnil⟩⟩
    · rw [hround]
      refine ⟨fun _ => ?_, fun _ y hy => ?_, fun hd => ?_⟩
      · rw [left_advance filesData m.indices hi]
        exact (h.merged hbounds).take hi hmin
      · rcases List.mem_append.mp hy with hold | hnew
        · exact h.small hbounds y hold
        · rw [List.mem_singleton.mp hnew]
          exact hsmall
      · exact absurd (hdone.symm.trans hd) Bool.false_ne_true
    · refine ⟨fun hb => ?_, fun hb => ?_, fun hd => ?_⟩
      · exact absurd (hb.symm.trans hout) Bool.false_ne_true
      · exact absurd (hb.symm.trans hout) Bool.false_ne_true
      · exact absurd (hnot.symm.trans hd) Bool.false_ne_true

theorem Merge.Inv.rounds {filesData : Fin n → List Int} {m : Merge n} (h : m.Inv filesData)
    (rounds : Nat) : ((mergeRound filesData)^[rounds] m).Inv filesData := by
  induction rounds with
  | zero => exact h
  | succ k ih =>
    rw [Function.iterate_succ_apply']
    exact ih.round

/-- Without `INT_MAX` in the files each round advances one of them, until all are at their end. -/
theorem Merge.Inv.terminates {filesData : Fin n → List Int}
    (hint : ∀ i, ∀ x ∈ filesData i, x < intMax) {m : Merge n} (h : m.Inv filesData)
    (hbounds : m.outOfBounds = false) : ∃ rounds,
      ((mergeRound filesData)^[rounds] m).done = true ∧
        ((mergeRound filesData)^[rounds] m).outOfBounds = false := by
  by_cases hdone : m.done = true
  · exact ⟨0, hdone, hbounds⟩
  · rw [Bool.not_eq_true] at hdone
    rcases mergeRound_cases hdone hbounds with
      ⟨hround, hnil⟩ | ⟨i, x, xs, hi, -, -, hround⟩ | ⟨-, -, i, x, xs, hi, hlarge⟩
    · refine ⟨1, ?_⟩
      rw [Function.iterate_one, hround]
      exact ⟨rfl, hbounds⟩
    · have hshorter : (concat (left filesData (mergeRound filesData m).indices)).length <
          (concat (left filesData m.indices)).length := by
        rw [hround, left_advance filesData m.indices hi]
        exact length_concat_update hi
      obtain ⟨rounds, hrounds⟩ := Merge.Inv.terminates hint h.round (by rw [hround]; exact hbounds)
      refine ⟨rounds + 1, ?_⟩
      rw [Function.iterate_succ_apply]
      exact hrounds
    · have hmem : x ∈ filesData i := List.mem_of_mem_drop (hi ▸ List.mem_cons_self)
      exact absurd (hint i x hmem) (not_lt.mpr hlarge)
termination_by (concat (left filesData m.indices)).length
decreasing_by exact hshorter

/-- What is written before an access out of bounds is less than `INT_MAX`. -/
theorem MergesSorted.not_mem {filesData : Fin n → List Int} (h : MergesSorted filesData)
    (hsorted : ∀ i, (filesData i).Pairwise (· ≤ ·)) (i : Fin n) : intMax ∉ filesData i := by
  intro hmem
  obtain ⟨rounds, -, hbounds, -, hperm⟩ := h
  have hsmall := ((Merge.inv_start hsorted).rounds rounds).small hbounds intMax
    (hperm.mem_iff.mpr (mem_concat.mpr ⟨i, hmem⟩))
  exact absurd hsmall (lt_irrefl _)

/-- The merge of sorted files of `int`s is right exactly if none of them has the largest `int`. -/
theorem merge_iff {filesData : Fin n → List Int} (hsorted : ∀ i, (filesData i).Pairwise (· ≤ ·))
    (hint : ∀ i, ∀ x ∈ filesData i, -2147483648 ≤ x ∧ x ≤ intMax) :
    MergesSorted filesData ↔ ∀ i, intMax ∉ filesData i := by
  have hinv := Merge.inv_start hsorted
  constructor
  · exact fun hmerges i => hmerges.not_mem hsorted i
  · intro hnone
    have hless : ∀ i, ∀ x ∈ filesData i, x < intMax := fun i x hx =>
      lt_of_le_of_ne (hint i x hx).2 fun heq => hnone i (heq ▸ hx)
    obtain ⟨rounds, hdone, hbounds⟩ := hinv.terminates hless rfl
    have hrounds := hinv.rounds rounds
    obtain ⟨hout, hperm⟩ := (hrounds.merged hbounds).finished (hrounds.done hdone).2
    exact ⟨rounds, hdone, hbounds, hout, hperm⟩

theorem merge_iff_two : MergesSorted ![[1, 3], [2]] ↔ ∀ i, intMax ∉ ![[1, 3], [2]] i :=
  merge_iff (by decide) (by decide)

/-- One file with the largest `int` in it. -/
theorem intMax_not_merged : (∀ i, ((![[7, intMax]] : Fin 1 → List Int) i).Pairwise (· ≤ ·)) ∧
    ¬ MergesSorted ![[7, intMax]] := by
  have hsorted : ∀ i, ((![[7, intMax]] : Fin 1 → List Int) i).Pairwise (· ≤ ·) := by decide
  exact ⟨hsorted, fun hmerges => hmerges.not_mem hsorted 0 (by decide)⟩

end SystemProgramming.FileSort
