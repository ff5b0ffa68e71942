import SystemProgramming.FileSort.Contract

/-!
# Quicksort among other coroutines

`partition` and `quicksort` rearrange and sort a segment of an array of the coroutine, wherever `yield`
gives way to others.
-/

namespace SystemProgramming.FileSort

open Cooperative InPlace

variable {clock : Nat → Int} {paths : List String} {p : Nat} {arr : FileId} {c : Int}
  {s t u : Memory}

/-! ## Stages of the sort -/

/-- What the coroutine has done to a segment of its array. -/
structure Stage (paths : List String) (p : Nat) (arr : FileId) (low high : Int) (s t : Memory) :
    Prop where
  inv : t.Inv paths
  works : Works p arr s t
  rearranged : Rearranged low high (s.files arr).data (t.files arr).data

variable {low high low' high' : Int}

theorem Stage.refl (hs : s.Inv paths) : Stage paths p arr low high s s :=
  ⟨hs, .refl p arr s, .refl low high _⟩

theorem Stage.trans (h : Stage paths p arr low high s t) (h' : Stage paths p arr low high t u) :
    Stage paths p arr low high s u :=
  ⟨h'.inv, h.works.trans h'.works, h.rearranged.trans h'.rearranged⟩

theorem Stage.mono (h : Stage paths p arr low high s t) (hlow : low' ≤ low) (hhigh : high ≤ high') :
    Stage paths p arr low' high' s t :=
  ⟨h.inv, h.works, h.rearranged.mono hlow hhigh⟩

theorem Stage.owns (h : Stage paths p arr low high s t) (hs : Owns paths p c arr s) :
    Owns paths p c arr t := hs.of_grows h.inv h.works.toGrows

/-- The array is as it was. -/
theorem Owns.stage (hs : Owns paths p c arr s) (ht : t.Inv paths) (hkeeps : Keeps p s t) :
    Stage paths p arr low high s t ∧ t.files arr = s.files arr := by
  obtain ⟨hworks, hsame⟩ := hs.works hkeeps
  refine ⟨⟨ht, hworks, ?_⟩, hsame⟩
  rw [hsame]
  exact .refl low high _

theorem SameStorage.trans (h : SameStorage s t) (h' : SameStorage t u) : SameStorage s u :=
  ⟨h'.paths.trans h.paths, h'.filesData.trans h.filesData, h'.curUnsorted.trans h.curUnsorted,
    h'.files.trans h.files, h'.allocated.trans h.allocated, h'.outOfBounds.trans h.outOfBounds,
    h'.loopCut.trans h.loopCut, h'.claims.trans h.claims⟩

theorem stampEnd_same (clock : Nat → Int) (p : Nat) (m : Memory) :
    SameStorage m (m.stampEnd clock p) := ⟨rfl, rfl, rfl, rfl, rfl, rfl, rfl, rfl⟩

theorem stampStart_same (clock : Nat → Int) (x : Int → Mark) (p : Nat) (m : Memory) :
    SameStorage m (m.stampStart clock x p) := ⟨rfl, rfl, rfl, rfl, rfl, rfl, rfl, rfl⟩

theorem addWorkTime_same (p : Nat) (m : Memory) : SameStorage m (m.addWorkTime p) :=
  ⟨rfl, rfl, rfl, rfl, rfl, rfl, rfl, rfl⟩

theorem guar_refl (paths : List String) (p : Nat) (s : Memory) : guar paths p s s :=
  fun hs => ⟨hs, fun q _ => .refl q s⟩

/-! ## The functions -/

theorem valid_calculateCoroutineTime (clock : Nat → Int) (paths : List String) (p : Nat)
    (s : Memory) : (calculateCoroutineTime clock p).Valid (rely paths p) (guar paths p)
      (fun _ t => SameStorage s t) s := by
  have hend := stampEnd_same clock p s
  have hadd := addWorkTime_same p (s.stampEnd clock p)
  exact Prog.valid_modify_bind hend.guar (Prog.valid_modify hadd.guar (hend.trans hadd))

/-- Others may run, but the array stays as it is. -/
theorem valid_yield (clock : Nat → Int) (low high : Int) (hs : Owns paths p c arr s) :
    (yield clock p).Valid (rely paths p) (guar paths p)
      (fun _ t => Stage paths p arr low high s t ∧ t.files arr = s.files arr) s := by
  have hend := stampEnd_same clock p s
  refine Prog.valid_modify_bind hend.guar (Prog.valid_get_bind (guar_refl paths p _) ?_)
  split
  · exact Prog.valid_pure (hs.stage (hend.inv hs.inv) (hend.keeps p))
  · refine (valid_calculateCoroutineTime clock paths p _).bind fun _ t ht => ?_
    refine Prog.valid_pause_bind fun u hu => ?_
    have hsame := hend.trans ht
    obtain ⟨hinv, hkeeps⟩ := hu (hsame.inv hs.inv)
    have hstart := stampStart_same clock .resumed p u
    exact Prog.valid_modify hstart.guar
      (hs.stage (hstart.inv hinv) (((hsame.keeps p).trans hkeeps).trans (hstart.keeps p)))

/-- The index is inside the array. -/
def Inside (arr : FileId) (j : Int) (m : Memory) : Prop := 0 ≤ j ∧ j < (m.files arr).size

theorem Owns.inBounds (hs : Owns paths p c arr s) {j : Int} (hj : Inside arr j s) :
    s.InBounds arr j := ⟨hs.inv.allocated c arr hs.at_index, hj⟩

theorem Inside.works {j : Int} (hj : Inside arr j s) (h : Works p arr s t) : Inside arr j t := by
  rw [Inside, h.size]
  exact hj

theorem Owns.load (hs : Owns paths p c arr s) {j : Int} (hj : Inside arr j s) :
    Memory.load arr j s = s := if_pos (hs.inBounds hj)

theorem Owns.swap (hs : Owns paths p c arr s) {i j : Int} (hi : Inside arr i s)
    (hj : Inside arr j s) :
    Memory.swap arr i j s = s.setData arr ((s.files arr).data ∘ Equiv.swap i j) := by
  rw [Memory.swap, if_pos ⟨hs.inBounds hi, hs.inBounds hj⟩, ← update_update_eq_comp_swap]
  rfl

theorem valid_load (hs : Owns paths p c arr s) {j : Int} (hj : Inside arr j s) :
    (load arr j).Valid (rely paths p) (guar paths p)
      (fun x t => t = s ∧ x = (s.files arr).data j) s := by
  refine Prog.valid_modifyGet ?_ ⟨hs.load hj, rfl⟩
  rw [hs.load hj]
  exact guar_refl paths p s

/-- A swap inside the segment. -/
theorem valid_swap (low high : Int) (hs : Owns paths p c arr s) {i j : Int} (hi : Inside arr i s)
    (hj : Inside arr j s) (hi' : low ≤ i ∧ i ≤ high) (hj' : low ≤ j ∧ j ≤ high) :
    (swap arr i j).Valid (rely paths p) (guar paths p) (fun _ t => Stage paths p arr low high s t ∧
      (t.files arr).data = (s.files arr).data ∘ Equiv.swap i j) s := by
  obtain ⟨hguar, hworks⟩ := hs.setData ((s.files arr).data ∘ Equiv.swap i j)
  refine Prog.valid_modify ?_ ?_
  · rw [hs.swap hi hj]
    exact hguar
  · rw [hs.swap hi hj]
    refine ⟨⟨hs.inv.setData arr _, hworks, ?_⟩, ?_⟩
    · rw [Memory.setData_files]
      exact rearranged_swap _ hi' hj'
    · rw [Memory.setData_files]

theorem valid_partitionLoop (hlow : 0 ≤ low) {pivot : Int} (v : Cursor low high)
    (hs : Owns paths p c arr s) (hhigh : Inside arr high s)
    (hscan : InPlace.Scanned low high v.i v.j pivot (s.files arr).data) :
    (partitionLoop clock arr pivot p v).Valid (rely paths p) (guar paths p)
      (fun i t => Stage paths p arr low high s t ∧
        InPlace.Scanned low high i.1 high pivot (t.files arr).data) s := by
  induction hn : (high - v.j).toNat using Nat.strong_induction_on generalizing v s with
  | h n ih =>
    have hlt := v.lt
    have hle := v.le_high
    have hlow' := v.low_le
    rw [partitionLoop]
    split
    · next hj =>
      -- the next element is loaded
      have hin : Inside arr v.j s := ⟨by omega, by have := hhigh.2; omega⟩
      refine (valid_load hs hin).bind fun x t ht => ?_
      obtain ⟨rfl, rfl⟩ := ht
      split
      · next hsmall =>
        -- a small one is swapped to the front part
        have hfront : Inside arr (v.i + 1) t := ⟨by omega, by have := hhigh.2; omega⟩
        refine (valid_swap low high hs hfront hin (by omega) (by omega)).bind
          fun _ t' ht' => ?_
        obtain ⟨hstage, hdata⟩ := ht'
        refine (valid_yield clock low high (hstage.owns hs)).bind fun _ u hu => ?_
        obtain ⟨hyield, hfiles⟩ := hu
        have hboth := hstage.trans hyield
        -- while the others run the array is not touched
        have hscan' : InPlace.Scanned low high (v.small hj).i (v.small hj).j pivot
            (u.files arr).data := by
          rw [hfiles, hdata]
          exact hscan.swap hlt (by omega) hsmall
        refine (ih _ (by simp only [Cursor.small]; omega) (v.small hj) (hboth.owns hs)
          (hhigh.works hboth.works) hscan' rfl).mono fun i w hw => ⟨hboth.trans hw.1, hw.2⟩
      · next hlarge =>
        -- a large one stays where it is
        refine (valid_yield clock low high hs).bind fun _ u hu => ?_
        obtain ⟨hyield, hfiles⟩ := hu
        have hscan' : InPlace.Scanned low high (v.skip hj).i (v.skip hj).j pivot
            (u.files arr).data := by
          rw [hfiles]
          exact hscan.skip (not_lt.mp hlarge)
        refine (ih _ (by simp only [Cursor.skip]; omega) (v.skip hj) (hyield.owns hs)
          (hhigh.works hyield.works) hscan' rfl).mono fun i w hw => ⟨hyield.trans hw.1, hw.2⟩
    · next hj =>
      -- the whole segment is scanned
      have hend : v.j = high := by omega
      rw [hend] at hscan
      exact Prog.valid_pure ⟨.refl hs.inv, hscan⟩

theorem valid_partition (hlow : 0 ≤ low) (h : low < high) (hs : Owns paths p c arr s)
    (hhigh : Inside arr high s) :
    (partition clock arr low high p h).Valid (rely paths p) (guar paths p)
      (fun pi t => Stage paths p arr low high s t ∧
        Partitioned low high pi.1 (t.files arr).data) s := by
  unfold partition
  refine (valid_load hs hhigh).bind fun pivot t ht => ?_
  obtain ⟨rfl, rfl⟩ := ht
  refine (valid_partitionLoop hlow (Cursor.start h) hs hhigh (scanned_start low high _)).bind
    fun i u hu => ?_
  obtain ⟨hstage, hscan⟩ := hu
  have hi := i.2
  have hhigh' := hhigh.works hstage.works
  have hmid : Inside arr (i.1 + 1) u := ⟨by omega, by have := hhigh'.2; omega⟩
  refine (valid_swap low high (hstage.owns hs) hmid hhigh' (by omega)
    (by omega)).bind fun _ w hw => ?_
  obtain ⟨hswap, hdata⟩ := hw
  refine Prog.valid_pure ⟨hstage.trans hswap, ?_⟩
  rw [hdata]
  exact hscan.partitioned hi.2

/-- The segment comes out sorted. -/
theorem valid_quicksort (hlow : 0 ≤ low) (hs : Owns paths p c arr s)
    (hhigh : high < (s.files arr).size) :
    (quicksort clock arr low high p).Valid (rely paths p) (guar paths p)
      (fun _ t => Stage paths p arr low high s t ∧ SortedOn low high (t.files arr).data) s := by
  induction hn : (high - low + 1).toNat using Nat.strong_induction_on
    generalizing low high s with
  | h n ih =>
    rw [quicksort]
    split
    · next h =>
      refine (valid_partition hlow h hs ⟨by omega, hhigh⟩).bind fun pi t ht => ?_
      obtain ⟨hstage, hpart⟩ := ht
      have hpi := pi.2
      have ht := hstage.owns hs
      have hsize := hstage.works.size
      refine (ih _ (by omega) hlow ht (by omega) rfl).bind fun _ u hu => ?_
      obtain ⟨hleft, hsorted⟩ := hu
      have hu := hleft.owns ht
      have hsize' := hleft.works.size
      refine (ih _ (by omega) (by omega) hu (by omega) rfl).mono fun _ w hw => ?_
      obtain ⟨hright, hsorted'⟩ := hw
      refine ⟨(hstage.trans (hleft.mono (le_refl _) (by omega))).trans
        (hright.mono (by omega) (le_refl _)), ?_⟩
      exact hpart.sortedOn hpi hleft.rearranged hsorted hright.rearranged hsorted'
    · exact Prog.valid_pure ⟨.refl hs.inv, sortedOn_of_le _ (by omega)⟩

end SystemProgramming.FileSort
