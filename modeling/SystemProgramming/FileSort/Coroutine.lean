import SystemProgramming.FileSort.Quicksort

/-!
# The function of a coroutine

`coroutine_func_f` keeps its contract: it takes an index while there is one, reads the file and sorts
it.  What it has taken before stays sorted.
-/

namespace SystemProgramming.FileSort

open Cooperative InPlace

variable {clock : Nat → Int} {disk : String → List Int} {paths : List String} {p : Nat}
  {arr : FileId} {c : Int} {s t u : Memory}

/-! ## Taking an index -/

theorem Memory.Inv.lastUnsortFile (hs : s.Inv paths) (hlt : s.curUnsorted < s.count) :
    ∃ path, s.lastUnsortFile = some path ∧ s.paths[s.curUnsorted.toNat]? = some path := by
  have hnonneg := hs.nonneg
  have hlen : s.curUnsorted.toNat < s.paths.length := by
    rw [Memory.count] at hlt
    omega
  exact ⟨_, (if_pos hnonneg).trans (List.getElem?_eq_getElem hlen), List.getElem?_eq_getElem hlen⟩

theorem Memory.Inv.take (hs : s.Inv paths) (hlt : s.curUnsorted < s.count) (p : Nat) :
    (s.getLastUnsortFile p).Inv paths where
  paths := hs.paths
  nonneg := by
    have hnonneg := hs.nonneg
    dsimp only [Memory.getLastUnsortFile]
    omega
  le_count := Int.add_one_le_iff.mpr hlt
  claims := by
    have hnonneg := hs.nonneg
    have hnext : (s.curUnsorted + 1).toNat = s.curUnsorted.toNat + 1 := by omega
    dsimp only [Memory.getLastUnsortFile]
    rw [List.map_append, hs.claims, hnext, List.range_succ, List.map_append]
    congr 1
    exact congrArg (fun x => [x]) (Int.toNat_of_nonneg hnonneg).symm
  inBounds := by
    obtain ⟨path, hpath, -⟩ := hs.lastUnsortFile hlt
    dsimp only [Memory.getLastUnsortFile]
    rw [hs.inBounds, hpath]
    rfl
  notCut := hs.notCut
  allocated := hs.allocated
  injective := hs.injective

theorem mem_claims_take {q : Nat} {j : Int} : (q, j) ∈ (s.getLastUnsortFile p).claims ↔
    (q, j) ∈ s.claims ∨ (q = p ∧ j = s.curUnsorted) := by
  dsimp only [Memory.getLastUnsortFile]
  rw [List.mem_append, List.mem_singleton, Prod.mk.injEq]

theorem guar_take (hlt : s.curUnsorted < s.count) : guar paths p s (s.getLastUnsortFile p) := by
  refine fun hs => ⟨hs.take hlt p, fun q hq => ⟨⟨?_, fun j => ?_, fun _ _ => rfl⟩,
    fun _ _ _ _ => rfl⟩⟩
  · dsimp only [Memory.getLastUnsortFile]
    omega
  · rw [mem_claims_take]
    exact or_iff_left fun h => hq h.1

/-! ## Reading a file -/

@[simp] theorem readFileContent_at (disk : String → List Int) (p : Nat) (c : Int) (m : Memory) :
    (m.readFileContent disk p c).filesData c = some m.allocated := Function.update_self ..

theorem readFileContent_of_ne {j : Int} (hj : j ≠ c) :
    (s.readFileContent disk p c).filesData j = s.filesData j := Function.update_of_ne hj ..

/-- The array that is read at the index. -/
theorem readFileContent_owns (disk : String → List Int) (hs : s.Inv paths) (hclaim : (p, c) ∈ s.claims) :
    Owns paths p c s.allocated (s.readFileContent disk p c) := by
  have hc := (hs.mem_claims c).mp ⟨p, hclaim⟩
  have hle := hs.le_count
  -- `malloc` gives an object that no file's array is.
  have hfresh : ∀ j, s.filesData j ≠ some s.allocated := fun j hj =>
    lt_irrefl _ (hs.allocated j _ hj)
  refine ⟨⟨hs.paths, hs.nonneg, hs.le_count, hs.claims, ?_, hs.notCut, ?_, ?_⟩, hclaim,
    Function.update_self ..⟩
  · have hdata : (s.outOfBounds || !decide (0 ≤ c ∧ c < s.count)) = false := by
      rw [hs.inBounds, decide_eq_true ⟨hc.1, hc.2.trans_le hle⟩]
      rfl
    exact hdata
  · intro j o hj
    by_cases hjc : j = c
    · rw [hjc, readFileContent_at, Option.some_inj] at hj
      exact hj ▸ Nat.lt_succ_self _
    · rw [readFileContent_of_ne hjc] at hj
      exact (hs.allocated j o hj).trans (Nat.lt_succ_self _)
  · intro j j' o hj hj'
    have hat : ∀ i, (s.readFileContent disk p c).filesData i = some o → i = c ∧ o = s.allocated ∨
        i ≠ c ∧ s.filesData i = some o := by
      intro i hi
      by_cases hic : i = c
      · rw [hic, readFileContent_at, Option.some_inj] at hi
        exact .inl ⟨hic, hi.symm⟩
      · rw [readFileContent_of_ne hic] at hi
        exact .inr ⟨hic, hi⟩
    rcases hat j hj with ⟨rfl, rfl⟩ | ⟨-, hjo⟩
    · rcases hat j' hj' with ⟨rfl, -⟩ | ⟨-, hjo'⟩
      · rfl
      · exact absurd hjo' (hfresh j')
    · rcases hat j' hj' with ⟨rfl, rfl⟩ | ⟨-, hjo'⟩
      · exact absurd hjo (hfresh j)
      · exact hs.injective j j' o hjo hjo'

/-- At other indices nothing has changed. -/
theorem readFileContent_other (disk : String → List Int) (p : Nat) (hs : s.Inv paths) {j : Int}
    (hj : j ≠ c) :
    (s.readFileContent disk p c).filesData j = s.filesData j ∧ ∀ o, s.filesData j = some o →
      (s.readFileContent disk p c).files o = s.files o := by
  refine ⟨readFileContent_of_ne hj, fun o ho => Function.update_of_ne ?_ _ _⟩
  exact (hs.allocated j o ho).ne

theorem guar_readFileContent (hclaim : (p, c) ∈ s.claims) :
    guar paths p s (s.readFileContent disk p c) := by
  refine fun hs => ⟨(readFileContent_owns disk hs hclaim).inv, fun q hq => ?_⟩
  have hne : ∀ j, (q, j) ∈ s.claims → j ≠ c := by
    rintro j hj rfl
    exact hq (hs.claim_unique hj hclaim)
  exact ⟨⟨le_refl _, fun _ => Iff.rfl, fun j hj => (readFileContent_other disk p hs (hne j hj)).1⟩,
    fun j o hj ho => (readFileContent_other disk p hs (hne j hj)).2 o ho⟩

theorem contents_of_numbers (numbers : List Int) :
    File.contents ⟨fun x => numbers.getD x.toNat 0, numbers.length⟩ = numbers := by
  refine List.ext_getElem (length_elements _ _) fun n hn hn' => ?_
  simp only [File.contents, elements, List.getElem_map, List.getElem_range, Int.toNat_natCast,
    List.getD_eq_getElem?_getD, List.getElem?_eq_getElem hn', Option.getD_some]

theorem readFileContent_contents (disk : String → List Int) (p : Nat) (c : Int) (m : Memory) :
    ((m.readFileContent disk p c).files m.allocated).contents = disk (m.contexts p).filename := by
  have hfile : (m.readFileContent disk p c).files m.allocated =
      ⟨fun x => (disk (m.contexts p).filename).getD x.toNat 0,
        (disk (m.contexts p).filename).length⟩ := Function.update_self ..
  rw [hfile, contents_of_numbers]

theorem readFileContent_curData (disk : String → List Int) (p : Nat) (c : Int) (m : Memory) :
    ((m.readFileContent disk p c).contexts p).curData = some m.allocated := by
  have hctx : (m.readFileContent disk p c).contexts p =
      { m.contexts p with curData := some m.allocated } := Function.update_self ..
  rw [hctx]

/-! ## Sorting a file -/

/-- All that the context has taken is sorted, but perhaps the index `c`. -/
def RestSorted (disk : String → List Int) (p : Nat) (c : Int) (m : Memory) : Prop :=
  ∀ j, (p, j) ∈ m.claims → j ≠ c → Sorted disk m j

theorem RestSorted.read (h : RestSorted disk p c s) (hs : s.Inv paths) :
    RestSorted disk p c (s.readFileContent disk p c) := by
  intro j hj hne
  obtain ⟨hdata, hfiles⟩ := readFileContent_other disk p hs hne
  exact (h j hj hne).congr rfl hdata hfiles

theorem RestSorted.works (h : RestSorted disk p c s) (hs : Owns paths p c arr s) (ht : t.Inv paths)
    (hworks : Works p arr s t) : RestSorted disk p c t := by
  intro j hj hne
  have hj' := (hworks.claims j).mp hj
  refine (h j hj' hne).congr (ht.paths.trans hs.inv.paths.symm) (hworks.filesData j hj')
    fun o ho => hworks.others j o hj' ho ?_
  rintro rfl
  exact hne (hs.inv.injective j c o ho hs.at_index)

/-- An array that is sorted from end to end. -/
theorem sorted_of_stage {path : String} (hs : Owns paths p c arr s)
    (hpath : paths[c.toNat]? = some path) (hcontents : (s.files arr).contents = disk path)
    (hstage : Stage paths p arr 0 ((s.files arr).size - 1) s t)
    (hsorted : SortedOn 0 ((s.files arr).size - 1) (t.files arr).data) : Sorted disk t c := by
  have hsize := hstage.works.size
  have ht := hstage.owns hs
  refine ⟨path, arr, ?_, ht.at_index, ?_, ?_⟩
  · rw [ht.inv.paths]
    exact hpath
  · rw [File.contents, hsize]
    exact pairwise_elements hsorted
  · rw [← hcontents, File.contents, File.contents, hsize]
    exact elements_perm hstage.rearranged

theorem setFilename_same (p : Nat) (filename : String) (m : Memory) :
    SameStorage m (m.setFilename p filename) := ⟨rfl, rfl, rfl, rfl, rfl, rfl, rfl, rfl⟩

theorem SameStorage.sorted (h : SameStorage s t) {j : Int} (hs : Sorted disk s j) :
    Sorted disk t j :=
  hs.congr h.paths (congrFun h.filesData j) fun o _ => congrFun h.files o

theorem valid_sortFile (clock : Nat → Int) (hs : s.Inv paths) (hsorted : AllSorted disk p s)
    (hlt : s.curUnsorted < s.count) :
    (sortFile clock disk p s.curUnsorted).Valid (rely paths p) (guar paths p)
      (fun _ t => t.Inv paths ∧ AllSorted disk p t ∧ s.curUnsorted + 1 ≤ t.curUnsorted) s := by
  obtain ⟨path, hlast, hpath⟩ := hs.lastUnsortFile hlt
  unfold sortFile
  refine Prog.valid_modifyGet_bind (guar_take hlt) ?_
  rw [hlast, Option.getD_some]
  -- the file is claimed, and the others are not in it
  let s₁ := s.getLastUnsortFile p
  let s₂ := s₁.setFilename p path
  let s₃ := s₂.stampStart clock .claimed p
  have hname : SameStorage s₁ s₂ := setFilename_same p path s₁
  have hstart : SameStorage s₂ s₃ := stampStart_same clock .claimed p s₂
  have hsame := hname.trans hstart
  have hs₃ : s₃.Inv paths := hsame.inv (hs.take hlt p)
  have hclaim : (p, s.curUnsorted) ∈ s₃.claims := mem_claims_take.mpr (.inr ⟨rfl, rfl⟩)
  have hrest : RestSorted disk p s.curUnsorted s₃ := by
    intro j hj hne
    have hj' := (mem_claims_take.mp hj).resolve_right fun h => hne h.2
    exact hsame.sorted ((hsorted j hj').congr rfl rfl fun _ _ => rfl)
  have howns := readFileContent_owns disk hs₃ hclaim
  refine Prog.valid_modify_bind hname.guar (Prog.valid_modify_bind hstart.guar
    (Prog.valid_modify_bind (guar_readFileContent hclaim)
      (Prog.valid_get_bind (guar_refl paths p _) ?_)))
  split
  · next hnone =>
    rw [readFileContent_curData] at hnone
    cases hnone
  · next arr hsome =>
    rw [readFileContent_curData] at hsome
    obtain rfl : s₃.allocated = arr := Option.some.inj hsome
    -- the array is sorted across the yields
    refine (valid_quicksort (le_refl 0) howns (sub_one_lt _)).mono fun _ t ht => ?_
    obtain ⟨hstage, hsort⟩ := ht
    refine ⟨hstage.inv, fun j hj => ?_, hstage.works.curUnsorted⟩
    -- the file of the coroutine is sorted now, and the others still are
    by_cases hjc : j = s.curUnsorted
    · rw [hjc]
      have hfilename : (s₃.contexts p).filename = path := by
        simp only [s₃, s₂, Memory.stampStart, Memory.setFilename, Memory.mark, Memory.setContext,
          Function.update_self]
      have hcontents := readFileContent_contents disk p s.curUnsorted s₃
      rw [hfilename] at hcontents
      rw [hs.paths] at hpath
      exact sorted_of_stage howns hpath hcontents hstage hsort
    · exact (hrest.read hs₃).works howns hstage.inv hstage.works j hj hjc

/-! ## All files -/

theorem valid_sortFiles (clock : Nat → Int) {turns : Nat} (hs : s.Inv paths)
    (hsorted : AllSorted disk p s) (hturns : s.count + 1 ≤ turns + s.curUnsorted) :
    (sortFiles clock disk p turns s.haveFiles).Valid (rely paths p) (guar paths p)
      (fun _ t => t.Inv paths ∧ t.count ≤ t.curUnsorted ∧ AllSorted disk p t) s := by
  induction turns generalizing s with
  | zero =>
    have hle := hs.le_count
    omega
  | succ turns ih =>
    unfold sortFiles
    by_cases hlt : s.curUnsorted < s.count
    · have hind : s.haveFiles = s.curUnsorted := if_pos hlt
      have hne : s.curUnsorted ≠ -1 := by
        have hnonneg := hs.nonneg
        omega
      rw [hind, if_neg hne]
      refine (valid_sortFile clock hs hsorted hlt).bind fun _ t ht => ?_
      obtain ⟨hinv, hsorted', hcur⟩ := ht
      have hcount : t.count = s.count := by rw [Memory.count, Memory.count, hinv.paths, hs.paths]
      refine Prog.valid_get_bind (guar_refl paths p t) (ih hinv hsorted' ?_)
      rw [hcount]
      push_cast at hturns
      omega
    · have hind : s.haveFiles = -1 := if_neg hlt
      rw [hind, if_pos rfl]
      exact Prog.valid_pure ⟨hs, not_lt.mp hlt, hsorted⟩

theorem mark_same (p : Nat) (x : Mark) (m : Memory) : SameStorage m (m.mark p x) :=
  ⟨rfl, rfl, rfl, rfl, rfl, rfl, rfl, rfl⟩

/-- A coroutine that has taken nothing yet keeps its contract. -/
theorem valid_coroutineFuncF (clock : Nat → Int) (hs : s.Inv paths) (hsorted : AllSorted disk p s) :
    (coroutineFuncF clock disk (paths.length + 1) p).Valid ((contract paths disk).rely p)
      ((contract paths disk).guar p) ((contract paths disk).post p) s := by
  refine Prog.valid_get_bind (guar_refl paths p s) ?_
  have hturns : s.count + 1 ≤ (paths.length + 1 : Nat) + s.curUnsorted := by
    have hnonneg := hs.nonneg
    rw [Memory.count, hs.paths]
    push_cast
    omega
  refine (valid_sortFiles clock hs hsorted hturns).bind fun _ t ht => ?_
  obtain ⟨hinv, hcount, hsorted'⟩ := ht
  refine (valid_calculateCoroutineTime clock paths p t).bind fun _ u hu => ?_
  have hsame := hu.trans (mark_same p .finished u)
  refine Prog.valid_modify_bind (mark_same p .finished u).guar (Prog.valid_pure ⟨hsame.inv hinv,
    ?_, fun j hj => ?_⟩)
  · have hcount' : (u.mark p .finished).count = t.count := by
      rw [Memory.count, Memory.count, hsame.paths]
    rw [hcount', hsame.curUnsorted]
    exact hcount
  · rw [hsame.claims] at hj
    exact hsame.sorted (hsorted' j hj)

end SystemProgramming.FileSort
