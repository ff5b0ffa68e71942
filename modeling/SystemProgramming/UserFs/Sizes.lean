import SystemProgramming.UserFs.Operations

/-!
# Sizes of files

Of the calls, only `ufs_write` and `ufs_resize` change the size of a file: whatever is true of the
address and the size of every file, and of size 0, stays true through the others.
-/

open Fallible

namespace SystemProgramming.UserFs

variable {P : Ptr → Nat → Prop} {m : Malloc} {s t : State} {f p : Ptr} {F : File} {n : Nat}
  {r fd : Int}

/-- The size of every file is one that `P` allows at its address. -/
def Sizes (P : Ptr → Nat → Prop) (files : Heap File) : Prop :=
  ∀ f F, files f = some F → P f F.size

theorem Sizes.store {files : Heap File} (h : Sizes P files) (p : Ptr) (hF : P p F.size) :
    Sizes P (UserFs.store files p F) := by
  intro g G hG
  by_cases hg : g = p
  · rw [hg, store_self] at hG
    cases hG
    exact hg ▸ hF
  · rw [store_ne _ _ hg] at hG
    exact h g G hG

theorem Sizes.free {files : Heap File} (h : Sizes P files) (p : Ptr) :
    Sizes P (UserFs.free files p) := by
  intro g G hG
  by_cases hg : g = p
  · rw [hg, free_self] at hG
    cases hG
  · rw [free_ne _ hg] at hG
    exact h g G hG

theorem Sizes.load {files : Heap File} (h : Sizes P files) {p : Ptr}
    (hF : UserFs.load files (some p) = .ok F) : P p F.size := by
  rcases load_eq_ok.mp hF with ⟨q, hpq, hq⟩
  cases hpq
  exact h p F hq

/-- A file read from the heap is written back with its size unchanged. -/
theorem Sizes.update {files : Heap File} (h : Sizes P files) {p : Ptr}
    (hF : UserFs.load files (some p) = .ok F) {G : File} (hsize : G.size = F.size) :
    Sizes P (UserFs.store files p G) :=
  h.store p (hsize ▸ h.load hF)

/-! ## Calls that do not change a size -/

/-- The head of the list moves on when the file was the first one. -/
theorem unlinkHead_sizes (h : Sizes P s.files) (hok : (do
      let g ← load s.files (some f)
      pure (if s.fileList = some f then { s with fileList := g.next } else s) : Run State) =
        .ok t) : Sizes P t.files := by
  rcases bind_eq_ok.mp hok with ⟨G, -, hok⟩
  cases hok
  split
  · exact h
  · exact h

/-- The next file is linked to the previous one. -/
theorem unlinkNext_sizes (h : Sizes P s.files) (hok : (do
      let g ← load s.files (some f)
      let s ← match g.next with
        | none => pure s
        | some n => do
          let next ← load s.files (some n)
          pure (s.setFile n { next with prev := g.prev })
      let g ← load s.files (some f)
      pure (if s.fileList = some f then { s with fileList := g.next } else s) : Run State) =
        .ok t) : Sizes P t.files := by
  rcases bind_eq_ok.mp hok with ⟨G, -, hok⟩
  cases hn : G.next with
  | none =>
    rw [hn] at hok
    exact unlinkHead_sizes h hok
  | some n =>
    rw [hn] at hok
    rcases bind_eq_ok.mp hok with ⟨N, hN, hok⟩
    exact unlinkHead_sizes (s := s.setFile n { N with prev := G.prev }) (h.update hN rfl) hok

theorem ufsUnlinkFile_sizes (h : Sizes P s.files) (hok : ufsUnlinkFile s f = .ok t) :
    Sizes P t.files := by
  rcases bind_eq_ok.mp hok with ⟨F, -, hok⟩
  -- the previous file is linked to the next one
  cases hp : F.prev with
  | none =>
    rw [hp] at hok
    exact unlinkNext_sizes h hok
  | some p =>
    rw [hp] at hok
    rcases bind_eq_ok.mp hok with ⟨K, hK, hok⟩
    exact unlinkNext_sizes (s := s.setFile p { K with next := F.next }) (h.update hK rfl) hok

theorem ufsFreeFile_sizes (h : Sizes P s.files) (hok : ufsFreeFile s f = .ok t) :
    Sizes P t.files := by
  rcases bind_eq_ok.mp hok with ⟨F, -, hok⟩
  rcases bind_eq_ok.mp hok with ⟨blocks, -, hok⟩
  cases hok
  exact h.free f

theorem freeFiles_sizes {fuel : Nat} {head : Option Ptr} (h : Sizes P s.files)
    (hok : freeFiles fuel s head = .ok t) : Sizes P t.files := by
  induction fuel generalizing s head with
  | zero =>
    cases head with
    | none =>
      cases hok
      exact h
    | some p => cases hok
  | succ fuel ih =>
    cases head with
    | none =>
      cases hok
      exact h
    | some p =>
      rcases bind_eq_ok.mp hok with ⟨F, -, hok⟩
      rcases bind_eq_ok.mp hok with ⟨u, hu, hok⟩
      exact ih (ufsFreeFile_sizes h hu) hok

theorem slot_replicate {i k : Nat} {d : FileDesc}
    (hi : (List.replicate k (none : Option FileDesc))[i]? = some (some d)) : False := by
  have hmem := List.eq_of_mem_replicate (List.mem_of_getElem? hi)
  cases hmem

/-- A slot is taken from the old table of descriptors, or from one with free slots added to it. -/
theorem takeDescriptor_cases {flags : BitVec 32} (hok : takeDescriptor s f flags = .ok (r, t)) :
    ∃ u : State, u.files = s.files ∧
      (∀ (i : Nat) (d : FileDesc), u.fileDescriptors[i]? = some (some d) →
        s.fileDescriptors[i]? = some (some d)) ∧
      ((r, t) = fail u .notImplemented ∨ ∃ idx, fillSlot u idx f flags = .ok (r, t)) := by
  unfold takeDescriptor at hok
  obtain ⟨u, hu⟩ : ∃ u : State, u = if s.fileDescriptorCapacity ≤ 0 then
      { s with
        fileDescriptors := List.replicate 10 none
        fileDescriptorCapacity := 10
        fileDescriptorUsed := 0 }
      else s := ⟨_, rfl⟩
  have hfiles : u.files = s.files := by
    rw [hu]
    split <;> rfl
  have hold : ∀ (i : Nat) (d : FileDesc), u.fileDescriptors[i]? = some (some d) →
      s.fileDescriptors[i]? = some (some d) := by
    intro i d hui
    rw [hu] at hui
    split at hui
    · exact (slot_replicate hui).elim
    · exact hui
  rw [← hu] at hok
  by_cases hroom : u.fileDescriptorUsed < u.fileDescriptorCapacity
  · simp only [if_pos hroom] at hok
    rcases bind_eq_ok.mp hok with ⟨slot, -, hok⟩
    cases slot with
    | none =>
      cases hok
      exact ⟨u, hfiles, hold, .inl rfl⟩
    | some idx => exact ⟨u, hfiles, hold, .inr ⟨idx, hok⟩⟩
  · -- the table is full and doubled
    simp only [if_neg hroom] at hok
    refine ⟨{ u with
      fileDescriptors := u.fileDescriptors ++ List.replicate u.fileDescriptorCapacity.toNat none
      fileDescriptorCapacity := u.fileDescriptorCapacity * 2 }, hfiles, fun i d hui => ?_,
      .inr ⟨_, hok⟩⟩
    apply hold i d
    rcases lt_or_ge i u.fileDescriptors.length with hlt | hge
    · rwa [List.getElem?_append_left hlt] at hui
    · rw [List.getElem?_append_right hge] at hui
      exact (slot_replicate hui).elim

theorem fillSlot_sizes {idx : Nat} {flags : BitVec 32} (h : Sizes P s.files)
    (hok : fillSlot s idx f flags = .ok (r, t)) : Sizes P t.files := by
  unfold fillSlot at hok
  split at hok
  · rcases bind_eq_ok.mp hok with ⟨F, hF, hok⟩
    cases hok
    exact h.update hF rfl
  · cases hok

theorem takeDescriptor_sizes {flags : BitVec 32} (h : Sizes P s.files)
    (hok : takeDescriptor s f flags = .ok (r, t)) : Sizes P t.files := by
  rcases takeDescriptor_cases hok with ⟨u, hfiles, -, hfail | ⟨idx, hfill⟩⟩
  · cases hfail
    show Sizes P u.files
    rw [hfiles]
    exact h
  · rw [← hfiles] at h
    exact fillSlot_sizes h hfill

theorem createFile_sizes {filename : List UInt8} {p : Ptr} (h : Sizes P s.files)
    (hzero : ∀ p, P p 0) (hok : createFile s filename = .ok (t, p)) : Sizes P t.files := by
  unfold createFile at hok
  cases hl : s.fileList with
  | none =>
    simp only [hl] at hok
    cases hok
    exact h.store s.brk (hzero _)
  | some head =>
    simp only [hl] at hok
    rcases bind_eq_ok.mp hok with ⟨old, hold, hok⟩
    cases hok
    have hnew : Sizes P (s.setFile s.brk
        ⟨none, none, 0, false, 0, filename, some head, none⟩).files :=
      h.store s.brk (hzero _)
    exact hnew.update hold rfl

theorem ufsOpen_sizes {filename : List UInt8} {flags : BitVec 32} (h : Sizes P s.files)
    (hzero : ∀ p, P p 0) (hok : ufsOpen s filename flags = .ok (r, t)) : Sizes P t.files := by
  rcases bind_eq_ok.mp hok with ⟨found, -, hok⟩
  cases found with
  | some file => exact takeDescriptor_sizes h hok
  | none =>
    dsimp only at hok
    split at hok
    · cases hok
      exact h
    · rcases bind_eq_ok.mp hok with ⟨⟨u, file⟩, hcreate, hok⟩
      exact takeDescriptor_sizes (createFile_sizes h hzero hcreate) hok

theorem ufsRead_sizes {bytes : List UInt8} (h : Sizes P s.files)
    (hok : ufsRead s fd n = .ok (r, bytes, t)) : Sizes P t.files := by
  rcases bind_eq_ok.mp hok with ⟨found, -, hok⟩
  cases found with
  | none =>
    cases hok
    exact h
  | some slot =>
    dsimp only at hok
    split at hok
    · cases hok
      exact h
    · rcases bind_eq_ok.mp hok with ⟨F, -, hok⟩
      rcases bind_eq_ok.mp hok with ⟨block, -, hok⟩
      cases block with
      | none =>
        cases hok
        exact h
      | some block =>
        dsimp only at hok
        split at hok
        · cases hok
          exact h
        · rcases bind_eq_ok.mp hok with ⟨res, -, hok⟩
          cases hok
          exact h

theorem ufsClose_sizes (h : Sizes P s.files) (hok : ufsClose s fd = .ok (r, t)) :
    Sizes P t.files := by
  rcases bind_eq_ok.mp hok with ⟨found, -, hok⟩
  cases found with
  | none =>
    cases hok
    exact h
  | some slot =>
    rcases bind_eq_ok.mp hok with ⟨F, hF, hok⟩
    have hset : Sizes P (s.setFile slot.2.file { F with refs := F.refs - 1 }).files :=
      h.update hF rfl
    dsimp only at hok
    split at hok
    · rcases bind_eq_ok.mp hok with ⟨u, hunlink, hok⟩
      rcases bind_eq_ok.mp hok with ⟨v, hfree, hok⟩
      have hv : Sizes P v.files :=
        ufsFreeFile_sizes (ufsUnlinkFile_sizes hset hunlink) hfree
      cases hok
      exact hv
    · cases hok
      exact hset

theorem ufsDelete_sizes {filename : List UInt8} (h : Sizes P s.files)
    (hok : ufsDelete s filename = .ok (r, t)) : Sizes P t.files := by
  rcases bind_eq_ok.mp hok with ⟨found, -, hok⟩
  cases found with
  | none =>
    cases hok
    exact h
  | some p =>
    rcases bind_eq_ok.mp hok with ⟨F, hF, hok⟩
    split at hok
    · rcases bind_eq_ok.mp hok with ⟨u, hunlink, hok⟩
      rcases bind_eq_ok.mp hok with ⟨v, hfree, hok⟩
      cases hok
      exact ufsFreeFile_sizes (ufsUnlinkFile_sizes h hunlink) hfree
    · cases hok
      exact h.update hF rfl

theorem ufsDestroy_sizes (h : Sizes P s.files) (hok : ufsDestroy s = .ok t) :
    Sizes P t.files := by
  rcases bind_eq_ok.mp hok with ⟨u, hfree, hok⟩
  have hu : Sizes P u.files := freeFiles_sizes (s := { s with
    fileDescriptors := [], fileDescriptorCapacity := 0, fileDescriptorUsed := 0 }) h hfree
  cases hok
  exact hu

/-! ## The two directions of `ufs_resize` -/

theorem shrinkFile_sizes (h : Sizes P s.files) (hzero : P f 0) (hn : P f n)
    (hok : shrinkFile s f n = .ok (r, t)) : Sizes P t.files := by
  -- the loop over the descriptors comes last
  have hend : ∀ u : State, Sizes P u.files →
      (if u.fileDescriptorCapacity ≤ u.fileDescriptors.length then
        .ok (0, { u with fileDescriptors := clampOffsets f n u.fileDescriptors })
      else .error .outOfBounds : Run (Int × State)) = .ok (r, t) → Sizes P t.files := by
    intro u hu hres
    split at hres
    · cases hres
      exact hu
    · cases hres
  rcases bind_eq_ok.mp hok with ⟨F, -, hok⟩
  rcases bind_eq_ok.mp hok with ⟨⟨blocks, block⟩, -, hok⟩
  cases block with
  | none =>
    simp only [pure_eq_ok, ok_bind, error_bind] at hok
    split at hok
    · exact hend _ (h.store f hzero) hok
    · cases hok
  | some b =>
    rcases bind_eq_ok.mp hok with ⟨last, -, hok⟩
    exact hend _ (h.store f hn) hok

theorem growBlock_sizes (h : Sizes P s.files) (hok : growBlock m s f = .ok t) :
    Sizes P t.files := by
  rcases bind_eq_ok.mp hok with ⟨F, hF, hok⟩
  dsimp only at hok
  cases hl : F.lastBlock with
  | none =>
    rw [hl] at hok
    cases hok
    exact h.update hF rfl
  | some l =>
    rw [hl] at hok
    rcases bind_eq_ok.mp hok with ⟨last, -, hok⟩
    cases hok
    exact h.update hF rfl

theorem growLoop_sizes {k : Nat} (h : Sizes P s.files) (hok : growLoop m f k s = .ok t) :
    Sizes P t.files := by
  induction k generalizing s with
  | zero =>
    cases hok
    exact h
  | succ k ih =>
    rcases bind_eq_ok.mp hok with ⟨u, hu, hok⟩
    exact ih (growBlock_sizes h hu) hok

theorem growFile_sizes (h : Sizes P s.files) (hn : P f n)
    (hok : growFile m s f n = .ok (r, t)) : Sizes P t.files := by
  rcases bind_eq_ok.mp hok with ⟨F, -, hok⟩
  rcases bind_eq_ok.mp hok with ⟨u, hu, hok⟩
  rcases bind_eq_ok.mp hok with ⟨G, -, hok⟩
  rcases bind_eq_ok.mp hok with ⟨last, -, hok⟩
  dsimp only at hok
  split at hok
  · cases hok
  · cases hok
    exact (growLoop_sizes h hu).store f hn

end SystemProgramming.UserFs
