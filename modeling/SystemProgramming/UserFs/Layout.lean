import SystemProgramming.Lib.DoublyLinked
import SystemProgramming.UserFs.BlockList
import SystemProgramming.UserFs.Operations

/-!
# Layout of the heap

The shape that the heap of the file system has between calls: `file_list` is a doubly linked list
of exactly the allocated files, every file heads a doubly linked chain of blocks of its own, and no
block belongs to two files.  The functions that take files and chains apart are shown to keep it.
-/

open DoublyLinked Fallible

namespace SystemProgramming.UserFs

def Block.cell (b : Block) : Cell := ⟨b.memory, b.occupied⟩

/-- The allocated files are `fl`, and the blocks of each file `f` are `ch f` and its alone. -/
structure Owns (s : State) (fl : List Ptr) (ch : Ptr → List Ptr) : Prop where
  nodup : fl.Nodup
  alloc : ∀ f, f ∈ fl ↔ ∃ F, s.files f = some F
  fileBound : ∀ f ∈ fl, f < s.brk
  chain : ∀ f F, s.files f = some F →
    Linked s.blockNext s.blockPrev F.firstBlock (ch f) F.lastBlock
  valid : ∀ f ∈ fl, ∀ p ∈ ch f, ∃ b, s.blocks p = some b ∧ b.cell.Valid
  apart : ∀ f ∈ fl, ∀ g ∈ fl, ∀ p, p ∈ ch f → p ∈ ch g → f = g
  blockBound : ∀ p b, s.blocks p = some b → p < s.brk

structure Layout (s : State) (fl : List Ptr) (ch : Ptr → List Ptr) : Prop extends
    Owns s fl ch where
  listed : Linked s.fileNext s.filePrev s.fileList fl fl.getLast?

/-- Distinct addresses below `n` are at most `n` many. -/
theorem length_le_of_bound {xs : List Ptr} {n : Nat} (hnodup : xs.Nodup) (hlt : ∀ x ∈ xs, x < n) :
    xs.length ≤ n := by
  have hsub : xs ⊆ List.range n := fun x hx => List.mem_range.mpr (hlt x hx)
  simpa using (List.subperm_of_subset hnodup hsub).length_le

variable {s : State} {fl : List Ptr} {ch : Ptr → List Ptr} {f : Ptr} {F : File}

theorem Owns.chain_nodup (h : Owns s fl ch) (hf : f ∈ fl) : (ch f).Nodup :=
  let ⟨_, hF⟩ := (h.alloc f).mp hf
  Seg.nodup (h.chain f _ hF)

theorem Owns.chain_bound (h : Owns s fl ch) (hf : f ∈ fl) : ∀ p ∈ ch f, p < s.brk := by
  intro p hp
  rcases h.valid f hf p hp with ⟨b, hb, -⟩
  exact h.blockBound p b hb

theorem Owns.chain_length (h : Owns s fl ch) (hf : f ∈ fl) : (ch f).length ≤ s.brk :=
  length_le_of_bound (h.chain_nodup hf) (h.chain_bound hf)

/-! ## Searching the list -/

/-- A file that the searches of `ufs_open` and `ufs_delete` stop at. -/
def visible (files : Heap File) (filename : List UInt8) (p : Ptr) : Bool :=
  match files p with
  | some file => !file.isGhost && file.name == filename
  | none => false

theorem findFile_seg {files : Heap File} {pv : Ptr → Option Ptr} {filename : List UInt8}
    (fuel : Nat) {pr hd la : Option Ptr} {xs : List Ptr}
    (h : Seg (fun p => (files p).bind File.next) pv pr hd xs la none)
    (halloc : ∀ x ∈ xs, ∃ F, files x = some F) (hfuel : xs.length ≤ fuel) :
    findFile files filename fuel hd = .ok (xs.find? (visible files filename)) := by
  induction xs generalizing fuel pr hd with
  | nil => cases fuel <;> simp [h.1, findFile]
  | cons x xs ih =>
    obtain ⟨rfl, -, ht⟩ := h
    cases fuel with
    | zero => simp at hfuel
    | succ fuel =>
      obtain ⟨F, hF⟩ := halloc x (by simp)
      have hrest := ih fuel ht (fun y hy => halloc y (by simp [hy])) (by simpa using hfuel)
      simp only [hF, Option.bind_some] at hrest
      simp only [findFile, load_some hF, ok_bind, pure_eq_ok, hrest, List.find?_cons, visible, hF]
      cases (!F.isGhost && F.name == filename) <;> rfl

theorem Layout.findFile_eq (h : Layout s fl ch) (filename : List UInt8) :
    findFile s.files filename s.brk s.fileList = .ok (fl.find? (visible s.files filename)) :=
  findFile_seg s.brk h.listed (fun x hx => (h.alloc x).mp hx)
    (length_le_of_bound h.nodup h.fileBound)

/-! ## Freeing a file -/

theorem freeBlocks_seg (fuel : Nat) (blocks : Heap Block) {pv : Ptr → Option Ptr}
    {pr hd la : Option Ptr} {ps : List Ptr}
    (h : Seg (fun p => (blocks p).bind Block.next) pv pr hd ps la none)
    (halloc : ∀ p ∈ ps, ∃ b, blocks p = some b) (hfuel : ps.length ≤ fuel) :
    freeBlocks fuel blocks hd = .ok (fun p => if p ∈ ps then none else blocks p) := by
  induction ps generalizing fuel pr hd blocks with
  | nil => cases fuel <;> simp [h.1, freeBlocks]
  | cons p ps ih =>
    have hnodup := Seg.nodup h
    obtain ⟨rfl, -, ht⟩ := h
    cases fuel with
    | zero => simp at hfuel
    | succ fuel =>
      obtain ⟨b, hb⟩ := halloc p (by simp)
      have hne : ∀ q ∈ ps, q ≠ p := fun q hq hqp =>
        (List.nodup_cons.mp hnodup).1 (hqp ▸ hq)
      -- the blocks after `p` are as before once `p` is gone
      have hrest := ih fuel (free blocks p)
        (Seg.congr ht (fun q hq => by rw [free_ne _ (hne q hq)]) (fun _ _ => rfl))
        (fun q hq => by
          rw [free_ne _ (hne q hq)]
          exact halloc q (by simp [hq]))
        (by simpa using hfuel)
      simp only [hb, Option.bind_some] at hrest
      simp only [freeBlocks, load_some hb, ok_bind, hrest]
      congr 1
      funext q
      by_cases hqp : q = p
      · subst hqp; simp
      · simp [hqp, free_ne]

theorem ufsFreeFile_eq (h : Owns s fl ch) (hF : s.files f = some F) :
    ufsFreeFile s f = .ok { s with
      blocks := fun p => if p ∈ ch f then none else s.blocks p
      files := free s.files f } := by
  have hf : f ∈ fl := (h.alloc f).mpr ⟨F, hF⟩
  have hblocks := freeBlocks_seg s.brk s.blocks (h.chain f F hF)
    (fun p hp => (h.valid f hf p hp).imp fun _ hb => hb.1) (h.chain_length hf)
  simp only [ufsFreeFile, load_some hF, ok_bind, hblocks, pure_eq_ok]

/-- Freeing a file takes its blocks with it and leaves the others alone. -/
theorem Owns.free (h : Owns s fl ch) (hf : f ∈ fl) :
    Owns { s with
      blocks := fun p => if p ∈ ch f then none else s.blocks p
      files := UserFs.free s.files f } (fl.erase f) ch := by
  have hmem : ∀ g, g ∈ fl.erase f ↔ g ∈ fl ∧ g ≠ f := fun g => by
    rw [h.nodup.mem_erase_iff]; tauto
  -- The chains of two files share no block, so only `f` loses its own.
  have hkeep : ∀ g ∈ fl, g ≠ f → ∀ p ∈ ch g, p ∉ ch f := fun g hg hgf p hp hpf =>
    hgf (h.apart g hg f hf p hp hpf)
  refine ⟨h.nodup.erase f, ?_, ?_, ?_, ?_, ?_, ?_⟩
  · intro g
    rw [hmem, h.alloc]
    by_cases hgf : g = f
    · subst hgf; simp
    · simp [hgf, free_ne]
  · exact fun g hg => h.fileBound g ((hmem g).mp hg).1
  · intro g G hG
    have hgf : g ≠ f := by rintro rfl; simp at hG
    change UserFs.free s.files f g = some G at hG
    rw [free_ne _ hgf] at hG
    have hg : g ∈ fl := (h.alloc g).mpr ⟨G, hG⟩
    exact Seg.congr (h.chain g G hG)
      (fun p hp => by simp [State.blockNext, hkeep g hg hgf p hp])
      (fun p hp => by simp [State.blockPrev, hkeep g hg hgf p hp])
  · intro g hg p hp
    obtain ⟨hg, hgf⟩ := (hmem g).mp hg
    simpa [hkeep g hg hgf p hp] using h.valid g hg p hp
  · exact fun g hg k hk => h.apart g ((hmem g).mp hg).1 k ((hmem k).mp hk).1
  · intro p b hb
    by_cases hp : p ∈ ch f
    · simp [hp] at hb
    · exact h.blockBound p b (by simpa [hp] using hb)

/-! ## Unlinking a file -/

/-- A file with new links. -/
def File.relink (file : File) (next prev : Option Ptr) : File :=
  { file with next := next, prev := prev }

/-- The links that `_ufs_unlink_file` leaves in file `g` when it takes out `f`. -/
def unlinked (F : File) (g : Ptr) (G : File) : File :=
  G.relink (if F.prev = some g then F.next else G.next) (if F.next = some g then F.prev else G.prev)

theorem ufsUnlinkFile_eq (hF : s.files f = some F)
    (hprev : ∀ p, F.prev = some p → p ≠ f ∧ ∃ P, s.files p = some P)
    (hnext : ∀ n, F.next = some n → n ≠ f ∧ ∃ N, s.files n = some N)
    (hne : ∀ p, F.prev = some p → F.next ≠ some p) :
    ufsUnlinkFile s f = .ok { s with
      files := fun g => (s.files g).map (unlinked F g)
      fileList := if s.fileList = some f then F.next else s.fileList } := by
  have hfiles : ∀ t : State, t.files f = some F →
      (t.files = fun g => (s.files g).map (unlinked F g)) → t = { s with files := t.files } →
      (if t.fileList = some f then { t with fileList := F.next } else t) = { s with
        files := fun g => (s.files g).map (unlinked F g)
        fileList := if s.fileList = some f then F.next else s.fileList } := by
    intro t ht htf hts
    rw [hts, htf]
    by_cases hl : s.fileList = some f <;> simp [hl]
  cases hp : F.prev with
  | none =>
    cases hn : F.next with
    | none =>
      simp only [ufsUnlinkFile, load_some hF, ok_bind, hp, hn, pure_eq_ok]
      congr 1
      rw [← hn]
      refine hfiles s hF ?_ rfl
      funext g
      cases hg : s.files g <;> simp [unlinked, File.relink, hp, hn]
    | some n =>
      obtain ⟨hnf, N, hN⟩ := hnext n hn
      have hFn : (s.setFile n { N with prev := none }).files f = some F := by
        simp [State.setFile, store_ne _ _ hnf.symm, hF]
      simp only [ufsUnlinkFile, load_some hF, ok_bind, hp, hn, pure_eq_ok, load_some hN,
        load_some hFn]
      congr 1
      rw [← hn]
      refine hfiles _ hFn ?_ rfl
      funext g
      by_cases hgn : g = n
      · subst hgn; simp [State.setFile, hN, unlinked, File.relink, hp, hn]
      · have hgn' : n ≠ g := fun h => hgn h.symm
        cases hg : s.files g <;>
          simp [State.setFile, store_ne _ _ hgn, hg, unlinked, File.relink, hp, hn, hgn']
  -- the previous file skips this one, whether or not there is a next one
  | some p =>
    obtain ⟨hpf, P, hP⟩ := hprev p hp
    have hFp : (s.setFile p { P with next := F.next }).files f = some F := by
      simp [State.setFile, store_ne _ _ hpf.symm, hF]
    cases hn : F.next with
    | none =>
      rw [hn] at hFp
      simp only [ufsUnlinkFile, load_some hF, ok_bind, hp, hn, pure_eq_ok, load_some hP,
        load_some hFp]
      congr 1
      rw [← hn]
      refine hfiles _ (hn ▸ hFp) ?_ rfl
      funext g
      by_cases hgp : g = p
      · subst hgp; simp [State.setFile, hP, unlinked, File.relink, hp, hn]
      · have hgp' : p ≠ g := fun h => hgp h.symm
        cases hg : s.files g <;>
          simp [State.setFile, store_ne _ _ hgp, hg, unlinked, File.relink, hp, hn, hgp']
    | some n =>
      obtain ⟨hnf, N, hN⟩ := hnext n hn
      rw [hn] at hFp
      have hnp : n ≠ p := fun h => hne p hp (h ▸ hn)
      have hNp : (s.setFile p { P with next := some n }).files n = some N := by
        simp [State.setFile, store_ne _ _ hnp, hN]
      have hFn : ((s.setFile p { P with next := some n }).setFile n
          { N with prev := some p }).files f = some F := by
        simp [State.setFile, store_ne _ _ hnf.symm, store_ne _ _ hpf.symm, hF]
      simp only [ufsUnlinkFile, load_some hF, ok_bind, hp, hn, pure_eq_ok, load_some hP,
        load_some hFp, load_some hNp, load_some hFn]
      congr 1
      rw [← hn]
      refine hfiles _ (hn ▸ hFn) ?_ rfl
      funext g
      by_cases hgn : g = n
      · subst hgn
        have hpg : ¬ p = g := fun h => hnp h.symm
        simp [State.setFile, hN, unlinked, File.relink, hp, hn, hpg]
      · have hgn' : n ≠ g := fun h => hgn h.symm
        by_cases hgp : g = p
        · subst hgp
          simp [State.setFile, store_ne _ _ hgn, hP, unlinked, File.relink, hp, hn, hgn']
        · have hgp' : p ≠ g := fun h => hgp h.symm
          cases hg : s.files g <;>
            simp [State.setFile, store_ne _ _ hgn, store_ne _ _ hgp, hg, unlinked, File.relink,
              hp, hn, hgn', hgp']

/-- The neighbours of a listed file are the files before and after it. -/
theorem Layout.neighbours (h : Layout s fl ch) (hF : s.files f = some F) :
    ∃ as bs, fl = as ++ f :: bs ∧ F.prev = as.getLast? ∧ F.next = bs.head? := by
  have hf : f ∈ fl := (h.alloc f).mpr ⟨F, hF⟩
  obtain ⟨as, bs, rfl⟩ := List.append_of_mem hf
  obtain ⟨l, m, has, -, hl, hbs⟩ := seg_append.mp h.listed
  refine ⟨as, bs, rfl, ?_, ?_⟩
  · have hpv : F.prev = l := by simpa [State.filePrev, hF] using hl
    rw [hpv, Seg.last_eq has, Option.or_none]
  · have hnx : s.fileNext f = F.next := by simp [State.fileNext, hF]
    rw [hnx] at hbs
    cases bs with
    | nil => exact hbs.1
    | cons b bs => exact hbs.1

theorem Layout.ufsUnlinkFile_eq (h : Layout s fl ch) (hF : s.files f = some F) :
    ufsUnlinkFile s f = .ok { s with
      files := fun g => (s.files g).map (unlinked F g)
      fileList := if s.fileList = some f then F.next else s.fileList } := by
  rcases h.neighbours hF with ⟨as, bs, rfl, hprev, hnext⟩
  have hnodup := List.nodup_append.mp h.nodup
  have hfb := (List.nodup_cons.mp hnodup.2.1).1
  refine UserFs.ufsUnlinkFile_eq hF (fun p hp => ?_) (fun n hn => ?_) (fun p hp hpn => ?_)
  · have hmem : p ∈ as := List.mem_of_getLast? (hprev ▸ hp)
    exact ⟨hnodup.2.2 p hmem f (by simp), (h.alloc p).mp (by simp [hmem])⟩
  · have hmem : n ∈ bs := List.mem_of_mem_head? (by rw [← hnext, hn]; rfl)
    exact ⟨fun hnf => hfb (hnf ▸ hmem), (h.alloc n).mp (by simp [hmem])⟩
  · have hmem : p ∈ as := List.mem_of_getLast? (hprev ▸ hp)
    have hmem' : p ∈ bs := List.mem_of_mem_head? (by rw [← hnext, hpn]; rfl)
    exact hnodup.2.2 p hmem p (by simp [hmem']) rfl

/-- The heap after a file has been unlinked and freed. -/
def withoutFile (s : State) (ch : Ptr → List Ptr) (f : Ptr) (F : File) : State :=
  { s with
    files := free (fun g => (s.files g).map (unlinked F g)) f
    blocks := fun p => if p ∈ ch f then none else s.blocks p
    fileList := if s.fileList = some f then F.next else s.fileList }

theorem Owns.unlinked (h : Owns s fl ch) (l : Option Ptr) :
    Owns { s with files := fun g => (s.files g).map (unlinked F g), fileList := l } fl ch := by
  refine ⟨h.nodup, fun g => ?_, h.fileBound, fun g G hG => ?_, h.valid, h.apart, h.blockBound⟩
  · rw [h.alloc]; simp
  · obtain ⟨G', hG', rfl⟩ : ∃ G', s.files g = some G' ∧ UserFs.unlinked F g G' = G := by
      simpa using hG
    exact h.chain g G' hG'

theorem Layout.unlinkFree_eq (h : Layout s fl ch) (hF : s.files f = some F) :
    (ufsUnlinkFile s f >>= fun s => ufsFreeFile s f) = .ok (withoutFile s ch f F) := by
  rw [h.ufsUnlinkFile_eq hF, ok_bind]
  exact ufsFreeFile_eq (F := UserFs.unlinked F f F) (h.toOwns.unlinked _) (by simp [hF])

theorem Layout.withoutFile (h : Layout s fl ch) (hF : s.files f = some F) :
    Layout (withoutFile s ch f F) (fl.erase f) ch := by
  have hf : f ∈ fl := (h.alloc f).mpr ⟨F, hF⟩
  refine ⟨(h.toOwns.unlinked _).free hf, ?_⟩
  rcases h.neighbours hF with ⟨as, bs, rfl, hprev, hnext⟩
  have hnodup := List.nodup_append.mp h.nodup
  have hfas : f ∉ as := fun hmem => hnodup.2.2 f hmem f (by simp) rfl
  have hfbs : f ∉ bs := (List.nodup_cons.mp hnodup.2.1).1
  have hpf : s.filePrev f = F.prev := by simp [State.filePrev, hF]
  have hnf : s.fileNext f = F.next := by simp [State.fileNext, hF]
  -- the new links of the remaining files, read off the old ones
  have hlinks : ∀ g, g ∈ as ∨ g ∈ bs →
      (UserFs.withoutFile s ch f F).fileNext g =
        (if F.prev = some g then F.next else s.fileNext g) ∧
      (UserFs.withoutFile s ch f F).filePrev g =
        (if F.next = some g then F.prev else s.filePrev g) := by
    intro g hg
    have hgf : g ≠ f := by rintro rfl; exact hg.elim hfas hfbs
    obtain ⟨G, hG⟩ := (h.alloc g).mp (by simp; tauto)
    simp [State.fileNext, State.filePrev, UserFs.withoutFile, free_ne _ hgf, hG,
      UserFs.unlinked, File.relink]
  have hlist : Linked (UserFs.withoutFile s ch f F).fileNext (UserFs.withoutFile s ch f F).filePrev
      (if as = [] then s.fileNext f else s.fileList) (as ++ bs)
      (if bs = [] then s.filePrev f else (as ++ f :: bs).getLast?) := Linked.unlink h.listed
    (fun y hy hne => by rw [(hlinks y (.inl hy)).1, if_neg (by rwa [← hpf, eq_comm])])
    (fun y hy => by
      have hmem : y ∈ as := List.mem_of_getLast? (by rw [← hprev, ← hpf, hy])
      rw [(hlinks y (.inl hmem)).1, if_pos (by rw [← hpf, hy]), hnf])
    (fun y hy => by
      rw [(hlinks y (.inr hy)).1, if_neg fun hyp => ?_]
      exact hnodup.2.2 y (List.mem_of_getLast? (hprev ▸ hyp)) y (by simp [hy]) rfl)
    (fun y hy => by
      rw [(hlinks y (.inl hy)).2, if_neg fun hyn => ?_]
      have hmem : y ∈ bs := List.mem_of_mem_head? (by rw [← hnext, hyn]; rfl)
      exact hnodup.2.2 y hy y (by simp [hmem]) rfl)
    (fun y hy hne => by rw [(hlinks y (.inr hy)).2, if_neg (by rwa [← hnf, eq_comm])])
    (fun y hy => by
      have hmem : y ∈ bs := List.mem_of_mem_head? (by rw [← hnext, ← hnf, hy]; rfl)
      rw [(hlinks y (.inr hmem)).2, if_pos (by rw [← hnf, hy]), hpf])
  have herase : (as ++ f :: bs).erase f = as ++ bs := by
    rw [List.erase_append_right _ hfas, List.erase_cons_head]
  -- the head moves on if the file was the first one
  have hhead : (UserFs.withoutFile s ch f F).fileList =
      if as = [] then s.fileNext f else s.fileList := by
    have hhd : s.fileList = (as ++ f :: bs).head? := h.listed.head_eq
    cases as with
    | nil => simp [UserFs.withoutFile, hhd, hnf]
    | cons a as =>
      have haf : a ≠ f := fun haf => hfas (by simp [haf])
      simp [UserFs.withoutFile, hhd, haf]
  rw [herase, hhead]
  have hlast := Seg.last_eq hlist
  rw [Option.or_none] at hlast
  rwa [← hlast]

end SystemProgramming.UserFs
