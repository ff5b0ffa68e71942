import SystemProgramming.UserFs.Coverage
import SystemProgramming.UserFs.FileSystem
import SystemProgramming.UserFs.Ownership
import SystemProgramming.UserFs.SizeLimit

/-!
# The library is a file system

Every call of `userfs.c` answers as the abstract file system does, and the two stay related, for
as long as the calls keep clear of the four places where the library is known to differ from it:
a write into an earlier block than the one the file ends in, a write near the size limit that is
not at the end, a resize through a read-only descriptor, and growing over bytes that are not zero.
-/

open Fallible
open Runs (Within)

namespace SystemProgramming.UserFs

variable {m : Malloc} {s t : State} {f g : Ptr} {F : File} {i : Nat} {d : FileDesc} {n : Nat}
  {r : Int} {name : List UInt8}

/-! ## Names -/

/-- What a name finds a file by. -/
def File.label (file : File) : Bool × List UInt8 := (file.isGhost, file.name)

/-- The files of `s'` are those of `s`, under the same names. -/
def SameLabels (s s' : State) : Prop :=
  ∀ g, (s'.files g).map File.label = (s.files g).map File.label

/-- The searches of `ufs_open` and `ufs_delete` for `name` stop at file `f`. -/
def State.Named (s : State) (name : List UInt8) (f : Ptr) : Prop :=
  ∃ F, s.files f = some F ∧ F.label = (false, name)

theorem setFile_labels {G : File} (hF : s.files f = some F) (hG : G.label = F.label) :
    SameLabels s (s.setFile f G) := by
  intro g
  by_cases hg : g = f
  · subst hg
    simp [State.setFile, hF, hG]
  · simp [State.setFile, store_ne _ _ hg]

theorem SameLabels.named (h : SameLabels s t) : t.Named name f ↔ s.Named name f := by
  have hlabel := h f
  have hboth : ∀ u : State, u.Named name f ↔ (u.files f).map File.label = some (false, name) := by
    intro u
    rw [Option.map_eq_some_iff]
    rfl
  rw [hboth, hboth, hlabel]

theorem SameLabels.file {G : File} (h : SameLabels s t) (hG : t.files g = some G) :
    ∃ F, s.files g = some F := by
  have hlabel := h g
  rw [hG, Option.map_some] at hlabel
  rcases Option.map_eq_some_iff.mp hlabel.symm with ⟨F, hF, -⟩
  exact ⟨F, hF⟩

theorem Rewrites.labels {ch : Ptr → List Ptr} (h : Rewrites s t ch) : SameLabels s t := by
  rcases h with ⟨u, f, F, G, qs, slots, hrel, -, rfl⟩
  intro g
  by_cases hg : g = f
  · rw [hg]
    show (u.files f).map File.label = _
    rw [hrel.after.file, hrel.before.file, hrel.same]
    rfl
  · show (u.files g).map File.label = _
    rw [hrel.files g hg]

theorem Rewrites.errno {ch : Ptr → List Ptr} (h : Rewrites s t ch) :
    t.ufsErrorCode = s.ufsErrorCode := by
  rcases h with ⟨u, f, F, G, qs, slots, -, htidy, rfl⟩
  exact htidy.errno

theorem visible_iff {p : Ptr} : visible s.files name p = true ↔ s.Named name p := by
  cases hp : s.files p with
  | none => simp [visible, State.Named, hp]
  | some F => simp [visible, State.Named, File.label, hp]

/-- A name leads to one file at most. -/
theorem Inv.named_unique (h : Inv s) (hf : s.Named name f) (hg : s.Named name g) : f = g := by
  rcases h with ⟨fl, ch, -, htab⟩
  rcases hf with ⟨F, hF, hFl⟩
  rcases hg with ⟨G, hG, hGl⟩
  have hFe := Prod.mk.inj hFl
  have hGe := Prod.mk.inj hGl
  exact htab.names f F.entry g G.entry (table_entry hF) (table_entry hG) hFe.1 hGe.1
    (hFe.2.trans hGe.2.symm)

/-- The search finds the file of the name, if there is one. -/
theorem findFile_cases (h : Inv s) (name : List UInt8) :
    (∃ f, s.Named name f ∧ findFile s.files name s.brk s.fileList = .ok (some f)) ∨
      (∀ f, ¬ s.Named name f) ∧ findFile s.files name s.brk s.fileList = .ok none := by
  rcases h with ⟨fl, ch, hlay, -⟩
  rw [hlay.findFile_eq]
  cases hfind : fl.find? (visible s.files name) with
  | some f =>
    left
    exact ⟨f, visible_iff.mp (List.find?_some hfind), rfl⟩
  | none =>
    right
    refine ⟨fun f hf => ?_, rfl⟩
    have hmem : f ∈ fl := (hlay.alloc f).mpr (hf.imp fun _ hF => hF.1)
    exact List.find?_eq_none.mp hfind f hmem (visible_iff.mpr hf)

/-! ## The lowest free descriptor -/

theorem findFree_least {slots : List (Option FileDesc)} {i count j : Nat}
    (hok : findFree slots i count = .ok (some j)) :
    slots[j]? = some none ∧ ∀ k, i ≤ k → k < j → ∃ d, slots[k]? = some (some d) := by
  induction count generalizing i with
  | zero => cases hok
  | succ count ih =>
    rw [findFree] at hok
    split at hok
    · cases hok
    · rename_i hfree
      cases hok
      exact ⟨hfree, fun k hik hki => absurd hki (not_lt.mpr hik)⟩
    · rename_i d hd
      have hrest := ih hok
      refine ⟨hrest.1, fun k hik hkj => ?_⟩
      rcases Nat.eq_or_lt_of_le hik with rfl | hlt
      · exact ⟨d, hd⟩
      · exact hrest.2 k hlt hkj

/-- The descriptor in slot `i`. -/
def State.desc (s : State) (i : Nat) : Option FileDesc := (s.fileDescriptors[i]?).join

theorem desc_eq_some : s.desc i = some d ↔ s.fileDescriptors[i]? = some (some d) :=
  Option.join_eq_some_iff

theorem fillSlot_desc {idx : Nat} {flags : BitVec 32} (hok : fillSlot s idx f flags = .ok (r, t)) :
    r = (idx : Int) + 1 ∧ t.desc = Function.update s.desc idx (some ⟨f, flags, 0⟩) ∧
      t.ufsErrorCode = s.ufsErrorCode ∧ SameLabels s t := by
  unfold fillSlot at hok
  split at hok
  · rename_i hlt
    rcases bind_eq_ok.mp hok with ⟨F, hF, hok⟩
    cases hok
    rcases load_eq_ok.mp hF with ⟨f', hf', hF⟩
    cases hf'
    refine ⟨rfl, ?_, rfl, setFile_labels (G := { F with refs := F.refs + 1 }) hF rfl⟩
    ext j
    by_cases hj : j = idx
    · subst hj
      simp [State.desc, State.setFile, hlt]
    · simp [State.desc, State.setFile, hj, Ne.symm hj]
  · cases hok

theorem desc_grow {k : Nat} (h : t.fileDescriptors = s.fileDescriptors ++ List.replicate k none) :
    t.desc = s.desc := by
  funext j
  rw [State.desc, State.desc, h]
  rcases lt_or_ge j s.fileDescriptors.length with hlt | hge
  · rw [List.getElem?_append_left hlt]
  · rw [List.getElem?_append_right hge, List.getElem?_eq_none hge, List.getElem?_replicate]
    split <;> rfl

theorem used_eq (htab : s.table.Consistent) :
    s.fileDescriptorUsed = s.fileDescriptors.countP Option.isSome := by
  have hused := htab.used
  simp only [State.table, List.countP_map] at hused
  rw [hused]
  congr 2
  ext o
  cases o <;> rfl

/-- The descriptor goes into the lowest slot without one. -/
theorem takeDescriptor_desc {flags : BitVec 32} (htab : s.table.Consistent) (hr : 0 ≤ r)
    (hok : takeDescriptor s f flags = .ok (r, t)) :
    ∃ i : Nat, r = (i : Int) + 1 ∧ t.desc = Function.update s.desc i (some ⟨f, flags, 0⟩) ∧
      s.desc i = none ∧ (∀ j < i, s.desc j ≠ none) ∧ t.ufsErrorCode = s.ufsErrorCode ∧
      SameLabels s t := by
  have hcap := capacity_eq htab
  unfold takeDescriptor at hok
  by_cases hzero : s.fileDescriptorCapacity ≤ 0
  · have hnil : s.fileDescriptors = [] := List.length_eq_zero_iff.mp (by omega)
    have hnone : s.desc = fun _ => none := by
      funext j
      simp [State.desc, hnil]
    have hfind : findFree (List.replicate 10 none) 0 10 = .ok (some 0) := rfl
    have hroom : (0 : Int) < 10 := by decide
    simp only [if_pos hzero, if_pos hroom] at hok
    change (findFree (List.replicate 10 none) 0 10 >>= _) = _ at hok
    rw [hfind, ok_bind] at hok
    rcases fillSlot_desc hok with ⟨rfl, hdesc, herr, hlabels⟩
    refine ⟨0, rfl, ?_, by rw [hnone], by omega, herr, hlabels⟩
    rw [hdesc]
    congr 1
    apply desc_grow (k := 10)
    rw [hnil]
    rfl
  · simp only [if_neg hzero] at hok
    by_cases hroom : s.fileDescriptorUsed < s.fileDescriptorCapacity
    · simp only [if_pos hroom] at hok
      rcases bind_eq_ok.mp hok with ⟨slot, hfind, hok⟩
      cases slot with
      | none =>
        -- the call would have failed
        have hret := (Prod.mk.inj (Except.ok.inj hok)).1
        rw [← hret] at hr
        cases hr
      | some idx =>
        rcases fillSlot_desc hok with ⟨rfl, hdesc, herr, hlabels⟩
        rcases findFree_least hfind with ⟨hfree, hleast⟩
        refine ⟨idx, rfl, hdesc, ?_, fun j hj => ?_, herr, hlabels⟩
        · rw [State.desc, hfree]
          rfl
        · rcases hleast j (Nat.zero_le j) hj with ⟨d, hd⟩
          rw [desc_eq_some.mpr hd]
          exact Option.some_ne_none d
    · simp only [if_neg hroom] at hok
      have hfull : s.fileDescriptorUsed = s.fileDescriptors.length := by
        have hall := htab.all_taken (not_lt.mp hroom)
        simpa [State.table] using hall
      have htaken : ∀ slot ∈ s.fileDescriptors, slot.isSome = true := by
        have hused := used_eq htab
        apply List.countP_eq_length.mp
        omega
      rcases fillSlot_desc hok with ⟨rfl, hdesc, herr, hlabels⟩
      refine ⟨_, rfl, ?_, ?_, fun j hj => ?_, herr, hlabels⟩
      · rw [hdesc]
        congr 1
        exact desc_grow rfl
      · simp [State.desc, hfull]
      · have hlt : j < s.fileDescriptors.length := by omega
        have hsome := htaken _ (List.getElem_mem hlt)
        rcases Option.isSome_iff_exists.mp hsome with ⟨d, hd⟩
        rw [desc_eq_some.mpr (List.getElem?_eq_some_iff.mpr ⟨hlt, hd⟩)]
        exact Option.some_ne_none d

/-! ## The abstraction -/

def FileDesc.toHandle (d : FileDesc) : Handle Ptr where
  file := d.file
  reads := mayRead d.openFlags
  writes := mayWrite d.openFlags
  offset := d.offset

/-- File `f` is laid out as it should be and holds the bytes `bs`. -/
def State.Contains (s : State) (f : Ptr) (bs : List UInt8) : Prop :=
  bs.length ≤ maxFileSize ∧ ∃ cs, s.Stores f bs.length cs ∧ WellFormed cs bs.length ∧ content cs = bs

/-- The file system that a state stands for. -/
structure Abstracts (s : State) (a : FileSystem (List UInt8) UInt8 Ptr) : Prop where
  inv : Inv s
  file : ∀ name f, a.file name = some f ↔ s.Named name f
  bytes : ∀ f F, s.files f = some F → s.Contains f (a.bytes f)
  handle : ∀ i : Nat, a.handle ((i : Int) + 1) = (s.desc i).map FileDesc.toHandle
  noHandle : ∀ fd ≤ 0, a.handle fd = none
  offset : ∀ i d, s.desc i = some d → d.offset ≤ (a.bytes d.file).length
  errno : a.errno = s.ufsErrorCode

variable {a b : FileSystem (List UInt8) UInt8 Ptr} {bs : List UInt8}

theorem State.Contains.same (h : s.Contains f bs) (hsame : SameFile s t f) : t.Contains f bs :=
  let ⟨hmax, cs, hstores, hwf⟩ := h
  ⟨hmax, cs, hsame _ _ hstores, hwf⟩

theorem State.Stores.contains {cs : List Cell} (h : s.Stores f n cs) (hwf : WellFormed cs n)
    (hcontent : content cs = bs) (hmax : n ≤ maxFileSize) : s.Contains f bs := by
  have hlen : bs.length = n := by rw [← hcontent, content_length hwf.valid, hwf.sum]
  subst hlen
  exact ⟨hmax, cs, h, hwf, hcontent⟩

theorem Abstracts.init : Abstracts State.init FileSystem.empty where
  inv := Inv.init
  file name f := by simp [FileSystem.empty, State.Named, State.init]
  bytes f F hF := by cases hF
  handle i := rfl
  noHandle _ _ := rfl
  offset i d hd := by cases hd
  errno := rfl

theorem Abstracts.fail (h : Abstracts s a) (e : UfsErrorCode) :
    Abstracts { s with ufsErrorCode := e } (a.withErrno e) where
  inv := h.inv.fail e
  file := h.file
  bytes f F hF := (h.bytes f F hF).same (fail_sameFile s e f)
  handle := h.handle
  noHandle := h.noHandle
  offset := h.offset
  errno := rfl

/-- A descriptor number stands for a handle, or for none. -/
theorem Abstracts.lookup (h : Abstracts s a) (fd : Int) :
    (lookupDesc s fd = .ok none ∧ a.handle fd = none) ∨
      ∃ (i : Nat) (d : FileDesc), fd = (i : Int) + 1 ∧ s.fileDescriptors[i]? = some (some d) ∧
        lookupDesc s fd = .ok (some (i, d)) ∧ a.handle fd = some d.toHandle := by
  rcases id h.inv with ⟨fl, ch, -, htab⟩
  rcases lookupDesc_cases htab fd with hnone | ⟨i, d, rfl, hi, hlook⟩
  · left
    refine ⟨hnone, ?_⟩
    rcases lt_or_ge 0 fd with hpos | hle
    · obtain ⟨i, rfl⟩ : ∃ i : Nat, fd = (i : Int) + 1 := ⟨(fd - 1).toNat, by omega⟩
      rw [h.handle]
      cases hd : s.desc i with
      | none => rfl
      | some d =>
        rw [lookupDesc_slot htab (desc_eq_some.mp hd)] at hnone
        cases hnone
    · exact h.noHandle fd hle
  · refine .inr ⟨i, d, rfl, hi, hlook, ?_⟩
    rw [h.handle, desc_eq_some.mpr hi]
    rfl

/-- A call that changes one descriptor and no file. -/
theorem Abstracts.withHandle (h : Abstracts s a) (hinv : Inv t) {o : Option FileDesc}
    (hnamed : ∀ name f, t.Named name f ↔ s.Named name f)
    (hfile : ∀ g G, t.files g = some G → ∃ F, s.files g = some F) (hsame : SameFiles s t)
    (hdesc : t.desc = Function.update s.desc i o) (herr : t.ufsErrorCode = s.ufsErrorCode)
    (hoff : ∀ d, o = some d → d.offset ≤ (a.bytes d.file).length) :
    Abstracts t (a.withHandle ((i : Int) + 1) (o.map FileDesc.toHandle)) where
  inv := hinv
  file name f := (h.file name f).trans (hnamed name f).symm
  bytes g G hG := by
    rcases hfile g G hG with ⟨F, hF⟩
    exact (h.bytes g F hF).same (hsame g G hG)
  handle j := by
    rw [hdesc]
    by_cases hj : j = i
    · subst hj
      simp [FileSystem.withHandle]
    · have hne : (j : Int) + 1 ≠ (i : Int) + 1 := by omega
      simp [FileSystem.withHandle, hj, h.handle]
  noHandle fd hfd := by
    have hne : fd ≠ (i : Int) + 1 := by omega
    simp [FileSystem.withHandle, hne, h.noHandle fd hfd]
  offset j d hd := by
    rw [hdesc] at hd
    by_cases hj : j = i
    · rw [hj, Function.update_self] at hd
      exact hoff d hd
    · rw [Function.update_of_ne hj] at hd
      exact h.offset j d hd
  errno := h.errno.trans herr.symm

/-- The descriptor that `ufs_open` takes is the lowest one that is free. -/
theorem Abstracts.lowest (h : Abstracts s a) (hfree : s.desc i = none)
    (hleast : ∀ j < i, s.desc j ≠ none) : a.Lowest ((i : Int) + 1) := by
  refine ⟨by omega, ?_, fun j hj hji => ?_⟩
  · rw [h.handle, hfree]
    rfl
  · obtain ⟨k, rfl⟩ : ∃ k : Nat, j = (k : Int) + 1 := ⟨(j - 1).toNat, by omega⟩
    rw [h.handle]
    simpa using hleast k (by omega)

/-! ## Opening -/

/-- A descriptor of a file that is there. -/
theorem Abstracts.take (h : Abstracts s a) (hF : s.files f = some F) (flags : BitVec 32) :
    ∃ t, ∃ i : Nat, takeDescriptor s f flags = .ok ((i : Int) + 1, t) ∧ a.Lowest ((i : Int) + 1) ∧
      Abstracts t (a.withHandle ((i : Int) + 1)
        (some ⟨f, mayRead flags, mayWrite flags, 0⟩)) := by
  rcases id h.inv with ⟨fl, ch, hlay, htab⟩
  rcases takeDescriptor_eq hlay htab hF flags with ⟨t, i, htake, hopened⟩
  rcases takeDescriptor_desc htab (by omega) htake with
    ⟨j, hj, hdesc, hfree, hleast, herr, hlabels⟩
  obtain rfl : i = j := by omega
  refine ⟨t, i, htake, h.lowest hfree hleast, ?_⟩
  exact h.withHandle hopened.inv (fun _ _ => hlabels.named) (fun _ _ hG => hlabels.file hG)
    hopened.same hdesc herr fun d hd => by cases hd; exact Nat.zero_le _

theorem named_iff_entry : s.Named name f ↔
    ∃ e, s.table.entry f = some e ∧ e.isGhost = false ∧ e.name = name := by
  constructor
  · rintro ⟨F, hF, hlabel⟩
    have hboth := Prod.mk.inj hlabel
    exact ⟨F.entry, table_entry hF, hboth.1, hboth.2⟩
  · rintro ⟨e, he, hghost, hname⟩
    rcases Option.map_eq_some_iff.mp he with ⟨F, hF, rfl⟩
    exact ⟨F, hF, Prod.ext hghost hname⟩

/-- A new file is empty and has the name to itself. -/
theorem Abstracts.create (h : Abstracts s a) (hnone : ∀ f, ¬ s.Named name f) :
    ∃ t new, createFile s name = .ok (t, s.brk) ∧ t.files s.brk = some new ∧ a.Unused s.brk ∧
      Abstracts t ((a.withFile name (some s.brk)).withBytes s.brk []) := by
  rcases id h.inv with ⟨fl, ch, hlay, htab⟩
  rcases createFile_eq hlay name with ⟨t, new, hcreate, hnew, htlay, httab, hslots, hsame⟩
  have hfresh : s.files s.brk = none := by
    cases hb : s.files s.brk with
    | none => rfl
    | some G => exact absurd (hlay.fileBound s.brk ((hlay.alloc _).mpr ⟨G, hb⟩)) (lt_irrefl _)
  have hunnamed : ∀ nm, ¬ s.Named nm s.brk := by
    rintro nm ⟨F, hF, -⟩
    rw [hfresh] at hF
    cases hF
  have hdescs : ∀ i d, s.desc i = some d → d.file ≠ s.brk := by
    intro i d hd heq
    rcases htab.file (desc_eq_some.mp hd) with ⟨F, hF⟩
    rw [heq, hfresh] at hF
    cases hF
  have hentry : t.table.entry = Function.update s.table.entry s.brk (some ⟨0, false, name⟩) := by
    rw [httab]
    rfl
  have hnamed : ∀ nm f, t.Named nm f ↔ (f = s.brk ∧ nm = name) ∨ s.Named nm f := by
    intro nm f
    rw [named_iff_entry, hentry]
    by_cases hf : f = s.brk
    · subst hf
      simp only [Function.update_self, hunnamed nm, or_false, true_and]
      constructor
      · rintro ⟨e, he, -, rfl⟩
        cases he
        rfl
      · rintro rfl
        exact ⟨_, rfl, rfl, rfl⟩
    · rw [Function.update_of_ne hf, ← named_iff_entry]
      simp [hf]
  have hold : ∀ g G, g ≠ s.brk → t.files g = some G → ∃ F, s.files g = some F := by
    intro g G hg hG
    have hmem : g ∈ s.brk :: fl := (htlay.alloc g).mpr ⟨G, hG⟩
    exact (hlay.alloc g).mp ((List.mem_cons.mp hmem).resolve_left hg)
  have htdesc : t.desc = s.desc := by
    ext i
    rw [State.desc, State.desc, hslots]
  refine ⟨t, new, hcreate, hnew, ⟨?_, ?_⟩, ?_, ?_, ?_, ?_, h.noHandle, ?_, ?_⟩
  · intro nm hnm
    exact hunnamed nm ((h.file nm s.brk).mp hnm)
  · intro fd hd hhd
    rcases h.lookup fd with ⟨-, hno⟩ | ⟨i, d, -, hi, -, hyes⟩
    · rw [hno] at hhd
      cases hhd
    · rw [hyes] at hhd
      cases hhd
      exact hdescs i d (desc_eq_some.mpr hi)
  · refine ⟨_, _, htlay, ?_⟩
    rw [httab]
    apply htab.create
    · simp [State.table, hfresh]
    · intro g e he hghost hnm
      exact hnone g (named_iff_entry.mpr ⟨e, he, hghost, hnm⟩)
  · intro nm f
    rw [hnamed]
    by_cases hnm : nm = name
    · subst hnm
      simp [FileSystem.withFile, FileSystem.withBytes, hnone, eq_comm]
    · simp [FileSystem.withFile, FileSystem.withBytes, hnm, h.file]
  · intro g G hG
    by_cases hg : g = s.brk
    · subst hg
      have hzero : G.size = 0 := (createFile_files hcreate hG hfresh).2
      have hstores := htlay.stores hG
      rw [hzero, Function.update_self, cells_nil] at hstores
      simp only [FileSystem.withBytes, Function.update_self]
      exact ⟨Nat.zero_le _, [], hstores, .nil, rfl⟩
    · rcases hold g G hg hG with ⟨F, hF⟩
      simp only [FileSystem.withBytes, FileSystem.withFile, Function.update_of_ne hg]
      exact (h.bytes g F hF).same (hsame g G hG)
  · intro i
    rw [htdesc]
    exact h.handle i
  · intro i d hd
    rw [htdesc] at hd
    simp only [FileSystem.withBytes, FileSystem.withFile, Function.update_of_ne (hdescs i d hd)]
    exact h.offset i d hd
  · exact h.errno.trans (createFile_keeps hcreate).2.symm

/-- `ufs_open` opens, creates or fails as its flags say. -/
theorem Abstracts.open (h : Abstracts s a) (name : List UInt8) (flags : BitVec 32) :
    ∃ r t b, ufsOpen s name flags = .ok (r, t) ∧
      FileSystem.Step maxFileSize 0 a (.open name (openFlags flags &&& ufsCreate != 0)
        (mayRead (openFlags flags)) (mayWrite (openFlags flags)), r, []) b ∧ Abstracts t b := by
  rcases findFile_cases h.inv name with ⟨f, hf, hfind⟩ | ⟨hnone, hfind⟩
  · rcases id hf with ⟨F, hF, -⟩
    rcases h.take hF (openFlags flags) with ⟨t, i, htake, hlow, ht⟩
    refine ⟨(i : Int) + 1, t, _, ?_, .openOld ((h.file name f).mpr hf) hlow, ht⟩
    simp only [ufsOpen, hfind, ok_bind, htake]
  · have hno : a.file name = none := by
      cases hn : a.file name with
      | none => rfl
      | some f => exact absurd ((h.file name f).mp hn) (hnone f)
    by_cases hcreate : openFlags flags &&& ufsCreate = 0
    · refine ⟨-1, _, _, ?_, ?_, h.fail .noFile⟩
      · simp only [ufsOpen, hfind, ok_bind, hcreate, if_true, pure_eq_ok]
        rfl
      · simp only [hcreate, bne_self_eq_false]
        exact .openNone hno
    · rcases h.create hnone with ⟨u, new, hu, hnew, hunused, habs⟩
      rcases habs.take hnew (openFlags flags) with ⟨t, i, htake, hlow, ht⟩
      refine ⟨(i : Int) + 1, t, _, ?_, ?_, ht⟩
      · simp only [ufsOpen, hfind, ok_bind, hcreate, if_false, hu, htake]
      · rw [show (openFlags flags &&& ufsCreate != 0) = true by simpa using hcreate]
        exact .openNew hno hunused hlow

/-! ## Writing and reading -/

theorem length_overwrite (old : List UInt8) {offset : Nat} (new : List UInt8)
    (h : offset ≤ old.length) :
    (overwrite old offset new).length = max old.length (offset + new.length) := by
  simp only [overwrite, List.length_append, List.length_take, List.length_drop]
  omega

/-- The buffer fits into memory, the two sums of C agree about the limit, and the offset is in the
block that the file ends in. -/
def WritesInPlace (s : State) (fd : Int) (buf : List UInt8) : Prop :=
  ∀ (i : Nat) (d : FileDesc) (size : Nat) (cs : List Cell), fd = (i : Int) + 1 →
    s.desc i = some d → mayWrite d.openFlags = true → s.Stores d.file size cs → buf ≠ [] →
    FitsAlike size d.offset buf.length ∧
      (d.offset + buf.length ≤ maxFileSize → d.offset / blockSize = size / blockSize)

/-- A call that gives one file new bytes. -/
theorem Abstracts.withBytes (h : Abstracts s a) (hinv : Inv t) (hlabels : SameLabels s t)
    (hothers : ∀ g, g ≠ f → SameFile s t g) (hf : t.Contains f bs)
    (herr : t.ufsErrorCode = s.ufsErrorCode) {handle : Int → Option (Handle Ptr)}
    (hhandle : ∀ i : Nat, handle ((i : Int) + 1) = (t.desc i).map FileDesc.toHandle)
    (hno : ∀ fd ≤ 0, handle fd = none)
    (hoff : ∀ i d, t.desc i = some d →
      d.offset ≤ if d.file = f then bs.length else (a.bytes d.file).length) :
    Abstracts t { a.withBytes f bs with handle := handle } where
  inv := hinv
  file name g := (h.file name g).trans hlabels.named.symm
  bytes g G hG := by
    by_cases hg : g = f
    · subst hg
      simpa [FileSystem.withBytes] using hf
    · rcases hlabels.file hG with ⟨F, hF⟩
      simp only [FileSystem.withBytes, Function.update_of_ne hg]
      exact (h.bytes g F hF).same (hothers g hg)
  handle := hhandle
  noHandle := hno
  offset i d hd := by
    have hle := hoff i d hd
    by_cases hdf : d.file = f
    · simpa [FileSystem.withBytes, hdf] using hle
    · simpa [FileSystem.withBytes, hdf] using hle
  errno := h.errno.trans herr.symm

theorem desc_set (hslots : t.fileDescriptors = s.fileDescriptors.set i (some d))
    (hi : i < s.fileDescriptors.length) : t.desc = Function.update s.desc i (some d) := by
  ext j
  rw [State.desc, hslots]
  by_cases hj : j = i
  · subst hj
    simp [hi]
  · simp [State.desc, hj, Ne.symm hj]

/-- The write that passes every check. -/
theorem Abstracts.writeBytes (h : Abstracts s a) (hd : s.desc i = some d)
    (hmay : mayWrite d.openFlags = true) {buf : List UInt8} (hbuf : buf ≠ [])
    (hfit : (a.bytes d.file).length + buf.length ≤ maxFileSize)
    (hblock : d.offset / blockSize = (a.bytes d.file).length / blockSize) (m : Malloc) :
    ∃ t, ufsWrite m s ((i : Int) + 1) buf = .ok ((buf.length : Int), t) ∧
      Abstracts t ((a.withBytes d.file (overwrite (a.bytes d.file) d.offset buf)).withHandle
        ((i : Int) + 1) (some { d.toHandle with offset := d.offset + buf.length })) := by
  have hi := desc_eq_some.mp hd
  rcases id h.inv with ⟨fl, ch, hlay, htab⟩
  rcases htab.file hi with ⟨F, hF⟩
  rcases h.bytes d.file F hF with ⟨-, cs, hstores, hwf, hcontent⟩
  have hoff := h.offset i d hd
  have hpos : 0 < buf.length := List.length_pos_iff.mpr hbuf
  have hlen := length_overwrite (a.bytes d.file) buf hoff
  rcases ufsWrite_wellFormed h.inv hi hmay hstores hwf hoff hbuf hfit m with
    ⟨t, fresh, hok, hinv, hfresh, htstores, hslots, hothers⟩
  obtain ⟨htwf, htcontent⟩ :
      WellFormed (writeCells fresh buf.length cs (d.offset / blockSize) buf d.offset)
        (max (a.bytes d.file).length (d.offset + buf.length)) ∧
      content (writeCells fresh buf.length cs (d.offset / blockSize) buf d.offset) =
        (content cs).take d.offset ++ buf ++ (content cs).drop (d.offset + buf.length) :=
    writeCells_inPlace hfresh hwf hoff hblock
  have hdesc := desc_set hslots (List.getElem?_eq_some_iff.mp hi).1
  have hrewrites : Rewrites s t ch := by
    rcases ufsWrite_rewrites hlay htab hok with ⟨e, he⟩ | hrewrites
    · -- a call that only fails does not move the descriptor
      have hsame : t.desc i = some d := by rw [he]; exact hd
      rw [hdesc, Function.update_self] at hsame
      have hmoved := congrArg FileDesc.offset (Option.some.inj hsame)
      dsimp only at hmoved
      omega
    · exact hrewrites
  have hcontains : t.Contains d.file (overwrite (a.bytes d.file) d.offset buf) := by
    apply htstores.contains htwf _ (by omega)
    rw [htcontent, hcontent]
    rfl
  refine ⟨t, hok, h.withBytes hinv hrewrites.labels (fun g hg => (hothers g hg).2) hcontains
    hrewrites.errno (fun j => ?_) (fun fd hfd => ?_) fun j e he => ?_⟩
  · rw [hdesc]
    by_cases hj : j = i
    · subst hj
      simp [FileDesc.toHandle]
    · have hne : (j : Int) + 1 ≠ (i : Int) + 1 := by omega
      simp [FileSystem.withBytes, hj, h.handle]
  · have hne : fd ≠ (i : Int) + 1 := by omega
    simp [FileSystem.withBytes, hne, h.noHandle fd hfd]
  · rw [hdesc] at he
    by_cases hj : j = i
    · subst hj
      rw [Function.update_self] at he
      cases he
      rw [if_pos rfl]
      show d.offset + buf.length ≤ _
      omega
    · rw [Function.update_of_ne hj] at he
      have hle := h.offset j e he
      split
      · rename_i hfile
        rw [hfile] at hle
        omega
      · exact hle

theorem Abstracts.write (h : Abstracts s a) (m : Malloc) {fd : Int} {buf : List UInt8}
    (hwrite : WritesInPlace s fd buf) :
    ∃ r t b, ufsWrite m s fd buf = .ok (r, t) ∧
      FileSystem.Step maxFileSize 0 a (.write fd buf, r, []) b ∧ Abstracts t b := by
  rcases h.lookup fd with ⟨hlook, hno⟩ | ⟨i, d, rfl, hi, hlook, hyes⟩
  · refine ⟨-1, _, _, ?_, .noHandle rfl hno, h.fail .noFile⟩
    simp only [ufsWrite, hlook, ok_bind, pure_eq_ok]
    rfl
  by_cases hmay : mayWrite d.openFlags = true
  · by_cases hbuf : buf = []
    · subst hbuf
      refine ⟨0, s, a, ?_, .writeNothing hyes hmay, h⟩
      simp only [ufsWrite, hlook, ok_bind, hmay, List.length_nil, if_true, pure_eq_ok]
      rfl
    · rcases id h.inv with ⟨fl, ch, hlay, htab⟩
      rcases htab.file hi with ⟨F, hF⟩
      rcases h.bytes d.file F hF with ⟨hmax, cs, hstores, -⟩
      have hd : s.desc i = some d := desc_eq_some.mpr hi
      have hlen := length_overwrite (a.bytes d.file) buf (h.offset i d hd)
      rcases hwrite i d _ cs rfl hd hmay hstores hbuf with ⟨⟨hlt, halike⟩, hblock⟩
      by_cases hfit : (a.bytes d.file).length + buf.length ≤ maxFileSize
      · rcases h.writeBytes hd hmay hbuf hfit (hblock (halike.mp hfit)) m with ⟨t, hok, ht⟩
        refine ⟨buf.length, t, _, hok, .write hyes hmay hbuf ?_, ht⟩
        show (overwrite (a.bytes d.file) d.offset buf).length ≤ maxFileSize
        omega
      · have hsize : F.size = (a.bytes d.file).length := ((hlay.stores hF).unique hstores).1
        have hnomem := (ufsWrite_noMem_iff (m := m) h.inv hi hmay hF hbuf).mpr (by
          rw [hsize, Nat.mod_eq_of_lt hlt]
          omega)
        refine ⟨-1, _, _, hnomem, .writeTooMuch hyes hmay ?_, h.fail .noMem⟩
        show maxFileSize < (overwrite (a.bytes d.file) d.offset buf).length
        omega
  · have hmay' := Bool.eq_false_iff.mpr hmay
    refine ⟨-1, _, _, ?_, .notWriting (.inl ⟨buf, rfl⟩) hyes hmay', h.fail .noPermission⟩
    simp only [ufsWrite, hlook, ok_bind, hmay', Bool.not_false, if_true, pure_eq_ok]
    rfl

theorem Abstracts.read (h : Abstracts s a) (fd : Int) {n : Nat} (hn : n < 2 ^ 63) :
    ∃ r bytes t b, ufsRead s fd n = .ok (r, bytes, t) ∧
      FileSystem.Step maxFileSize 0 a (.read fd n, r, bytes) b ∧ Abstracts t b := by
  rcases h.lookup fd with ⟨hlook, hno⟩ | ⟨i, d, rfl, hi, hlook, hyes⟩
  · refine ⟨-1, [], _, _, ?_, .noHandle rfl hno, h.fail .noFile⟩
    simp only [ufsRead, hlook, ok_bind, pure_eq_ok]
  rcases id h.inv with ⟨fl, ch, hlay, htab⟩
  cases hmay : mayRead d.openFlags with
  | false =>
    exact ⟨-1, [], _, _, ufsRead_denied htab hi hmay n, .notReading hyes hmay,
      h.fail .noPermission⟩
  | true =>
    rcases htab.file hi with ⟨F, hF⟩
    rcases h.bytes d.file F hF with ⟨hmax, cs, hstores, hwf, hcontent⟩
    have hoff := h.offset i d (desc_eq_some.mpr hi)
    have hread := ufsRead_slot htab hi hmay hstores n
    rw [readFrom_wellFormed hn hwf hmax hoff, ok_bind, hcontent] at hread
    have hlen : (((a.bytes d.file).drop d.offset).take n).length =
        min n ((a.bytes d.file).length - d.offset) := by
      rw [List.length_take, List.length_drop]
    obtain ⟨e, he⟩ : ∃ e : FileDesc, e = { d with
      offset := d.offset + min n ((a.bytes d.file).length - d.offset) } := ⟨_, rfl⟩
    have hdesc : (s.setDesc i e).desc = Function.update s.desc i (some e) :=
      desc_set rfl (List.getElem?_eq_some_iff.mp hi).1
    have hinv : Inv (s.setDesc i e) := h.inv.setDesc hi (by rw [he])
    rw [← he] at hread
    refine ⟨_, _, _, _, hread, .read hyes hmay rfl, ?_⟩
    have hmoved := h.withHandle hinv (fun _ _ => Iff.rfl) (fun g G hG => ⟨G, hG⟩)
      (fun g _ _ => setDesc_sameFile s i e g) hdesc rfl (fun e' he' => by
        cases he'
        rw [he]
        show d.offset + min n ((a.bytes d.file).length - d.offset) ≤ (a.bytes d.file).length
        omega)
    have hhandle : e.toHandle = { d.toHandle with
        offset := d.offset + (((a.bytes d.file).drop d.offset).take n).length } := by
      rw [he, hlen]
      rfl
    rw [Option.map_some, hhandle] at hmoved
    exact hmoved

/-! ## Resizing -/

/-- The descriptor may write, and the bytes that a growing file takes in are zero. -/
def ResizesClean (s : State) (fd : Int) (n : Nat) : Prop :=
  ∀ (i : Nat) (d : FileDesc) (size : Nat) (cs : List Cell), fd = (i : Int) + 1 →
    s.desc i = some d → s.Stores d.file size cs → mayWrite d.openFlags = true ∧
      (n ≤ maxFileSize → ∀ b ∈ (slack cs).take (n - size), b = 0)

/-- The file has new bytes and the descriptors behind its end are moved back. -/
theorem Abstracts.withResized (h : Abstracts s a) (hinv : Inv t) (hlabels : SameLabels s t)
    (hothers : ∀ g, g ≠ f → SameFile s t g) (hf : t.Contains f (resized 0 (a.bytes f) n))
    (herr : t.ufsErrorCode = s.ufsErrorCode)
    (hdesc : ∀ i, t.desc i = (s.desc i).map fun d =>
      if d.file = f ∧ n < d.offset then { d with offset := n } else d) :
    Abstracts t ((a.withBytes f (resized 0 (a.bytes f) n)).clamp f n) := by
  refine h.withBytes hinv hlabels hothers hf herr (fun i => ?_) (fun fd hfd => ?_) fun i d hd => ?_
  · rw [hdesc]
    show (a.handle _).map _ = _
    rw [h.handle, Option.map_map, Option.map_map]
    congr 1
    ext d
    by_cases hback : d.file = f ∧ n < d.offset
    · simp [FileDesc.toHandle, hback]
    · simp [FileDesc.toHandle, hback]
  · show (a.handle fd).map _ = none
    rw [h.noHandle fd hfd]
    rfl
  · rw [hdesc] at hd
    rcases Option.map_eq_some_iff.mp hd with ⟨e, he, rfl⟩
    have hle := h.offset i e he
    have hlen : (resized 0 (a.bytes f) n).length = n := by
      simp only [resized, List.length_append, List.length_take, List.length_replicate]
      omega
    rw [hlen]
    by_cases hfile : e.file = f
    · by_cases hback : n < e.offset
      · rw [if_pos ⟨hfile, hback⟩, if_pos hfile]
      · rw [if_neg fun hboth => hback hboth.2, if_pos hfile]
        omega
    · rw [if_neg fun hboth => hfile hboth.1, if_neg hfile]
      exact hle

/-- No descriptor stands behind the end of its file. -/
theorem Abstracts.unmoved (h : Abstracts s a) (hle : (a.bytes f).length ≤ n) (j : Nat) :
    s.desc j = (s.desc j).map fun d =>
      if d.file = f ∧ n < d.offset then { d with offset := n } else d := by
  cases hd : s.desc j with
  | none => rfl
  | some d =>
    have hoff := h.offset j d hd
    rw [Option.map_some, if_neg]
    rintro ⟨rfl, hlt⟩
    omega

theorem Abstracts.resize (h : Abstracts s a) (m : Malloc) {fd : Int} (hclean : ResizesClean s fd n) :
    ∃ r t b, ufsResize m s fd n = .ok (r, t) ∧
      FileSystem.Step maxFileSize 0 a (.resize fd n, r, []) b ∧ Abstracts t b := by
  rcases h.lookup fd with ⟨hlook, hno⟩ | ⟨i, d, rfl, hi, hlook, hyes⟩
  · refine ⟨-1, _, _, ?_, .noHandle rfl hno, h.fail .noFile⟩
    simp only [ufsResize, hlook, ok_bind, pure_eq_ok]
    rfl
  rcases id h.inv with ⟨fl, ch, hlay, htab⟩
  rcases htab.file hi with ⟨F, hF⟩
  rcases h.bytes d.file F hF with ⟨hmax, cs, hstores, hwf, hcontent⟩
  have hd : s.desc i = some d := desc_eq_some.mpr hi
  rcases hclean i d _ cs rfl hd hstores with ⟨hmay, hzero⟩
  obtain ⟨old, hold⟩ : ∃ old, old = a.bytes d.file := ⟨_, rfl⟩
  rw [← hold] at hmax hstores hwf hcontent hzero
  have hsize : F.size = old.length := ((hlay.stores hF).unique hstores).1
  -- a call that changes the size has changed the file
  have hrewrites : ∀ {r t ds}, ufsResize m s ((i : Int) + 1) n = .ok (r, t) → n ≠ old.length →
      t.Stores d.file n ds → Rewrites s t ch := by
    intro r t ds hok hne hds
    rcases ufsResize_rewrites hlay htab hok with ⟨e, rfl⟩ | hrewrites
    · have hsame := fail_sameFile s e d.file _ _ hstores
      exact absurd (hds.unique hsame).1 hne
    · exact hrewrites
  rcases lt_trichotomy n old.length with hlt | heq | hgt
  · rcases ufsResize_cut h.inv hi hstores hwf hlt m with ⟨t, hok, hinv, htstores, hslots, hothers⟩
    rcases cut_wellFormed hwf hlt with ⟨htwf, htcontent⟩
    have hrew := hrewrites hok hlt.ne htstores
    refine ⟨0, t, _, hok, .resize hyes hmay (by omega), ?_⟩
    apply h.withResized hinv hrew.labels (fun g hg => (hothers g hg).2) _ hrew.errno
    · intro j
      rw [State.desc, hslots, clampOffsets_getElem?, State.desc]
      cases s.fileDescriptors[j]? with
      | none => rfl
      | some slot => rfl
    · apply htstores.contains htwf _ (by omega)
      rw [htcontent, hcontent, ← hold, resized, Nat.sub_eq_zero_of_le hlt.le, List.replicate_zero,
        List.append_nil]
  · -- nothing changes, and the call does nothing
    have hkeep : resized 0 (a.bytes d.file) n = old := by
      rw [← hold, resized, heq, List.take_length, Nat.sub_self, List.replicate_zero, List.append_nil]
    refine ⟨0, s, _, ?_, .resize hyes hmay (by omega), ?_⟩
    · simp only [ufsResize, hlook, ok_bind, load_some hF, hsize, heq, if_true, pure_eq_ok]
    · apply h.withResized h.inv (fun _ => rfl) (fun g _ => SameFile.refl s g) _ rfl
      · exact h.unmoved (show (a.bytes d.file).length ≤ n by rw [← hold]; omega)
      · show s.Contains d.file (resized 0 (a.bytes d.file) n)
        rw [hkeep]
        exact ⟨hmax, cs, hstores, hwf, hcontent⟩
  · by_cases hfit : n ≤ maxFileSize
    · rcases ufsResize_grow h.inv hi hstores hwf hgt hfit m with
        ⟨t, hok, hinv, htstores, hslots, hothers⟩
      rcases grow_wellFormed hwf hgt with ⟨htwf, htcontent⟩
      have hrew := hrewrites hok hgt.ne' htstores
      refine ⟨0, t, _, hok, .resize hyes hmay hfit, ?_⟩
      apply h.withResized hinv hrew.labels (fun g hg => (hothers g hg).2) _ hrew.errno
      · intro j
        rw [State.desc, hslots]
        exact h.unmoved (show (a.bytes d.file).length ≤ n by rw [← hold]; omega) j
      · apply htstores.contains htwf _ hfit
        -- the slack of the last block that is taken in is zero, like what is added behind it
        have hslack : ((slack cs).take (n - old.length)).length ≤ n - old.length := by
          rw [List.length_take]
          exact min_le_left _ _
        have hpad : n - old.length - (slack cs).length =
            n - old.length - ((slack cs).take (n - old.length)).length := by
          rw [List.length_take]
          omega
        rw [htcontent, hpad, (grow_zero_iff (content cs) hslack).mpr (hzero hfit), hcontent, ← hold,
          resized, List.take_of_length_le hgt.le]
    · refine ⟨-1, _, _, ?_, .resizeTooMuch hyes hmay (not_le.mp hfit), h.fail .noMem⟩
      have hne : ¬ n = F.size := by omega
      have hnlt : ¬ n < F.size := by omega
      have hmax' : n > maxFileSize := not_le.mp hfit
      simp only [ufsResize, hlook, ok_bind, load_some hF, if_neg hne, if_neg hnlt, if_pos hmax',
        pure_eq_ok]
      rfl

/-! ## Closing and deleting -/

theorem withoutFile_named {ch : Ptr → List Ptr} :
    (withoutFile s ch f F).Named name g ↔ g ≠ f ∧ s.Named name g := by
  by_cases hg : g = f
  · subst hg
    simp [State.Named, withoutFile]
  · simp only [State.Named, withoutFile, free_ne _ hg]
    cases s.files g <;> simp [hg, unlinked, File.relink, File.label]

theorem withoutFile_file {ch : Ptr → List Ptr} {G : File}
    (hG : (withoutFile s ch f F).files g = some G) : ∃ K, s.files g = some K := by
  by_cases hg : g = f
  · subst hg
    simp [withoutFile] at hG
  · simp only [withoutFile, free_ne _ hg] at hG
    rcases Option.map_eq_some_iff.mp hG with ⟨K, hK, -⟩
    exact ⟨K, hK⟩

/-- Closing a descriptor takes no name away. -/
theorem ufsClose_named (h : Inv s) (hi : s.fileDescriptors[i]? = some (some d))
    (hok : ufsClose s ((i : Int) + 1) = .ok (r, t)) :
    t.ufsErrorCode = s.ufsErrorCode ∧ (∀ name f, t.Named name f ↔ s.Named name f) ∧
      ∀ g G, t.files g = some G → ∃ F, s.files g = some F := by
  rcases h with ⟨fl, ch, hlay, htab⟩
  rcases htab.file hi with ⟨F, hF⟩
  obtain ⟨u, hu⟩ : ∃ u, u = s.setFile d.file { F with refs := F.refs - 1 } := ⟨_, rfl⟩
  have hlabels : SameLabels s u := by
    rw [hu]
    exact setFile_labels hF rfl
  have hself : u.files d.file = some { F with refs := F.refs - 1 } := by
    rw [hu]
    exact store_self _ _ _
  have hulay : Layout u fl ch := by
    rw [hu]
    exact hlay.setFile hF rfl rfl rfl rfl
  simp only [ufsClose, lookupDesc_slot htab hi, ok_bind, load_some hF, pure_eq_ok] at hok
  rw [← hu] at hok
  split at hok
  · rename_i hlast
    obtain ⟨v, hv⟩ : ∃ v, v = withoutFile u ch d.file { F with refs := F.refs - 1 } := ⟨_, rfl⟩
    rw [← bind_assoc, hulay.unlinkFree_eq hself, ← hv, ok_bind] at hok
    cases hok
    have hvnamed : ∀ name f, v.Named name f ↔ f ≠ d.file ∧ u.Named name f := by
      intro name f
      rw [hv]
      exact withoutFile_named
    refine ⟨by rw [hv, hu]; rfl, fun name f => (hvnamed name f).trans ?_, fun g G hG => ?_⟩
    · -- the file that goes is a ghost
      have hghost : f = d.file → ¬ s.Named name f := by
        rintro rfl ⟨K, hK, hlabel⟩
        obtain rfl : F = K := Option.some.inj (hF.symm.trans hK)
        have hno := (Prod.mk.inj hlabel).1
        rw [hlast.2] at hno
        cases hno
      rw [hlabels.named]
      tauto
    · have hGv : v.files g = some G := hG
      rw [hv] at hGv
      rcases withoutFile_file hGv with ⟨K, hK⟩
      exact hlabels.file hK
  · cases hok
    refine ⟨by rw [hu]; rfl, fun name f => hlabels.named, fun g G hG => hlabels.file hG⟩

theorem Abstracts.close (h : Abstracts s a) (fd : Int) :
    ∃ r t b, ufsClose s fd = .ok (r, t) ∧
      FileSystem.Step maxFileSize 0 a (.close fd, r, []) b ∧ Abstracts t b := by
  rcases h.lookup fd with ⟨hlook, hno⟩ | ⟨i, d, rfl, hi, hlook, hyes⟩
  · refine ⟨-1, _, _, ?_, .noHandle rfl hno, h.fail .noFile⟩
    simp only [ufsClose, hlook, ok_bind, pure_eq_ok]
    rfl
  rcases ufsClose_slot h.inv hi with ⟨t, hok, hclosed⟩
  rcases ufsClose_named h.inv hi hok with ⟨herr, hnamed, hfile⟩
  have hlt := (List.getElem?_eq_some_iff.mp hi).1
  have hdesc : t.desc = Function.update s.desc i none := by
    ext j
    rw [State.desc, hclosed.slots]
    by_cases hj : j = i
    · subst hj
      simp [hlt]
    · simp [State.desc, hj, Ne.symm hj]
  refine ⟨0, t, _, hok, .close hyes, ?_⟩
  exact h.withHandle hclosed.inv hnamed hfile hclosed.same hdesc herr (fun d hd => by cases hd)

/-- Deleting takes the one name away, whether or not the file goes with it. -/
theorem ufsDelete_named (h : Inv s) (hf : s.Named name f) (hok : ufsDelete s name = .ok (r, t))
    (hfind : findFile s.files name s.brk s.fileList = .ok (some f)) :
    t.ufsErrorCode = s.ufsErrorCode ∧ (∀ nm g, t.Named nm g ↔ nm ≠ name ∧ s.Named nm g) ∧
      ∀ g G, t.files g = some G → ∃ F, s.files g = some F := by
  have hunique : ∀ nm g, g ≠ f ∧ s.Named nm g ↔ nm ≠ name ∧ s.Named nm g := by
    intro nm g
    refine ⟨fun ⟨hg, hn⟩ => ⟨?_, hn⟩, fun ⟨hnm, hn⟩ => ⟨?_, hn⟩⟩
    · rintro rfl
      exact hg (h.named_unique hn hf)
    · rintro rfl
      rcases hn with ⟨F, hF, hFl⟩
      rcases hf with ⟨G, hG, hGl⟩
      obtain rfl : F = G := Option.some.inj (hF.symm.trans hG)
      exact hnm (Prod.mk.inj (hFl.symm.trans hGl)).2
  rcases h with ⟨fl, ch, hlay, htab⟩
  rcases hf with ⟨F, hF, hlabel⟩
  simp only [ufsDelete, hfind, ok_bind, load_some hF] at hok
  split at hok
  · rw [← bind_assoc, hlay.unlinkFree_eq hF, ok_bind] at hok
    cases hok
    exact ⟨rfl, fun nm g => withoutFile_named.trans (hunique nm g), fun g G hG => withoutFile_file hG⟩
  · cases hok
    refine ⟨rfl, fun nm g => Iff.trans ?_ (hunique nm g), fun g G hG => ?_⟩
    · by_cases hg : g = f
      · subst hg
        simp [State.Named, State.setFile, File.label]
      · simp [State.Named, State.setFile, store_ne _ _ hg, hg]
    · by_cases hg : g = f
      · subst hg
        exact ⟨F, hF⟩
      · exact ⟨G, (store_ne _ _ hg).symm.trans hG⟩

theorem Abstracts.delete (h : Abstracts s a) (name : List UInt8) :
    ∃ r t b, ufsDelete s name = .ok (r, t) ∧
      FileSystem.Step maxFileSize 0 a (.delete name, r, []) b ∧ Abstracts t b := by
  rcases id h.inv with ⟨fl, ch, hlay, htab⟩
  rcases findFile_cases h.inv name with ⟨f, hf, hfind⟩ | ⟨hnone, hfind⟩
  · rcases ufsDelete_spec h.inv name with hfail | ⟨t, hok, hinv, hslots, hsame⟩
    · rcases id hf with ⟨F, hF, -⟩
      simp only [ufsDelete, hfind, ok_bind, load_some hF] at hfail
      split at hfail
      · rw [← bind_assoc, hlay.unlinkFree_eq hF, ok_bind] at hfail
        cases hfail
      · cases hfail
    rcases ufsDelete_named h.inv hf hok hfind with ⟨herr, hnamed, hfile⟩
    have hdesc : t.desc = s.desc := by
      ext i
      rw [State.desc, State.desc, hslots]
    refine ⟨0, t, _, hok, .delete ((h.file name f).mpr hf), hinv, fun nm g => ?_, fun g G hG => ?_,
      fun i => ?_, h.noHandle, fun i d hd => ?_, h.errno.trans herr.symm⟩
    · rw [hnamed]
      by_cases hnm : nm = name
      · subst hnm
        simp [FileSystem.withFile]
      · simp [FileSystem.withFile, hnm, h.file]
    · rcases hfile g G hG with ⟨F, hF⟩
      exact (h.bytes g F hF).same (hsame g G hG)
    · rw [hdesc]
      exact h.handle i
    · rw [hdesc] at hd
      exact h.offset i d hd
  · have hno : a.file name = none := by
      cases hn : a.file name with
      | none => rfl
      | some f => exact absurd ((h.file name f).mp hn) (hnone f)
    refine ⟨-1, _, _, ?_, .deleteNone hno, h.fail .noFile⟩
    simp only [ufsDelete, hfind, ok_bind, pure_eq_ok]
    rfl

/-! ## Runs -/

/-- The call of the abstract file system that an operation stands for. -/
def Op.call : Op → Call (List UInt8) UInt8
  | .open filename flags => .open filename (openFlags flags &&& ufsCreate != 0)
      (mayRead (openFlags flags)) (mayWrite (openFlags flags))
  | .write fd buf => .write fd buf
  | .read fd size => .read fd size
  | .resize fd newSize => .resize fd newSize
  | .close fd => .close fd
  | .delete filename => .delete filename
  | .destroy => .destroy

/-- A call that keeps clear of the known differences. -/
def Op.Clear (s : State) : Op → Prop
  | .write fd buf => WritesInPlace s fd buf
  | .read _ size => size < 2 ^ 63
  | .resize fd newSize => ResizesClean s fd newSize
  | .open _ _ | .close _ | .delete _ | .destroy => True

theorem freeFiles_errno {fuel : Nat} {head : Option Ptr} (hok : freeFiles fuel s head = .ok t) :
    t.ufsErrorCode = s.ufsErrorCode := by
  induction fuel generalizing s head with
  | zero =>
    cases head with
    | none =>
      cases hok
      rfl
    | some p => cases hok
  | succ fuel ih =>
    cases head with
    | none =>
      cases hok
      rfl
    | some p =>
      rcases bind_eq_ok.mp hok with ⟨F, -, hok⟩
      rcases bind_eq_ok.mp hok with ⟨u, hfree, hok⟩
      rcases bind_eq_ok.mp hfree with ⟨G, -, hfree⟩
      rcases bind_eq_ok.mp hfree with ⟨blocks, -, hfree⟩
      cases hfree
      exact (ih hok).trans rfl

theorem Abstracts.destroy (h : Abstracts s a) :
    ∃ t, ufsDestroy s = .ok t ∧ Abstracts t (FileSystem.empty.withErrno a.errno) := by
  rcases ufsDestroy_spec h.inv with ⟨t, hok, hinv, hslots, hnone⟩
  have hnodesc : ∀ i, t.desc i = none := by
    intro i
    simp [State.desc, hslots]
  have herr : t.ufsErrorCode = s.ufsErrorCode := by
    rcases bind_eq_ok.mp hok with ⟨u, hfree, hres⟩
    cases hres
    exact (freeFiles_errno hfree).trans rfl
  refine ⟨t, hok, hinv, fun name f => ?_, fun f F hF => ?_, fun i => ?_, fun _ _ => rfl,
    fun i d hd => ?_, h.errno.trans herr.symm⟩
  · simp [FileSystem.empty, FileSystem.withErrno, State.Named, hnone]
  · rw [hnone f] at hF
    cases hF
  · rw [hnodesc]
    rfl
  · rw [hnodesc] at hd
    cases hd

/-- One call and what the abstract file system does for it. -/
theorem Abstracts.exec (h : Abstracts s a) (m : Malloc) {op : Op} (hclear : op.Clear s) :
    ∃ reply t b, exec m s op = .ok (reply, t) ∧
      FileSystem.Step maxFileSize 0 a (op.call, reply.ret, reply.bytes) b ∧ Abstracts t b := by
  cases op with
  | «open» filename flags =>
    rcases h.open filename flags with ⟨r, t, b, hok, hstep, ht⟩
    exact ⟨⟨r, []⟩, t, b, by simp only [UserFs.exec, hok, ok_bind, pure_eq_ok], hstep, ht⟩
  | write fd buf =>
    rcases h.write m hclear with ⟨r, t, b, hok, hstep, ht⟩
    exact ⟨⟨r, []⟩, t, b, by simp only [UserFs.exec, hok, ok_bind, pure_eq_ok], hstep, ht⟩
  | read fd size =>
    rcases h.read fd hclear with ⟨r, bytes, t, b, hok, hstep, ht⟩
    exact ⟨⟨r, bytes⟩, t, b, by simp only [UserFs.exec, hok, ok_bind, pure_eq_ok], hstep, ht⟩
  | resize fd newSize =>
    rcases h.resize m hclear with ⟨r, t, b, hok, hstep, ht⟩
    exact ⟨⟨r, []⟩, t, b, by simp only [UserFs.exec, hok, ok_bind, pure_eq_ok], hstep, ht⟩
  | close fd =>
    rcases h.close fd with ⟨r, t, b, hok, hstep, ht⟩
    exact ⟨⟨r, []⟩, t, b, by simp only [UserFs.exec, hok, ok_bind, pure_eq_ok], hstep, ht⟩
  | delete filename =>
    rcases h.delete filename with ⟨r, t, b, hok, hstep, ht⟩
    exact ⟨⟨r, []⟩, t, b, by simp only [UserFs.exec, hok, ok_bind, pure_eq_ok], hstep, ht⟩
  | destroy =>
    rcases h.destroy with ⟨t, hok, ht⟩
    exact ⟨⟨0, []⟩, t, _, by simp only [UserFs.exec, hok, ok_bind, pure_eq_ok], .destroy, ht⟩

/-- A call with its answer. -/
def Answers (m : Malloc) (s : State) (c : Op × Reply) (t : State) : Prop :=
  UserFs.exec m s c.1 = .ok (c.2, t)

/-- What the caller sees of a call. -/
def observed (c : Op × Reply) : Call (List UInt8) UInt8 × Int × List UInt8 :=
  (c.1.call, c.2.ret, c.2.bytes)

/-- In every run of calls that keep clear of the known differences, each call returns, and the
answers are those of the abstract file system, started empty and given the same calls.  As in all of
these modules, fewer than `10 * 2 ^ 27` descriptors are open at a time. -/
theorem answers_as_fileSystem (m : Malloc) {calls : List (Op × Reply)} {s : State}
    (h : Runs.Run (Within (fun s c => c.1.Clear s) (Answers m)) State.init calls s) :
    (∃ a : FileSystem (List UInt8) UInt8 Ptr,
      Runs.Run (FileSystem.Step maxFileSize 0) FileSystem.empty (calls.map observed) a ∧
        Abstracts s a) ∧
    ∀ op : Op, op.Clear s → ∃ reply t, UserFs.exec m s op = .ok (reply, t) := by
  have hstep : ∀ s c t a, Abstracts s a →
      Within (fun s c => c.1.Clear s) (Answers m) s c t →
      ∃ b, FileSystem.Step maxFileSize 0 a (observed c) b ∧ Abstracts t b := by
    intro s c t a hs hst
    rcases hs.exec m hst.1 with ⟨reply, u, b, hok, hstep, hu⟩
    have hboth := Prod.mk.inj (Except.ok.inj (hok.symm.trans hst.2))
    rw [hboth.1] at hstep
    rw [hboth.2] at hu
    exact ⟨b, hstep, hu⟩
  have hsim := h.simulate hstep Abstracts.init
  refine ⟨hsim, fun op hclear => ?_⟩
  rcases hsim with ⟨a, -, ha⟩
  rcases ha.exec m hclear with ⟨reply, t, b, hok, -⟩
  exact ⟨reply, t, hok⟩

/-- A new file and a first write to it. -/
def firstWrite : List (Op × Reply) :=
  [(.open [97] ufsCreate, { ret := 1 }), (.write 1 [1, 2, 3], { ret := 3 })]

theorem answers_as_fileSystem_firstWrite :
    ∃ s, Runs.Run (Within (fun s c => c.1.Clear s) (Answers .zeroed)) State.init firstWrite s ∧
      ∃ a : FileSystem (List UInt8) UInt8 Ptr, Runs.Run (FileSystem.Step maxFileSize 0)
        FileSystem.empty (firstWrite.map observed) a ∧ Abstracts s a := by
  obtain ⟨s, hs⟩ : ∃ s, UserFs.exec .zeroed State.init (.open [97] ufsCreate) =
      .ok ({ ret := 1 }, s) := ⟨_, rfl⟩
  have hdesc : (UserFs.exec .zeroed State.init (.open [97] ufsCreate)).map (fun c => c.2.desc 0) =
      .ok (some ⟨0, ufsCreate ||| ufsReadWrite, 0⟩) := by decide +kernel
  have hfile : (UserFs.exec .zeroed State.init (.open [97] ufsCreate)).map (fun c =>
      (c.2.files 0).map fun F => (F.size, F.firstBlock)) = .ok (some (0, none)) := by decide +kernel
  have hret : (UserFs.exec .zeroed State.init (.open [97] ufsCreate) >>= fun c =>
      UserFs.exec .zeroed c.2 (.write 1 [1, 2, 3])).map Prod.fst = .ok { ret := 3 } := by
    decide +kernel
  rw [hs] at hdesc hfile hret
  have hslot : s.desc 0 = some ⟨0, ufsCreate ||| ufsReadWrite, 0⟩ := Except.ok.inj hdesc
  rcases Option.map_eq_some_iff.mp (Except.ok.inj hfile) with ⟨F, hF, hFeq⟩
  have hstores := (exec_inv Inv.init hs).stores_nil hF (Prod.mk.inj hFeq).2
  rw [(Prod.mk.inj hFeq).1] at hstores
  have hclear : WritesInPlace s 1 [1, 2, 3] := by
    intro i d size cs hi hd _ hst _
    obtain rfl : i = 0 := by omega
    rw [hslot] at hd
    cases hd
    rw [(hst.unique hstores).1]
    exact ⟨⟨by decide, by decide⟩, fun _ => rfl⟩
  obtain ⟨t, ht⟩ : ∃ t, UserFs.exec .zeroed s (.write 1 [1, 2, 3]) = .ok ({ ret := 3 }, t) := by
    cases hw : UserFs.exec .zeroed s (.write 1 [1, 2, 3]) with
    | error e =>
      rw [ok_bind, hw] at hret
      cases hret
    | ok c =>
      rw [ok_bind, hw] at hret
      exact ⟨c.2, congrArg Except.ok (Prod.ext (Except.ok.inj hret) rfl)⟩
  have hrun : Runs.Run (Within (fun s c => c.1.Clear s) (Answers .zeroed)) State.init firstWrite t :=
    .cons ⟨trivial, hs⟩ (.cons ⟨hclear, ht⟩ (.nil t))
  exact ⟨t, hrun, (answers_as_fileSystem .zeroed hrun).1⟩

end SystemProgramming.UserFs
