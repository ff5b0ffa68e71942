import SystemProgramming.UserFs.Sizes
import SystemProgramming.UserFs.ZeroFill

/-!
# The limit on the size of a file

`ufs_write` compares the size of the file plus the bytes to write with `MAX_FILE_SIZE`, but the
file ends up as long as the offset plus these bytes, or as before.  The two agree for a write at
the end of the file, and wherever both sums fall on the same side of the limit.
-/

open Fallible
open Runs (Reachable Within)

namespace SystemProgramming.UserFs

variable {m : Malloc} {s t : State} {f p : Ptr} {F : File} {n : Nat} {r : Int} {fd : Int}

/-- No file is larger than the limit. -/
def Bounded (files : Heap File) : Prop := ∀ f F, files f = some F → F.size ≤ maxFileSize

theorem bounded_iff {files : Heap File} :
    Bounded files ↔ Sizes (fun _ n => n ≤ maxFileSize) files :=
  Iff.rfl

theorem ufsResize_bounded (h : Bounded s.files) (hok : ufsResize m s fd n = .ok (r, t)) :
    Bounded t.files := by
  rcases bind_eq_ok.mp hok with ⟨found, -, hok⟩
  cases found with
  | none =>
    cases hok
    exact h
  | some slot =>
    rcases bind_eq_ok.mp hok with ⟨F, hF, hok⟩
    by_cases heq : n = F.size
    · rw [if_pos heq] at hok
      cases hok
      exact h
    rw [if_neg heq] at hok
    by_cases hlt : n < F.size
    · rw [if_pos hlt] at hok
      exact shrinkFile_sizes (bounded_iff.mp h) (Nat.zero_le _)
        (hlt.le.trans ((bounded_iff.mp h).load hF)) hok
    rw [if_neg hlt] at hok
    by_cases hmax : n > maxFileSize
    · rw [if_pos hmax] at hok
      cases hok
      exact h
    · rw [if_neg hmax] at hok
      exact growFile_sizes (bounded_iff.mp h) (not_lt.mp hmax) hok

/-! ## `ufs_write` -/

/-- The size plus `n` is a `size_t`, and exceeds the limit exactly when the offset plus `n` does. -/
def FitsAlike (size offset n : Nat) : Prop :=
  size + n < 2 ^ 64 ∧ (size + n ≤ maxFileSize ↔ offset + n ≤ maxFileSize)

/-- If the call is a write that passes the checks before the limit, the two sums agree. -/
def Alike (s : State) (op : Op) : Prop :=
  ∀ (i : Nat) (d : FileDesc) (F : File) (buf : List UInt8), op = .write ((i : Int) + 1) buf →
    s.fileDescriptors[i]? = some (some d) → mayWrite d.openFlags = true →
    s.files d.file = some F → buf ≠ [] → FitsAlike F.size d.offset buf.length

theorem ufsWrite_bounded {buf : List UInt8} (hinv : Inv s) (h : Bounded s.files)
    (halike : Alike s (.write fd buf)) (hok : ufsWrite m s fd buf = .ok (r, t)) :
    Bounded t.files := by
  rcases hinv with ⟨fl, ch, hlay, htab⟩
  rcases ufsWrite_cases htab m fd buf with ⟨r', e, hkeep⟩ | ⟨j, d, F, rfl, hj, hmay, hF, hbuf, hmax⟩
  · rw [hkeep] at hok
    cases hok
    exact h
  rcases halike j d F buf rfl hj hmay hF hbuf with ⟨hlt, hiff⟩
  by_cases hoff : d.offset / blockSize ≤ (ch d.file).length
  · rcases ufsWrite_slot hlay htab hj hmay hF hbuf hmax hoff m with ⟨u, G, qs, hwrite, hrel, hsize, -⟩
    obtain rfl : u.setDesc j { d with offset := d.offset + buf.length } = t :=
      (Prod.mk.inj (Except.ok.inj (hwrite.symm.trans hok))).2
    intro g K hK
    by_cases hg : g = d.file
    · obtain rfl : G = K := Option.some.inj (hrel.after.file.symm.trans (hg ▸ hK))
      rw [Nat.mod_eq_of_lt hlt] at hmax
      rw [hsize]
      exact max_le (h d.file F hF) (hiff.mp hmax)
    · exact h g K ((hrel.files g hg).symm.trans hK)
  · rw [ufsWrite_short hlay htab hj hmay hF hbuf hmax (not_le.mp hoff) m] at hok
    cases hok

/-- The write gives `UFS_ERR_NO_MEM` and leaves everything alone exactly when its own sum exceeds
the limit. -/
theorem ufsWrite_noMem_iff (hinv : Inv s) {i : Nat} {d : FileDesc}
    (hi : s.fileDescriptors[i]? = some (some d)) (hmay : mayWrite d.openFlags = true)
    (hF : s.files d.file = some F) {buf : List UInt8} (hbuf : buf ≠ []) :
    ufsWrite m s ((i : Int) + 1) buf = .ok (fail s .noMem) ↔
      maxFileSize < (F.size + buf.length) % 2 ^ 64 := by
  rcases hinv with ⟨fl, ch, hlay, htab⟩
  have hlen : buf.length ≠ 0 := fun h => hbuf (List.length_eq_zero_iff.mp h)
  constructor
  · intro hres
    by_contra hle
    by_cases hoff : d.offset / blockSize ≤ (ch d.file).length
    · rcases ufsWrite_slot hlay htab hi hmay hF hbuf (not_lt.mp hle) hoff m with
        ⟨u, G, qs, hwrite, hrel, -⟩
      have hstate := (Prod.mk.inj (Except.ok.inj (hwrite.symm.trans hres))).2
      -- the descriptor has moved, a failed call would have left it
      have hslot := congrArg (fun v => v.fileDescriptors[i]?) hstate
      have hlt := (List.getElem?_eq_some_iff.mp hi).1
      simp only [State.setDesc, hrel.slots, List.getElem?_set_self hlt, hi,
        Option.some.injEq] at hslot
      have hmoved := congrArg FileDesc.offset hslot
      dsimp only at hmoved
      omega
    · rw [ufsWrite_short hlay htab hi hmay hF hbuf (not_lt.mp hle) (not_le.mp hoff) m] at hres
      cases hres
  · intro hmax
    simp only [ufsWrite, lookupDesc_slot htab hi, ok_bind, hmay, Bool.not_true, Bool.false_eq_true,
      if_false, hlen, load_some hF, gt_iff_lt, hmax, if_true, pure_eq_ok]

theorem exec_bounded {op : Op} {reply : Reply} (hinv : Inv s) (h : Bounded s.files)
    (halike : Alike s op) (hexec : exec m s op = .ok (reply, t)) : Bounded t.files := by
  rcases op with ⟨filename, flags⟩ | ⟨fd, buf⟩ | ⟨fd, n⟩ | ⟨fd, n⟩ | fd | filename | -
  all_goals rcases bind_eq_ok.mp hexec with ⟨res, hcall, hres⟩; cases hres
  · exact ufsOpen_sizes (bounded_iff.mp h) (fun _ => Nat.zero_le _) hcall
  · exact ufsWrite_bounded hinv h halike hcall
  · exact ufsRead_sizes (bounded_iff.mp h) hcall
  · exact ufsResize_bounded h hcall
  · exact ufsClose_sizes (bounded_iff.mp h) hcall
  · exact ufsDelete_sizes (bounded_iff.mp h) hcall
  · exact ufsDestroy_sizes (bounded_iff.mp h) hcall

/-- In every state reached by calls whose writes all have their two sums on the same side of the
limit, no file is larger than the limit, and a further write fails for want of memory exactly when
it would make the file too large, if and only if its two sums are on the same side as well. -/
theorem sizeLimit_exact_iff (m : Malloc) {s : State}
    (hs : Reachable (Within Alike (Step m)) State.init s) :
    (∀ f F, s.files f = some F → F.size ≤ maxFileSize) ∧
    ∀ (i : Nat) (d : FileDesc) (F : File) (buf : List UInt8),
      s.fileDescriptors[i]? = some (some d) → mayWrite d.openFlags = true →
      s.files d.file = some F → buf ≠ [] → buf.length < 2 ^ 64 →
      ((ufsWrite m s ((i : Int) + 1) buf = .ok (fail s .noMem) ↔
          maxFileSize < max F.size (d.offset + buf.length)) ↔
        FitsAlike F.size d.offset buf.length) := by
  have hboth : Inv s ∧ Bounded s.files := by
    refine hs.invariant (P := fun u => Inv u ∧ Bounded u.files)
      ⟨Inv.init, fun f F hF => by cases hF⟩ ?_
    rintro u op v ⟨hinv, hb⟩ ⟨halike, reply, hexec⟩
    exact ⟨exec_inv hinv hexec, exec_bounded hinv hb halike hexec⟩
  refine ⟨hboth.2, fun i d F buf hi hmay hF hbuf hlen => ?_⟩
  have hsize : F.size ≤ maxFileSize := hboth.2 d.file F hF
  rw [ufsWrite_noMem_iff hboth.1 hi hmay hF hbuf, FitsAlike]
  have hmod := Nat.mod_add_div (F.size + buf.length) (2 ^ 64)
  simp only [maxFileSize] at hsize ⊢
  omega

theorem sizeLimit_exact_iff_threeBytes : ∃ s, execAll .zeroed State.init threeBytes = .ok s ∧
    ufsWrite .zeroed s 2 [9, 8] ≠ .ok (fail s .noMem) := by
  rcases threeBytes_spec with ⟨s, hs, -, -, hslot, ⟨F, ps, hF, hsize, -⟩⟩
  rcases twoDescriptors_spec with ⟨u, hu, -, huslot, -, ⟨G, qs, hG, hGsize, -⟩⟩
  have hwithin : Runs.Run (Within Alike (Step .zeroed)) State.init twoDescriptors u := by
    refine execAll_within (fun op hop v => ?_) hu
    rintro j d K buf rfl
    simp [twoDescriptors] at hop
  -- the only write so far was made at the end of the file
  have halike : Alike u (.write 1 [1, 2, 3]) := by
    intro j d K buf hop hj _ hK _
    cases j with
    | zero =>
      cases hop
      cases huslot.symm.trans hj
      cases hG.file.symm.trans hK
      rw [hGsize]
      unfold FitsAlike
      decide
    | succ j =>
      have hfd := (Op.write.inj hop).1
      omega
  have hstep : Step .zeroed u (.write 1 [1, 2, 3]) s := by
    rw [threeBytes, execAll_append, hu, ok_bind] at hs
    rcases bind_eq_ok.mp hs with ⟨⟨reply, v⟩, hexec, hv⟩
    cases hv
    exact ⟨reply, hexec⟩
  have hreach : Reachable (Within Alike (Step .zeroed)) State.init s :=
    ⟨_, hwithin.snoc ⟨halike, hstep⟩⟩
  have hexact := (sizeLimit_exact_iff .zeroed hreach).2 1 ⟨0, ufsReadWrite, 0⟩ F [9, 8] hslot
    (by decide) hF.file (by simp) (by decide)
  rw [hsize] at hexact
  have hfits : FitsAlike 3 0 2 := by
    unfold FitsAlike
    decide
  refine ⟨s, hs, fun hrefused => ?_⟩
  have hlarge := (hexact.mpr hfits).mp hrefused
  revert hlarge
  show ¬ maxFileSize < max 3 (0 + 2)
  decide

/-- A file as large as it may be, with a descriptor at its start: a byte written there would not
make it larger, and is refused. -/
theorem full_file_refuses_overwrite : ∃ s F, Reachable (Step .zeroed) State.init s ∧
    s.fileDescriptors[1]? = some (some ⟨0, ufsReadWrite, 0⟩) ∧ s.files 0 = some F ∧
    max F.size (0 + 1) = maxFileSize ∧ ufsWrite .zeroed s 2 [7] = .ok (fail s .noMem) := by
  rcases twoDescriptors_spec with ⟨s, -, hreach, hslot₀, hslot, hstores⟩
  have hinv := Reachable.inv hreach
  rcases ufsResize_grow (n := maxFileSize) hinv hslot₀ hstores .nil (by decide) (le_refl _) .zeroed
    with ⟨t, hok, htinv, ⟨F, ps, hF, hsize, -⟩, hslots, -⟩
  have htreach : Reachable (Step .zeroed) State.init t := by
    refine hreach.snoc (a := .resize 1 maxFileSize) ⟨{ ret := 0 }, ?_⟩
    change ufsResize .zeroed s 1 maxFileSize = _ at hok
    simp only [exec, hok, ok_bind, pure_eq_ok]
  have htslot : t.fileDescriptors[1]? = some (some ⟨0, ufsReadWrite, 0⟩) := by rw [hslots, hslot]
  refine ⟨t, F, htreach, htslot, hF.file, by rw [hsize]; rfl, ?_⟩
  refine (ufsWrite_noMem_iff htinv htslot (by decide) hF.file (by simp)).mpr ?_
  rw [hsize]
  decide

end SystemProgramming.UserFs
