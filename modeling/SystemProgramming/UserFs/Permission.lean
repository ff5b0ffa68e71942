import SystemProgramming.UserFs.Consistency

/-!
# Permissions of a descriptor

`userfs.h` lets `ufs_write` and `ufs_resize` go only through a descriptor that may write, and
`ufs_read` only through one that may read.  `ufs_write` and `ufs_read` look at the flags before
anything else.  `ufs_resize` never looks at them.
-/

open Fallible
open Runs (Reachable)

namespace SystemProgramming.UserFs

variable {m : Malloc} {s t : State} {i : Nat} {d : FileDesc} {op : Op}

/-- The permission that a call asks of the descriptor it goes through. -/
def Op.permitted (flags : BitVec 32) : Op → Bool
  | .write _ _ | .resize _ _ => mayWrite flags
  | .read _ _ => mayRead flags
  | .open _ _ | .close _ | .delete _ | .destroy => true

/-- A refused call returns `-1` with `UFS_ERR_NO_PERMISSION`, copies no byte and changes no file and
no descriptor. -/
structure Refused (m : Malloc) (s t : State) (op : Op) : Prop where
  reply : exec m s op = .ok ({ ret := -1 }, t)
  error : t.ufsErrorCode = .noPermission
  slots : t.fileDescriptors = s.fileDescriptors
  same : ∀ f, SameFile s t f ∧ SameFile t s f

theorem fail_refused {e : UfsErrorCode} (he : e = .noPermission)
    (h : exec m s op = .ok ({ ret := -1 }, { s with ufsErrorCode := e })) :
    Refused m s { s with ufsErrorCode := e } op := by
  refine ⟨h, he, rfl, fun f => ⟨stores_congr ?_ ?_ ?_ f, stores_congr ?_ ?_ ?_ f⟩⟩ <;> rfl

theorem write_refused (hinv : Inv s) (hi : s.fileDescriptors[i]? = some (some d))
    (hmay : mayWrite d.openFlags = false) (buf : List UInt8) :
    Refused m s { s with ufsErrorCode := .noPermission } (.write ((i : Int) + 1) buf) := by
  rcases hinv with ⟨fl, ch, -, htab⟩
  refine fail_refused rfl ?_
  simp only [exec, ufsWrite, lookupDesc_slot htab hi, ok_bind, hmay, Bool.not_false, if_true,
    pure_eq_ok]
  rfl

theorem read_refused (hinv : Inv s) (hi : s.fileDescriptors[i]? = some (some d))
    (hmay : mayRead d.openFlags = false) (n : Nat) :
    Refused m s { s with ufsErrorCode := .noPermission } (.read ((i : Int) + 1) n) := by
  rcases hinv with ⟨fl, ch, -, htab⟩
  refine fail_refused rfl ?_
  simp only [exec, ufsRead_denied htab hi hmay, ok_bind, pure_eq_ok]

/-! ## `ufs_resize` -/

theorem shrinkFile_ret {f : Ptr} {n : Nat} {r : Int} (h : shrinkFile s f n = .ok (r, t)) :
    r = 0 := by
  -- both branches on the last block end in the loop over the descriptors
  have hend : ∀ u : State, (if u.fileDescriptorCapacity ≤ u.fileDescriptors.length then
      .ok (0, { u with fileDescriptors := clampOffsets f n u.fileDescriptors })
      else .error .outOfBounds : Run (Int × State)) = .ok (r, t) → r = 0 := by
    intro u hu
    split at hu
    · cases hu
      rfl
    · cases hu
  rcases bind_eq_ok.mp h with ⟨file, -, h⟩
  rcases bind_eq_ok.mp h with ⟨⟨blocks, block⟩, -, h⟩
  cases block with
  | none =>
    simp only [pure_eq_ok, ok_bind, error_bind] at h
    split at h
    · exact hend _ h
    · cases h
  | some b =>
    rcases bind_eq_ok.mp h with ⟨last, -, h⟩
    exact hend _ h

theorem growFile_ret {f : Ptr} {n : Nat} {r : Int} (h : growFile m s f n = .ok (r, t)) : r = 0 := by
  rcases bind_eq_ok.mp h with ⟨file, -, h⟩
  rcases bind_eq_ok.mp h with ⟨u, -, h⟩
  rcases bind_eq_ok.mp h with ⟨file', -, h⟩
  rcases bind_eq_ok.mp h with ⟨last, -, h⟩
  split at h
  · cases h
  · cases h
    rfl

/-- Through a valid descriptor `ufs_resize` returns 0, or runs out of memory. -/
theorem ufsResize_ret (hinv : Inv s) (hi : s.fileDescriptors[i]? = some (some d)) {n : Nat} {r : Int}
    (h : ufsResize m s ((i : Int) + 1) n = .ok (r, t)) : r = 0 ∨ t.ufsErrorCode = .noMem := by
  rcases hinv with ⟨fl, ch, -, htab⟩
  simp only [ufsResize, lookupDesc_slot htab hi, ok_bind] at h
  rcases bind_eq_ok.mp h with ⟨file, -, h⟩
  by_cases heq : n = file.size
  · rw [if_pos heq] at h
    cases h
    exact .inl rfl
  rw [if_neg heq] at h
  by_cases hlt : n < file.size
  · rw [if_pos hlt] at h
    exact .inl (shrinkFile_ret h)
  rw [if_neg hlt] at h
  by_cases hmax : n > maxFileSize
  · rw [if_pos hmax] at h
    cases h
    exact .inr rfl
  · rw [if_neg hmax] at h
    exact .inl (growFile_ret h)

theorem resize_not_refused (hinv : Inv s) (hi : s.fileDescriptors[i]? = some (some d)) (n : Nat) :
    ¬ Refused m s t (.resize ((i : Int) + 1) n) := by
  intro h
  rcases bind_eq_ok.mp h.reply with ⟨⟨r, u⟩, hresize, hres⟩
  cases hres
  rcases ufsResize_ret hinv hi hresize with hzero | hmem
  · cases hzero
  · rw [h.error] at hmem
    cases hmem

/-- In every reachable state, a call through a valid descriptor that lacks the permission for it is
refused if and only if it is not a `ufs_resize`. -/
theorem refused_iff (m : Malloc) {s : State} (hs : Reachable (Step m) State.init s) {i : Nat}
    {d : FileDesc} (hi : s.fileDescriptors[i]? = some (some d)) {op : Op}
    (hfd : op.fd? = some ((i : Int) + 1)) (hperm : op.permitted d.openFlags = false) :
    (∃ t, Refused m s t op) ↔ ∀ n, op ≠ .resize ((i : Int) + 1) n := by
  have hinv := Reachable.inv hs
  cases op with
  | write fd buf =>
    obtain rfl : fd = (i : Int) + 1 := Option.some.inj hfd
    exact iff_of_true ⟨_, write_refused hinv hi hperm buf⟩ fun n hn => by cases hn
  | read fd n =>
    obtain rfl : fd = (i : Int) + 1 := Option.some.inj hfd
    exact iff_of_true ⟨_, read_refused hinv hi hperm n⟩ fun n hn => by cases hn
  | resize fd n =>
    obtain rfl : fd = (i : Int) + 1 := Option.some.inj hfd
    exact iff_of_false (fun ⟨t, ht⟩ => resize_not_refused hinv hi n ht) fun h => h n rfl
  | «open» filename flags => cases hperm
  | close fd => cases hperm
  | delete filename => cases hperm
  | destroy => cases hperm

/-- A file of three bytes and a second descriptor of it, opened for reading only. -/
def readerCalls : List Op :=
  [.open [97] ufsCreate, .write 1 [1, 2, 3], .open [97] ufsReadOnly]

theorem readerCalls_spec : ∃ s, execAll .zeroed State.init readerCalls = .ok s ∧
    Reachable (Step .zeroed) State.init s ∧
    s.fileDescriptors[1]? = some (some ⟨0, openFlags ufsReadOnly, 0⟩) := by
  have hreturns : (execAll .zeroed State.init readerCalls).toBool = true := by decide +kernel
  have hslot : (execAll .zeroed State.init readerCalls).map (fun s => s.fileDescriptors[1]?) =
      .ok (some (some ⟨0, openFlags ufsReadOnly, 0⟩)) := by decide +kernel
  rcases toBool_eq_true.mp hreturns with ⟨s, hs⟩
  rw [hs] at hslot
  exact ⟨s, hs, ⟨_, execAll_run hs⟩, Except.ok.inj hslot⟩

theorem refused_iff_write : ∃ s, execAll .zeroed State.init readerCalls = .ok s ∧
    ((∃ t, Refused .zeroed s t (.write 2 [7])) ↔ ∀ n, Op.write 2 [7] ≠ .resize 2 n) := by
  rcases readerCalls_spec with ⟨s, hs, hreach, hslot⟩
  exact ⟨s, hs, refused_iff .zeroed hreach hslot rfl (by decide)⟩

/-- A descriptor opened for reading truncates the file. -/
theorem reader_truncates : ∃ s t, Reachable (Step .zeroed) State.init s ∧
    s.fileDescriptors[1]? = some (some ⟨0, openFlags ufsReadOnly, 0⟩) ∧
    mayWrite (openFlags ufsReadOnly) = false ∧
    exec .zeroed s (.resize 2 0) = .ok ({ ret := 0 }, t) ∧
    (s.files 0).map File.size = some 3 ∧ (t.files 0).map File.size = some 0 ∧
    ¬ ∃ u, Refused .zeroed s u (.resize 2 0) := by
  rcases readerCalls_spec with ⟨s, hs, hreach, hslot⟩
  have hsize : (execAll .zeroed State.init readerCalls).map (fun s =>
      (s.files 0).map File.size) = .ok (some 3) := by decide +kernel
  have hresize : (execAll .zeroed State.init readerCalls >>= fun s =>
      exec .zeroed s (.resize 2 0)).map (fun r => (r.1, (r.2.files 0).map File.size)) =
      .ok ({ ret := 0 }, some 0) := by decide +kernel
  rw [hs] at hsize hresize
  rw [ok_bind] at hresize
  cases hexec : exec .zeroed s (.resize 2 0) with
  | error e =>
    rw [hexec] at hresize
    cases hresize
  | ok r =>
    rw [hexec] at hresize
    have hboth := Prod.mk.inj (Except.ok.inj hresize)
    refine ⟨s, r.2, hreach, hslot, by decide, ?_, Except.ok.inj hsize, hboth.2,
      fun ⟨u, hu⟩ => resize_not_refused (Reachable.inv hreach) hslot 0 hu⟩
    rw [← hboth.1, hexec]

end SystemProgramming.UserFs
