import SystemProgramming.UserFs.Consistency

/-!
# A file lives as long as a descriptor holds it

Whatever else is called, a file that an open descriptor refers to keeps its content and its size,
and the descriptor its offset, until somebody writes to the file, resizes it, uses the descriptor
or destroys the file system.
-/

open Fallible
open Runs (Reachable Within)

namespace SystemProgramming.UserFs

variable {m : Malloc} {s t : State} {i : Nat} {d : FileDesc}

/-- The calls that may come while descriptor `i` on file `f` is held. -/
def Held (i : Nat) (f : Ptr) (s : State) (op : Op) : Prop := op ≠ .destroy ∧ op.Spares s i f

/-- What is kept: the descriptor, and everything its file stores. -/
structure Holds (s t : State) (i : Nat) (d : FileDesc) : Prop where
  inv : Inv t
  slot : t.fileDescriptors[i]? = some (some d)
  same : SameFile s t d.file

theorem Holds.step {u : State} {op : Op} (h : Holds s t i d) (hheld : Held i d.file t op)
    (hstep : Step m t op u) : Holds s u i d := by
  rcases hstep with ⟨reply, hexec⟩
  have hclose : op ≠ .close ((i : Int) + 1) := by
    rintro rfl
    exact hheld.2.1 rfl
  have huinv := exec_inv h.inv hexec
  rcases exec_slot h.inv hexec h.slot hheld.1 hclose with ⟨o, ho, hspare⟩
  rcases hspare hheld.2 with ⟨rfl, hsame⟩
  rcases huinv with ⟨fl, ch, hlay, htab⟩
  rcases htab.file ho with ⟨G, hG⟩
  exact ⟨⟨fl, ch, hlay, htab⟩, ho, h.same.trans (hsame G hG)⟩

theorem Holds.run {ops : List Op} (h : Inv s) (hi : s.fileDescriptors[i]? = some (some d))
    (hrun : Runs.Run (Within (Held i d.file) (Step m)) s ops t) : Holds s t i d := by
  have hstart : Holds s s i d := ⟨h, hi, SameFile.refl s d.file⟩
  exact Runs.Run.invariant (P := fun u => Holds s u i d)
    (fun _ _ _ hP hstep => hP.step hstep.1 hstep.2) hrun hstart

/-- The result of a read depends on the descriptor and on what its file stores. -/
theorem ufsRead_same (hs : Inv s) (ht : Inv t) (hi : s.fileDescriptors[i]? = some (some d))
    (hit : t.fileDescriptors[i]? = some (some d)) (hsame : SameFile s t d.file) (n : Nat) :
    (ufsRead t ((i : Int) + 1) n).map (fun r => (r.1, r.2.1)) =
      (ufsRead s ((i : Int) + 1) n).map (fun r => (r.1, r.2.1)) := by
  rcases hs with ⟨fl, ch, hlay, htab⟩
  rcases ht with ⟨gl, kh, hlay', htab'⟩
  rcases htab.file hi with ⟨F, hF⟩
  have hstores := hlay.stores hF
  cases hmay : mayRead d.openFlags with
  | false =>
    rw [ufsRead_denied htab hi hmay, ufsRead_denied htab' hit hmay]
    rfl
  | true =>
    rw [ufsRead_slot htab hi hmay hstores, ufsRead_slot htab' hit hmay (hsame _ _ hstores)]
    cases readFrom F.size (s.cells (ch d.file)) d.offset n <;> rfl

/-- Through any run of calls that leave descriptor `i` and the bytes of its file alone, the
descriptor goes on referring to the file at the same offset, the file keeps its size and its
blocks, and a read gives what it would have given before. -/
theorem held_file_untouched (m : Malloc) {s t : State} {ops : List Op} {i : Nat} {d : FileDesc}
    (hs : Reachable (Step m) State.init s) (hi : s.fileDescriptors[i]? = some (some d))
    (hrun : Runs.Run (Within (Held i d.file) (Step m)) s ops t) :
    t.fileDescriptors[i]? = some (some d) ∧
    (∃ size cs, s.Stores d.file size cs ∧ t.Stores d.file size cs) ∧
    ∀ n, (ufsRead t ((i : Int) + 1) n).map (fun r => (r.1, r.2.1)) =
      (ufsRead s ((i : Int) + 1) n).map (fun r => (r.1, r.2.1)) := by
  have hinv := Reachable.inv hs
  have hholds := Holds.run hinv hi hrun
  refine ⟨hholds.slot, ?_, ufsRead_same hinv hholds.inv hi hholds.slot hholds.same⟩
  rcases hinv with ⟨fl, ch, hlay, htab⟩
  rcases htab.file hi with ⟨F, hF⟩
  exact ⟨F.size, s.cells (ch d.file), hlay.stores hF, hholds.same _ _ (hlay.stores hF)⟩

/-- A file is opened twice and written to; then it is deleted, made anew and deleted again, and its
first descriptor is closed. -/
def heldCalls : List Op × List Op :=
  ([.open [97] ufsCreate, .open [97] 0, .write 1 [1, 2, 3]],
    [.delete [97], .open [97] ufsCreate, .delete [97], .close 1])

theorem held_file_untouched_ghost :
    ∃ s t, execAll .zeroed State.init heldCalls.1 = .ok s ∧ execAll .zeroed s heldCalls.2 = .ok t ∧
      t.fileDescriptors[1]? = some (some ⟨0, ufsReadWrite, 0⟩) ∧
      ∀ n, (ufsRead t 2 n).map (fun r => (r.1, r.2.1)) =
        (ufsRead s 2 n).map (fun r => (r.1, r.2.1)) := by
  have hreturns : (execAll .zeroed State.init heldCalls.1 >>= fun s =>
      execAll .zeroed s heldCalls.2).toBool = true := by decide +kernel
  have hslot : (execAll .zeroed State.init heldCalls.1).map (fun s => s.fileDescriptors[1]?) =
      .ok (some (some ⟨0, ufsReadWrite, 0⟩)) := by decide +kernel
  rcases toBool_eq_true.mp hreturns with ⟨t, ht⟩
  rcases bind_eq_ok.mp ht with ⟨s, hs, ht⟩
  rw [hs] at hslot
  have hrun : Runs.Run (Within (Held 1 0) (Step .zeroed)) s heldCalls.2 t := by
    refine execAll_within (fun op hop u => ?_) ht
    simp only [heldCalls, List.mem_cons, List.not_mem_nil, or_false] at hop
    rcases hop with rfl | rfl | rfl | rfl <;>
      exact ⟨by simp, by simp [Op.fd?], by simp [Op.writes?]⟩
  have hkept := held_file_untouched .zeroed ⟨_, execAll_run hs⟩ (Except.ok.inj hslot) hrun
  exact ⟨s, t, hs, ht, hkept.1, hkept.2.2⟩

end SystemProgramming.UserFs
