import SystemProgramming.Lib.Runs
import SystemProgramming.UserFs.Resize

/-!
# Consistency of every reachable state

The invariant holds in every state that a sequence of calls can lead to.  What it says about the
descriptor table, the reference counts, the names and the links of `file_list` is spelled out here
on the state itself, with what follows for `ufs_open` and for the freeing of files.
-/

open DoublyLinked Fallible
open Runs (Reachable)

namespace SystemProgramming.UserFs

/-- One call that returns. -/
def Step (m : Malloc) (s : State) (op : Op) (t : State) : Prop :=
  ∃ reply, exec m s op = .ok (reply, t)

/-- The descriptor number that a call goes through. -/
def Op.fd? : Op → Option Int
  | .write fd _ | .read fd _ | .resize fd _ | .close fd => some fd
  | .open _ _ | .delete _ | .destroy => none

/-- The descriptor number through which a call changes a file. -/
def Op.writes? : Op → Option Int
  | .write fd _ | .resize fd _ => some fd
  | .open _ _ | .read _ _ | .close _ | .delete _ | .destroy => none

/-- File `f` is met on the way along `next` from `file_list`. -/
def State.InFileList (s : State) (f : Ptr) : Prop :=
  ∃ k, (fun p => p.bind s.fileNext)^[k] s.fileList = some f

/-- The number of descriptors of file `f`. -/
def State.descriptorsOf (s : State) (f : Ptr) : Nat :=
  s.fileDescriptors.countP fun slot => slot.map FileDesc.file = some f

structure Consistent (s : State) : Prop where
  used : s.fileDescriptorUsed = s.fileDescriptors.countP Option.isSome
  used_le : s.fileDescriptorUsed ≤ s.fileDescriptorCapacity
  capacity : s.fileDescriptorCapacity = s.fileDescriptors.length
  target : ∀ d, some d ∈ s.fileDescriptors → s.InFileList d.file
  listed : ∀ f, s.InFileList f ↔ ∃ F, s.files f = some F
  refs : ∀ f F, s.files f = some F → F.refs = s.descriptorsOf f
  names : ∀ f F g G, s.files f = some F → s.files g = some G → F.isGhost = false →
    G.isGhost = false → F.name = G.name → f = g
  ghost : ∀ f F, s.files f = some F → F.isGhost = true → 0 < F.refs
  next_prev : ∀ f g, s.InFileList f → s.fileNext f = some g → s.filePrev g = some f
  prev_next : ∀ f g, s.InFileList g → s.filePrev g = some f →
    s.InFileList f ∧ s.fileNext f = some g
  head : ∀ f, s.fileList = some f → s.filePrev f = none

variable {m : Malloc} {s t : State} {op : Op} {reply : Reply}

theorem Inv.consistent (h : Inv s) : Consistent s := by
  rcases h with ⟨fl, ch, hlay, htab⟩
  have hmem : ∀ f, s.InFileList f ↔ f ∈ fl := fun f => (hlay.listed.mem_iff f).symm
  have hentry : ∀ f F, s.files f = some F → s.table.entry f = some F.entry :=
    fun f F hF => table_entry hF
  refine ⟨?_, htab.used_le, ?_, fun d hd => ?_, fun f => ?_, fun f F hF => ?_,
    fun f F g G hF hG => htab.names f F.entry g G.entry (hentry f F hF) (hentry g G hG),
    fun f F hF => htab.ghost f F.entry (hentry f F hF), fun f g hf hn => ?_, fun f g hg hp => ?_,
    fun f hf => ?_⟩
  · -- the model's table sees of a descriptor only its file
    have hused := htab.used
    simp only [State.table, List.countP_map] at hused
    rw [hused]
    congr 2
    funext o
    cases o <;> rfl
  · exact capacity_eq htab
  · have hslot : some d.file ∈ s.table.slots := by
      simp only [State.table, List.mem_map]
      exact ⟨some d, hd, rfl⟩
    rcases htab.target d.file hslot with ⟨e, he⟩
    rcases Option.map_eq_some_iff.mp he with ⟨F, hF, -⟩
    exact (hmem _).mpr ((hlay.alloc _).mpr ⟨F, hF⟩)
  · rw [hmem, hlay.alloc]
  · -- as many descriptors as the file counts references
    have hrefs := htab.refs f F.entry (hentry f F hF)
    rw [State.table, List.count_eq_countP, List.countP_map] at hrefs
    change F.refs = _ at hrefs
    rw [hrefs, State.descriptorsOf]
    congr 2
    funext o
    rw [Function.comp_apply, Bool.eq_iff_iff, beq_iff_eq, decide_eq_true_iff]
  · exact (Seg.prev_of_next hlay.listed ((hmem f).mp hf) hn (by simp)).2
  · -- the links of the list are inverse to each other
    have hboth := Seg.next_of_prev hlay.listed ((hmem g).mp hg) hp (by simp)
    exact ⟨(hmem f).mpr hboth.1, hboth.2⟩
  · cases hfl : fl with
    | nil =>
      rw [hlay.listed.head_eq, hfl] at hf
      cases hf
    | cons x xs =>
      have hlisted := hlay.listed
      rw [hfl, hf] at hlisted
      obtain rfl : f = x := by simpa using hlisted.1
      exact hlisted.2.1

theorem Inv.init : Inv State.init := by
  refine ⟨[], fun _ => [], ⟨⟨List.nodup_nil, fun f => ?_, ?_, ?_, ?_, ?_, ?_⟩, ⟨rfl, rfl⟩⟩, ?_⟩
  · simp [State.init]
  · intro f hf
    cases hf
  · intro f F hF
    cases hF
  · intro f hf
    cases hf
  · intro f hf
    cases hf
  · intro p b hb
    cases hb
  · exact .empty

/-! ## One call -/

/-- A call that does not go through descriptor `i` and does not write to or resize file `f`. -/
def Op.Spares (op : Op) (s : State) (i : Nat) (f : Ptr) : Prop :=
  op.fd? ≠ some ((i : Int) + 1) ∧
    ∀ (j : Nat) (d : FileDesc), op.writes? = some ((j : Int) + 1) →
      s.fileDescriptors[j]? = some (some d) → d.file ≠ f

theorem fail_sameFile (s : State) (e : UfsErrorCode) (f : Ptr) : SameFile s (fail s e).2 f := by
  refine stores_congr ?_ ?_ ?_ f <;> rfl

/-- A descriptor survives every call but its own `ufs_close` and `ufs_destroy`.  Its offset and its
file can only be changed by a call through it, or one that writes to or resizes the file. -/
theorem exec_slot (h : Inv s) (hexec : exec m s op = .ok (reply, t)) {i : Nat} {d : FileDesc}
    (hi : s.fileDescriptors[i]? = some (some d)) (hdestroy : op ≠ .destroy)
    (hclose : op ≠ .close ((i : Int) + 1)) :
    ∃ o, t.fileDescriptors[i]? = some (some { d with offset := o }) ∧
      (op.Spares s i d.file → o = d.offset ∧
        ∀ G, t.files d.file = some G → SameFile s t d.file) := by
  -- a call that leaves the slot as it was
  have hkeep : t.fileDescriptors[i]? = s.fileDescriptors[i]? →
      (op.Spares s i d.file → ∀ G, t.files d.file = some G → SameFile s t d.file) →
      ∃ o, t.fileDescriptors[i]? = some (some { d with offset := o }) ∧
        (op.Spares s i d.file → o = d.offset ∧
          ∀ G, t.files d.file = some G → SameFile s t d.file) := fun heq hsame =>
    ⟨d.offset, by rw [heq, hi], fun hsp => ⟨rfl, hsame hsp⟩⟩
  have hlt := (List.getElem?_eq_some_iff.mp hi).1
  -- a call through descriptor `j` that moves its offset
  have hmove : ∀ (j : Nat) (d' : FileDesc), s.fileDescriptors[j]? = some (some d') →
      op.fd? = some ((j : Int) + 1) → MovesOffset s t j d' →
      (op.Spares s i d.file → ∀ G, t.files d.file = some G → SameFile s t d.file) →
      ∃ o, t.fileDescriptors[i]? = some (some { d with offset := o }) ∧
        (op.Spares s i d.file → o = d.offset ∧
          ∀ G, t.files d.file = some G → SameFile s t d.file) := by
    intro j d' hj hfd hmv hsame
    by_cases hij : j = i
    · subst hij
      obtain rfl : d = d' := by simpa [hi] using hj
      rcases hmv with ⟨o, ho⟩
      exact ⟨o, by rw [ho, List.getElem?_set_self hlt], fun hsp => absurd hfd hsp.1⟩
    · exact hkeep (hmv.ne hij) hsame
  cases op with
  | «open» filename flags =>
    rcases bind_eq_ok.mp hexec with ⟨⟨r, u⟩, hopen, hres⟩
    cases hres
    rcases ufsOpen_spec h filename flags with hfail | ⟨v, j, f, hok, hopened⟩
    · rw [hfail] at hopen
      cases hopen
      exact hkeep rfl fun _ _ _ => fail_sameFile s _ _
    · rw [hok] at hopen
      cases hopen
      exact hkeep (by rw [hopened.slots i d hi, hi]) fun _ => hopened.same _
  | write fd buf =>
    rcases bind_eq_ok.mp hexec with ⟨⟨r, u⟩, hwrite, hres⟩
    cases hres
    rcases (ufsWrite_frame h hwrite).2 with ⟨heq, hsame⟩ | ⟨j, d', rfl, hj, hmv, hsame⟩
    · exact hkeep (by rw [heq]) fun _ => hsame _
    · exact hmove j d' hj rfl hmv fun hsp G hG => hsame _ G (hsp.2 j d' rfl hj).symm hG
  | read fd n =>
    rcases bind_eq_ok.mp hexec with ⟨⟨r, bytes, u⟩, hread, hres⟩
    cases hres
    rcases ufsRead_frame h hread with ⟨-, hsame, heq | ⟨j, d', rfl, hj, hmv⟩⟩
    · exact hkeep (by rw [heq]) fun _ => hsame _
    · exact hmove j d' hj rfl hmv fun _ => hsame _
  | resize fd n =>
    rcases bind_eq_ok.mp hexec with ⟨⟨r, u⟩, hresize, hres⟩
    cases hres
    -- only `resize` moves the offsets of other descriptors, those of the same file
    rcases (ufsResize_frame h hresize).2 with ⟨heq, hsame⟩ | ⟨j, d', rfl, hj, heq | hclamp, hsame⟩
    · exact hkeep (by rw [heq]) fun _ => hsame _
    · exact hkeep (by rw [heq]) fun hsp G hG => hsame _ G (hsp.2 j d' rfl hj).symm hG
    · refine ⟨if d.file = d'.file ∧ d.offset > n then n else d.offset, ?_, fun hsp => ⟨?_, ?_⟩⟩
      · rw [hclamp, clampOffsets_getElem?, hi]
        simp only [Option.map_some, Option.some.injEq]
        split <;> rfl
      · rw [if_neg fun hboth => hsp.2 j d' rfl hj hboth.1.symm]
      · exact fun G hG => hsame _ G (hsp.2 j d' rfl hj).symm hG
  | close fd =>
    rcases bind_eq_ok.mp hexec with ⟨⟨r, u⟩, hcl, hres⟩
    cases hres
    rcases ufsClose_spec h fd with hfail | ⟨v, j, d', rfl, hj, hok, hclosed⟩
    · rw [hfail] at hcl
      cases hcl
      exact hkeep rfl fun _ _ _ => fail_sameFile s _ _
    · rw [hok] at hcl
      cases hcl
      have hij : j ≠ i := by
        rintro rfl
        exact hclose rfl
      exact hkeep (by rw [hclosed.slots, List.getElem?_set_ne hij]) fun _ => hclosed.same _
  | delete filename =>
    rcases bind_eq_ok.mp hexec with ⟨⟨r, u⟩, hdel, hres⟩
    cases hres
    rcases ufsDelete_spec h filename with hfail | ⟨v, hok, -, hslots, hsame⟩
    · rw [hfail] at hdel
      cases hdel
      exact hkeep rfl fun _ _ _ => fail_sameFile s _ _
    · rw [hok] at hdel
      cases hdel
      exact hkeep (by rw [hslots]) fun _ => hsame _
  | destroy => exact absurd rfl hdestroy

theorem exec_inv (h : Inv s) (hexec : exec m s op = .ok (reply, t)) : Inv t := by
  cases op with
  | «open» filename flags =>
    rcases bind_eq_ok.mp hexec with ⟨⟨r, u⟩, hopen, hres⟩
    cases hres
    rcases ufsOpen_spec h filename flags with hfail | ⟨v, j, f, hok, hopened⟩
    · rw [hfail] at hopen
      cases hopen
      exact h.fail _
    · rw [hok] at hopen
      cases hopen
      exact hopened.inv
  | write fd buf =>
    rcases bind_eq_ok.mp hexec with ⟨⟨r, u⟩, hwrite, hres⟩
    cases hres
    exact (ufsWrite_frame h hwrite).1
  | read fd n =>
    rcases bind_eq_ok.mp hexec with ⟨⟨r, bytes, u⟩, hread, hres⟩
    cases hres
    exact (ufsRead_frame h hread).1
  | resize fd n =>
    rcases bind_eq_ok.mp hexec with ⟨⟨r, u⟩, hresize, hres⟩
    cases hres
    exact (ufsResize_frame h hresize).1
  | close fd =>
    rcases bind_eq_ok.mp hexec with ⟨⟨r, u⟩, hcl, hres⟩
    cases hres
    rcases ufsClose_spec h fd with hfail | ⟨v, j, d', -, -, hok, hclosed⟩
    · rw [hfail] at hcl
      cases hcl
      exact h.fail _
    · rw [hok] at hcl
      cases hcl
      exact hclosed.inv
  | delete filename =>
    rcases bind_eq_ok.mp hexec with ⟨⟨r, u⟩, hdel, hres⟩
    cases hres
    rcases ufsDelete_spec h filename with hfail | ⟨v, hok, hinv, -⟩
    · rw [hfail] at hdel
      cases hdel
      exact h.fail _
    · rw [hok] at hdel
      cases hdel
      exact hinv
  | destroy =>
    rcases bind_eq_ok.mp hexec with ⟨u, hdestroy, hres⟩
    cases hres
    rcases ufsDestroy_spec h with ⟨v, hok, hinv, -⟩
    rw [hok] at hdestroy
    cases hdestroy
    exact hinv

/-! ## Runs -/

/-- Calls one after the other, for as long as they return. -/
def execAll (m : Malloc) : State → List Op → UserFs.Run State
  | s, [] => .ok s
  | s, op :: ops => do
    let (_, s) ← exec m s op
    execAll m s ops

theorem execAll_append (s : State) (xs ys : List Op) :
    execAll m s (xs ++ ys) = execAll m s xs >>= fun t => execAll m t ys := by
  induction xs generalizing s with
  | nil => rfl
  | cons op xs ih =>
    rw [List.cons_append, execAll, execAll]
    cases exec m s op with
    | error e => rfl
    | ok res => exact ih res.2

theorem execAll_within {allowed : State → Op → Prop} {ops : List Op}
    (hall : ∀ op ∈ ops, ∀ u, allowed u op) (h : execAll m s ops = .ok t) :
    Runs.Run (Runs.Within allowed (Step m)) s ops t := by
  induction ops generalizing s with
  | nil =>
    cases h
    exact .nil _
  | cons op ops ih =>
    rcases bind_eq_ok.mp h with ⟨⟨reply, u⟩, hexec, hrest⟩
    exact .cons ⟨hall op (by simp) s, reply, hexec⟩
      (ih (fun op' hop => hall op' (List.mem_cons_of_mem _ hop)) hrest)

theorem execAll_run {ops : List Op} (h : execAll m s ops = .ok t) : Runs.Run (Step m) s ops t := by
  have hwithin : Runs.Run (Runs.Within (fun _ _ => True) (Step m)) s ops t :=
    execAll_within (fun _ _ _ => trivial) h
  exact hwithin.of_within

theorem Reachable.inv (h : Reachable (Step m) State.init s) : Inv s :=
  h.invariant Inv.init fun _ _ _ hs ⟨_, hexec⟩ => exec_inv hs hexec

/-- Every reachable state is consistent; from it `ufs_open` fails only for want of a file and
otherwise returns a descriptor number that was free, and no call frees a file that a descriptor
left behind refers to.  This is for runs in which fewer than `10 * 2 ^ 27` descriptors are open at a
time, since beyond that the capacity is no `int`. -/
theorem reachable_consistent (m : Malloc) (s : State) (h : Reachable (Step m) State.init s) :
    Consistent s ∧
    (∀ filename flags, ufsOpen s filename flags = .ok (fail s .noFile) ∨
      ∃ (t : State) (i : Nat) (f : Ptr), ufsOpen s filename flags = .ok ((i : Int) + 1, t) ∧
        (∀ d, s.fileDescriptors[i]? ≠ some (some d)) ∧
        t.fileDescriptors[i]? = some (some ⟨f, openFlags flags, 0⟩)) ∧
    ∀ op t, Step m s op t → ∀ f F, s.files f = some F → t.files f = none →
      (∀ d, some d ∈ t.fileDescriptors → d.file ≠ f) ∧
      (op = .destroy ∨ ∀ (i : Nat) (d : FileDesc), s.fileDescriptors[i]? = some (some d) →
        d.file = f → op = .close ((i : Int) + 1)) := by
  have hinv := Reachable.inv h
  refine ⟨hinv.consistent, fun filename flags => ?_, fun op t hstep f F _ hfreed => ?_⟩
  · rcases ufsOpen_spec hinv filename flags with hfail | ⟨t, i, f, hok, hopened⟩
    · exact .inl hfail
    · exact .inr ⟨t, i, f, hok, hopened.free, hopened.slot⟩
  · rcases hstep with ⟨reply, hexec⟩
    have hcons := (exec_inv hinv hexec).consistent
    have hgone : ∀ d, some d ∈ t.fileDescriptors → d.file ≠ f := by
      rintro d hd rfl
      rcases (hcons.listed _).mp (hcons.target d hd) with ⟨G, hG⟩
      rw [hfreed] at hG
      cases hG
    refine ⟨hgone, ?_⟩
    by_cases hdestroy : op = .destroy
    · exact .inl hdestroy
    · refine .inr fun i d hi hdf => ?_
      -- Any operation but the `close` of the slot would leave it pointing at `f`.
      by_contra hclose
      rcases exec_slot hinv hexec hi hdestroy hclose with ⟨o, ho, -⟩
      exact hgone _ (List.mem_of_getElem? ho) hdf

/-- Memory that happens to come cleared from `malloc`. -/
def Malloc.zeroed : Malloc := ⟨fun _ _ => 0, fun _ => 0⟩

/-- Two descriptors of a file that is deleted while they are open. -/
def ghostCalls : List Op := [.open [97] ufsCreate, .open [97] 0, .delete [97]]

theorem reachable_consistent_ghost :
    ∃ s, execAll .zeroed State.init ghostCalls = .ok s ∧ s.fileDescriptorUsed = 2 ∧
      Consistent s := by
  obtain ⟨s, hs⟩ : ∃ s, execAll .zeroed State.init ghostCalls = .ok s := ⟨_, rfl⟩
  have hused : (execAll .zeroed State.init ghostCalls).map State.fileDescriptorUsed = .ok 2 := rfl
  rw [hs] at hused
  exact ⟨s, hs, Except.ok.inj hused, (reachable_consistent .zeroed s ⟨_, execAll_run hs⟩).1⟩

end SystemProgramming.UserFs
