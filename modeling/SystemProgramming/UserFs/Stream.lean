import SystemProgramming.UserFs.Leftover

/-!
# An appended file is a stream

One descriptor appends to a file that is empty at first, any number of others read it, in any
interleaving.  Every reader obtains the written bytes in order, each once, and no read comes back
short while there is something left, provided that the empty file has no block.  A block that is
left over from before is full, so the bytes go behind it and the readers obtain what is in it.
-/

open Fallible
open Runs (Reachable)

namespace SystemProgramming.UserFs

/-- A call of `ufs_write` by the writer, or of `ufs_read` through descriptor slot `i`. -/
inductive Event
  | append (buf : List UInt8)
  | read (i n : Nat)

/-- The file system with the bytes written so far and those each slot has obtained. -/
structure Stream where
  state : State
  written : List UInt8
  obtained : Nat → List UInt8

def Stream.start (s : State) : Stream := ⟨s, [], fun _ => []⟩

/-- One event; `w` is the slot of the writer. -/
def Stream.exec (m : Malloc) (w : Nat) (σ : Stream) : Event → Run Stream
  | .append buf => do
    let (_, s) ← ufsWrite m σ.state ((w : Int) + 1) buf
    pure { σ with state := s, written := σ.written ++ buf }
  | .read i n => do
    let (_, bytes, s) ← ufsRead σ.state ((i : Int) + 1) n
    pure { σ with
      state := s
      obtained := Function.update σ.obtained i (σ.obtained i ++ bytes) }

def Stream.run (m : Malloc) (w : Nat) : Stream → List Event → Run Stream
  | σ, [] => .ok σ
  | σ, e :: es => do
    let σ ← σ.exec m w e
    σ.run m w es

/-- All the bytes that the events append. -/
def appended : List Event → List UInt8
  | [] => []
  | .append buf :: es => buf ++ appended es
  | .read _ _ :: es => appended es

/-- Slot `i` holds a descriptor on `f` that may read, at the start of the file, and is not that of
the writer. -/
structure Reader (s : State) (f : Ptr) (w i : Nat) (d : FileDesc) : Prop where
  ne : i ≠ w
  slot : s.fileDescriptors[i]? = some (some d)
  file : d.file = f
  may : mayRead d.openFlags = true
  start : d.offset = 0

/-- The events of a run: reads of at most `SSIZE_MAX` bytes through readers. -/
def Event.Allowed (s : State) (f : Ptr) (w : Nat) : Event → Prop
  | .append _ => True
  | .read i n => n < 2 ^ 63 ∧ ∃ d, Reader s f w i d

/-- What holds throughout: the file is well-formed and contains what has been written, the writer
is at its end, and each reader has obtained exactly the bytes before its offset. -/
structure Streaming (s : State) (f : Ptr) (w : Nat) (dw : FileDesc) (σ : Stream) : Prop where
  inv : Inv σ.state
  stored : ∃ cs, σ.state.Stores f σ.written.length cs ∧ WellFormed cs σ.written.length ∧
    content cs = σ.written
  writer : σ.state.fileDescriptors[w]? = some (some { dw with offset := σ.written.length })
  reader : ∀ i d, Reader s f w i d → ∃ o, o ≤ σ.written.length ∧
    σ.state.fileDescriptors[i]? = some (some { d with offset := o }) ∧
    σ.obtained i = σ.written.take o

variable {m : Malloc} {s : State} {f : Ptr} {w : Nat} {dw : FileDesc} {σ : Stream}

theorem Streaming.append (h : Streaming s f w dw σ) (hfile : dw.file = f)
    (hmay : mayWrite dw.openFlags = true) {buf : List UInt8}
    (hmax : σ.written.length + buf.length ≤ maxFileSize) :
    ∃ τ, σ.exec m w (.append buf) = .ok τ ∧ Streaming s f w dw τ ∧
      τ.written = σ.written ++ buf := by
  rcases h.stored with ⟨cs, hstores, hwf, hcontent⟩
  rcases h.inv with ⟨fl, ch, hlay, htab⟩
  by_cases hbuf : buf = []
  · -- `ufs_write` returns at once
    subst hbuf
    have hwrite : ufsWrite m σ.state ((w : Int) + 1) [] = .ok (0, σ.state) := by
      simp only [ufsWrite, lookupDesc_slot htab h.writer, ok_bind, hmay, Bool.not_true,
        Bool.false_eq_true, if_false, List.length_nil, if_true, pure_eq_ok]
    refine ⟨σ, ?_, h, (List.append_nil _).symm⟩
    simp only [Stream.exec, hwrite, ok_bind, List.append_nil, pure_eq_ok]
  · have hend : ({ dw with offset := σ.written.length } : FileDesc).offset = σ.written.length := rfl
    rcases inPlace_of_sameBlock (m := m) h.inv h.writer hmay (hfile ▸ hstores) hwf (le_refl _) hbuf
      hmax rfl with ⟨t, htinv, hplace⟩
    obtain ⟨τ, hτ⟩ : ∃ τ : Stream, τ = { σ with state := t, written := σ.written ++ buf } := ⟨_, rfl⟩
    have hlen : τ.written.length = σ.written.length + buf.length := by
      rw [hτ]
      exact List.length_append
    have hmaxlen : max σ.written.length (σ.written.length + buf.length) = τ.written.length := by
      rw [hlen]
      omega
    refine ⟨τ, ?_, ⟨by rw [hτ]; exact htinv, ?_, ?_, fun i d hr => ?_⟩, by rw [hτ]⟩
    · simp only [Stream.exec, hplace.returns, ok_bind, pure_eq_ok, hτ]
    · rcases hplace.wellFormed with ⟨ds, hds, hdswf⟩
      simp only [hmaxlen, hfile] at hds hdswf
      refine ⟨ds, by rw [hτ] at hds ⊢; exact hds, hdswf, ?_⟩
      -- reading the file back gives both its content and what was meant to be written
      have hsmall : τ.written.length < 2 ^ 63 := by
        simp only [maxFileSize] at hmax
        omega
      have hback := hplace.content τ.written.length hmaxlen.le hsmall
      rw [hfile, readBack_wellFormed htinv hds hdswf (hlen ▸ hmax) (le_refl _) hsmall, hcontent,
        List.take_length, List.drop_eq_nil_of_le (Nat.le_add_right _ _), List.append_nil] at hback
      rw [Except.ok.inj hback, hτ]
    · -- the writer is at the new end
      have hlt := (List.getElem?_eq_some_iff.mp h.writer).1
      rw [hlen, hτ]
      change t.fileDescriptors[w]? = _
      rw [hplace.slots, List.getElem?_set_self hlt]
    · -- and the readers are where they were, in a prefix of what was there
      rcases h.reader i d hr with ⟨o, hle, hslot, hobt⟩
      refine ⟨o, by omega, ?_, ?_⟩
      · rw [hτ]
        change t.fileDescriptors[i]? = _
        rw [hplace.slots, List.getElem?_set_ne hr.ne.symm, hslot]
      · rw [hτ]
        change σ.obtained i = (σ.written ++ buf).take o
        rw [hobt, List.take_append_of_le_length hle]

/-- A read returns what is asked for or, if that is less, all that is left. -/
theorem Streaming.read (h : Streaming s f w dw σ) (hmax : σ.written.length ≤ maxFileSize)
    {i n : Nat} {d : FileDesc} (hr : Reader s f w i d) (hn : n < 2 ^ 63) :
    ∃ o t, σ.state.fileDescriptors[i]? = some (some { d with offset := o }) ∧
      o ≤ σ.written.length ∧ σ.obtained i = σ.written.take o ∧
      ufsRead σ.state ((i : Int) + 1) n = .ok ((min n (σ.written.length - o) : Nat),
        (σ.written.drop o).take n, t) ∧
      t = σ.state.setDesc i { d with offset := o + min n (σ.written.length - o) } := by
  rcases h.stored with ⟨cs, hstores, hwf, hcontent⟩
  rcases h.inv with ⟨fl, ch, hlay, htab⟩
  rcases h.reader i d hr with ⟨o, hle, hslot, hobt⟩
  have hread := ufsRead_slot htab hslot hr.may (hr.file ▸ hstores) n
  rw [readFrom_wellFormed hn hwf hmax hle, ok_bind, hcontent] at hread
  refine ⟨o, _, hslot, hle, hobt, ?_, rfl⟩
  have hlen : ((σ.written.drop o).take n).length = min n (σ.written.length - o) := by
    rw [List.length_take, List.length_drop]
  rw [hread, hlen]

theorem Streaming.readStep (h : Streaming s f w dw σ) (hmax : σ.written.length ≤ maxFileSize)
    {i n : Nat} {d : FileDesc} (hr : Reader s f w i d) (hn : n < 2 ^ 63) :
    ∃ τ, σ.exec m w (.read i n) = .ok τ ∧ Streaming s f w dw τ ∧ τ.written = σ.written := by
  rcases h.read hmax hr hn with ⟨o, t, hslot, hle, hobt, hread, ht⟩
  obtain ⟨τ, hτ⟩ : ∃ τ : Stream, τ = { σ with
    state := t
    obtained := Function.update σ.obtained i (σ.obtained i ++ (σ.written.drop o).take n) } := ⟨_, rfl⟩
  have hlt := (List.getElem?_eq_some_iff.mp hslot).1
  refine ⟨τ, ?_, ⟨?_, ?_, ?_, fun j e hj => ?_⟩, by rw [hτ]⟩
  · simp only [Stream.exec, hread, ok_bind, pure_eq_ok, hτ]
  · rw [hτ]
    change Inv t
    rw [ht]
    exact h.inv.setDesc hslot rfl
  · rcases h.stored with ⟨cs, hstores, hwf⟩
    rw [hτ]
    refine ⟨cs, ?_, hwf⟩
    change t.Stores f σ.written.length cs
    rw [ht]
    exact setDesc_sameFile σ.state i _ f _ _ hstores
  · rw [hτ]
    change t.fileDescriptors[w]? = _
    rw [ht, State.setDesc, List.getElem?_set_ne hr.ne]
    exact h.writer
  · rw [hτ]
    by_cases hji : j = i
    · -- the reader itself has moved on by what it got
      subst hji
      obtain rfl : d = e := by
        have hsame := hr.slot.symm.trans hj.slot
        exact Option.some.inj (Option.some.inj hsame)
      refine ⟨o + min n (σ.written.length - o), by dsimp only; omega, ?_, ?_⟩
      · change t.fileDescriptors[j]? = _
        rw [ht, State.setDesc, List.getElem?_set_self hlt]
      · dsimp only
        rw [Function.update_self, hobt, List.take_add, List.take_eq_take_min (i := n),
          List.length_drop]
    · -- another reader has not moved
      rcases h.reader j e hj with ⟨p, hple, hpslot, hpobt⟩
      refine ⟨p, hple, ?_, ?_⟩
      · change t.fileDescriptors[j]? = _
        rw [ht, State.setDesc, List.getElem?_set_ne (Ne.symm hji), hpslot]
      · dsimp only
        rw [Function.update_of_ne hji, hpobt]

theorem Streaming.start (h : Inv s) (hempty : s.Stores f 0 [])
    (hw : s.fileDescriptors[w]? = some (some dw)) (hoff : dw.offset = 0) :
    Streaming s f w dw (Stream.start s) := by
  have hdw : ({ dw with offset := 0 } : FileDesc) = dw := by rw [← hoff]
  refine ⟨h, ⟨[], hempty, .nil, rfl⟩, ?_, fun i d hr => ⟨0, le_refl _, ?_, rfl⟩⟩
  · rw [show ({ dw with offset := (Stream.start s).written.length } : FileDesc) = dw from hdw]
    exact hw
  · have hd : ({ d with offset := 0 } : FileDesc) = d := by rw [← hr.start]
    rw [hd]
    exact hr.slot

/-- The run lemma: no event fails, and every event keeps the stream. -/
theorem Streaming.run (h : Streaming s f w dw σ) (hfile : dw.file = f)
    (hmay : mayWrite dw.openFlags = true) (es : List Event) (hes : ∀ e ∈ es, e.Allowed s f w)
    (hmax : σ.written.length + (appended es).length ≤ maxFileSize) :
    ∃ τ, σ.run m w es = .ok τ ∧ Streaming s f w dw τ ∧ τ.written = σ.written ++ appended es := by
  induction es generalizing σ with
  | nil => exact ⟨σ, rfl, h, (List.append_nil _).symm⟩
  | cons e es ih =>
    have hrest : ∀ e' ∈ es, e'.Allowed s f w := fun e' he' => hes e' (List.mem_cons_of_mem _ he')
    cases e with
    | append buf =>
      rw [appended, List.length_append, ← Nat.add_assoc] at hmax
      have hroom : σ.written.length + buf.length ≤ maxFileSize := by omega
      rcases h.append (m := m) hfile hmay hroom with ⟨τ, hexec, hτ, hwritten⟩
      rcases ih hτ hrest (by rw [hwritten, List.length_append]; exact hmax) with
        ⟨υ, hrun, hυ, hυwritten⟩
      refine ⟨υ, ?_, hυ, ?_⟩
      · simp only [Stream.run, hexec, ok_bind, hrun]
      · rw [hυwritten, hwritten, appended, List.append_assoc]
    | read i n =>
      rcases hes _ (List.mem_cons_self) with ⟨hn, d, hr⟩
      rw [appended] at hmax
      rcases h.readStep (m := m) (by omega) hr hn with ⟨τ, hexec, hτ, hwritten⟩
      rcases ih hτ hrest (by rw [hwritten]; exact hmax) with ⟨υ, hrun, hυ, hυwritten⟩
      refine ⟨υ, ?_, hυ, ?_⟩
      · simp only [Stream.run, hexec, ok_bind, hrun]
      · rw [hυwritten, hwritten, appended]

/-! ## Empty files -/

/-- What the readers of an empty file may expect while `w` appends at most `maxFileSize` bytes to it:
after any sequence of appends and reads each has obtained the prefix of the written bytes that its
offset gives, and its next read of `n` bytes returns `n` bytes, or all that are left if fewer. -/
def IsStream (m : Malloc) (s : State) (f : Ptr) (w : Nat) : Prop :=
  ∀ es : List Event, (∀ e ∈ es, e.Allowed s f w) → (appended es).length ≤ maxFileSize →
    ∃ σ, (Stream.start s).run m w es = .ok σ ∧ σ.written = appended es ∧
      ∀ i d, Reader s f w i d → ∃ o,
        σ.state.fileDescriptors[i]? = some (some { d with offset := o }) ∧
        o ≤ (appended es).length ∧ σ.obtained i = (appended es).take o ∧
        ∀ n, n < 2 ^ 63 → ∃ bytes t, ufsRead σ.state ((i : Int) + 1) n =
            .ok ((min n ((appended es).length - o) : Nat), bytes, t) ∧
          bytes.length = min n ((appended es).length - o)

theorem isStream_of_no_block (m : Malloc) (h : Inv s) (hempty : s.Stores f 0 [])
    (hw : s.fileDescriptors[w]? = some (some dw)) (hfile : dw.file = f)
    (hmay : mayWrite dw.openFlags = true) (hoff : dw.offset = 0) : IsStream m s f w := by
  intro es hes htotal
  have hstart : Streaming s f w dw (Stream.start s) := Streaming.start h hempty hw hoff
  have hzero : (Stream.start s).written.length + (appended es).length ≤ maxFileSize := by
    rw [show (Stream.start s).written.length = 0 from rfl]
    omega
  rcases hstart.run (m := m) hfile hmay es hes hzero with ⟨σ, hrun, hσ, hwritten⟩
  rw [show (Stream.start s).written = [] from rfl, List.nil_append] at hwritten
  refine ⟨σ, hrun, hwritten, fun i d hr => ?_⟩
  rcases hσ.reader i d hr with ⟨o, hle, hslot, hobt⟩
  refine ⟨o, hslot, hwritten ▸ hle, hwritten ▸ hobt, fun n hn => ?_⟩
  rcases hσ.read (hwritten ▸ htotal) hr hn with ⟨p, t, hpslot, -, -, hread, -⟩
  obtain rfl : o = p := by
    have hsame := hslot.symm.trans hpslot
    simpa using hsame
  rw [hwritten] at hread
  exact ⟨_, t, hread, by rw [List.length_take, List.length_drop]⟩

/-- With nobody to read there is nothing but appends, which return. -/
theorem isStream_of_no_reader (hs : Reachable (Step m) State.init s)
    (hnone : ∀ i d, ¬ Reader s f w i d) : IsStream m s f w := by
  have hall : ∀ (es : List Event) (σ : Stream), Reachable (Step m) State.init σ.state →
      (∀ e ∈ es, e.Allowed s f w) →
      ∃ τ, σ.run m w es = .ok τ ∧ τ.written = σ.written ++ appended es := by
    intro es
    induction es with
    | nil => exact fun σ _ _ => ⟨σ, rfl, (List.append_nil _).symm⟩
    | cons e es ih =>
      intro σ hσ hes
      cases e with
      | read i n =>
        rcases hes _ List.mem_cons_self with ⟨-, d, hr⟩
        exact absurd hr (hnone i d)
      | append buf =>
        rcases ufsWrite_covered (Reachable.inv hσ) (Reachable.covered hσ) m ((w : Int) + 1) buf with
          ⟨r, t, hok, -⟩
        have hnext : Reachable (Step m) State.init t := by
          refine hσ.snoc (a := .write ((w : Int) + 1) buf) ⟨{ ret := r }, ?_⟩
          simp only [exec, hok, ok_bind, pure_eq_ok]
        rcases ih { σ with state := t, written := σ.written ++ buf } hnext
          fun e he => hes e (List.mem_cons_of_mem _ he) with ⟨τ, hrun, hwritten⟩
        refine ⟨τ, ?_, ?_⟩
        · simp only [Stream.run, Stream.exec, hok, ok_bind, pure_eq_ok, hrun]
        · rw [hwritten, appended, List.append_assoc]
  intro es hes _
  rcases hall es (Stream.start s) hs hes with ⟨σ, hrun, hwritten⟩
  exact ⟨σ, hrun, hwritten, fun i d hr => absurd hr (hnone i d)⟩

/-- One byte read at the start of a full block. -/
theorem readCells_one {c : Cell} (hc : c.Valid) (hfull : c.occupied = blockSize)
    (cs : List Cell) : readCells 1 (c :: cs) [] 0 = .ok (c.memory.take 1, 1) := by
  have hmem := hc.memory
  have hcopy : copyFrom c.memory 0 1 = .ok (c.memory.take 1) := by
    rw [copyFrom, if_pos]
    · rfl
    · rw [hmem]
      decide
  have hlen : (c.memory.take 1).length = 1 := by
    rw [List.length_take, hmem]
    rfl
  rw [readCells, hfull]
  show (copyFrom c.memory 0 1 >>= fun bytes => readCells 1 cs ([] ++ bytes) (0 + 1)) = _
  rw [hcopy, ok_bind, List.nil_append]
  cases cs with
  | nil => rfl
  | cons d ds =>
    rw [readCells, hlen, if_neg (by decide)]

/-- A byte that is appended to a file with a full block of size 0 goes into a new block. -/
theorem append_behind_block (h : Inv s) {c : Cell} {cs : List Cell}
    (hstores : s.Stores dw.file 0 (c :: cs)) (hfull : c.occupied = blockSize)
    (hw : s.fileDescriptors[w]? = some (some dw)) (hmay : mayWrite dw.openFlags = true)
    (hoff : dw.offset = 0) (m : Malloc) (b : UInt8) :
    ∃ r t es, ufsWrite m s ((w : Int) + 1) [b] = .ok (r, t) ∧ Inv t ∧
      t.Stores dw.file 1 (c :: es) ∧
      ∀ i, i ≠ w → t.fileDescriptors[i]? = s.fileDescriptors[i]? := by
  rcases id h with ⟨fl, ch, hlay, htab⟩
  rcases hstores with ⟨F, ps, hF, hsize, hcells⟩
  obtain rfl := hlay.chain_eq hF
  have hfits : (F.size + [b].length) % 2 ^ 64 ≤ maxFileSize := by
    rw [hsize, List.length_singleton]
    decide
  rcases ufsWrite_slot hlay htab hw hmay hF.file (List.cons_ne_nil b []) hfits
    (by rw [hoff]; exact Nat.zero_le _) m with ⟨u, G, qs, hwrite, hrel, hGsize, hGcells⟩
  rw [hoff, hcells] at hGcells
  have hbehind : ∀ e, (c :: cs)[0 / blockSize]? = some e → e.occupied = blockSize := by
    intro e he
    cases he
    exact hfull
  obtain ⟨es, hes⟩ : ∃ es, u.cells qs = c :: es := by
    rw [hGcells, List.length_singleton,
      writeCells_step 0 (by simp) (writableCell_new _ hbehind) rfl]
    exact ⟨_, rfl⟩
  refine ⟨_, _, es, hwrite, (ufsWrite_frame h hwrite).1, ?_, fun i hi => ?_⟩
  · refine setDesc_sameFile u w _ _ _ _ ⟨G, qs, hrel.after, ?_, hes⟩
    rw [hGsize, hsize, hoff]
    rfl
  · rw [State.setDesc, List.getElem?_set_ne hi.symm, hrel.slots]

/-- So it is not what a reader gets. -/
theorem not_isStream_of_block (h : Inv s) {c : Cell} {cs : List Cell}
    (hstores : s.Stores f 0 (c :: cs)) (hfull : c.occupied = blockSize)
    (hw : s.fileDescriptors[w]? = some (some dw)) (hfile : dw.file = f)
    (hmay : mayWrite dw.openFlags = true) (hoff : dw.offset = 0) {i : Nat} {d : FileDesc}
    (hr : Reader s f w i d) : ¬ IsStream m s f w := by
  intro hstream
  subst hfile
  have hvalid : c.Valid := by
    rcases hstores with ⟨F, ps, hF, -, hcells⟩
    exact hF.cells_valid c (hcells ▸ List.mem_cons_self)
  obtain ⟨x, xs, hmem⟩ : ∃ x xs, c.memory = x :: xs := by
    apply List.exists_cons_of_length_pos
    rw [hvalid.memory]
    decide
  -- a byte that the block does not begin with
  obtain ⟨b, hb⟩ : ∃ b : UInt8, b ≠ x := ⟨x + 1, by simp⟩
  rcases append_behind_block h hstores hfull hw hmay hoff m b with
    ⟨r, t, es, hwrite, htinv, htstores, hslots⟩
  have hslot : t.fileDescriptors[i]? = some (some d) := (hslots i hr.ne).trans hr.slot
  have hread : ufsRead t ((i : Int) + 1) 1 =
      .ok (1, [x], t.setDesc i { d with offset := 1 }) := by
    rw [← hr.file] at htstores
    rcases htinv with ⟨gl, kh, -, htab'⟩
    rw [ufsRead_slot htab' hslot hr.may htstores, hr.start, readFrom, if_pos ⟨by simp, by decide⟩]
    show (readCells 1 (c :: es) [] 0 >>= _) = _
    rw [readCells_one hvalid hfull, hmem, ok_bind]
    rfl
  have hallowed : ∀ e ∈ [Event.append [b], .read i 1], e.Allowed s dw.file w := by
    intro e he
    simp only [List.mem_cons, List.not_mem_nil, or_false] at he
    rcases he with rfl | rfl
    · trivial
    · exact ⟨by decide, d, hr⟩
  rcases hstream _ hallowed (show 1 ≤ maxFileSize by decide) with ⟨σ, hrun, -, hσ⟩
  simp only [Stream.run, Stream.exec, Stream.start, hwrite, hread, ok_bind, pure_eq_ok] at hrun
  cases hrun
  rcases hσ i d hr with ⟨o, -, -, hobt, -⟩
  replace hobt : Function.update (fun _ => []) i [x] i = [b].take o := hobt
  rw [Function.update_self] at hobt
  cases o with
  | zero => cases hobt
  | succ o =>
    rw [List.take_succ_cons, List.take_nil] at hobt
    cases hobt
    exact hb rfl

/-- The block that an empty file has is full, since the state is reachable. -/
theorem IsStream.no_block (hs : Reachable (Step m) State.init s)
    (hw : s.fileDescriptors[w]? = some (some dw)) (hmay : mayWrite dw.openFlags = true)
    (hoff : dw.offset = 0) {F : File} (hF : s.files dw.file = some F) (hempty : F.size = 0)
    {i : Nat} {d : FileDesc} (hr : Reader s dw.file w i d) (hstream : IsStream m s dw.file w) :
    F.firstBlock = none := by
  have hinv := Reachable.inv hs
  rcases id hinv with ⟨fl, ch, hlay, -⟩
  have hstores := hlay.stores hF
  rw [hempty] at hstores
  rcases (Reachable.shaped hs).empty hstores with hnil | ⟨c, cs, hcells, hfull⟩
  · rw [(hlay.fileChain hF).linked.eq_nil_iff_head, ← List.length_eq_zero_iff, ← cells_length s,
      hnil]
    rfl
  · rw [hcells] at hstores
    exact absurd hstream (not_isStream_of_block hinv hstores hfull hw rfl hmay hoff hr)

/-- In a reachable state an empty file with a writer at its start is a stream if and only if it has
no block, or nobody reads it. -/
theorem appended_file_is_stream_iff (m : Malloc) {s : State}
    (hs : Reachable (Step m) State.init s) {w : Nat} {dw : FileDesc}
    (hw : s.fileDescriptors[w]? = some (some dw)) (hmay : mayWrite dw.openFlags = true)
    (hoff : dw.offset = 0) {F : File} (hF : s.files dw.file = some F) (hempty : F.size = 0) :
    IsStream m s dw.file w ↔ F.firstBlock = none ∨ ∀ i d, ¬ Reader s dw.file w i d := by
  constructor
  · intro hstream
    by_cases hreader : ∃ i d, Reader s dw.file w i d
    · rcases hreader with ⟨i, d, hr⟩
      exact .inl (hstream.no_block hs hw hmay hoff hF hempty hr)
    · exact .inr fun i d hr => hreader ⟨i, d, hr⟩
  · rintro (hnone | hnone)
    · have hstores := (Reachable.inv hs).stores_nil hF hnone
      rw [hempty] at hstores
      exact isStream_of_no_block m (Reachable.inv hs) hstores hw rfl hmay hoff
    · exact isStream_of_no_reader hs hnone

theorem appended_file_is_stream_iff_two : ∃ s,
    execAll .zeroed State.init twoDescriptors = .ok s ∧
    Reader s 0 0 1 ⟨0, ufsReadWrite, 0⟩ ∧ IsStream .zeroed s 0 0 := by
  rcases twoDescriptors_spec with ⟨s, hs, hreach, hslot₀, hslot₁, ⟨F, ps, hF, hsize, hcells⟩⟩
  have hnone : F.firstBlock = none := by
    rw [hF.linked.eq_nil_iff_head, ← List.length_eq_zero_iff, ← cells_length s, hcells]
    rfl
  have hreader : Reader s 0 0 1 ⟨0, ufsReadWrite, 0⟩ := ⟨by decide, hslot₁, rfl, by decide, rfl⟩
  exact ⟨s, hs, hreader, (appended_file_is_stream_iff .zeroed hreach hslot₀ (by decide) rfl hF.file
    hsize).mpr (.inl hnone)⟩

/-- A full block is overwritten through the other descriptor, which leaves one block more than the
size needs, and the file is cut to nothing: it is no stream any more. -/
theorem left_block_no_stream : ∃ s F, execAll .zeroed State.init strayBlockCalls = .ok s ∧
    s.files 0 = some F ∧ F.size = 0 ∧
    s.fileDescriptors[0]? = some (some ⟨0, ufsCreate ||| ufsReadWrite, 0⟩) ∧
    Reader s 0 0 1 ⟨0, ufsReadWrite, 0⟩ ∧ ¬ IsStream .zeroed s 0 0 := by
  have hslots : (execAll .zeroed State.init strayBlockCalls).map (fun s =>
      (s.fileDescriptors[0]?, s.fileDescriptors[1]?)) =
      .ok (some (some ⟨0, ufsCreate ||| ufsReadWrite, 0⟩), some (some ⟨0, ufsReadWrite, 0⟩)) := by
    decide +kernel
  have hfile : (execAll .zeroed State.init strayBlockCalls).map (fun s =>
      (s.files 0).map fun F => (F.size, F.firstBlock)) = .ok (some (0, some 1)) := by decide +kernel
  have hreturns : (execAll .zeroed State.init strayBlockCalls).toBool = true := by decide +kernel
  rcases toBool_eq_true.mp hreturns with ⟨s, hs⟩
  rw [hs] at hslots hfile
  have hslots := Prod.mk.inj (Except.ok.inj hslots)
  rcases Option.map_eq_some_iff.mp (Except.ok.inj hfile) with ⟨F, hF, hFeq⟩
  rw [Prod.mk.injEq] at hFeq
  have hreader : Reader s 0 0 1 ⟨0, ufsReadWrite, 0⟩ := ⟨by decide, hslots.2, rfl, by decide, rfl⟩
  refine ⟨s, F, hs, hF, hFeq.1, hslots.1, hreader, fun hstream => ?_⟩
  have hnone := hstream.no_block ⟨_, execAll_run hs⟩ hslots.1 (by decide) rfl hF hFeq.1 hreader
  rw [hFeq.2] at hnone
  cases hnone

end SystemProgramming.UserFs
