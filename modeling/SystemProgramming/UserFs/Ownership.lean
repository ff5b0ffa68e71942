import SystemProgramming.UserFs.Consistency

/-!
# No block is lost

The layout says that every block of a chain is allocated.  The other direction is shown here: in
every reachable state an allocated block is on the chain of a listed file, so that nothing the
library has taken from `malloc` ever goes out of its reach, and `ufs_destroy` gives all of it back.
-/

open DoublyLinked Fallible
open Runs (Reachable)

namespace SystemProgramming.UserFs

/-- A layout without stray blocks. -/
structure Tight (s : State) (fl : List Ptr) (ch : Ptr → List Ptr) : Prop extends
    Layout s fl ch where
  owned : ∀ p b, s.blocks p = some b → ∃ f ∈ fl, p ∈ ch f

/-- From `s` to `s'` the chain of a file goes from `ps` to `ps'`, and a block that is allocated in
the end is on the new chain or was allocated outside the old one. -/
structure Tidy (s s' : State) (ps ps' : List Ptr) : Prop where
  errno : s'.ufsErrorCode = s.ufsErrorCode
  owned : ∀ q b, s'.blocks q = some b → q ∈ ps' ∨ q ∉ ps ∧ ∃ c, s.blocks q = some c

/-- From `s` to `s'` no address is allocated but those in `ps`. -/
structure Allocates (s s' : State) (ps : List Ptr) : Prop where
  errno : s'.ufsErrorCode = s.ufsErrorCode
  blocks : ∀ q b, s'.blocks q = some b → q ∈ ps ∨ ∃ c, s.blocks q = some c

/-- From `s`, where the chains are `ch`, to `s'` the chain of one file is laid out anew, and the
descriptors may move. -/
def Rewrites (s s' : State) (ch : Ptr → List Ptr) : Prop :=
  ∃ u f F G qs slots, Relayout s u f F G (ch f) qs ∧ Tidy s u (ch f) qs ∧
    s' = { u with fileDescriptors := slots }

variable {m : Malloc} {s t u : State} {fl : List Ptr} {ch : Ptr → List Ptr} {f : Ptr} {F G : File}
  {ps qs rs : List Ptr} {n : Nat} {r : Int}

theorem Tidy.trans (h : Tidy s t ps qs) (h' : Tidy t u qs rs) : Tidy s u ps rs := by
  refine ⟨h'.errno.trans h.errno, fun q b hq => ?_⟩
  rcases h'.owned q b hq with hmem | ⟨hout, c, hc⟩
  · exact .inl hmem
  · rcases h.owned q c hc with hmem | hold
    · exact absurd hmem hout
    · exact .inr hold

/-- What has been allocated is at the new end of the chain. -/
theorem Allocates.tidy (h : Allocates s t rs) (ps : List Ptr) : Tidy s t ps (ps ++ rs) := by
  refine ⟨h.errno, fun q b hq => ?_⟩
  by_cases hps : q ∈ ps
  · exact .inl (List.mem_append_left rs hps)
  · rcases h.blocks q b hq with hnew | hold
    · exact .inl (List.mem_append_right ps hnew)
    · exact .inr ⟨hps, hold⟩

theorem Allocates.keep (h : Allocates s t []) (ps : List Ptr) : Tidy s t ps ps := by
  have htidy := h.tidy ps
  rwa [List.append_nil] at htidy

theorem Allocates.refl (s : State) (ps : List Ptr) : Allocates s s ps :=
  ⟨rfl, fun _ b hq => .inr ⟨b, hq⟩⟩

theorem FileChain.unique (h : FileChain s f F ps) (h' : FileChain s f G qs) : F = G ∧ ps = qs := by
  obtain rfl : F = G := Option.some.inj (h.file.symm.trans h'.file)
  exact ⟨rfl, Seg.unique h.linked h'.linked⟩

theorem store_cases {blocks : Heap Block} {p q : Ptr} {b c : Block}
    (h : store blocks p b q = some c) : q = p ∨ blocks q = some c := by
  by_cases hqp : q = p
  · exact .inl hqp
  · rw [store_ne _ _ hqp] at h
    exact .inr h

/-- Storing a block where one may be or already is. -/
theorem Allocates.store (h : Allocates s t ps) {p : Ptr} {b : Block}
    (hp : p ∈ ps ∨ ∃ c, t.blocks p = some c) (herr : u.ufsErrorCode = t.ufsErrorCode)
    (hblocks : u.blocks = store t.blocks p b) : Allocates s u ps := by
  refine ⟨herr.trans h.errno, fun q c hq => ?_⟩
  rw [hblocks] at hq
  rcases store_cases hq with rfl | hold
  · rcases hp with hmem | ⟨d, hd⟩
    · exact .inl hmem
    · exact h.blocks q d hd
  · exact h.blocks q c hold

/-! ## Updates of the heap -/

theorem Tight.congr (h : Tight s fl ch) (hfiles : t.files = s.files) (hblocks : t.blocks = s.blocks)
    (hlist : t.fileList = s.fileList) (hbrk : t.brk = s.brk) : Tight t fl ch := by
  refine ⟨h.toLayout.congr hfiles hblocks hlist hbrk, ?_⟩
  rw [hblocks]
  exact h.owned

theorem Tight.setFile (h : Tight s fl ch) (hF : s.files f = some F)
    (hfirst : G.firstBlock = F.firstBlock) (hlast : G.lastBlock = F.lastBlock)
    (hnext : G.next = F.next) (hprev : G.prev = F.prev) : Tight (s.setFile f G) fl ch :=
  ⟨h.toLayout.setFile hF hfirst hlast hnext hprev, h.owned⟩

/-- A freed file takes all of its blocks with it. -/
theorem Tight.withoutFile (h : Tight s fl ch) (hF : s.files f = some F) :
    Tight (withoutFile s ch f F) (fl.erase f) ch := by
  refine ⟨h.toLayout.withoutFile hF, ?_⟩
  intro p b hp
  by_cases hpf : p ∈ ch f
  · simp [UserFs.withoutFile, hpf] at hp
  · rcases h.owned p b (by simpa [UserFs.withoutFile, hpf] using hp) with ⟨g, hg, hpg⟩
    have hgf : g ≠ f := by
      rintro rfl
      exact hpf hpg
    exact ⟨g, (List.mem_erase_of_ne hgf).mpr hg, hpg⟩

theorem Tight.relayout (h : Tight s fl ch) (hr : Relayout s t f F G ps qs)
    (htidy : Tidy s t ps qs) : Tight t fl (Function.update ch f qs) := by
  obtain rfl := h.toLayout.chain_eq hr.before
  have hf : f ∈ fl := (h.alloc f).mpr ⟨F, hr.before.file⟩
  refine ⟨h.toLayout.relayout hr, ?_⟩
  intro p b hp
  rcases htidy.owned p b hp with hnew | ⟨hout, c, hc⟩
  · refine ⟨f, hf, ?_⟩
    rwa [Function.update_self]
  · -- a block that another file had and still has
    rcases h.owned p c hc with ⟨g, hg, hpg⟩
    have hgf : g ≠ f := by
      rintro rfl
      exact hout hpg
    refine ⟨g, hg, ?_⟩
    rwa [Function.update_of_ne hgf]

/-! ## Writing -/

theorem appendBlock_allocates {p : Ptr} (hok : appendBlock m s f = .ok (t, p)) :
    Allocates s t [s.brk] := by
  have hself : s.brk ∈ [s.brk] := List.mem_singleton_self _
  rcases bind_eq_ok.mp hok with ⟨F, -, hok⟩
  cases hl : F.lastBlock with
  | none =>
    simp only [hl] at hok
    split at hok
    · cases hok
      exact (Allocates.refl s _).store (.inl hself) rfl rfl
    · cases hok
  | some l =>
    simp only [hl] at hok
    rcases bind_eq_ok.mp hok with ⟨last, hlast, hok⟩
    cases hok
    rcases load_eq_ok.mp hlast with ⟨l', hl', hlast⟩
    cases hl'
    -- the new block, then the old last one with its link
    have hnew : ∀ b, Allocates s (s.setBlock s.brk b) [s.brk] :=
      fun b => (Allocates.refl s _).store (.inl hself) rfl rfl
    exact (hnew _).store (.inr ⟨last, hlast⟩) rfl rfl

theorem writableBlock_tidy (h : FileChain s f F ps) {p : Ptr} {block : Option Ptr}
    (hok : writableBlock m s f block = .ok (t, p)) (ht : FileChain t f G qs) : Tidy s t ps qs := by
  have hnew : appendBlock m s f = .ok (t, p) → Tidy s t ps qs := by
    intro happ
    rcases appendBlock_eq h m with ⟨v, H, hv, hrel, -⟩
    obtain ⟨rfl, -⟩ := Prod.mk.inj (Except.ok.inj (hv.symm.trans happ))
    rw [← (hrel.after.unique ht).2]
    exact (appendBlock_allocates happ).tidy ps
  cases block with
  | none => exact hnew hok
  | some q =>
    rcases bind_eq_ok.mp hok with ⟨b, -, hok⟩
    split at hok
    · exact hnew hok
    · cases hok
      rw [(h.unique ht).2]
      exact (Allocates.refl _ []).keep qs

theorem writeBlock_allocates {p : Ptr} {buf : List UInt8} {w : Nat}
    (hok : writeBlock s p buf w = .ok t) : Allocates s t [] := by
  rcases bind_eq_ok.mp hok with ⟨block, hblock, hok⟩
  rcases bind_eq_ok.mp hok with ⟨memory, -, hok⟩
  cases hok
  rcases load_eq_ok.mp hblock with ⟨p', hp', hblock⟩
  cases hp'
  exact (Allocates.refl s []).store (.inr ⟨block, hblock⟩) rfl rfl

/-- Every block that the write loop allocates is on the chain when it ends. -/
theorem writeLoop_tidy (h : FileChain s f F ps) {fuel : Nat} {buf : List UInt8}
    (hfuel : buf.length ≤ fuel) {k offset o : Nat}
    (hok : writeLoop m f fuel s ps[k]? buf offset = .ok (t, o)) :
    ∃ G qs, Relayout s t f F G ps qs ∧ Tidy s t ps qs := by
  induction fuel generalizing s F ps k buf offset with
  | zero =>
    obtain rfl : buf = [] := List.length_eq_zero_iff.mp (by omega)
    cases hok
    exact ⟨F, ps, h.refl, (Allocates.refl t []).keep ps⟩
  | succ fuel ih =>
    cases buf with
    | nil =>
      cases hok
      exact ⟨F, ps, h.refl, (Allocates.refl t []).keep ps⟩
    | cons x xs =>
      obtain ⟨buf, hbuf⟩ : ∃ buf, buf = x :: xs := ⟨_, rfl⟩
      have hpos : 0 < buf.length := by simp [hbuf]
      have hwlt : offset % blockSize < blockSize := Nat.mod_lt _ (by decide)
      obtain ⟨l, hl⟩ : ∃ l, l = min buf.length (blockSize - offset % blockSize) := ⟨_, rfl⟩
      rcases writableBlock_eq h m k with ⟨u, G, qs, p, j, c, hwb, hsu, -, -, hj, hcj, -⟩
      have hfit : offset % blockSize + (buf.take l).length ≤ blockSize := by
        rw [List.length_take]
        omega
      rcases writeBlock_eq hsu.after hj hcj hfit with ⟨v, hwv, huv, -⟩
      have hrest : (buf.drop l).length ≤ fuel := by
        rw [← hbuf] at hfuel
        rw [List.length_drop]
        omega
      simp only [writeLoop] at hok
      rw [← hbuf, ← hl, hwb, ok_bind] at hok
      dsimp only at hok
      rw [hwv, ok_bind, ← hj] at hok
      rcases ih huv.after hrest hok with ⟨H, rs, hvt, htidy⟩
      have hsv : Tidy s v ps qs :=
        (writableBlock_tidy h hwb hsu.after).trans ((writeBlock_allocates hwv).keep qs)
      exact ⟨H, rs, (hsu.trans huv).trans hvt, hsv.trans htidy⟩

/-! ## Resizing -/

theorem growBlock_allocates (hok : growBlock m s f = .ok t) : Allocates s t [s.brk] := by
  have hself : s.brk ∈ [s.brk] := List.mem_singleton_self _
  rcases bind_eq_ok.mp hok with ⟨F, -, hok⟩
  cases hl : F.lastBlock with
  | none =>
    simp only [hl] at hok
    cases hok
    exact (Allocates.refl s _).store (.inl hself) rfl rfl
  | some l =>
    simp only [hl] at hok
    rcases bind_eq_ok.mp hok with ⟨last, hlast, hok⟩
    cases hok
    rcases load_eq_ok.mp hlast with ⟨l', hl', hlast⟩
    cases hl'
    have hnew : ∀ b, Allocates s (s.setBlock s.brk b) [s.brk] :=
      fun b => (Allocates.refl s _).store (.inl hself) rfl rfl
    exact (hnew _).store (.inr ⟨last, hlast⟩) rfl rfl

/-- The growing loop with what follows it, when the chain is not empty in the end. -/
theorem growLoop_tidy (h : FileChain s f F ps) {k : Nat} (hne : k + ps.length ≠ 0)
    (hok : (growLoop m f k s >>= fun s => finishGrow s f n) = .ok (r, t)) :
    ∃ G qs, Relayout s t f F G ps qs ∧ Tidy s t ps qs := by
  induction k generalizing s F ps with
  | zero =>
    rcases List.eq_nil_or_concat' ps with rfl | ⟨xs, l, rfl⟩
    · simp at hne
    · have hl : F.lastBlock = some l := by
        rw [h.last_eq, List.getLast?_concat]
      rcases h.valid l (by simp) with ⟨b, hb, -⟩
      rcases h.setLast List.getLast?_concat hb n with ⟨hset, -⟩
      have hrun : (growLoop m f 0 s >>= fun s => finishGrow s f n) =
          .ok (0, (s.setBlock l { b with occupied := lastOccupied n }).setFile f
            { F with size := n }) := by
        simp only [growLoop, ok_bind, finishGrow, load_some h.file, hl, load_some hb, pure_eq_ok]
      obtain ⟨-, rfl⟩ := Prod.mk.inj (Except.ok.inj (hrun.symm.trans hok))
      refine ⟨_, _, hset.trans (hset.after.setSize n), Allocates.keep ?_ _⟩
      exact (Allocates.refl s []).store (.inr ⟨b, hb⟩) rfl rfl
  | succ k ih =>
    rcases growBlock_eq h m with ⟨u, G, b, hround, hGl, huf, hub, hlt, -, hrel, -⟩
    simp only [growLoop, hround, ok_bind] at hok
    -- the loop does not look at what `occupied` of the new block was
    rw [← growLoop_forget huf hGl hub hlt 0 m k n] at hok
    rcases ih hrel.after (by simp) hok with ⟨H, qs, hut, htidy⟩
    have hnew := (growBlock_allocates hround).store (u := u.setBlock s.brk { b with occupied := 0 })
      (.inr ⟨b, hub⟩) rfl rfl
    exact ⟨H, qs, hrel.trans hut, (hnew.tidy ps).trans htidy⟩

/-! ## The calls -/

theorem fillSlot_tight {idx : Nat} {flags : BitVec 32} (h : Tight s fl ch)
    (hok : fillSlot s idx f flags = .ok (r, t)) : Tight t fl ch := by
  unfold fillSlot at hok
  split at hok
  · rcases bind_eq_ok.mp hok with ⟨F, hF, hok⟩
    cases hok
    rcases load_eq_ok.mp hF with ⟨f', hf', hF⟩
    cases hf'
    apply Tight.setFile (G := { F with refs := F.refs + 1 }) _ hF rfl rfl rfl rfl
    exact h.congr rfl rfl rfl rfl
  · cases hok

theorem takeDescriptor_tight {flags : BitVec 32} (h : Tight s fl ch)
    (hok : takeDescriptor s f flags = .ok (r, t)) : Tight t fl ch := by
  unfold takeDescriptor at hok
  obtain ⟨u, hu⟩ : ∃ u : State, u = if s.fileDescriptorCapacity ≤ 0 then
      { s with
        fileDescriptors := List.replicate 10 none
        fileDescriptorCapacity := 10
        fileDescriptorUsed := 0 }
      else s := ⟨_, rfl⟩
  have hutight : Tight u fl ch := by
    rw [hu]
    split
    · exact h.congr rfl rfl rfl rfl
    · exact h
  rw [← hu] at hok
  by_cases hroom : u.fileDescriptorUsed < u.fileDescriptorCapacity
  · simp only [if_pos hroom] at hok
    rcases bind_eq_ok.mp hok with ⟨slot, -, hok⟩
    cases slot with
    | none =>
      cases hok
      exact hutight.congr rfl rfl rfl rfl
    | some idx => exact fillSlot_tight hutight hok
  · simp only [if_neg hroom] at hok
    apply fillSlot_tight _ hok
    exact hutight.congr rfl rfl rfl rfl

theorem createFile_keeps {filename : List UInt8} {p : Ptr}
    (hok : createFile s filename = .ok (t, p)) :
    t.blocks = s.blocks ∧ t.ufsErrorCode = s.ufsErrorCode := by
  unfold createFile at hok
  cases hl : s.fileList with
  | none =>
    simp only [hl] at hok
    cases hok
    exact ⟨rfl, rfl⟩
  | some head =>
    simp only [hl] at hok
    rcases bind_eq_ok.mp hok with ⟨old, -, hok⟩
    cases hok
    exact ⟨rfl, rfl⟩

theorem createFile_tight {filename : List UInt8} {p : Ptr} (h : Tight s fl ch)
    (hok : createFile s filename = .ok (t, p)) :
    Tight t (s.brk :: fl) (Function.update ch s.brk []) := by
  rcases createFile_eq h.toLayout filename with ⟨u, new, hu, -, hlay, -⟩
  obtain ⟨rfl, -⟩ := Prod.mk.inj (Except.ok.inj (hu.symm.trans hok))
  refine ⟨hlay, ?_⟩
  intro q b hq
  rw [(createFile_keeps hok).1] at hq
  rcases h.owned q b hq with ⟨g, hg, hqg⟩
  have hgb : g ≠ s.brk := (h.fileBound g hg).ne
  refine ⟨g, List.mem_cons_of_mem _ hg, ?_⟩
  rwa [Function.update_of_ne hgb]

theorem ufsOpen_tight {filename : List UInt8} {flags : BitVec 32} (h : Tight s fl ch)
    (hok : ufsOpen s filename flags = .ok (r, t)) : ∃ gl kh, Tight t gl kh := by
  rcases bind_eq_ok.mp hok with ⟨found, -, hok⟩
  cases found with
  | some file => exact ⟨fl, ch, takeDescriptor_tight h hok⟩
  | none =>
    dsimp only at hok
    split at hok
    · cases hok
      exact ⟨fl, ch, h.congr rfl rfl rfl rfl⟩
    · rcases bind_eq_ok.mp hok with ⟨⟨u, file⟩, hcreate, hok⟩
      exact ⟨_, _, takeDescriptor_tight (createFile_tight h hcreate) hok⟩

/-- `ufs_write` fails, or lays out the chain of one file anew. -/
theorem ufsWrite_rewrites {fd : Int} {buf : List UInt8} (hlay : Layout s fl ch)
    (htab : s.table.Consistent) (hok : ufsWrite m s fd buf = .ok (r, t)) :
    (∃ e, t = { s with ufsErrorCode := e }) ∨ Rewrites s t ch := by
  rcases ufsWrite_cases htab m fd buf with ⟨r', e, hkeep⟩ | ⟨j, d, F, rfl, hj, hmay, hF, hbuf, hmax⟩
  · rw [hkeep] at hok
    cases hok
    exact .inl ⟨e, rfl⟩
  · right
    by_cases hoff : d.offset / blockSize ≤ (ch d.file).length
    · have hchain := hlay.fileChain hF
      have hlen : buf.length ≠ 0 := fun hnil => hbuf (List.length_eq_zero_iff.mp hnil)
      have hmax' : ¬ (F.size + buf.length) % 2 ^ 64 > maxFileSize := not_lt.mpr hmax
      have hskip := skipBlocks_seg hchain.linked
        (fun p hp => (hchain.valid p hp).imp fun _ hb => hb.1) hoff
      simp only [ufsWrite, lookupDesc_slot htab hj, ok_bind, hmay, Bool.not_true,
        Bool.false_eq_true, if_false, hlen, load_some hF, hmax', hskip] at hok
      rcases bind_eq_ok.mp hok with ⟨⟨u, o⟩, hloop, hok⟩
      rcases writeLoop_tidy hchain (le_refl _) hloop with ⟨G, qs, hrel, htidy⟩
      simp only [load_some hrel.after.file, ok_bind] at hok
      obtain ⟨-, rfl⟩ := Prod.mk.inj (Except.ok.inj hok)
      by_cases hgrow : o > G.size
      · rw [if_pos hgrow]
        have hsized : Allocates u (u.setFile d.file { G with size := o }) [] :=
          ⟨rfl, fun q b hq => .inr ⟨b, hq⟩⟩
        exact ⟨_, _, _, _, _, _, hrel.trans (hrel.after.setSize o), htidy.trans (hsized.keep qs), rfl⟩
      · rw [if_neg hgrow]
        exact ⟨_, _, _, _, _, _, hrel, htidy, rfl⟩
    · rw [ufsWrite_short hlay htab hj hmay hF hbuf hmax (not_le.mp hoff) m] at hok
      cases hok

theorem ufsRead_tight {fd : Int} {bytes : List UInt8} (h : Tight s fl ch)
    (hok : ufsRead s fd n = .ok (r, bytes, t)) : Tight t fl ch := by
  rcases bind_eq_ok.mp hok with ⟨found, -, hok⟩
  cases found with
  | none =>
    cases hok
    exact h.congr rfl rfl rfl rfl
  | some slot =>
    dsimp only at hok
    split at hok
    · cases hok
      exact h.congr rfl rfl rfl rfl
    · rcases bind_eq_ok.mp hok with ⟨F, -, hok⟩
      rcases bind_eq_ok.mp hok with ⟨block, -, hok⟩
      cases block with
      | none =>
        cases hok
        exact h
      | some block =>
        dsimp only at hok
        split at hok
        · cases hok
          exact h
        · rcases bind_eq_ok.mp hok with ⟨res, -, hok⟩
          cases hok
          exact h.congr rfl rfl rfl rfl

theorem ufsClose_tight {fd : Int} (h : Tight s fl ch) (hok : ufsClose s fd = .ok (r, t)) :
    ∃ gl kh, Tight t gl kh := by
  rcases bind_eq_ok.mp hok with ⟨found, -, hok⟩
  cases found with
  | none =>
    cases hok
    exact ⟨fl, ch, h.congr rfl rfl rfl rfl⟩
  | some slot =>
    rcases bind_eq_ok.mp hok with ⟨F, hF, hok⟩
    rcases load_eq_ok.mp hF with ⟨f', hf', hF⟩
    cases hf'
    have hset : Tight (s.setFile slot.2.file { F with refs := F.refs - 1 }) fl ch :=
      h.setFile hF rfl rfl rfl rfl
    have hself : (s.setFile slot.2.file { F with refs := F.refs - 1 }).files slot.2.file =
        some { F with refs := F.refs - 1 } := store_self _ _ _
    split at hok
    · have hfree := hset.toLayout.unlinkFree_eq hself
      rw [← bind_assoc, hfree, ok_bind] at hok
      cases hok
      exact ⟨_, _, (hset.withoutFile hself).congr rfl rfl rfl rfl⟩
    · cases hok
      exact ⟨fl, ch, hset.congr rfl rfl rfl rfl⟩

theorem ufsDelete_tight {filename : List UInt8} (h : Tight s fl ch)
    (hok : ufsDelete s filename = .ok (r, t)) : ∃ gl kh, Tight t gl kh := by
  rcases bind_eq_ok.mp hok with ⟨found, -, hok⟩
  cases found with
  | none =>
    cases hok
    exact ⟨fl, ch, h.congr rfl rfl rfl rfl⟩
  | some p =>
    rcases bind_eq_ok.mp hok with ⟨F, hF, hok⟩
    rcases load_eq_ok.mp hF with ⟨f', hf', hF⟩
    cases hf'
    split at hok
    · have hfree := h.toLayout.unlinkFree_eq hF
      rw [← bind_assoc, hfree] at hok
      cases hok
      exact ⟨_, _, h.withoutFile hF⟩
    · cases hok
      exact ⟨fl, ch, h.setFile hF rfl rfl rfl rfl⟩

/-- The blocks that a cut takes off the chain are freed. -/
theorem shrinkFile_tidy (h : FileChain s f F (ps ++ qs)) (hqs : qs.length = surplus F.size n)
    (hok : shrinkFile s f n = .ok (r, t)) : Tidy s t (ps ++ qs) ps := by
  have hlinked := h.linked
  rw [h.last_eq] at hlinked
  rcases truncateBlocks_seg ps qs hlinked (fun p hp => (h.valid p hp).imp fun _ hb => hb.1) with
    ⟨rest, hloop, -, -, hfreed, hsame⟩
  rw [hqs, surplus, ← h.last_eq] at hloop
  have hcut : Tidy s { s with blocks := rest } (ps ++ qs) ps := by
    refine ⟨rfl, fun q b hq => ?_⟩
    by_cases hps : q ∈ ps
    · exact .inl hps
    · by_cases hqs' : q ∈ qs
      · have hnone : rest q = some b := hq
        rw [hfreed q hqs'] at hnone
        cases hnone
      · have hout : q ∉ ps ++ qs := by simp [hps, hqs']
        exact .inr ⟨hout, b, (hsame q hout).symm.trans hq⟩
  -- after the loop at most the last block of the rest is written to
  have hrest : Allocates { s with blocks := rest } t [] := by
    simp only [shrinkFile, load_some h.file, ok_bind, hloop] at hok
    cases hl : ps.getLast? with
    | none =>
      simp only [hl] at hok
      split at hok
      · simp only [pure_eq_ok, ok_bind] at hok
        split at hok
        · cases hok
          exact ⟨rfl, fun q b hq => .inr ⟨b, hq⟩⟩
        · cases hok
      · cases hok
    | some l =>
      simp only [hl] at hok
      rcases bind_eq_ok.mp hok with ⟨last, hlast, hok⟩
      simp only [pure_eq_ok, ok_bind] at hok
      split at hok
      · cases hok
        rcases load_eq_ok.mp hlast with ⟨l', hl', hlast⟩
        cases hl'
        exact (Allocates.refl { s with blocks := rest } []).store (.inr ⟨last, hlast⟩) rfl rfl
      · cases hok
  exact hcut.trans (hrest.keep ps)

theorem shrinkFile_rewrites (hlay : Layout s fl ch) (hF : s.files f = some F)
    (hcap : s.fileDescriptorCapacity ≤ s.fileDescriptors.length)
    (hok : shrinkFile s f n = .ok (r, t)) : Rewrites s t ch := by
  have hchain := hlay.fileChain hF
  by_cases hshort : (ch f).length < surplus F.size n ∨
      ((ch f).length = surplus F.size n ∧ n ≠ 0)
  · rcases shrinkFile_fault hchain hshort with ⟨e, he⟩
    rw [he] at hok
    cases hok
  · -- the blocks that stay, and those that go
    obtain ⟨k, hk⟩ : ∃ k, k = (ch f).length - surplus F.size n := ⟨_, rfl⟩
    have hsplit := hchain
    rw [← List.take_append_drop k (ch f)] at hsplit
    have hdrop : ((ch f).drop k).length = surplus F.size n := by
      rw [List.length_drop]
      omega
    rcases shrinkFile_eq hsplit hdrop hcap (fun hnil => by
      have hlen := congrArg List.length hnil
      rw [List.length_take, List.length_nil] at hlen
      by_contra hn
      omega) with ⟨u, G, hshrink, hrel, -, -⟩
    have htidy := shrinkFile_tidy hsplit hdrop hok
    rw [hshrink] at hok
    cases hok
    rw [List.take_append_drop] at hrel htidy
    exact ⟨_, _, _, _, _, _, hrel, ⟨htidy.errno, htidy.owned⟩, rfl⟩

/-- `ufs_resize` does so too. -/
theorem ufsResize_rewrites {fd : Int} (hlay : Layout s fl ch) (htab : s.table.Consistent)
    (hok : ufsResize m s fd n = .ok (r, t)) :
    (∃ e, t = { s with ufsErrorCode := e }) ∨ Rewrites s t ch := by
  rcases bind_eq_ok.mp hok with ⟨found, -, hok⟩
  cases found with
  | none =>
    cases hok
    exact .inl ⟨.noFile, rfl⟩
  | some slot =>
    rcases bind_eq_ok.mp hok with ⟨F, hF, hok⟩
    rcases load_eq_ok.mp hF with ⟨f', hf', hF⟩
    cases hf'
    split at hok
    · cases hok
      exact .inl ⟨s.ufsErrorCode, rfl⟩
    split at hok
    · exact .inr (shrinkFile_rewrites hlay hF (capacity_eq htab).le hok)
    split at hok
    · cases hok
      exact .inl ⟨.noMem, rfl⟩
    · right
      have hchain := hlay.fileChain hF
      rw [growFile_eq hF] at hok
      by_cases hempty : blockCount n - blockCount F.size + (ch slot.2.file).length = 0
      · have hnil : ch slot.2.file = [] := List.length_eq_zero_iff.mp (by omega)
        have hzero : blockCount n - blockCount F.size = 0 := by omega
        rw [hzero, growLoop_fault (hnil ▸ hchain)] at hok
        cases hok
      · rcases growLoop_tidy hchain hempty hok with ⟨G, qs, hrel, htidy⟩
        exact ⟨_, _, _, _, _, _, hrel, htidy, rfl⟩

theorem Tight.rewrites (h : Tight s fl ch)
    (hstep : (∃ e, t = { s with ufsErrorCode := e }) ∨ Rewrites s t ch) : ∃ gl kh, Tight t gl kh := by
  rcases hstep with ⟨e, rfl⟩ | ⟨u, f, F, G, qs, slots, hrel, htidy, rfl⟩
  · exact ⟨fl, ch, h.congr rfl rfl rfl rfl⟩
  · exact ⟨fl, _, (h.relayout hrel htidy).congr rfl rfl rfl rfl⟩

/-- The loop of `ufs_destroy` empties the heap. -/
theorem freeFiles_tight (fuel : Nat) (hown : Owns s fl ch)
    (howned : ∀ p b, s.blocks p = some b → ∃ f ∈ fl, p ∈ ch f) {pr hd la : Option Ptr}
    (hseg : Seg s.fileNext s.filePrev pr hd fl la none) (hfuel : fl.length ≤ fuel) :
    freeFiles fuel s hd = .ok { s with files := fun _ => none, blocks := fun _ => none } := by
  induction fl generalizing fuel s pr hd with
  | nil =>
    have hfiles : s.files = fun _ => none := by
      funext g
      cases hg : s.files g with
      | none => rfl
      | some G => cases (hown.alloc g).mpr ⟨G, hg⟩
    have hblocks : s.blocks = fun _ => none := by
      funext p
      cases hp : s.blocks p with
      | none => rfl
      | some b =>
        rcases howned p b hp with ⟨g, hg, -⟩
        cases hg
    rw [← hfiles, ← hblocks, hseg.1]
    cases fuel <;> rfl
  | cons f fl ih =>
    have hnodup := hown.nodup
    obtain ⟨rfl, -, ht⟩ := hseg
    cases fuel with
    | zero => simp at hfuel
    | succ fuel =>
      rcases (hown.alloc f).mp (by simp) with ⟨F, hF⟩
      have hfree := hown.free (f := f) (by simp)
      rw [List.erase_cons_head] at hfree
      have hnext : s.fileNext f = F.next := by simp [State.fileNext, hF]
      have hne : ∀ g ∈ fl, g ≠ f := fun g hg hgf => (List.nodup_cons.mp hnodup).1 (hgf ▸ hg)
      rw [hnext] at ht
      have hrest := ih fuel hfree (fun p b hp => by
          by_cases hpf : p ∈ ch f
          · simp [hpf] at hp
          · rcases howned p b (by simpa [hpf] using hp) with ⟨g, hg, hpg⟩
            refine ⟨g, ?_, hpg⟩
            rcases List.mem_cons.mp hg with rfl | hg
            · exact absurd hpg hpf
            · exact hg)
        (Seg.congr ht
          (fun g hg => by simp only [State.fileNext, free_ne _ (hne g hg)])
          (fun g hg => by simp only [State.filePrev, free_ne _ (hne g hg)]))
        (by simpa using hfuel)
      simp only [freeFiles, load_some hF, ok_bind, ufsFreeFile_eq hown hF, hrest]

/-- What `ufs_destroy` leaves is the state at the start, but for the error code. -/
theorem ufsDestroy_tight (h : Tight s fl ch) :
    ufsDestroy s = .ok { State.init with ufsErrorCode := s.ufsErrorCode, brk := s.brk } := by
  have hlen : fl.length ≤ s.brk := length_le_of_bound h.nodup h.fileBound
  have h' : Tight { s with
      fileDescriptors := [], fileDescriptorCapacity := 0, fileDescriptorUsed := 0 } fl ch :=
    h.congr rfl rfl rfl rfl
  have hloop := freeFiles_tight s.brk h'.toOwns h'.owned h'.listed hlen
  simp only [ufsDestroy, hloop, ok_bind, pure_eq_ok]
  rfl

/-! ## Runs -/

theorem exec_tight {op : Op} {reply : Reply} (h : Tight s fl ch) (htab : s.table.Consistent)
    (hexec : exec m s op = .ok (reply, t)) : ∃ gl kh, Tight t gl kh := by
  cases op with
  | «open» filename flags =>
    rcases bind_eq_ok.mp hexec with ⟨⟨r, u⟩, hopen, hres⟩
    cases hres
    exact ufsOpen_tight h hopen
  | write fd buf =>
    rcases bind_eq_ok.mp hexec with ⟨⟨r, u⟩, hwrite, hres⟩
    cases hres
    exact h.rewrites (ufsWrite_rewrites h.toLayout htab hwrite)
  | read fd n =>
    rcases bind_eq_ok.mp hexec with ⟨⟨r, bytes, u⟩, hread, hres⟩
    cases hres
    exact ⟨fl, ch, ufsRead_tight h hread⟩
  | resize fd n =>
    rcases bind_eq_ok.mp hexec with ⟨⟨r, u⟩, hresize, hres⟩
    cases hres
    exact h.rewrites (ufsResize_rewrites h.toLayout htab hresize)
  | close fd =>
    rcases bind_eq_ok.mp hexec with ⟨⟨r, u⟩, hclose, hres⟩
    cases hres
    exact ufsClose_tight h hclose
  | delete filename =>
    rcases bind_eq_ok.mp hexec with ⟨⟨r, u⟩, hdelete, hres⟩
    cases hres
    exact ufsDelete_tight h hdelete
  | destroy =>
    rcases bind_eq_ok.mp hexec with ⟨u, hdestroy, hres⟩
    cases hres
    rw [ufsDestroy_tight h] at hdestroy
    cases hdestroy
    exact ⟨[], fun _ => [], ⟨⟨⟨List.nodup_nil, by simp [State.init], by simp, by simp [State.init],
      by simp, by simp, by simp [State.init]⟩, ⟨rfl, rfl⟩⟩, by simp [State.init]⟩⟩

theorem Tight.init : Tight State.init [] fun _ => [] :=
  ⟨⟨⟨List.nodup_nil, by simp [State.init], by simp, by simp [State.init], by simp, by simp,
    by simp [State.init]⟩, ⟨rfl, rfl⟩⟩, by simp [State.init]⟩

theorem Reachable.tight (h : Reachable (Step m) State.init s) : ∃ fl ch, Tight s fl ch := by
  have hboth : Inv s ∧ ∃ fl ch, Tight s fl ch := by
    apply h.invariant ⟨Inv.init, [], _, Tight.init⟩
    rintro u op t ⟨⟨gl, kh, hlay, htab⟩, fl, ch, htight⟩ ⟨reply, hexec⟩
    exact ⟨exec_inv ⟨gl, kh, hlay, htab⟩ hexec, exec_tight htight htab hexec⟩
  exact hboth.2

/-- Block `p` is met on the way along `next` from the first block of file `f`. -/
def State.OnChain (s : State) (f p : Ptr) : Prop :=
  ∃ F k, s.files f = some F ∧ (fun q => q.bind s.blockNext)^[k] F.firstBlock = some p

/-- In every reachable state the allocated blocks are those on the chains of the listed files, each
on one chain only, and `ufs_destroy` frees every block and every file. -/
theorem no_block_lost (m : Malloc) (s : State) (h : Reachable (Step m) State.init s) :
    (∀ p, (∃ b, s.blocks p = some b) ↔ ∃! f, s.InFileList f ∧ s.OnChain f p) ∧
    ufsDestroy s = .ok { State.init with ufsErrorCode := s.ufsErrorCode, brk := s.brk } := by
  rcases Reachable.tight h with ⟨fl, ch, htight⟩
  have hlist : ∀ f, s.InFileList f ↔ f ∈ fl := fun f => (htight.listed.mem_iff f).symm
  have hchain : ∀ f ∈ fl, ∀ p, s.OnChain f p ↔ p ∈ ch f := by
    intro f hf p
    rcases (htight.alloc f).mp hf with ⟨F, hF⟩
    rw [(htight.chain f F hF).mem_iff p]
    constructor
    · rintro ⟨G, k, hG, hk⟩
      obtain rfl : F = G := Option.some.inj (hF.symm.trans hG)
      exact ⟨k, hk⟩
    · rintro ⟨k, hk⟩
      exact ⟨F, k, hF, hk⟩
  refine ⟨fun p => ⟨?_, ?_⟩, ufsDestroy_tight htight⟩
  · rintro ⟨b, hb⟩
    rcases htight.owned p b hb with ⟨f, hf, hpf⟩
    refine ⟨f, ⟨(hlist f).mpr hf, (hchain f hf p).mpr hpf⟩, ?_⟩
    rintro g ⟨hg, hpg⟩
    have hg' := (hlist g).mp hg
    exact htight.apart g hg' f hf p ((hchain g hg' p).mp hpg) hpf
  · rintro ⟨f, ⟨hf, hpf⟩, -⟩
    have hf' := (hlist f).mp hf
    rcases htight.valid f hf' p ((hchain f hf' p).mp hpf) with ⟨b, hb, -⟩
    exact ⟨b, hb⟩

/-- A file of two blocks, deleted while its descriptor is open. -/
def ghostBlocks : List Op := [.open [97] ufsCreate, .resize 1 700, .delete [97]]

theorem no_block_lost_ghost : ∃ s, execAll .zeroed State.init ghostBlocks = .ok s ∧
    (∃! f, s.InFileList f ∧ s.OnChain f 2) ∧
    ufsDestroy s = .ok { State.init with ufsErrorCode := s.ufsErrorCode, brk := s.brk } := by
  obtain ⟨s, hs⟩ : ∃ s, execAll .zeroed State.init ghostBlocks = .ok s := ⟨_, rfl⟩
  have hblock : (execAll .zeroed State.init ghostBlocks).map (fun s => (s.blocks 2).isSome) =
      .ok true := rfl
  rw [hs] at hblock
  have hnone := no_block_lost .zeroed s ⟨_, execAll_run hs⟩
  refine ⟨s, hs, (hnone.1 2).mp ?_, hnone.2⟩
  exact Option.isSome_iff_exists.mp (Except.ok.inj hblock)

end SystemProgramming.UserFs
