import SystemProgramming.UserFs.Layout

/-!
# Block chains refine block lists

The loops of `ufs_write`, `ufs_read` and `ufs_resize` walk a chain of blocks by its pointers.  Here
each of them is shown to do to the chain what its counterpart in `BlockList` does to the list of
blocks, and to touch nothing outside the chain but memory that was free.
-/

open DoublyLinked Fallible

namespace SystemProgramming.UserFs

/-- The blocks at the addresses `ps`. -/
def State.cells (s : State) (ps : List Ptr) : List Cell :=
  ps.map fun p => ((s.blocks p).map Block.cell).getD default

/-- File `f` is there and its chain is `ps`. -/
structure FileChain (s : State) (f : Ptr) (F : File) (ps : List Ptr) : Prop where
  file : s.files f = some F
  linked : Linked s.blockNext s.blockPrev F.firstBlock ps F.lastBlock
  valid : ∀ p ∈ ps, ∃ b, s.blocks p = some b ∧ b.cell.Valid
  bound : ∀ p b, s.blocks p = some b → p < s.brk

/-- From `s` to `s'` only file `f` has changed: its chain and size, nothing else of it, and no
other file, block or descriptor. -/
structure Relayout (s s' : State) (f : Ptr) (F F' : File) (ps ps' : List Ptr) : Prop where
  before : FileChain s f F ps
  after : FileChain s' f F' ps'
  same : F' = { F with
    firstBlock := F'.firstBlock, lastBlock := F'.lastBlock, size := F'.size }
  fileList : s'.fileList = s.fileList
  slots : s'.fileDescriptors = s.fileDescriptors
  used : s'.fileDescriptorUsed = s.fileDescriptorUsed
  capacity : s'.fileDescriptorCapacity = s.fileDescriptorCapacity
  files : ∀ g, g ≠ f → s'.files g = s.files g
  brk : s.brk ≤ s'.brk
  frame : ∀ p, p < s.brk → p ∉ ps → s'.blocks p = s.blocks p
  source : ∀ p ∈ ps', p ∈ ps ∨ s.brk ≤ p

variable {s t u : State} {f : Ptr} {F G H : File} {ps qs rs : List Ptr} {m : Malloc}

theorem FileChain.refl (h : FileChain s f F ps) : Relayout s s f F F ps ps :=
  ⟨h, h, rfl, rfl, rfl, rfl, rfl, fun _ _ => rfl, le_refl _, fun _ _ _ => rfl, fun _ hp => .inl hp⟩

theorem Relayout.trans (h : Relayout s t f F G ps qs) (h' : Relayout t u f G H qs rs) :
    Relayout s u f F H ps rs where
  before := h.before
  after := h'.after
  same := by rw [h'.same, h.same]
  fileList := h'.fileList.trans h.fileList
  slots := h'.slots.trans h.slots
  used := h'.used.trans h.used
  capacity := h'.capacity.trans h.capacity
  files g hg := (h'.files g hg).trans (h.files g hg)
  brk := h.brk.trans h'.brk
  frame p hp hps := by
    have hqs : p ∉ qs := fun hmem => (h.source p hmem).elim hps (fun hle => absurd hp (not_lt.mpr hle))
    rw [h'.frame p (hp.trans_le h.brk) hqs, h.frame p hp hps]
  source p hp := by
    rcases h'.source p hp with hmem | hle
    · exact h.source p hmem
    · exact .inr (h.brk.trans hle)

/-! ## The blocks of a chain -/

@[simp] theorem cells_nil (s : State) : s.cells [] = [] := rfl

@[simp] theorem cells_length (s : State) (ps : List Ptr) : (s.cells ps).length = ps.length := by
  simp [State.cells]

@[simp] theorem cells_append (s : State) (ps qs : List Ptr) :
    s.cells (ps ++ qs) = s.cells ps ++ s.cells qs := by
  simp [State.cells]

theorem cells_cons {p : Ptr} {b : Block} (hb : s.blocks p = some b) (ps : List Ptr) :
    s.cells (p :: ps) = b.cell :: s.cells ps := by
  simp [State.cells, hb]

theorem cells_congr (h : ∀ p ∈ ps, t.blocks p = s.blocks p) : t.cells ps = s.cells ps := by
  apply List.map_congr_left
  intro p hp
  rw [h p hp]

theorem cells_drop (s : State) (ps : List Ptr) (k : Nat) :
    (s.cells ps).drop k = s.cells (ps.drop k) := by
  simp [State.cells]

theorem FileChain.cells_valid (h : FileChain s f F ps) : ∀ c ∈ s.cells ps, c.Valid := by
  intro c hc
  rcases List.mem_map.mp hc with ⟨p, hp, rfl⟩
  rcases h.valid p hp with ⟨b, hb, hvalid⟩
  simpa [hb] using hvalid

theorem FileChain.nodup (h : FileChain s f F ps) : ps.Nodup := Seg.nodup h.linked

theorem FileChain.last_eq (h : FileChain s f F ps) : F.lastBlock = ps.getLast? := by
  have hlast := Seg.last_eq h.linked
  rwa [Option.or_none] at hlast

theorem FileChain.last_mem (h : FileChain s f F ps) {l : Ptr} (hl : F.lastBlock = some l) :
    l ∈ ps := by
  rw [h.last_eq] at hl
  exact List.mem_of_getLast? hl

theorem FileChain.lt_brk (h : FileChain s f F ps) : ∀ p ∈ ps, p < s.brk := fun p hp =>
  let ⟨b, hb, _⟩ := h.valid p hp
  h.bound p b hb

theorem FileChain.length_le (h : FileChain s f F ps) : ps.length ≤ s.brk :=
  length_le_of_bound h.nodup h.lt_brk

/-! ## Walking and reading -/

theorem skipBlocks_seg {blocks : Heap Block} {pv : Ptr → Option Ptr} {pr hd la : Option Ptr}
    (h : Seg (fun p => (blocks p).bind Block.next) pv pr hd ps la none)
    (halloc : ∀ p ∈ ps, ∃ b, blocks p = some b) {k : Nat} (hk : k ≤ ps.length) :
    skipBlocks blocks k hd = .ok ps[k]? := by
  induction k generalizing pr hd ps with
  | zero => cases ps <;> simp_all [skipBlocks]
  | succ k ih =>
    cases ps with
    | nil => simp at hk
    | cons p ps =>
      obtain ⟨rfl, -, ht⟩ := h
      rcases halloc p (by simp) with ⟨b, hb⟩
      have hrest := ih ht (fun q hq => halloc q (by simp [hq])) (by simpa using hk)
      simp only [hb, Option.bind_some] at hrest
      simpa only [skipBlocks, load_some hb, ok_bind, List.getElem?_cons_succ] using hrest

/-- The walk of `ufs_write` runs off the chain exactly when the chain is too short. -/
theorem skipBlocks_short {blocks : Heap Block} {pv : Ptr → Option Ptr} {pr hd la : Option Ptr}
    (h : Seg (fun p => (blocks p).bind Block.next) pv pr hd ps la none)
    (halloc : ∀ p ∈ ps, ∃ b, blocks p = some b) {k : Nat} (hk : ps.length < k) :
    skipBlocks blocks k hd = .error .nullPointer := by
  induction k generalizing pr hd ps with
  | zero => simp at hk
  | succ k ih =>
    cases ps with
    | nil =>
      obtain ⟨rfl, -⟩ := h
      rfl
    | cons p ps =>
      obtain ⟨rfl, -, ht⟩ := h
      rcases halloc p (by simp) with ⟨b, hb⟩
      have hrest := ih ht (fun q hq => halloc q (by simp [hq])) (by simpa using hk)
      simp only [hb, Option.bind_some] at hrest
      simpa only [skipBlocks, load_some hb, ok_bind] using hrest

theorem skipToBlock_seg {blocks : Heap Block} {pv : Ptr → Option Ptr} {pr hd la : Option Ptr}
    (h : Seg (fun p => (blocks p).bind Block.next) pv pr hd ps la none)
    (halloc : ∀ p ∈ ps, ∃ b, blocks p = some b) (k : Nat) :
    skipToBlock blocks k hd = .ok (if k ≤ ps.length then some ps[k]? else none) := by
  induction k generalizing pr hd ps with
  | zero => cases ps <;> simp_all [skipToBlock]
  | succ k ih =>
    cases ps with
    | nil =>
      obtain ⟨rfl, -⟩ := h
      rfl
    | cons p ps =>
      obtain ⟨rfl, -, ht⟩ := h
      rcases halloc p (by simp) with ⟨b, hb⟩
      have hrest := ih ht (fun q hq => halloc q (by simp [hq]))
      simp only [hb, Option.bind_some] at hrest
      simpa only [skipToBlock, load_some hb, ok_bind, List.getElem?_cons_succ, List.length_cons,
        Nat.add_le_add_iff_right] using hrest

/-- The read loop on pointers is the read loop on the blocks they reach. -/
theorem readLoop_seg {pv : Ptr → Option Ptr} {pr hd la : Option Ptr} {fuel n : Nat}
    (h : Seg s.blockNext pv pr hd ps la none) (halloc : ∀ p ∈ ps, ∃ b, s.blocks p = some b)
    (hfuel : ps.length ≤ fuel) (buf : List UInt8) (offset : Nat) :
    readLoop s.blocks n fuel hd buf offset = readCells n (s.cells ps) buf offset := by
  induction ps generalizing fuel pr hd buf offset with
  | nil =>
    obtain ⟨rfl, -⟩ := h
    cases fuel <;> rfl
  | cons p ps ih =>
    obtain ⟨rfl, -, ht⟩ := h
    cases fuel with
    | zero => simp at hfuel
    | succ fuel =>
      rcases halloc p (by simp) with ⟨b, hb⟩
      have hnext : s.blockNext p = b.next := by simp [State.blockNext, hb]
      rw [hnext] at ht
      have hrest := ih ht (fun q hq => halloc q (by simp [hq])) (by simpa using hfuel)
      rw [readLoop, cells_cons hb, readCells]
      by_cases hlt : (buf.length : Int) < toSsize n
      · rw [if_pos hlt, if_pos hlt, load_some hb, ok_bind]
        by_cases hend : (toInt offset).tmod blockSize - b.occupied ≥ 0
        · have hend' : (toInt offset).tmod blockSize - b.cell.occupied ≥ 0 := hend
          simp only [if_pos hend, if_pos hend']
        · have hend' : ¬ (toInt offset).tmod blockSize - b.cell.occupied ≥ 0 := hend
          simp only [if_neg hend, if_neg hend', hrest]
          rfl
      · rw [if_neg hlt, if_neg hlt]

/-! ## Changing a chain -/

/-- A new block linked in at the end of the chain, whatever the old last block holds afterwards. -/
theorem FileChain.extend (h : FileChain s f F ps) (new : Block)
    (hctl : t = { s with files := t.files, blocks := t.blocks, brk := s.brk + 1 })
    (hfiles : t.files = store s.files f { F with
      firstBlock := F.firstBlock.or (some s.brk), lastBlock := some s.brk })
    (hnew : t.blocks s.brk = some new) (hnext : new.next = none) (hprev : new.prev = F.lastBlock)
    (hvalid : new.cell.Valid)
    (hlast : ∀ l b, F.lastBlock = some l → s.blocks l = some b →
      ∃ c, t.blocks l = some c ∧ c.next = some s.brk ∧ c.prev = b.prev ∧ c.cell.Valid)
    (hrest : ∀ q, q ≠ s.brk → F.lastBlock ≠ some q → t.blocks q = s.blocks q) :
    Relayout s t f F { F with
      firstBlock := F.firstBlock.or (some s.brk), lastBlock := some s.brk } ps (ps ++ [s.brk]) := by
  have hfresh : ∀ q ∈ ps, q ≠ s.brk := fun q hq => (h.lt_brk q hq).ne
  -- what the blocks of the old chain have become
  have hold : ∀ q ∈ ps, ∃ b c, s.blocks q = some b ∧ t.blocks q = some c ∧ c.prev = b.prev ∧
      c.cell.Valid ∧ (some q ≠ F.lastBlock → c.next = b.next) ∧
      (F.lastBlock = some q → c.next = some s.brk) := by
    intro q hq
    rcases h.valid q hq with ⟨b, hb, hbv⟩
    by_cases hql : F.lastBlock = some q
    · rcases hlast q b hql hb with ⟨c, hc, hcn, hcp, hcv⟩
      exact ⟨b, c, hb, hc, hcp, hcv, fun hne => absurd hql.symm hne, fun _ => hcn⟩
    · exact ⟨b, b, hb, by rw [hrest q (hfresh q hq) hql, hb], rfl, hbv, fun _ => rfl,
        fun heq => absurd heq hql⟩
  have hlinked : Linked t.blockNext t.blockPrev (F.firstBlock.or (some s.brk)) (ps ++ [s.brk])
      (some s.brk) := by
    refine Linked.append h.linked ?_ ?_ ?_ ?_ ?_
    · simp [State.blockNext, hnew, hnext]
    · simp [State.blockPrev, hnew, hprev]
    · -- every block of the new chain is allocated and valid
      intro q hq
      rcases hold q hq with ⟨b, c, hb, hc, hcp, -⟩
      simp [State.blockPrev, hb, hc, hcp]
    · intro q hq hne
      rcases hold q hq with ⟨b, c, hb, hc, -, -, hcn, -⟩
      simp [State.blockNext, hb, hc, hcn hne]
    · intro q hq
      rcases hold q (h.last_mem hq) with ⟨b, c, hb, hc, -, -, -, hcn⟩
      simp [State.blockNext, hc, hcn hq]
  have hbrk : t.brk = s.brk + 1 := by rw [hctl]
  refine ⟨h, ⟨by rw [hfiles, store_self], hlinked, ?_, ?_⟩, rfl, by rw [hctl], by rw [hctl],
    by rw [hctl], by rw [hctl], ?_, by rw [hbrk]; exact Nat.le_succ _, ?_, ?_⟩
  · intro q hq
    rcases List.mem_append.mp hq with hq | hq
    · rcases hold q hq with ⟨b, c, hb, hc, -, hcv, -⟩
      exact ⟨c, hc, hcv⟩
    · rw [List.mem_singleton.mp hq]
      exact ⟨new, hnew, hvalid⟩
  · -- no block lies above the break
    intro q b hb
    rw [hbrk]
    by_cases hq : q ∈ ps
    · exact (h.lt_brk q hq).trans (Nat.lt_succ_self _)
    · by_cases hqb : q = s.brk
      · rw [hqb]
        exact Nat.lt_succ_self _
      · rw [hrest q hqb fun hl => hq (h.last_mem hl)] at hb
        exact (h.bound q b hb).trans (Nat.lt_succ_self _)
  · intro g hg
    rw [hfiles, store_ne _ _ hg]
  · intro q hq hqs
    exact hrest q hq.ne fun hl => hqs (h.last_mem hl)
  · intro q hq
    rcases List.mem_append.mp hq with hq | hq
    · exact .inl hq
    · exact .inr (List.mem_singleton.mp hq).ge

/-- A block of the chain gets new contents. -/
theorem FileChain.rewrite (h : FileChain s f F ps) {p : Ptr} (hp : p ∈ ps) {b c : Block}
    (hb : s.blocks p = some b) (hnext : c.next = b.next) (hprev : c.prev = b.prev)
    (hvalid : c.cell.Valid) : Relayout s (s.setBlock p c) f F F ps ps := by
  have hlink : (s.setBlock p c).blockNext = s.blockNext ∧
      (s.setBlock p c).blockPrev = s.blockPrev := by
    constructor <;> funext q <;> by_cases hqp : q = p
    · subst hqp; simp [State.blockNext, State.setBlock, hb, hnext]
    · simp [State.blockNext, State.setBlock, store_ne _ _ hqp]
    · subst hqp; simp [State.blockPrev, State.setBlock, hb, hprev]
    · simp [State.blockPrev, State.setBlock, store_ne _ _ hqp]
  have hne : ∀ q, q ≠ p → (s.setBlock p c).blocks q = s.blocks q := fun q hq => store_ne _ _ hq
  have hself : (s.setBlock p c).blocks p = some c := store_self _ _ _
  refine ⟨h, ⟨h.file, ?_, ?_, ?_⟩, rfl, rfl, rfl, rfl, rfl, fun _ _ => rfl, le_refl _, ?_,
    fun q hq => .inl hq⟩
  · rw [hlink.1, hlink.2]
    exact h.linked
  · intro q hq
    by_cases hqp : q = p
    · exact ⟨c, hqp ▸ hself, hvalid⟩
    · rw [hne q hqp]
      exact h.valid q hq
  · intro q d hd
    by_cases hqp : q = p
    · exact hqp ▸ h.lt_brk p hp
    · rw [hne q hqp] at hd
      exact h.bound q d hd
  · intro q _ hqs
    exact hne q fun hqp => hqs (hqp ▸ hp)

theorem cells_set (hnodup : ps.Nodup) {k : Nat} {p : Ptr} (hk : ps[k]? = some p) (c : Block) :
    (s.setBlock p c).cells ps = (s.cells ps).set k c.cell := by
  apply List.ext_getElem?
  intro i
  have hkl := (List.getElem?_eq_some_iff.mp hk).1
  by_cases hik : i = k
  · subst hik
    rw [List.getElem?_set_self (by simpa using hkl)]
    simp only [State.cells, List.getElem?_map, hk, Option.map_some]
    simp [State.setBlock]
  · rw [List.getElem?_set_ne (fun h => hik h.symm)]
    cases hi : ps[i]? with
    | none => simp [State.cells, hi]
    | some q =>
      have hqp : q ≠ p := by
        rintro rfl
        exact hik ((List.getElem?_inj (List.getElem?_eq_some_iff.mp hi).1 hnodup).mp
          (hi.trans hk.symm))
      simp [State.cells, hi, State.setBlock, store_ne _ _ hqp]

/-! ## The write loop -/

/-- Adding a block at the end of the chain. -/
theorem appendBlock_eq (h : FileChain s f F ps) (m : Malloc) :
    ∃ t G, appendBlock m s f = .ok (t, s.brk) ∧ Relayout s t f F G ps (ps ++ [s.brk]) ∧
      G.size = F.size ∧ t.brk = s.brk + 1 ∧
      t.cells (ps ++ [s.brk]) = s.cells ps ++ [Cell.fresh (m.memory s.brk)] := by
  have hfresh : ∀ q ∈ ps, q ≠ s.brk := fun q hq => (h.lt_brk q hq).ne
  have hnewv : (Cell.fresh (m.memory s.brk)).Valid := fresh_valid (m.memory_length s.brk)
  cases hl : F.lastBlock with
  | none =>
    -- without a last block the file is empty and gets its first one
    obtain rfl : ps = [] := h.linked.eq_nil_iff_last.mp hl
    have hfirst : F.firstBlock = none := h.linked.1
    obtain ⟨new, hnew⟩ : ∃ new : Block, new =
      { memory := m.memory s.brk, occupied := 0, next := none, prev := none } := ⟨_, rfl⟩
    refine ⟨{ s with
      files := store s.files f { F with firstBlock := some s.brk, lastBlock := some s.brk }
      blocks := store s.blocks s.brk new
      brk := s.brk + 1 },
      { F with firstBlock := F.firstBlock.or (some s.brk), lastBlock := some s.brk },
      ?_, ?_, rfl, rfl, ?_⟩
    · simp only [appendBlock, load_some h.file, ok_bind, hl, hfirst, if_true, pure_eq_ok, ← hnew,
        State.setFile, State.setBlock]
    · refine h.extend new rfl ?_ (store_self _ _ _) (by rw [hnew]) (by rw [hnew, hl])
        (by rw [hnew]; exact hnewv) ?_ ?_
      · rw [hfirst]
        rfl
      · intro l b hlb
        rw [hl] at hlb
        cases hlb
      · intro q hq _
        exact store_ne _ _ hq
    · simp [State.cells, Block.cell, Cell.fresh, hnew]
  | some l =>
    -- otherwise the last block of the list is linked to the new one
    have hlmem : l ∈ ps := h.last_mem hl
    have hlb : l ≠ s.brk := hfresh l hlmem
    rcases h.valid l hlmem with ⟨b, hb, hbv⟩
    obtain ⟨new, hnew⟩ : ∃ new : Block, new =
      { memory := m.memory s.brk, occupied := 0, next := none, prev := some l } := ⟨_, rfl⟩
    have hb' : store s.blocks s.brk new l = some b := by
      rw [store_ne _ _ hlb, hb]
    obtain ⟨t, ht⟩ : ∃ t : State, t = { s with
      files := store s.files f { F with lastBlock := some s.brk }
      blocks := store (store s.blocks s.brk new) l { b with next := some s.brk }
      brk := s.brk + 1 } := ⟨_, rfl⟩
    have htl : t.blocks l = some { b with next := some s.brk } := by rw [ht]; exact store_self _ _ _
    have htn : t.blocks s.brk = some new := by
      rw [ht]
      exact (store_ne _ _ hlb.symm).trans (store_self _ _ _)
    have htq : ∀ q, q ≠ s.brk → q ≠ l → t.blocks q = s.blocks q := by
      intro q hqb hql
      rw [ht]
      exact (store_ne _ _ hql).trans (store_ne _ _ hqb)
    have hfirst : F.firstBlock.or (some s.brk) = F.firstBlock := by
      cases hf : F.firstBlock with
      | none =>
        have hnil := h.linked.eq_nil_iff_head.mp hf
        rw [hnil] at hlmem
        cases hlmem
      | some p => rfl
    refine ⟨t, { F with firstBlock := F.firstBlock.or (some s.brk), lastBlock := some s.brk },
      ?_, ?_, rfl, by rw [ht], ?_⟩
    · simp only [appendBlock, load_some h.file, ok_bind, hl, pure_eq_ok, ← hnew, State.setFile,
        State.setBlock, load_some hb', ht]
    · refine h.extend new (by rw [ht]) (by rw [ht, hfirst]) htn (by rw [hnew]) (by rw [hnew, hl])
        (by rw [hnew]; exact hnewv) ?_ ?_
      · intro q c hq hc
        obtain rfl : l = q := by simpa [hl] using hq
        obtain rfl : b = c := by simpa [hb] using hc
        exact ⟨_, htl, rfl, rfl, hbv⟩
      · intro q hq hql
        exact htq q hq fun hqe => hql (by rw [hl, hqe])
    · rw [cells_append]
      congr 1
      · apply List.map_congr_left
        intro q hq
        by_cases hql : q = l
        · subst hql
          simp [htl, hb, Block.cell]
        · rw [htq q (hfresh q hq) hql]
      · simp [State.cells, htn, Block.cell, Cell.fresh, hnew]

/-- The memory of the blocks a chain of `s` is extended by, by their index in the chain. -/
def freshMemory (m : Malloc) (s : State) (ps : List Ptr) (i : Nat) : List UInt8 :=
  m.memory (i + (s.brk - ps.length))

theorem freshMemory_length (m : Malloc) (s : State) (ps : List Ptr) (i : Nat) :
    (freshMemory m s ps i).length = blockSize :=
  m.memory_length _

theorem getElem?_cells {k : Nat} {p : Ptr} {b : Block} (hk : ps[k]? = some p)
    (hb : s.blocks p = some b) : (s.cells ps)[k]? = some b.cell := by
  simp [State.cells, hk, hb]

/-- Choosing the block to write to. -/
theorem writableBlock_eq (h : FileChain s f F ps) (m : Malloc) (k : Nat) :
    ∃ t G qs p j c, writableBlock m s f ps[k]? = .ok (t, p) ∧ Relayout s t f F G ps qs ∧
      G.size = F.size ∧ t.brk - qs.length = s.brk - ps.length ∧ qs[j]? = some p ∧
      (t.cells qs)[j]? = some c ∧
      writableCell (freshMemory m s ps) (s.cells ps) k = (t.cells qs, j, c) := by
  -- The walk ends behind the chain, or in a full block: both append one.
  have hnew : ∃ t G qs p j c, appendBlock m s f = .ok (t, p) ∧ Relayout s t f F G ps qs ∧
      G.size = F.size ∧ t.brk - qs.length = s.brk - ps.length ∧ qs[j]? = some p ∧
      (t.cells qs)[j]? = some c ∧
      (s.cells ps ++ [Cell.fresh (freshMemory m s ps (s.cells ps).length)], (s.cells ps).length,
        Cell.fresh (freshMemory m s ps (s.cells ps).length)) = (t.cells qs, j, c) := by
    rcases appendBlock_eq h m with ⟨t, G, happ, hrel, hsize, hbrk, hcells⟩
    have hmem : freshMemory m s ps (s.cells ps).length = m.memory s.brk := by
      rw [freshMemory, cells_length, Nat.add_sub_of_le h.length_le]
    refine ⟨t, G, ps ++ [s.brk], s.brk, ps.length, Cell.fresh (m.memory s.brk), happ, hrel, hsize,
      ?_, by simp, ?_, ?_⟩
    · rw [hbrk, List.length_append, List.length_singleton]
      omega
    · rw [hcells, ← cells_length s ps, List.getElem?_concat_length]
    · rw [hcells, hmem, cells_length]
  cases hk : ps[k]? with
  | none =>
    have hck : (s.cells ps)[k]? = none := by simpa [State.cells] using hk
    simp only [writableBlock, writableCell, hck]
    exact hnew
  | some p =>
    rcases h.valid p (List.mem_of_getElem? hk) with ⟨b, hb, -⟩
    have hck := getElem?_cells hk hb
    simp only [writableBlock, writableCell, hck, load_some hb, ok_bind]
    by_cases hfull : b.occupied = blockSize
    · rw [if_pos hfull, if_pos (show b.cell.occupied = blockSize from hfull)]
      exact hnew
    · rw [if_neg hfull, if_neg (show ¬ b.cell.occupied = blockSize from hfull)]
      exact ⟨s, F, ps, p, k, b.cell, rfl, h.refl, rfl, rfl, hk, hck, rfl⟩

/-- Copying into the chosen block. -/
theorem writeBlock_eq (h : FileChain s f F ps) {k : Nat} {p : Ptr} {c : Cell}
    (hk : ps[k]? = some p) (hc : (s.cells ps)[k]? = some c) {buf : List UInt8} {w : Nat}
    (hfit : w + buf.length ≤ blockSize) :
    ∃ t, writeBlock s p buf w = .ok t ∧ Relayout s t f F F ps ps ∧ t.brk = s.brk ∧
      t.cells ps = (s.cells ps).set k (c.write w buf) := by
  have hp : p ∈ ps := List.mem_of_getElem? hk
  rcases h.valid p hp with ⟨b, hb, hbv⟩
  obtain rfl : b.cell = c := by
    rw [getElem?_cells hk hb] at hc
    exact Option.some.inj hc
  have hcopy : copyInto b.memory w buf = .ok (b.cell.write w buf).memory := by
    rw [copyInto, if_pos (by rw [show b.memory.length = blockSize from hbv.memory]; exact hfit)]
    rfl
  obtain ⟨d, hd⟩ : ∃ d : Block, d = { b with
    memory := (b.cell.write w buf).memory, occupied := (b.cell.write w buf).occupied } := ⟨_, rfl⟩
  have hdc : d.cell = b.cell.write w buf := by rw [hd]; rfl
  refine ⟨s.setBlock p d, ?_, h.rewrite hp hb (by rw [hd]) (by rw [hd]) ?_, rfl, ?_⟩
  · simp only [writeBlock, load_some hb, ok_bind, hcopy, pure_eq_ok, hd]
    rfl
  · rw [hdc]
    exact hbv.write hfit
  · rw [cells_set h.nodup hk, hdc]

/-- The write loop on pointers does to the chain what `writeCells` does to its list of blocks. -/
theorem writeLoop_eq (h : FileChain s f F ps) (m : Malloc) {fuel : Nat} {buf : List UInt8}
    (hfuel : buf.length ≤ fuel) (k offset : Nat) :
    ∃ t G qs, writeLoop m f fuel s ps[k]? buf offset = .ok (t, offset + buf.length) ∧
      Relayout s t f F G ps qs ∧ G.size = F.size ∧
      t.cells qs = writeCells (freshMemory m s ps) fuel (s.cells ps) k buf offset := by
  induction fuel generalizing s F ps k buf offset with
  | zero =>
    obtain rfl : buf = [] := List.length_eq_zero_iff.mp (by omega)
    exact ⟨s, F, ps, rfl, h.refl, rfl, rfl⟩
  | succ fuel ih =>
    cases buf with
    | nil => exact ⟨s, F, ps, rfl, h.refl, rfl, rfl⟩
    | cons x xs =>
      obtain ⟨buf, hbuf⟩ : ∃ buf, buf = x :: xs := ⟨_, rfl⟩
      have hpos : 0 < buf.length := by simp [hbuf]
      have hwlt : offset % blockSize < blockSize := Nat.mod_lt _ (by decide)
      obtain ⟨n, hn⟩ : ∃ n, n = min buf.length (blockSize - offset % blockSize) := ⟨_, rfl⟩
      -- one round: the block to write into, and the write
      rcases writableBlock_eq h m k with ⟨t, G, qs, p, j, c, hwb, hst, hsize, hd, hj, hcj, hcell⟩
      have hfit : offset % blockSize + (buf.take n).length ≤ blockSize := by
        rw [List.length_take]
        omega
      rcases writeBlock_eq hst.after hj hcj hfit with ⟨u, hwu, htu, hbrk, hcells⟩
      have hrest : (buf.drop n).length ≤ fuel := by
        rw [← hbuf] at hfuel
        rw [List.length_drop]
        omega
      -- the other rounds go on from the block that was written
      rcases ih htu.after hrest j (offset + n) with ⟨v, H, rs, hloop, huv, hsize', hcells'⟩
      refine ⟨v, H, rs, ?_, (hst.trans htu).trans huv, hsize'.trans hsize, ?_⟩
      · have hlen : offset + n + (buf.drop n).length = offset + buf.length := by
          rw [List.length_drop]
          omega
        simp only [writeLoop]
        rw [← hbuf, ← hn, hwb, ok_bind]
        dsimp only
        rw [hwu, ok_bind, ← hj, hloop, hlen]
      · have hfresh : freshMemory m u qs = freshMemory m s ps := by
          funext i
          rw [freshMemory, freshMemory, hbrk, hd]
        rw [hcells', hcells, hfresh, ← hbuf, writeCells_step fuel (by simp [hbuf]) hcell hn]

end SystemProgramming.UserFs
