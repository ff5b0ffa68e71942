import Mathlib

/-!
# Buffers in allocated memory

A block of memory is the list of its cells; a cell is `none` until something is written to it.
`store` and `load` are `memcpy` into and out of a block and `moveToFront` is `memmove` to its
beginning; each is `none` when it would leave the block, and `load` also when it would read a cell
that was never written.
-/

namespace ByteBuffer

universe u

variable {α : Type u}

/-- The cells of a block. -/
abbrev Memory (α : Type u) := List (Option α)

def realloc (m : Memory α) (n : Nat) : Memory α :=
  m.take n ++ List.replicate (n - m.length) none

def store (m : Memory α) (off : Nat) (s : List α) : Option (Memory α) :=
  if off + s.length ≤ m.length then
    some (m.take off ++ s.map some ++ m.drop (off + s.length))
  else
    none

def load (m : Memory α) (off n : Nat) : Option (List α) :=
  if off + n ≤ m.length then ((m.drop off).take n).mapM id else none

def moveToFront (m : Memory α) (off n : Nat) : Option (Memory α) :=
  if off + n ≤ m.length then some ((m.drop off).take n ++ m.drop n) else none

/-- The block begins with the values `s`, whatever follows them. -/
def Holds (m : Memory α) (s : List α) : Prop := s.map some <+: m

variable {m : Memory α} {s t : List α} {n off : Nat}

@[simp] theorem realloc_length (m : Memory α) (n : Nat) : (realloc m n).length = n := by
  simp only [realloc, List.length_append, List.length_take, List.length_replicate]
  omega

theorem holds_nil (m : Memory α) : Holds m [] := List.nil_prefix

theorem Holds.length_le (h : Holds m s) : s.length ≤ m.length := by
  have hle := List.IsPrefix.length_le h
  rwa [List.length_map] at hle

theorem Holds.take_eq (h : Holds m s) : m.take s.length = s.map some := by
  have heq := List.prefix_iff_eq_take.mp h
  rw [List.length_map] at heq
  exact heq.symm

/-- A block that grows, or shrinks to no less than what it holds, still holds it. -/
theorem Holds.realloc (h : Holds m s) (hn : s.length ≤ n) : Holds (realloc m n) s := by
  have htake : s.map some <+: m.take n := by
    apply List.prefix_take_iff.mpr
    exact ⟨h, by rwa [List.length_map]⟩
  exact htake.trans (List.prefix_append _ _)

theorem store_none (h : m.length < off + s.length) : store m off s = none := by
  rw [store, if_neg (not_le.mpr h)]

/-- Bytes stored behind what a block holds are held behind it. -/
theorem Holds.store (h : Holds m s) (hfit : s.length + t.length ≤ m.length) :
    ∃ m', store m s.length t = some m' ∧ m'.length = m.length ∧ Holds m' (s ++ t) := by
  refine ⟨_, if_pos hfit, ?_, ?_⟩
  · simp only [List.length_append, List.length_take, List.length_map, List.length_drop]
    omega
  · rw [h.take_eq, Holds, List.map_append]
    exact List.prefix_append _ _

theorem mapM_id_map_some (s : List α) : (s.map some).mapM id = some s := by
  induction s with
  | nil => rfl
  | cons a s ih =>
    rw [List.map_cons, List.mapM_cons, ih]
    rfl

/-- What is held can be read. -/
theorem Holds.load (h : Holds m s) (hn : off + n ≤ s.length) :
    load m off n = some ((s.drop off).take n) := by
  obtain ⟨rest, rfl⟩ : ∃ rest, s.map some ++ rest = m := h
  have hlen : off ≤ (s.map some).length := by
    rw [List.length_map]
    omega
  have htake : n ≤ ((s.map some).drop off).length := by
    rw [List.length_drop, List.length_map]
    omega
  have hbound : off + n ≤ (s.map some ++ rest).length := by
    rw [List.length_append, List.length_map]
    omega
  rw [ByteBuffer.load, if_pos hbound, List.drop_append_of_le_length hlen,
    List.take_append_of_le_length htake, ← List.map_drop, ← List.map_take, mapM_id_map_some]

/-- Moving the end of what is held to the front leaves a block that holds that end. -/
theorem Holds.moveToFront (h : Holds m s) (hoff : off ≤ s.length) :
    ∃ m', moveToFront m off (s.length - off) = some m' ∧ m'.length = m.length ∧
      Holds m' (s.drop off) := by
  have hle := h.length_le
  refine ⟨_, if_pos (by omega), ?_, ?_⟩
  · simp only [List.length_append, List.length_take, List.length_drop]
    omega
  · have htake : (m.drop off).take (s.length - off) = (s.drop off).map some := by
      rw [← List.drop_take, h.take_eq, List.map_drop]
    rw [htake]
    exact List.prefix_append _ _

/-! ## Sizes in 32 bits -/

theorem toNat_sub_eq (a b : UInt32) : (a - b).toNat = (2 ^ 32 + a.toNat - b.toNat) % 2 ^ 32 := by
  have hb := b.toNat_lt
  rw [UInt32.toNat_sub]
  congr 1
  omega

theorem toNat_ofNat_eq (h : n < 2 ^ 32) : (UInt32.ofNat n).toNat = n := UInt32.toNat_ofNat_of_lt' h

end ByteBuffer
