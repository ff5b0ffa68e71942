import SystemProgramming.Lib.Incremental

/-!
# Frames

A message goes over the wire as its length, a `uint32_t` in the byte order of a little-endian
machine, and then its bytes.  Any stream of bytes decodes into the frames that are complete and the
beginning of the next one; how the stream was cut does not matter.
-/

open Incremental

namespace SystemProgramming.Chat

/-- `sizeof(uint32_t)`. -/
def headerSize : Nat := 4

def littleEndian : List UInt8 → Nat
  | [] => 0
  | b :: bs => b.toNat + 256 * littleEndian bs

/-- The bytes of a `uint32_t` in memory. -/
def header (n : Nat) : List UInt8 :=
  [.ofNat n, .ofNat (n / 256), .ofNat (n / 256 ^ 2), .ofNat (n / 256 ^ 3)]

def frame (message : List UInt8) : List UInt8 := header message.length ++ message

def encode (messages : List (List UInt8)) : List UInt8 := messages.flatMap frame

@[simp] theorem header_length (n : Nat) : (header n).length = headerSize := rfl

@[simp] theorem frame_length (m : List UInt8) : (frame m).length = headerSize + m.length := by
  simp [frame]

@[simp] theorem encode_nil : encode [] = [] := rfl

@[simp] theorem encode_cons (m : List UInt8) (ms : List (List UInt8)) :
    encode (m :: ms) = frame m ++ encode ms := rfl

@[simp] theorem encode_append (ms ns : List (List UInt8)) :
    encode (ms ++ ns) = encode ms ++ encode ns := by
  simp [encode]

theorem littleEndian_header {n : Nat} (h : n < 2 ^ 32) : littleEndian (header n) = n := by
  have h0 : (UInt8.ofNat n).toNat = n % 256 := rfl
  have h1 : (UInt8.ofNat (n / 256)).toNat = n / 256 % 256 := rfl
  have h2 : (UInt8.ofNat (n / 256 ^ 2)).toNat = n / 256 ^ 2 % 256 := rfl
  have h3 : (UInt8.ofNat (n / 256 ^ 3)).toNat = n / 256 ^ 3 % 256 := rfl
  simp only [header, littleEndian, h0, h1, h2, h3]
  omega

/-! ## The decoder -/

/-- What the first bytes of a buffer say: the first frame is complete, or more has to come. -/
def verdict (s : List UInt8) : Verdict (List UInt8) Empty :=
  if s.length < headerSize then .wait
  else if s.length - headerSize < littleEndian (s.take headerSize) then .wait
  else .emit ((s.drop headerSize).take (littleEndian (s.take headerSize)))
    (headerSize + littleEndian (s.take headerSize))

theorem verdict_short {s : List UInt8} (h : s.length < headerSize) : verdict s = .wait := by
  rw [verdict, if_pos h]

theorem verdict_incomplete {s : List UInt8}
    (h : s.length - headerSize < littleEndian (s.take headerSize)) : verdict s = .wait := by
  unfold verdict
  by_cases hshort : s.length < headerSize
  · rw [if_pos hshort]
  · rw [if_neg hshort, if_pos h]

theorem verdict_emit {s : List UInt8} (hlen : ¬ s.length < headerSize)
    (h : ¬ s.length - headerSize < littleEndian (s.take headerSize)) :
    verdict s = .emit ((s.drop headerSize).take (littleEndian (s.take headerSize)))
      (headerSize + littleEndian (s.take headerSize)) := by
  rw [verdict, if_neg hlen, if_neg h]

/-- There is no complete frame at the beginning. -/
def Incomplete (s : List UInt8) : Prop :=
  s.length < headerSize ∨ s.length - headerSize < littleEndian (s.take headerSize)

instance (s : List UInt8) : Decidable (Incomplete s) := inferInstanceAs (Decidable (_ ∨ _))

theorem verdict_wait_iff (s : List UInt8) : verdict s = .wait ↔ Incomplete s := by
  constructor
  · intro hwait
    by_contra hcomplete
    rcases not_or.mp hcomplete with ⟨hlen, hle⟩
    rw [verdict_emit hlen hle] at hwait
    cases hwait
  · rintro (hshort | hpartial)
    · exact verdict_short hshort
    · exact verdict_incomplete hpartial

/-- A verdict other than to wait is that of a complete frame. -/
theorem verdict_cases {s : List UInt8} (h : verdict s ≠ .wait) :
    ¬ s.length < headerSize ∧ ¬ s.length - headerSize < littleEndian (s.take headerSize) :=
  not_or.mp (mt (verdict_wait_iff s).mpr h)

def frames : Decoder UInt8 (List UInt8) Empty where
  decide := verdict
  wait_nil := rfl
  progress := by
    intro s out n h
    have hwait : verdict s ≠ .wait := by
      rw [h]
      simp
    rcases verdict_cases hwait with ⟨hlen, hle⟩
    rw [verdict_emit hlen hle] at h
    cases h
    simp only [headerSize] at *
    omega
  stable := by
    intro s h u
    rcases verdict_cases h with ⟨hlen, hle⟩
    have hhead : (s ++ u).take headerSize = s.take headerSize :=
      List.take_append_of_le_length (not_lt.mp hlen)
    have htail : (s ++ u).drop headerSize = s.drop headerSize ++ u :=
      List.drop_append_of_le_length (not_lt.mp hlen)
    have hlen' : ¬ (s ++ u).length < headerSize := by
      rw [List.length_append]
      omega
    have hle' : ¬ (s ++ u).length - headerSize < littleEndian ((s ++ u).take headerSize) := by
      rw [hhead, List.length_append]
      omega
    rw [verdict_emit hlen hle, verdict_emit hlen' hle', hhead, htail,
      List.take_append_of_le_length (by rw [List.length_drop]; omega)]

/-- Nothing aborts the decoding. -/
theorem drain_frames (s : List UInt8) : ∃ outs r, frames.drain s = (outs, .rest r) := by
  cases h : frames.drain s with
  | mk outs e =>
    cases e with
    | rest r => exact ⟨outs, r, rfl⟩
    | abort e => exact e.elim

/-- A buffer that begins with an incomplete frame gives no message at all. -/
theorem drain_nil_iff {s r : List UInt8} {outs : List (List UInt8)}
    (h : frames.drain s = (outs, .rest r)) : outs = [] ↔ Incomplete s := by
  rw [← verdict_wait_iff]
  cases hverdict : frames.decide s with
  | wait =>
    rw [Decoder.drain_wait hverdict] at h
    cases h
    exact iff_of_true rfl hverdict
  | emit out n =>
    rw [Decoder.drain_emit hverdict] at h
    have hne : outs ≠ [] := by
      rw [← (Prod.mk.inj h).1]
      exact List.cons_ne_nil _ _
    refine iff_of_false hne fun hwait => ?_
    cases hverdict.symm.trans hwait
  | abort e => exact e.elim

theorem verdict_frame {m : List UInt8} (hm : m.length < 2 ^ 32) (u : List UInt8) :
    verdict (frame m ++ u) = .emit m (frame m).length := by
  have hhead : (frame m ++ u).take headerSize = header m.length := by
    rw [frame, List.append_assoc, List.take_append_of_le_length (le_of_eq (header_length _).symm),
      List.take_of_length_le (le_of_eq (header_length _))]
  have htail : (frame m ++ u).drop headerSize = m ++ u := by
    rw [frame, List.append_assoc, List.drop_append_of_le_length (le_of_eq (header_length _).symm),
      List.drop_of_length_le (le_of_eq (header_length _)), List.nil_append]
  have hlen : (frame m ++ u).length = headerSize + m.length + u.length := by
    rw [List.length_append, frame_length]
  rw [verdict_emit (by omega) (by rw [hhead, littleEndian_header hm]; omega), hhead, htail,
    littleEndian_header hm, List.take_append_of_le_length (le_refl _), List.take_length,
    frame_length]

theorem drain_encode {ms : List (List UInt8)} (hms : ∀ m ∈ ms, m.length < 2 ^ 32)
    (u : List UInt8) : frames.drain (encode ms ++ u) = after ms (frames.drain u) := by
  induction ms with
  | nil => rfl
  | cons m ms ih =>
    have hm := hms m (by simp)
    have hrest := ih fun n hn => hms n (by simp [hn])
    have hverdict : frames.decide (encode (m :: ms) ++ u) = .emit m (frame m).length := by
      rw [encode_cons, List.append_assoc]
      exact verdict_frame hm _
    rw [Decoder.drain_emit hverdict, encode_cons, List.append_assoc, List.drop_left, hrest,
      after_after]
    rfl

/-! ## Streams of messages -/

/-- `got` are the messages whose frames are complete in `delivered`, and `rest` is what there is of
the next one. -/
structure Received (messages : List (List UInt8)) (delivered : List UInt8)
    (got : List (List UInt8)) (rest : List UInt8) : Prop where
  order : got <+: messages
  stream : delivered = encode got ++ rest
  incomplete : ∀ m, messages[got.length]? = some m → rest.length < (frame m).length

/-- The beginning of a frame is waited on. -/
theorem verdict_prefix {m u : List UInt8} (hm : m.length < 2 ^ 32) (hpre : u <+: frame m)
    (hlt : u.length < (frame m).length) : verdict u = .wait := by
  by_cases hshort : u.length < headerSize
  · exact verdict_short hshort
  · refine verdict_incomplete ?_
    rcases hpre with ⟨v, hv⟩
    have hhead : u.take headerSize = header m.length := by
      have hu : (u ++ v).take headerSize = u.take headerSize :=
        List.take_append_of_le_length (not_lt.mp hshort)
      rw [← hu, hv, frame, List.take_append_of_le_length (le_of_eq (header_length _).symm),
        List.take_of_length_le (le_of_eq (header_length _))]
    rw [hhead, littleEndian_header hm]
    rw [frame_length] at hlt
    omega

/-- What has been received is what the decoder finds. -/
theorem Received.drain {ms got : List (List UInt8)} {delivered rest : List UInt8}
    (h : Received ms delivered got rest) (hms : ∀ m ∈ ms, m.length < 2 ^ 32)
    (hpre : delivered <+: encode ms) : frames.drain delivered = (got, .rest rest) := by
  rcases h.order with ⟨more, rfl⟩
  have hgot : ∀ m ∈ got, m.length < 2 ^ 32 := fun m hm => hms m (by simp [hm])
  rw [h.stream, encode_append, List.prefix_append_right_inj] at hpre
  have hwait : frames.decide rest = .wait := by
    cases more with
    | nil =>
      rw [encode_nil, List.prefix_nil] at hpre
      rw [hpre]
      rfl
    | cons m more =>
      have hm : m.length < 2 ^ 32 := hms m (by simp)
      have hlt := h.incomplete m (by simp)
      refine verdict_prefix hm ?_ hlt
      rw [encode_cons] at hpre
      exact List.prefix_of_prefix_length_le hpre (List.prefix_append _ _) hlt.le
  rw [h.stream, drain_encode hgot, Decoder.drain_wait hwait, after, List.append_nil]

/-- Every prefix of the stream has been received up to some message. -/
theorem received_exists {ms : List (List UInt8)} {delivered : List UInt8}
    (hpre : delivered <+: encode ms) : ∃ got rest, Received ms delivered got rest := by
  induction ms generalizing delivered with
  | nil =>
    rw [encode_nil, List.prefix_nil] at hpre
    exact ⟨[], [], List.prefix_rfl, hpre, by simp⟩
  | cons m ms ih =>
    by_cases hlt : delivered.length < (frame m).length
    · exact ⟨[], delivered, List.nil_prefix, rfl, fun n hn => by
        obtain rfl : m = n := by simpa using hn
        exact hlt⟩
    · rw [encode_cons] at hpre
      have hfirst : frame m <+: delivered :=
        List.prefix_of_prefix_length_le (List.prefix_append _ _) hpre (not_lt.mp hlt)
      rcases hfirst with ⟨more, rfl⟩
      rw [List.prefix_append_right_inj] at hpre
      rcases ih hpre with ⟨got, rest, hgot⟩
      refine ⟨m :: got, rest, (List.prefix_cons_inj m).mpr hgot.order, ?_, fun n hn => ?_⟩
      · rw [hgot.stream, encode_cons, List.append_assoc]
      · exact hgot.incomplete n (by simpa using hn)

theorem received_iff {ms got : List (List UInt8)} {delivered rest : List UInt8}
    (hms : ∀ m ∈ ms, m.length < 2 ^ 32) (hpre : delivered <+: encode ms) :
    Received ms delivered got rest ↔ frames.drain delivered = (got, .rest rest) := by
  constructor
  · intro h
    exact h.drain hms hpre
  · intro h
    rcases received_exists hpre with ⟨got', rest', h'⟩
    have heq := (h'.drain hms hpre).symm.trans h
    cases heq
    exact h'

end SystemProgramming.Chat
