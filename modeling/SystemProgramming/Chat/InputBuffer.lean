import SystemProgramming.Lib.ByteBuffer
import SystemProgramming.Chat.Decoding

/-!
# The input buffer of a peer

Reading from a peer and the parsing loop, on the block of memory that `realloc` gave and with all
sizes in `uint32_t`.  The loop records what could go wrong in it: the values of `bytes_parsed`, the
subtractions, and the payloads that it copies.  How a message is stored is a parameter, so that the
loop can run on a server whose array is a list, and on one that records its indices.
-/

open ByteBuffer Fallible

namespace SystemProgramming.Chat

/-- The length of `input` is the number of bytes last requested from `realloc`. -/
structure InputBuffer where
  input : Memory UInt8
  inputSize : UInt32
  inputCount : UInt32

inductive ParseEvent
  | parsed (bytesParsed : UInt32)
  | subtract (a b : UInt32)
  | copy (offset length : UInt32)
  deriving DecidableEq, Repr

/-- What has been recorded, and the result: a value, a fault of the loop itself, or one of storing
a message. -/
structure Traced (ε α : Type) where
  events : List ParseEvent
  result : Except (Fault ⊕ ε) α

namespace InputBuffer

variable {σ ε α : Type}

def after (events : List ParseEvent) (t : Traced ε α) : Traced ε α := ⟨events ++ t.events, t.result⟩

def done (a : α) : Traced ε α := ⟨[], .ok a⟩

def fault (f : Fault ⊕ ε) : Traced ε α := ⟨[], .error f⟩

/-- `bytes` have been read from the socket. -/
def addBytes (b : InputBuffer) (bytes : List UInt8) : Option InputBuffer :=
  let bytesRead : UInt32 := .ofNat bytes.length
  let b :=
    if b.inputCount + bytesRead > b.inputSize then
      let inputSize := b.inputCount + bytesRead
      { b with input := realloc b.input inputSize.toNat, inputSize := inputSize }
    else b
  (store b.input b.inputCount.toNat bytes).map fun input =>
    { b with input := input, inputCount := b.inputCount + bytesRead }

def parseLoop (put : σ → ChatMessage → Except ε σ) (i : Nat) (b : InputBuffer) :
    Nat → σ → UInt32 → Traced ε (σ × UInt32)
  | fuel, s, bytesParsed =>
    if bytesParsed < b.inputCount then
      after [.subtract b.inputCount bytesParsed] <|
      if b.inputCount - bytesParsed < .ofNat headerSize then
        done (s, bytesParsed)
      else match load b.input bytesParsed.toNat headerSize with
      | none => fault (.inl .outOfBounds)
      | some bytes =>
        let messageLength : UInt32 := .ofNat (littleEndian bytes)
        let bytesParsed := bytesParsed + .ofNat headerSize
        after [.parsed bytesParsed, .subtract b.inputCount bytesParsed] <|
        if b.inputCount - bytesParsed < messageLength then
          done (s, bytesParsed)
        else
          after [.copy bytesParsed messageLength] <|
          match fuel, load b.input bytesParsed.toNat messageLength.toNat with
          | 0, _ => fault (.inl .endless)
          | _, none => fault (.inl .outOfBounds)
          | fuel + 1, some data =>
            let bytesParsed := bytesParsed + messageLength
            after [.parsed bytesParsed] <|
            match put s { data := data, peer := i, length := messageLength.toNat } with
            | .error e => fault (.inr e)
            | .ok s => parseLoop put i b fuel s bytesParsed
    else
      done (s, bytesParsed)

/-- Remove the parsed bytes from the buffer. -/
def removeBytes (b : InputBuffer) (bytesParsed : UInt32) : Traced ε InputBuffer :=
  if bytesParsed > 0 then
    after [.subtract b.inputCount bytesParsed] <|
    let inputCount := b.inputCount - bytesParsed
    match moveToFront b.input bytesParsed.toNat inputCount.toNat with
    | none => fault (.inl .outOfBounds)
    | some input => done { b with input := input, inputCount := inputCount }
  else
    done b

/-- Gives back what has been stored, the buffer, and `bytes_parsed`. -/
def receive (put : σ → ChatMessage → Except ε σ) (i : Nat) (s : σ) (b : InputBuffer)
    (bytes : List UInt8) : Traced ε (σ × InputBuffer × UInt32) :=
  match b.addBytes bytes with
  | none => fault (.inl .outOfBounds)
  | some b =>
    let parsed := parseLoop put i b b.inputCount.toNat s 0
    match parsed.result with
    | .error f => ⟨parsed.events, .error f⟩
    | .ok (s, bytesParsed) =>
      let removed : Traced ε InputBuffer := b.removeBytes bytesParsed
      ⟨parsed.events ++ removed.events, removed.result.map fun b => (s, b, bytesParsed)⟩

end InputBuffer

/-! ## Safety -/

/-- `bytes_parsed` is within the input, the subtraction does not wrap, and what is copied lies in
the input. -/
def ParseEvent.Safe (inputCount : Nat) : ParseEvent → Prop
  | .parsed bytesParsed => bytesParsed.toNat ≤ inputCount
  | .subtract a b => b ≤ a
  | .copy offset length => offset.toNat + length.toNat ≤ inputCount

/-- The buffer has `bytes` in it, within what is allocated. -/
structure InputBuffer.Contains (b : InputBuffer) (bytes : List UInt8) : Prop where
  held : Holds b.input bytes
  count : b.inputCount.toNat = bytes.length
  allocated : b.input.length = b.inputSize.toNat
  within : b.inputCount ≤ b.inputSize

theorem littleEndian_lt (bytes : List UInt8) : littleEndian bytes < 256 ^ bytes.length := by
  induction bytes with
  | nil => decide
  | cons byte bytes ih =>
    have hbyte := byte.toNat_lt
    rw [littleEndian, List.length_cons, Nat.pow_succ]
    omega

namespace InputBuffer

/-- What `receive` should leave behind: `bytes_parsed` is within the input, and the buffer has what
comes after. -/
def LeavesSuffix {σ : Type} (input : List UInt8) (r : σ × InputBuffer × UInt32) : Prop :=
  r.2.2.toNat ≤ input.length ∧ r.2.1.Contains (input.drop r.2.2.toNat)

/-- The trace is safe, and it ends in a value that satisfies `P`. -/
structure Succeeds {ε α : Type} (inputCount : Nat) (P : α → Prop) (t : Traced ε α) : Prop where
  safe : ∀ e ∈ t.events, e.Safe inputCount
  result : ∃ a, t.result = .ok a ∧ P a

/-- The trace is safe, and it ends in a value that satisfies `P` or because a message could not be
stored. -/
structure Sound {σ ε α : Type} (put : σ → ChatMessage → Except ε σ) (inputCount : Nat)
    (P : α → Prop) (t : Traced ε α) : Prop where
  safe : ∀ e ∈ t.events, e.Safe inputCount
  result : (∃ a, t.result = .ok a ∧ P a) ∨ ∃ s m e, put s m = .error e ∧ t.result = .error (.inr e)

section

variable {σ ε α : Type} {put : σ → ChatMessage → Except ε σ} {inputCount : Nat} {P : α → Prop}
  {b : InputBuffer} {bytes : List UInt8} {i : Nat} {s : σ}

theorem Sound.succeeds_iff {t : Traced ε α} (h : Sound put inputCount P t) :
    Succeeds inputCount P t ↔ ∃ a, t.result = .ok a := by
  constructor
  · rintro ⟨-, a, ha, -⟩
    exact ⟨a, ha⟩
  · rintro ⟨a, ha⟩
    refine ⟨h.safe, ?_⟩
    rcases h.result with hok | ⟨s, m, e, -, herror⟩
    · exact hok
    · cases ha.symm.trans herror

theorem Sound.after {events : List ParseEvent} {t : Traced ε α} (h : Sound put inputCount P t)
    (hsafe : ∀ e ∈ events, e.Safe inputCount) :
    Sound put inputCount P (InputBuffer.after events t) := by
  refine ⟨fun e he => ?_, h.result⟩
  rcases List.mem_append.mp he with he | he
  · exact hsafe e he
  · exact h.safe e he

theorem Sound.record {e : ParseEvent} {t : Traced ε α} (h : Sound put inputCount P t)
    (he : e.Safe inputCount) : Sound put inputCount P (InputBuffer.after [e] t) := by
  apply h.after
  intro e' he'
  rw [List.mem_singleton] at he'
  rwa [he']

theorem sound_done {a : α} (h : P a) : Sound put inputCount P (done a) := by
  refine ⟨fun e he => ?_, .inl ⟨a, rfl, h⟩⟩
  cases he

theorem sound_refused {m : ChatMessage} {e : ε} (h : put s m = .error e) :
    Sound put inputCount P (fault (.inr e) : Traced ε α) := by
  refine ⟨fun e he => ?_, .inr ⟨s, m, e, h, rfl⟩⟩
  cases he

/-- Reading `new` into a buffer leaves room for all of it. -/
theorem Contains.addBytes {new : List UInt8} (h : b.Contains bytes)
    (hlen : bytes.length + new.length < 2 ^ 32) :
    ∃ b', b.addBytes new = some b' ∧ b'.Contains (bytes ++ new) ∧
      b'.inputSize.toNat = if bytes.length + new.length > b.inputSize.toNat then
        bytes.length + new.length else b.inputSize.toNat := by
  have hsum : (b.inputCount + .ofNat new.length).toNat = bytes.length + new.length := by
    rw [UInt32.toNat_add, toNat_ofNat_eq (by omega), h.count]
    omega
  -- a block with room for both, whether it has been allocated anew or not
  obtain ⟨m, size, hm, hheld, hsize, hroom, hadd⟩ : ∃ m size, m.length = size.toNat ∧
      Holds m bytes ∧
      (size.toNat = if bytes.length + new.length > b.inputSize.toNat then
        bytes.length + new.length else b.inputSize.toNat) ∧
      bytes.length + new.length ≤ size.toNat ∧
      b.addBytes new = (store m b.inputCount.toNat new).map fun input =>
        ⟨input, size, b.inputCount + .ofNat new.length⟩ := by
    by_cases hgrow : b.inputCount + .ofNat new.length > b.inputSize
    · have hlt : bytes.length + new.length > b.inputSize.toNat := by
        rw [← hsum]
        exact UInt32.lt_iff_toNat_lt.mp hgrow
      refine ⟨realloc b.input (b.inputCount + .ofNat new.length).toNat, _, realloc_length _ _,
        h.held.realloc ?_, ?_, ?_, ?_⟩
      · omega
      · rw [if_pos hlt, hsum]
      · omega
      · simp only [InputBuffer.addBytes, if_pos hgrow]
    · have hle : bytes.length + new.length ≤ b.inputSize.toNat := by
        rw [← hsum, ← UInt32.le_iff_toNat_le]
        exact UInt32.not_lt.mp hgrow
      refine ⟨b.input, b.inputSize, h.allocated, h.held, (if_neg (not_lt.mpr hle)).symm, hle, ?_⟩
      simp only [InputBuffer.addBytes, if_neg hgrow]
  rcases hheld.store (t := new) (by omega) with ⟨m', hstore, hlen', hm'⟩
  rw [← h.count] at hstore
  refine ⟨⟨m', size, b.inputCount + .ofNat new.length⟩, ?_, ⟨hm', ?_, ?_, ?_⟩, hsize⟩
  · rw [hadd, hstore]
    rfl
  · rw [hsum, List.length_append]
  · rw [hlen', hm]
  · rw [UInt32.le_iff_toNat_le, hsum]
    exact hroom

/-- Removing the parsed bytes leaves the rest. -/
theorem Contains.removeBytes (h : b.Contains bytes) {n : UInt32} (hn : n.toNat ≤ bytes.length) :
    ∃ events b', (b.removeBytes n : Traced ε InputBuffer) = ⟨events, .ok b'⟩ ∧
      (∀ e ∈ events, e.Safe bytes.length) ∧ b'.Contains (bytes.drop n.toNat) ∧
      b'.inputSize = b.inputSize := by
  -- Nothing is moved when no byte is removed.
  by_cases hsome : n > 0
  · have hle : n ≤ b.inputCount := by
      rw [UInt32.le_iff_toNat_le, h.count]
      exact hn
    have hrest : (b.inputCount - n).toNat = bytes.length - n.toNat := by
      rw [UInt32.toNat_sub_of_le _ _ hle, h.count]
    rcases h.held.moveToFront hn with ⟨m, hmove, hlen, hm⟩
    refine ⟨[.subtract b.inputCount n], ⟨m, b.inputSize, b.inputCount - n⟩, ?_, ?_,
      ⟨hm, ?_, ?_, ?_⟩, rfl⟩
    · simp only [InputBuffer.removeBytes, if_pos hsome, hrest, hmove]
      rfl
    · intro e he
      rw [List.mem_singleton] at he
      rw [he]
      exact hle
    · rw [hrest, List.length_drop]
    · rw [hlen, h.allocated]
    · apply UInt32.le_trans _ h.within
      rw [UInt32.le_iff_toNat_le, hrest, h.count]
      omega
  · have hzero : n.toNat = 0 := by
      have hle : n ≤ 0 := UInt32.not_lt.mp hsome
      rw [UInt32.le_iff_toNat_le] at hle
      exact Nat.le_zero.mp hle
    refine ⟨[], b, ?_, List.forall_mem_nil _, ?_, rfl⟩
    · rw [InputBuffer.removeBytes, if_neg hsome]
      rfl
    · rw [hzero, List.drop_zero]
      exact h

/-- The loop in terms of the bytes that the buffer contains: no test is about a difference that
wraps, and what is read is there. -/
theorem parseLoop_contains (h : b.Contains bytes) (n : UInt32) (fuel : Nat) :
    parseLoop put i b fuel s n =
      if n.toNat < bytes.length then
        after [.subtract b.inputCount n] <|
        if bytes.length - n.toNat < headerSize then done (s, n)
        else
          let length := littleEndian ((bytes.drop n.toNat).take headerSize)
          let k := n + .ofNat headerSize
          after [.parsed k, .subtract b.inputCount k] <|
          if bytes.length - (n.toNat + headerSize) < length then done (s, k)
          else
            after [.copy k (.ofNat length)] <|
            match fuel with
            | 0 => fault (.inl .endless)
            | fuel + 1 =>
              after [.parsed (k + .ofNat length)] <|
              match put s ⟨(bytes.drop (n.toNat + headerSize)).take length, i, length⟩ with
              | .error e => fault (.inr e)
              | .ok s => parseLoop put i b fuel s (k + .ofNat length)
      else done (s, n) := by
  have hsize : (UInt32.ofNat headerSize).toNat = headerSize := rfl
  have hmax := b.inputCount.toNat_lt
  rw [h.count] at hmax
  -- the test of the loop is made on 32-bit words
  have htest : n < b.inputCount ↔ n.toNat < bytes.length := by
    rw [UInt32.lt_iff_toNat_lt, h.count]
  rw [parseLoop.eq_def]
  dsimp only
  by_cases hend : n.toNat < bytes.length
  · rw [if_pos (htest.mpr hend), if_pos hend]
    -- the difference does not wrap, `n` being below the count
    have hrest : b.inputCount - n < .ofNat headerSize ↔ bytes.length - n.toNat < headerSize := by
      rw [UInt32.lt_iff_toNat_lt, toNat_sub_eq, h.count, hsize]
      omega
    by_cases hshort : bytes.length - n.toNat < headerSize
    · rw [if_pos (hrest.mpr hshort), if_pos hshort]
    · rw [if_neg (fun hlt => hshort (hrest.mp hlt)), if_neg hshort]
      have hheader : load b.input n.toNat headerSize =
          some ((bytes.drop n.toNat).take headerSize) := by
        apply h.held.load
        omega
      obtain ⟨length, hlength⟩ : ∃ length,
          length = littleEndian ((bytes.drop n.toNat).take headerSize) := ⟨_, rfl⟩
      -- four bytes of header, so the length is below `2 ^ 32`
      have hbound : length < 2 ^ 32 := by
        have htake : ((bytes.drop n.toNat).take headerSize).length = 4 := by
          rw [List.length_take, List.length_drop]
          show min 4 (bytes.length - n.toNat) = 4
          simp only [headerSize] at hshort
          omega
        have hlt := littleEndian_lt ((bytes.drop n.toNat).take headerSize)
        rw [htake] at hlt
        omega
      have hk : (n + .ofNat headerSize).toNat = n.toNat + headerSize := by
        rw [UInt32.toNat_add, hsize]
        simp only [headerSize] at *
        omega
      -- nor does the one after the header
      have hpayload : b.inputCount - (n + .ofNat headerSize) < .ofNat length ↔
          bytes.length - (n.toNat + headerSize) < length := by
        rw [UInt32.lt_iff_toNat_lt, toNat_sub_eq, hk, h.count, toNat_ofNat_eq hbound]
        simp only [headerSize] at *
        omega
      simp only [hheader, ← hlength, hk]
      by_cases hpart : bytes.length - (n.toNat + headerSize) < length
      · rw [if_pos (hpayload.mpr hpart), if_pos hpart]
      · rw [if_neg (fun hlt => hpart (hpayload.mp hlt)), if_neg hpart]
        have hdata : load b.input (n.toNat + headerSize) length =
            some ((bytes.drop (n.toNat + headerSize)).take length) := by
          apply h.held.load
          simp only [headerSize] at *
          omega
        rw [toNat_ofNat_eq hbound, hdata]
        cases fuel with
        | zero => rfl
        | succ fuel => rfl
  · rw [if_neg (fun hlt => hend (htest.mp hlt)), if_neg hend]

/-- Every frame that is parsed takes the loop further by at least its header, so it ends before
the fuel does; where it stops it has not gone past the input. -/
theorem parseLoop_sound (h : b.Contains bytes) {n : UInt32} {fuel : Nat}
    (hn : n.toNat ≤ bytes.length) (hfuel : bytes.length - n.toNat ≤ fuel) :
    Sound put bytes.length (fun r => r.2.toNat ≤ bytes.length) (parseLoop put i b fuel s n) := by
  induction fuel generalizing s n with
  | zero =>
    rw [parseLoop_contains h, if_neg (by omega)]
    exact sound_done hn
  | succ fuel ih =>
    have hcount := h.count
    have hmax := b.inputCount.toNat_lt
    rw [parseLoop_contains h]
    by_cases hend : n.toNat < bytes.length
    · have hle : n ≤ b.inputCount := by
        rw [UInt32.le_iff_toNat_le, hcount]
        exact hn
      rw [if_pos hend]
      have hfirst : (ParseEvent.subtract b.inputCount n).Safe bytes.length := hle
      apply Sound.record _ hfirst
      by_cases hshort : bytes.length - n.toNat < headerSize
      · rw [if_pos hshort]
        exact sound_done hn
      · rw [if_neg hshort]
        obtain ⟨length, hlength⟩ : ∃ length,
            length = littleEndian ((bytes.drop n.toNat).take headerSize) := ⟨_, rfl⟩
        obtain ⟨k, hk⟩ : ∃ k, k = n + .ofNat headerSize := ⟨_, rfl⟩
        have hkn : k.toNat = n.toNat + headerSize := by
          rw [hk, UInt32.toNat_add]
          show (n.toNat + headerSize) % 2 ^ 32 = n.toNat + headerSize
          omega
        -- the header is there, so `bytes_parsed` stays within the input
        have hkle : k.toNat ≤ bytes.length := by omega
        simp only [← hlength, ← hk]
        apply Sound.after
        · by_cases hpart : bytes.length - (n.toNat + headerSize) < length
          · rw [if_pos hpart]
            exact sound_done hkle
          · rw [if_neg hpart]
            have hsize : (UInt32.ofNat length).toNat = length := toNat_ofNat_eq (by omega)
            have hnext : (k + .ofNat length).toNat = n.toNat + headerSize + length := by
              rw [UInt32.toNat_add, hkn, hsize]
              omega
            apply Sound.record
            · apply Sound.record
              · cases hput : put s ⟨(bytes.drop (n.toNat + headerSize)).take length, i, length⟩ with
                | error e => exact sound_refused hput
                | ok s' =>
                  apply ih
                  · omega
                  · simp only [headerSize] at *
                    omega
              · show (k + .ofNat length).toNat ≤ bytes.length
                omega
            · show k.toNat + (UInt32.ofNat length).toNat ≤ bytes.length
              omega
        · intro e he
          rcases List.mem_pair.mp he with rfl | rfl
          · exact hkle
          · show k ≤ b.inputCount
            rw [UInt32.le_iff_toNat_le, hcount]
            exact hkle
    · rw [if_neg hend]
      exact sound_done hn

/-- A loop that returns stops at once, or it stores a message and goes on. -/
theorem parseLoop_cases {fuel : Nat} {s : σ} {n : UInt32} {r : σ × UInt32}
    (h : (parseLoop put i b fuel s n).result = .ok r) :
    r.1 = s ∨ ∃ m t fuel' k, fuel = fuel' + 1 ∧ put s m = .ok t ∧
      (parseLoop put i b fuel' t k).result = .ok r := by
  rw [parseLoop.eq_def] at h
  unfold after at h
  dsimp only at h
  -- The length must fit, the payload must be there, the record must be taken.
  split at h
  · split at h
    · left
      cases h
      rfl
    · split at h
      · cases h
      · dsimp only at h
        split at h
        · left
          cases h
          rfl
        · dsimp only at h
          split at h
          · cases h
          · cases h
          · dsimp only at h
            split at h
            · cases h
            · next hput =>
              exact .inr ⟨_, _, _, _, rfl, hput, h⟩
  · left
    cases h
    rfl

/-- What storing messages keeps is kept by the loop. -/
theorem parseLoop_invariant {I : σ → Prop} (hput : ∀ s m t, I s → put s m = .ok t → I t)
    {fuel : Nat} {s : σ} {n : UInt32} {r : σ × UInt32} (hs : I s)
    (h : (parseLoop put i b fuel s n).result = .ok r) : I r.1 := by
  induction fuel generalizing s n with
  | zero =>
    rcases parseLoop_cases h with hr | ⟨m, t, fuel', k, hfuel, -, -⟩
    · rwa [hr]
    · cases hfuel
  | succ fuel ih =>
    rcases parseLoop_cases h with hr | ⟨m, t, fuel', k, hfuel, hm, hrest⟩
    · rwa [hr]
    · cases hfuel
      exact ih (hput s m t hs hm) hrest

theorem receive_invariant {I : σ → Prop} (hput : ∀ s m t, I s → put s m = .ok t → I t)
    {s : σ} {bytes : List UInt8} {r : σ × InputBuffer × UInt32} (hs : I s)
    (h : (receive put i s b bytes).result = .ok r) : I r.1 := by
  unfold receive at h
  cases hadd : b.addBytes bytes with
  | none =>
    rw [hadd] at h
    cases h
  | some b' =>
    simp only [hadd] at h
    cases hloop : (parseLoop put i b' b'.inputCount.toNat s 0).result with
    | error f =>
      rw [hloop] at h
      cases h
    | ok q =>
      have hq := parseLoop_invariant hput hs hloop
      simp only [hloop] at h
      cases hremove : (b'.removeBytes q.2 : Traced ε InputBuffer).result with
      | error f =>
        rw [hremove] at h
        cases h
      | ok c =>
        rw [hremove] at h
        cases h
        exact hq

/-- Whatever a peer has buffered and sends, and whatever is done with its messages: the parsing loop
ends, `bytes_parsed` stays within the input, no subtraction wraps, every payload that is copied lies
in the input, and the buffer is left with the bytes from `bytes_parsed` on, unless storing a message
has failed. -/
theorem receive_sound (put : σ → ChatMessage → Except ε σ) (i : Nat) (s : σ) {b : InputBuffer}
    {old new : List UInt8} (h : b.Contains old) (hlen : old.length + new.length < 2 ^ 32) :
    Sound put (old ++ new).length (LeavesSuffix (old ++ new)) (receive put i s b new) := by
  rcases h.addBytes hlen with ⟨b', hadd, h', -⟩
  have hloop : Sound put (old ++ new).length (fun r => r.2.toNat ≤ (old ++ new).length)
      (parseLoop put i b' b'.inputCount.toNat s 0) := by
    apply parseLoop_sound h' (Nat.zero_le _)
    rw [h'.count]
    exact Nat.sub_le _ _
  simp only [receive, hadd]
  rcases hloop.result with ⟨⟨t, n⟩, hok, hn⟩ | ⟨t, m, e, hput, herror⟩
  · rcases h'.removeBytes (ε := ε) hn with ⟨events, c, hremove, hsafe, hcontains, -⟩
    simp only [hok, hremove]
    refine ⟨fun ev hev => ?_, .inl ⟨(t, c, n), rfl, hn, hcontains⟩⟩
    rcases List.mem_append.mp hev with hev | hev
    · exact hloop.safe ev hev
    · exact hsafe ev hev
  · simp only [herror]
    exact ⟨hloop.safe, .inr ⟨t, m, e, hput, rfl⟩⟩

/-- The buffer of a client that has just been accepted. -/
def null : InputBuffer := ⟨[], 0, 0⟩

theorem null_contains : null.Contains [] := ⟨holds_nil _, rfl, rfl, UInt32.le_refl _⟩

end

/-! ## The buffer of a server -/

section

variable {b : InputBuffer} {bytes : List UInt8} {i : Nat}

/-- With the array of the server to store messages in, the loop is the one on lists of bytes. -/
theorem parseLoop_refines (h : b.Contains bytes) {s : ChatServer} {n : UInt32} {fuel : Nat}
    (hn : n.toNat ≤ bytes.length) (hfuel : bytes.length - n.toNat ≤ fuel) :
    (parseLoop addMessage i b fuel s n).result =
      match Chat.parseLoop i bytes fuel s n.toNat with
      | .error f => .error (.inr f)
      | .ok (t, k) => .ok (t, .ofNat k) := by
  induction fuel generalizing s n with
  | zero =>
    rw [parseLoop_contains h, if_neg (by omega), Chat.parseLoop, if_neg (by omega)]
    simp only [done, UInt32.ofNat_toNat]
  | succ fuel ih =>
    have hmax := b.inputCount.toNat_lt
    rw [h.count] at hmax
    rw [parseLoop_contains h, Chat.parseLoop]
    by_cases hend : n.toNat < bytes.length
    · rw [if_pos hend, if_pos hend]
      by_cases hshort : bytes.length - n.toNat < headerSize
      · rw [if_pos hshort, if_pos hshort]
        simp only [after, done, UInt32.ofNat_toNat]
      · rw [if_neg hshort, if_neg hshort]
        obtain ⟨length, hlength⟩ : ∃ length,
            length = littleEndian ((bytes.drop n.toNat).take headerSize) := ⟨_, rfl⟩
        -- neither sum wraps, since the payload ends inside the input
        have hk : (n + .ofNat headerSize).toNat = n.toNat + headerSize := by
          rw [UInt32.toNat_add]
          show (n.toNat + headerSize) % 2 ^ 32 = n.toNat + headerSize
          omega
        simp only [← hlength, after]
        by_cases hpart : bytes.length - (n.toNat + headerSize) < length
        · rw [if_pos hpart, if_pos hpart]
          simp only [done, ← hk, UInt32.ofNat_toNat]
        · rw [if_neg hpart, if_neg hpart]
          have hnext : (n + .ofNat headerSize + .ofNat length).toNat =
              n.toNat + headerSize + length := by
            rw [UInt32.toNat_add, hk, toNat_ofNat_eq (by omega)]
            omega
          cases addMessage s ⟨(bytes.drop (n.toNat + headerSize)).take length, i, length⟩ with
          | error e => rfl
          | ok t =>
            have hrest := ih (s := t) (n := n + .ofNat headerSize + .ofNat length) (by omega)
              (by simp only [headerSize] at *; omega)
            rw [hnext] at hrest
            exact hrest
    · rw [if_neg hend, if_neg hend]
      simp only [done, UInt32.ofNat_toNat]

/-- The loop stores the messages of the complete frames, and stops at the header or the bytes that are
left over. -/
theorem parseLoop_messages (h : b.Contains bytes) (s : ChatServer) {outs : List (List UInt8)}
    {r : List UInt8} (hdrain : frames.drain bytes = (outs, .rest r)) :
    (parseLoop addMessage i b b.inputCount.toNat s 0).result =
      match addMessages i s outs with
      | .error f => .error (.inr f)
      | .ok t => .ok (t, .ofNat (bytes.length - (leftover r).length)) := by
  have hparse : Chat.parseLoop i bytes bytes.length s 0 =
      addMessages i s outs >>= fun t => .ok (t, bytes.length - (leftover r).length) :=
    parseLoop_eq i s (Nat.sub_le _ _) (Nat.zero_le _) hdrain
  have hloop := parseLoop_refines (i := i) (s := s) (n := 0) h (Nat.zero_le _)
    (show bytes.length - 0 ≤ b.inputCount.toNat by rw [h.count, Nat.sub_zero])
  rw [hloop, h.count, show (0 : UInt32).toNat = 0 from rfl, hparse]
  cases addMessages i s outs with
  | error f => rfl
  | ok t => rfl

/-- Reading from peer `i` of a server, whose buffer is the memory `b`. -/
theorem receive_refines {s : ChatServer} {peer : ChatPeer} (hi : s.peers[i]? = some peer)
    (h : b.Contains peer.input) (hsize : b.inputSize.toNat = peer.inputSize) {new : List UInt8}
    (hlen : peer.input.length + new.length < 2 ^ 32) :
    (∃ t b' n, (receive addMessage i s b new).result = .ok (t, b', n) ∧
      ∃ peer', Chat.receive s i new = .ok { t with peers := t.peers.set i peer' } ∧
        peer'.socket = peer.socket ∧ b'.Contains peer'.input ∧
        b'.inputSize.toNat = peer'.inputSize) ∨
    ∃ f, (receive addMessage i s b new).result = .error (.inr f) ∧
      Chat.receive s i new = .error f := by
  rcases h.addBytes hlen with ⟨b', hadd, h', hsize'⟩
  obtain ⟨input, hinput⟩ : ∃ input, input = peer.input ++ new := ⟨_, rfl⟩
  rw [← hinput] at h'
  rcases drain_frames input with ⟨outs, r, hdrain⟩
  have hparse : Chat.parseLoop i input input.length s 0 =
      addMessages i s outs >>= fun t => .ok (t, input.length - (leftover r).length) :=
    parseLoop_eq i s (Nat.sub_le _ _) (Nat.zero_le _) hdrain
  have hloop := parseLoop_messages (i := i) h' s hdrain
  simp only [receive, hadd, Chat.receive, hi, ← hinput, hparse]
  cases hmsgs : addMessages i s outs with
  | error f =>
    right
    simp only [hmsgs] at hloop
    rw [hloop]
    exact ⟨f, rfl, rfl⟩
  | ok t =>
    left
    simp only [hmsgs] at hloop
    obtain ⟨k, hk⟩ : ∃ k, k = input.length - (leftover r).length := ⟨_, rfl⟩
    have hkle : k ≤ input.length := by omega
    have hkn : (UInt32.ofNat k).toNat = k := by
      apply toNat_ofNat_eq
      rw [hinput, List.length_append] at hkle
      omega
    rcases h'.removeBytes (ε := Fault) (n := .ofNat k) (by rw [hkn]; exact hkle) with
      ⟨events, c, hremove, -, hcontains, hkeep⟩
    rw [hkn] at hcontains
    rw [hloop, ← hk]
    simp only [hremove]
    refine ⟨t, c, .ofNat k, rfl, ⟨peer.socket, input.drop k, c.inputSize.toNat⟩, ?_, rfl,
      hcontains, rfl⟩
    -- the source moves the bytes only if there is something to remove
    have hsame : (if k > 0 then input.drop k else input) = input.drop k := by
      by_cases hpos : k > 0
      · rw [if_pos hpos]
      · rw [if_neg hpos, Nat.le_zero.mp (not_lt.mp hpos), List.drop_zero]
    rw [hkeep, hsize', hsize]
    simp only [ok_bind, pure_eq_ok, hsame]

/-- Reading returns if the server has room for the messages of all complete frames. -/
theorem receive_ok_iff {old new : List UInt8} (h : b.Contains old)
    (hlen : old.length + new.length < 2 ^ 32) (s : ChatServer) {outs : List (List UInt8)}
    {r : List UInt8} (hdrain : frames.drain (old ++ new) = (outs, .rest r)) :
    (∃ a, (receive addMessage i s b new).result = .ok a) ↔
      ∃ t, addMessages i s outs = .ok t := by
  rcases h.addBytes hlen with ⟨b', hadd, h', -⟩
  have hloop := parseLoop_messages (i := i) h' s hdrain
  simp only [receive, hadd]
  cases hmsgs : addMessages i s outs with
  | error f =>
    simp only [hmsgs] at hloop
    rw [hloop]
    apply iff_of_false
    · rintro ⟨a, ha⟩
      cases ha
    · rintro ⟨t, ht⟩
      cases ht
  | ok t =>
    simp only [hmsgs] at hloop
    obtain ⟨k, hk⟩ : ∃ k, k = (old ++ new).length - (leftover r).length := ⟨_, rfl⟩
    have hkle : (UInt32.ofNat k).toNat ≤ (old ++ new).length := by
      rw [toNat_ofNat_eq (by rw [List.length_append] at hk; omega)]
      omega
    rcases h'.removeBytes (ε := Fault) hkle with ⟨events, c, hremove, -⟩
    rw [hloop, ← hk]
    simp only [hremove]
    exact iff_of_true ⟨_, rfl⟩ ⟨t, rfl⟩

/-- Whatever a peer has buffered and sends, its lengths included: the parsing loop is safe and leaves
the unparsed bytes in the buffer if and only if, unless `total_messages` has been set (which it never
is), the buffer does not begin with a complete frame. -/
theorem receive_sound_iff {s : ChatServer} (hroom : Room s) (i : Nat) {b : InputBuffer}
    {old new : List UInt8} (h : b.Contains old) (hlen : old.length + new.length < 2 ^ 32) :
    Succeeds (old ++ new).length (LeavesSuffix (old ++ new)) (receive addMessage i s b new) ↔
      (s.totalMessages = 0 → Incomplete (old ++ new)) := by
  rcases drain_frames (old ++ new) with ⟨outs, r, hdrain⟩
  rw [(receive_sound addMessage i s h hlen).succeeds_iff, receive_ok_iff h hlen s hdrain,
    addMessages_ok_iff hroom, drain_nil_iff hdrain]

/-- A length of `2 ^ 32 - 1` with one byte behind it. -/
def hostile : List UInt8 := [255, 255, 255, 255, 7]

theorem receive_sound_iff_hostile :
    Succeeds 5 (LeavesSuffix hostile) (receive addMessage 1 oneClient null hostile) := by
  have hlen : ([] : List UInt8).length + hostile.length < 2 ^ 32 := by decide
  exact (receive_sound_iff oneClient_room 1 null_contains hlen).mpr fun _ => by decide

/-- An empty message is complete, and the server has no room for it. -/
theorem empty_message_out_of_bounds :
    (receive addMessage 1 oneClient null (frame [])).result = .error (.inr .outOfBounds) ∧
      ¬ Succeeds 4 (LeavesSuffix (frame [])) (receive addMessage 1 oneClient null (frame [])) := by
  have hmap : (receive addMessage 1 oneClient null (frame [])).result.map (fun _ => ()) =
      .error (.inr .outOfBounds) := by decide +kernel
  cases hresult : (receive addMessage 1 oneClient null (frame [])).result with
  | error f =>
    rw [hresult] at hmap
    cases hmap
    refine ⟨rfl, fun hsucceeds => ?_⟩
    obtain ⟨a, ha, -⟩ := hsucceeds.result
    cases hresult.symm.trans ha
  | ok a =>
    rw [hresult] at hmap
    cases hmap

end

end InputBuffer

end SystemProgramming.Chat
