import SystemProgramming.Lib.Fallible
import SystemProgramming.Lib.Lines
import SystemProgramming.Shell.Token
import SystemProgramming.Chat.Server

/-!
# The chat client

`_process_buffer` of `chat_client.c`, which cuts what a client reads into messages.  Its two static
variables are the state; all the clients of a process share them.  Pointers into `message_buffer`
are offsets, and one of them may be -1.
-/

open Fallible Lines
open SystemProgramming.Shell (isSpace newline)

namespace SystemProgramming.Chat

/-- `BUFFER_SIZE` of `chat_client.h`. -/
def bufferSize : Nat := 4096

structure MessageBuffer where
  messageBuffer : List UInt8
  messageBufferLength : Nat

/-- Static variables are zero at the start. -/
def MessageBuffer.static : MessageBuffer := ⟨List.replicate bufferSize 0, 0⟩

/-- `memory[i] = b`. -/
def poke (memory : List UInt8) (i : Int) (b : UInt8) : Except Fault (List UInt8) :=
  if 0 ≤ i ∧ i < memory.length then .ok (memory.set i.toNat b) else .error .outOfBounds

/-- `while (isspace(*start)) start++`, on the memory from `start` on. -/
def skipSpaces : List UInt8 → Nat → Except Fault Nat
  | [], _ => .error .outOfBounds
  | b :: rest, start => if isSpace b then skipSpaces rest (start + 1) else .ok start

/-- `while (end > start && isspace(*end)) end--`, which takes no more steps than `end` is away from
`start`. -/
def skipBack (memory : List UInt8) (start : Int) : Nat → Int → Except Fault Int
  | 0, last => .ok last
  | steps + 1, last =>
    if last > start then
      match memory[last.toNat]? with
      | none => .error .outOfBounds
      | some b => if isSpace b then skipBack memory start steps (last - 1) else .ok last
    else
      .ok last

/-- The string at the beginning of the memory. -/
def cString : List UInt8 → Except Fault (List UInt8)
  | [] => .error .outOfBounds
  | b :: rest => if b = 0 then .ok [] else (cString rest).map (b :: ·)

/-- The message at a line end: the string for which the branch is taken, if it is. -/
def takeMessage (m : MessageBuffer) : Except Fault (MessageBuffer × Option (List UInt8)) := do
  let memory ← poke m.messageBuffer m.messageBufferLength 0
  let start ← skipSpaces memory 0
  let last ← skipBack memory start ((m.messageBufferLength : Int) - 1 - start).toNat
    (m.messageBufferLength - 1)
  let memory ← poke memory (last + 1) 0
  -- `if (start != end)`, the test that the message is not just spaces
  let message ← if (start : Int) ≠ last then (cString (memory.drop start)).map some else pure none
  pure (⟨memory, 0⟩, message)

/-- One byte.  A line that is too long loses its end. -/
def processByte (m : MessageBuffer) (b : UInt8) :
    Except Fault (MessageBuffer × Option (List UInt8)) :=
  if b = newline then
    takeMessage m
  else if m.messageBufferLength < bufferSize - 1 then do
    let memory ← poke m.messageBuffer m.messageBufferLength b
    pure (⟨memory, m.messageBufferLength + 1⟩, none)
  else
    -- the line is too long, and the byte is dropped
    pure (m, none)

/-- Gives back the strings for which the branch is taken. -/
def processBuffer : MessageBuffer → List UInt8 → Except Fault (MessageBuffer × List (List UInt8))
  | m, [] => pure (m, [])
  | m, b :: buffer => do
    let (m, message) ← processByte m b
    let (m, messages) ← processBuffer m buffer
    pure (m, message.toList ++ messages)

/-- The calls of all the clients of a process, in order.  A string is given back with the client on
whose behalf the branch is taken. -/
def processCalls {κ : Type} : MessageBuffer → List (κ × List UInt8) →
    Except Fault (MessageBuffer × List (κ × List UInt8))
  | m, [] => pure (m, [])
  | m, (client, buffer) :: calls => do
    let (m, messages) ← processBuffer m buffer
    let (m, more) ← processCalls m calls
    pure (m, messages.map (fun message => (client, message)) ++ more)

/-! ## What the code makes of a line -/

def trimmed (line : List UInt8) : List UInt8 := trim isSpace line

/-- What there is room for of a line. -/
def kept (line : List UInt8) : List UInt8 := line.take (bufferSize - 1)

/-- The message that the code makes of a line: `start` and `end` meet on a text of one byte
only. -/
def taken (line : List UInt8) : Option (List UInt8) :=
  if (trimmed (kept line)).length = 1 then none else some (trimmed (kept line))

/-- The static buffer has in it what came since the last line end, as far as there is room. -/
structure MessageBuffer.Holds (m : MessageBuffer) (line : List UInt8) : Prop where
  size : m.messageBuffer.length = bufferSize
  held : kept line <+: m.messageBuffer
  length : m.messageBufferLength = (kept line).length

theorem static_holds : MessageBuffer.static.Holds [] :=
  ⟨List.length_replicate, List.nil_prefix, rfl⟩

theorem poke_eq {memory : List UInt8} {n : Nat} (h : n < memory.length) (b : UInt8) :
    poke memory n b = .ok (memory.take n ++ b :: memory.drop (n + 1)) := by
  have hbound : (0 : Int) ≤ n ∧ (n : Int) < memory.length := by omega
  rw [poke, if_pos hbound, Int.toNat_natCast, List.set_eq_take_append_cons_drop, if_pos h]

theorem skipSpaces_eq {before rest : List UInt8} {b : UInt8} (hbefore : ∀ a ∈ before, isSpace a)
    (hb : ¬ isSpace b) (n : Nat) :
    skipSpaces (before ++ b :: rest) n = .ok (n + before.length) := by
  induction before generalizing n with
  | nil => rw [List.nil_append, skipSpaces, if_neg hb, List.length_nil, Nat.add_zero]
  | cons a before ih =>
    rw [List.cons_append, skipSpaces, if_pos (hbefore a (by simp)),
      ih (fun c hc => hbefore c (by simp [hc])), List.length_cons]
    congr 1
    omega

theorem cString_eq {text rest : List UInt8} (h : 0 ∉ text) :
    cString (text ++ 0 :: rest) = .ok text := by
  induction text with
  | nil => rfl
  | cons a text ih =>
    rw [List.mem_cons, not_or] at h
    rw [List.cons_append, cString, if_neg (Ne.symm h.1), ih h.2]
    rfl

/-- `end` comes to rest on the last byte of the text, or right before `start` without any. -/
theorem skipBack_eq {before text behind : List UInt8} (rest : List UInt8)
    (hlast : ∀ a ∈ text.getLast?, ¬ isSpace a) (hbehind : ∀ a ∈ behind, isSpace a)
    (hnone : text = [] → behind = []) {steps : Nat} {last : Int}
    (hpos : last = before.length + text.length + behind.length - 1)
    (hsteps : steps = (last - before.length).toNat) :
    skipBack (before ++ text ++ behind ++ rest) before.length steps last =
      .ok (before.length + text.length - 1) := by
  induction behind using List.reverseRecOn generalizing rest steps last with
  | nil =>
    rw [List.length_nil] at hpos
    cases steps with
    | zero =>
      rw [skipBack, hpos]
      rfl
    | succ steps =>
      -- at least two bytes, of which the last one is no space
      have hlen : 2 ≤ text.length := by omega
      rcases List.eq_nil_or_concat text with rfl | ⟨text, b, rfl⟩
      · rw [List.length_nil] at hlen
        omega
      · have hb : ¬ isSpace b := hlast b (by simp)
        rw [List.concat_eq_append, List.length_append, List.length_singleton] at *
        have hindex : last.toNat = (before ++ text).length := by
          rw [List.length_append]
          omega
        have hfetch : (before ++ (text ++ [b]) ++ [] ++ rest)[last.toNat]? = some b := by
          rw [hindex, List.append_nil, ← List.append_assoc, List.append_assoc (before ++ text),
            List.getElem?_append_right (le_refl _), Nat.sub_self]
          rfl
        rw [skipBack, if_pos (by omega), hfetch]
        simp only [if_neg hb, hpos]
        rfl
  | append_singleton behind b ih =>
    have hb : isSpace b := hbehind b (by simp)
    have htext : 0 < text.length := by
      apply List.length_pos_of_ne_nil
      intro hnil
      simpa using hnone hnil
    rw [List.length_append, List.length_singleton] at hpos
    have hindex : last.toNat = (before ++ text ++ behind).length := by
      rw [List.length_append, List.length_append]
      omega
    have hfetch : (before ++ text ++ (behind ++ [b]) ++ rest)[last.toNat]? = some b := by
      rw [hindex, ← List.append_assoc, List.append_assoc (before ++ text ++ behind),
        List.getElem?_append_right (le_refl _), Nat.sub_self]
      rfl
    obtain ⟨steps, rfl⟩ : ∃ n, steps = n + 1 := ⟨steps - 1, by omega⟩
    have hmemory : before ++ text ++ (behind ++ [b]) ++ rest =
        before ++ text ++ behind ++ (b :: rest) := by
      simp only [List.append_assoc, List.singleton_append]
    rw [skipBack, if_pos (by omega), hfetch]
    simp only [if_pos hb, hmemory]
    apply ih
    · intro a ha
      exact hbehind a (by simp [ha])
    · intro hnil
      rw [hnil] at htext
      exact absurd htext (lt_irrefl _)
    · omega
    · omega

/-- Whatever line is in the static buffer, its message is what `taken` says. -/
theorem takeMessage_eq {m : MessageBuffer} {line : List UInt8} (h : m.Holds line)
    (hline : 0 ∉ line) : ∃ m', takeMessage m = .ok (m', taken line) ∧ m'.Holds [] := by
  obtain ⟨kept, hkept⟩ : ∃ l, l = kept line := ⟨_, rfl⟩
  have hsize := h.size
  have hheld := h.held
  have hlength := h.length
  rw [← hkept] at hheld hlength
  have hzero : 0 ∉ kept := by
    intro hmem
    rw [hkept] at hmem
    exact hline (List.mem_of_mem_take hmem)
  have hshort : kept.length < m.messageBuffer.length := by
    rw [hkept, Chat.kept, List.length_take, hsize]
    simp only [bufferSize]
    omega
  rcases trim_spec isSpace kept with
    ⟨before, behind, hparts, hbefore, hbehind, hhead, hlast, hnone⟩
  obtain ⟨text, htext⟩ : ∃ text, text = trimmed kept := ⟨_, rfl⟩
  rw [show trim isSpace kept = text from htext.symm] at hparts hhead hlast hnone
  have hlen := congrArg List.length hparts
  rw [List.length_append, List.length_append] at hlen
  -- the line, ended by a zero
  obtain ⟨rest, hrest⟩ : ∃ rest, rest = m.messageBuffer.drop (kept.length + 1) := ⟨_, rfl⟩
  have hend : poke m.messageBuffer m.messageBufferLength 0 =
      .ok (before ++ text ++ behind ++ 0 :: rest) := by
    rw [hlength, poke_eq hshort, ← hparts, ← hrest, ← List.prefix_iff_eq_take.mp hheld]
  have hstart : skipSpaces (before ++ text ++ behind ++ 0 :: rest) 0 = .ok before.length := by
    have hstop : ∀ b more, ¬ isSpace b → skipSpaces (before ++ b :: more) 0 = .ok before.length := by
      intro b more hb
      rw [skipSpaces_eq hbefore hb, Nat.zero_add]
    cases htext' : text with
    | nil =>
      rw [hnone htext', List.append_nil, List.append_nil]
      exact hstop 0 rest (by decide)
    | cons b more =>
      rw [htext'] at hhead
      rw [List.append_assoc, List.append_assoc, List.cons_append]
      exact hstop b _ (hhead b rfl)
  have hback : skipBack (before ++ text ++ behind ++ 0 :: rest) before.length
      ((m.messageBufferLength : Int) - 1 - before.length).toNat (m.messageBufferLength - 1) =
      .ok (before.length + text.length - 1) := by
    apply skipBack_eq (0 :: rest) hlast hbehind hnone _ rfl
    rw [hlength]
    omega
  -- and ended once more after the text
  obtain ⟨tail, hpoke, hsize'⟩ : ∃ tail, poke (before ++ text ++ behind ++ 0 :: rest)
      ((before.length : Int) + text.length - 1 + 1) 0 = .ok (before ++ text ++ 0 :: tail) ∧
      (before ++ text ++ 0 :: tail).length = bufferSize := by
    have hrestlen : rest.length = bufferSize - (kept.length + 1) := by
      rw [hrest, List.length_drop, hsize]
    have hindex : (before.length : Int) + text.length - 1 + 1 = (before ++ text).length := by
      rw [List.length_append]
      omega
    have hbound : (before ++ text).length < (before ++ text ++ behind ++ 0 :: rest).length := by
      simp only [List.length_append, List.length_cons]
      omega
    refine ⟨(before ++ text ++ behind ++ 0 :: rest).drop ((before ++ text).length + 1), ?_, ?_⟩
    · rw [hindex, poke_eq hbound, List.append_assoc (before ++ text), List.take_left]
    · simp only [List.length_append, List.length_cons, List.length_drop] at *
      omega
  have hstring : cString ((before ++ text ++ 0 :: tail).drop before.length) = .ok text := by
    rw [List.append_assoc, List.drop_left]
    apply cString_eq
    intro hmem
    apply hzero
    rw [hparts]
    simp [hmem]
  refine ⟨⟨before ++ text ++ 0 :: tail, 0⟩, ?_, hsize', List.nil_prefix, rfl⟩
  simp only [takeMessage, hend, hstart, hback, hpoke, ok_bind, pure_eq_ok, hstring]
  rw [taken, ← hkept, ← htext]
  by_cases hone : text.length = 1
  · rw [if_neg (by omega), if_pos hone]
  · rw [if_pos (by omega), if_neg hone]
    rfl

/-- Bytes behind a line are put behind it as long as there is room. -/
theorem processByte_eq {m : MessageBuffer} {line : List UInt8} (h : m.Holds line) {b : UInt8}
    (hb : b ≠ newline) : ∃ m', processByte m b = .ok (m', none) ∧ m'.Holds (line ++ [b]) := by
  have hsize := h.size
  have hlength := h.length
  rw [processByte, if_neg hb]
  by_cases hroom : m.messageBufferLength < bufferSize - 1
  · -- There is room: the byte goes behind the kept bytes, before the end of the buffer.
    have hshort : line.length < bufferSize - 1 := by
      rw [hlength, kept, List.length_take] at hroom
      omega
    have hkept : kept line = line := List.take_of_length_le hshort.le
    have hmore : kept (line ++ [b]) = line ++ [b] := by
      apply List.take_of_length_le
      rw [List.length_append, List.length_singleton]
      omega
    have hheld := h.held
    rw [hkept] at hheld hlength
    have hbound : line.length < m.messageBuffer.length := by
      rw [hsize]
      omega
    rw [if_pos hroom, hlength, poke_eq hbound, ← List.prefix_iff_eq_take.mp hheld]
    refine ⟨_, rfl, ?_, ?_, ?_⟩
    · simp only [List.length_append, List.length_cons, List.length_drop]
      omega
    · rw [hmore]
      exact ⟨_, by rw [List.append_assoc]; rfl⟩
    · rw [hmore, List.length_append, List.length_singleton]
  · -- No room: the byte is dropped, and the kept part of the line is as it was.
    have hfull : bufferSize - 1 ≤ line.length := by
      rw [hlength, kept, List.length_take] at hroom
      omega
    have hmore : kept (line ++ [b]) = kept line := List.take_append_of_le_length hfull
    rw [if_neg hroom]
    refine ⟨m, rfl, hsize, ?_, ?_⟩
    · rw [hmore]
      exact h.held
    · rw [hmore]
      exact hlength

/-- What one call makes of the lines that end in it, the first of which has begun before it. -/
theorem processBuffer_eq {m : MessageBuffer} {line : List UInt8} (h : m.Holds line)
    (hline : 0 ∉ line) {buffer : List UInt8} (hbuffer : 0 ∉ buffer) :
    ∃ m', processBuffer m buffer = .ok (m', (cut newline line buffer).1.filterMap taken) ∧
      m'.Holds (cut newline line buffer).2 := by
  induction buffer generalizing m line with
  | nil => exact ⟨m, rfl, h⟩
  | cons b buffer ih =>
    rw [List.mem_cons, not_or] at hbuffer
    by_cases hb : b = newline
    · -- The end of a line: the message is taken and the next line starts empty.
      rcases takeMessage_eq h hline with ⟨m₁, htake, h₁⟩
      rcases ih h₁ (List.not_mem_nil) hbuffer.2 with ⟨m₂, hrest, h₂⟩
      refine ⟨m₂, ?_, ?_⟩
      · rw [hb, cut_sep, processBuffer, processByte, if_pos rfl, htake, ok_bind]
        simp only [hrest, ok_bind, pure_eq_ok, complete]
        cases htaken : taken line with
        | none => rw [List.filterMap_cons_none htaken]; rfl
        | some text => rw [List.filterMap_cons_some htaken]; rfl
      · rw [hb, cut_sep]
        exact h₂
    · rcases processByte_eq h hb with ⟨m₁, hbyte, h₁⟩
      have hzero : 0 ∉ line ++ [b] := by
        rw [List.mem_append, List.mem_singleton, not_or]
        exact ⟨hline, hbuffer.1⟩
      rcases ih h₁ hzero hbuffer.2 with ⟨m₂, hrest, h₂⟩
      refine ⟨m₂, ?_, ?_⟩
      · rw [cut_ne hb, processBuffer, hbyte, ok_bind]
        simp only [hrest, ok_bind, pure_eq_ok]
        rfl
      · rw [cut_ne hb]
        exact h₂

end SystemProgramming.Chat
