import SystemProgramming.Lib.Fallible
import SystemProgramming.Chat.Frame

/-!
# The chat server

The part of `chat_server.c` that takes in clients and reads their messages: the arrays of peers and
of messages, and `chat_server_update` with what `accept`, `poll` and `read` give it.  The first
`input_count` bytes of a peer's input buffer are the list `input`; the first
`total_messages_count` messages are the list `messages`.
-/

open Fallible

namespace SystemProgramming.Chat

/-- Ways in which the C code leaves defined behaviour or stops. -/
inductive Fault
  | outOfBounds
  | endless
  deriving DecidableEq, Repr

structure ChatPeer where
  socket : Int
  input : List UInt8
  inputSize : Nat
  deriving DecidableEq

/-- A message names its peer by the index in the array. -/
structure ChatMessage where
  data : List UInt8
  peer : Nat
  length : Nat
  deriving DecidableEq

/-- `allocated` is how many messages the memory at `messages` has room for, `totalMessages` how many
the server takes it to have room for. -/
structure ChatServer where
  peers : List ChatPeer
  messages : List ChatMessage
  totalMessages : Nat
  allocated : Nat
  deriving DecidableEq

def chatServerNew : ChatServer where
  peers := []
  messages := []
  totalMessages := 0
  allocated := 10

/-- A peer at the end of the array.  That of `chat_server_listen` has one byte allocated, that of a
successful `accept` none. -/
def ChatServer.addPeer (s : ChatServer) (socket : Int) (inputSize : Nat) : ChatServer :=
  { s with peers := s.peers ++ [⟨socket, [], inputSize⟩] }

def addMessage (s : ChatServer) (message : ChatMessage) : Except Fault ChatServer :=
  let s := if s.totalMessages = s.messages.length then
      { s with totalMessages := s.totalMessages * 2, allocated := s.totalMessages * 2 }
    else s
  -- the array doubles from 0 entries, so it may still have no room
  if s.messages.length < s.allocated then
    .ok { s with messages := s.messages ++ [message] }
  else
    .error .outOfBounds

/-- The parsing loop on the input of peer `i`; gives back `bytes_parsed`. -/
def parseLoop (i : Nat) (input : List UInt8) :
    Nat → ChatServer → Nat → Except Fault (ChatServer × Nat)
  | fuel, s, bytesParsed =>
    if bytesParsed < input.length then
      if input.length - bytesParsed < headerSize then
        .ok (s, bytesParsed)
      else
        let messageLength := littleEndian ((input.drop bytesParsed).take headerSize)
        let bytesParsed := bytesParsed + headerSize
        if input.length - bytesParsed < messageLength then
          .ok (s, bytesParsed)
        else match fuel with
          | 0 => .error .endless
          | fuel + 1 => do
            let s ← addMessage s
              { data := (input.drop bytesParsed).take messageLength, peer := i,
                length := messageLength }
            parseLoop i input fuel s (bytesParsed + messageLength)
    else
      .ok (s, bytesParsed)

/-- `bytes` have been read from the socket of peer `i`. -/
def receive (s : ChatServer) (i : Nat) (bytes : List UInt8) : Except Fault ChatServer :=
  match s.peers[i]? with
  | none => .error .outOfBounds
  | some peer => do
    let inputSize :=
      if peer.input.length + bytes.length > peer.inputSize then peer.input.length + bytes.length
      else peer.inputSize
    let input := peer.input ++ bytes
    let (s, bytesParsed) ← parseLoop i input input.length s 0
    let input := if bytesParsed > 0 then input.drop bytesParsed else input
    pure { s with peers := s.peers.set i { peer with input := input, inputSize := inputSize } }

/-- The body of the loop over the peers: what `read` gave for a peer that was ready, and `none` for
one that was not, or whose `read` failed. -/
def updatePeer (s : ChatServer) (i : Nat) : Option (List UInt8) → Except Fault ChatServer
  | none => .ok s
  | some bytes => receive s i bytes

/-- The loop over `count` peers from peer `i` on. -/
def receiveLoop (reads : Nat → Option (List UInt8)) :
    Nat → Nat → ChatServer → Except Fault ChatServer
  | 0, _, s => .ok s
  | count + 1, i, s => do
    let s ← updatePeer s i (reads i)
    receiveLoop reads count (i + 1) s

/-- What a call of `chat_server_update` finds: the result of `accept`, `-1` when no client was
waiting, and the bytes read from each peer. -/
structure Update where
  clientSocket : Int
  reads : Nat → Option (List UInt8)

def chatServerUpdate (s : ChatServer) (u : Update) : Except Fault ChatServer :=
  let s := if u.clientSocket > 0 then s.addPeer u.clientSocket 0 else s
  receiveLoop u.reads s.peers.length 0 s

def chatServerUpdates : ChatServer → List Update → Except Fault ChatServer
  | s, [] => .ok s
  | s, u :: us => do
    let s ← chatServerUpdate s u
    chatServerUpdates s us

/-! ## What is known of a peer -/

/-- The bytes in the input buffer of peer `i`. -/
def ChatServer.inputOf (s : ChatServer) (i : Nat) : List UInt8 :=
  (s.peers[i]?.map ChatPeer.input).getD []

/-- The messages appended for peer `i`, in order. -/
def ChatServer.messagesFrom (s : ChatServer) (i : Nat) : List (List UInt8) :=
  (s.messages.filter fun m => m.peer = i).map ChatMessage.data

def messageOf (i : Nat) (data : List UInt8) : ChatMessage := ⟨data, i, data.length⟩

/-- Append messages of peer `i` one after the other. -/
def addMessages (i : Nat) : ChatServer → List (List UInt8) → Except Fault ChatServer
  | s, [] => .ok s
  | s, m :: ms => do
    let s ← addMessage s (messageOf i m)
    addMessages i s ms

/-- How `messages` can stand: never enlarged and empty, or with as much room as counted. -/
inductive Room (s : ChatServer) : Prop
  | unset : s.totalMessages = 0 → s.messages = [] → Room s
  | counted : 0 < s.totalMessages → s.allocated = s.totalMessages →
      s.messages.length ≤ s.totalMessages → Room s

theorem addMessage_counted {s : ChatServer} (hpos : 0 < s.totalMessages)
    (halloc : s.allocated = s.totalMessages) (hle : s.messages.length ≤ s.totalMessages)
    (m : ChatMessage) : ∃ t, addMessage s m = .ok t ∧ t.peers = s.peers ∧
      t.messages = s.messages ++ [m] ∧ 0 < t.totalMessages ∧ Room t := by
  unfold addMessage
  by_cases hfull : s.totalMessages = s.messages.length
  · have hlt : s.messages.length < s.totalMessages * 2 := by omega
    simp only [if_pos hfull, if_pos hlt]
    refine ⟨_, rfl, rfl, rfl, ?_, .counted ?_ rfl ?_⟩
    · dsimp only
      omega
    · dsimp only
      omega
    · simp only [List.length_append, List.length_singleton]
      omega
  · have hlt : s.messages.length < s.allocated := by omega
    simp only [if_neg hfull, if_pos hlt]
    refine ⟨_, rfl, rfl, rfl, hpos, .counted hpos halloc ?_⟩
    simp only [List.length_append, List.length_singleton]
    omega

/-- The first message ever is written to an array of no entries. -/
theorem addMessage_unset {s : ChatServer} (hzero : s.totalMessages = 0) (hnil : s.messages = [])
    (m : ChatMessage) : addMessage s m = .error .outOfBounds := by
  simp [addMessage, hzero, hnil]

theorem messagesFrom_append {s t : ChatServer} {i : Nat} {m : List UInt8}
    (h : t.messages = s.messages ++ [messageOf i m]) (j : Nat) :
    t.messagesFrom j = s.messagesFrom j ++ if j = i then [m] else [] := by
  rw [ChatServer.messagesFrom, h, List.filter_append, List.map_append]
  by_cases hj : j = i
  · subst hj
    simp [ChatServer.messagesFrom, messageOf]
  · have hne : ¬ i = j := fun heq => hj heq.symm
    simp [ChatServer.messagesFrom, messageOf, hj, hne]

theorem addMessages_counted {i : Nat} {s : ChatServer} (hpos : 0 < s.totalMessages) (h : Room s)
    (ms : List (List UInt8)) : ∃ t, addMessages i s ms = .ok t ∧ t.peers = s.peers ∧
      0 < t.totalMessages ∧ Room t ∧
      ∀ j, t.messagesFrom j = s.messagesFrom j ++ if j = i then ms else [] := by
  induction ms generalizing s with
  | nil => exact ⟨s, rfl, rfl, hpos, h, by simp⟩
  | cons m ms ih =>
    cases h with
    | unset hzero _ => omega
    | counted hpos halloc hle =>
      rcases addMessage_counted hpos halloc hle (messageOf i m) with
        ⟨t, hadd, htpeers, htmsgs, htpos, htroom⟩
      rcases ih htpos htroom with ⟨u, hrest, hupeers, hupos, huroom, humsgs⟩
      refine ⟨u, ?_, hupeers.trans htpeers, hupos, huroom, fun j => ?_⟩
      · rw [addMessages, hadd, ok_bind, hrest]
      · rw [humsgs, messagesFrom_append htmsgs]
        by_cases hj : j = i
        · simp [hj]
        · simp [hj]

theorem addMessages_unset {i : Nat} {s : ChatServer} (hzero : s.totalMessages = 0) (h : Room s)
    {ms : List (List UInt8)} (hne : ms ≠ []) : addMessages i s ms = .error .outOfBounds := by
  cases h with
  | counted hpos _ _ => omega
  | unset _ hnil =>
    cases ms with
    | nil => exact absurd rfl hne
    | cons m ms => rw [addMessages, addMessage_unset hzero hnil, error_bind]

/-- While `total_messages` is 0, no message at all can be stored. -/
theorem addMessages_ok_iff {i : Nat} {s : ChatServer} (h : Room s) (ms : List (List UInt8)) :
    (∃ t, addMessages i s ms = .ok t) ↔ (s.totalMessages = 0 → ms = []) := by
  by_cases hzero : s.totalMessages = 0
  · constructor
    · rintro ⟨t, ht⟩ -
      by_contra hne
      rw [addMessages_unset hzero h hne] at ht
      cases ht
    · intro hnil
      rw [hnil hzero]
      exact ⟨s, rfl⟩
  · rcases addMessages_counted (i := i) (Nat.pos_of_ne_zero hzero) h ms with ⟨t, ht, -⟩
    exact iff_of_true ⟨t, ht⟩ fun hcontra => absurd hcontra hzero

end SystemProgramming.Chat
