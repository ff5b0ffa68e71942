import SystemProgramming.Chat.Server

/-!
# How the server cuts streams into messages

The parsing loop of `chat_server_update` finds the frames that are complete in the buffer.  It has
already stepped over the header of the next one when it sees that the payload is not there yet, and
the header is then removed from the buffer with the parsed bytes.
-/

open Fallible Incremental

namespace SystemProgramming.Chat

/-! ## One peer -/

/-- What the server keeps of the bytes that are left when every complete frame is taken out. -/
def leftover (rest : List UInt8) : List UInt8 :=
  if headerSize ≤ rest.length then rest.drop headerSize else rest

theorem leftover_suffix (r : List UInt8) : leftover r <:+ r := by
  unfold leftover
  split
  · exact List.drop_suffix _ _
  · exact List.suffix_rfl

theorem leftover_eq_iff (r : List UInt8) : leftover r = r ↔ r.length < headerSize := by
  unfold leftover
  by_cases h : headerSize ≤ r.length
  · rw [if_pos h]
    refine iff_of_false (fun heq => ?_) (not_lt.mpr h)
    have hlen := congrArg List.length heq
    rw [List.length_drop] at hlen
    simp only [headerSize] at *
    omega
  · rw [if_neg h]
    exact iff_of_true rfl (not_le.mp h)

theorem parseLoop_eq (i : Nat) {input : List UInt8} {fuel k : Nat} (s : ChatServer)
    (hfuel : input.length - k ≤ fuel) (hk : k ≤ input.length) {outs : List (List UInt8)}
    {r : List UInt8} (hdrain : frames.drain (input.drop k) = (outs, .rest r)) :
    parseLoop i input fuel s k =
      addMessages i s outs >>= fun t => .ok (t, input.length - (leftover r).length) := by
  induction fuel generalizing s k outs with
  -- without fuel the input is at its end
  | zero =>
    obtain rfl : k = input.length := by omega
    rw [List.drop_length, Decoder.drain_wait frames.wait_nil] at hdrain
    cases hdrain
    unfold parseLoop
    rw [if_neg (lt_irrefl _)]
    rfl
  | succ fuel ih =>
    have hlen : (input.drop k).length = input.length - k := List.length_drop
    unfold parseLoop
    by_cases hend : k < input.length
    · rw [if_pos hend]
      by_cases hshort : input.length - k < headerSize
      · -- not even a header
        have hwait : frames.decide (input.drop k) = .wait := verdict_short (by rw [hlen]; exact hshort)
        rw [Decoder.drain_wait hwait] at hdrain
        cases hdrain
        have hleft : leftover (input.drop k) = input.drop k :=
          (leftover_eq_iff _).mpr (by rw [hlen]; exact hshort)
        rw [if_pos hshort, hleft, hlen, Nat.sub_sub_self hk]
        rfl
      · rw [if_neg hshort]
        have hdrop : input.drop (k + headerSize) = (input.drop k).drop headerSize := by
          rw [List.drop_drop]
        by_cases hpart : input.length - (k + headerSize) <
            littleEndian ((input.drop k).take headerSize)
        · -- the header, but not the payload
          have hwait : frames.decide (input.drop k) = .wait :=
            verdict_incomplete (by rw [hlen, Nat.sub_sub]; exact hpart)
          rw [Decoder.drain_wait hwait] at hdrain
          cases hdrain
          have hleft : (leftover (input.drop k)).length = input.length - (k + headerSize) := by
            rw [leftover, if_pos (by rw [hlen]; omega), ← hdrop, List.length_drop]
          rw [if_pos hpart, hleft, Nat.sub_sub_self (by omega)]
          rfl
        · -- a complete frame
          have hemit : frames.decide (input.drop k) = _ :=
            verdict_emit (s := input.drop k) (by rw [hlen]; exact hshort)
              (by rw [hlen, Nat.sub_sub]; exact hpart)
          obtain ⟨size, hsize⟩ : ∃ size, size = littleEndian ((input.drop k).take headerSize) :=
            ⟨_, rfl⟩
          rw [← hsize, ← hdrop] at hemit
          rw [← hsize] at hpart
          have htail : (input.drop k).drop (headerSize + size) =
              input.drop (k + headerSize + size) := by
            rw [List.drop_drop, Nat.add_assoc]
          rcases drain_frames (input.drop (k + headerSize + size)) with ⟨more, r', hmore⟩
          rw [Decoder.drain_emit hemit, htail, hmore] at hdrain
          cases hdrain
          -- the message that the loop stores is the payload of the frame
          have hmessage : (⟨(input.drop (k + headerSize)).take size, i, size⟩ : ChatMessage) =
              messageOf i ((input.drop (k + headerSize)).take size) := by
            have htake : ((input.drop (k + headerSize)).take size).length = size := by
              rw [List.length_take, List.length_drop]
              omega
            rw [messageOf, htake]
          dsimp only
          rw [← hsize, if_neg hpart, hmessage, List.singleton_append, addMessages]
          cases hadd : addMessage s (messageOf i ((input.drop (k + headerSize)).take size)) with
          | error e => rfl
          | ok t =>
            rw [ok_bind, ok_bind]
            exact ih t (by simp only [headerSize] at *; omega) (by omega) hmore
    · -- the end of the input
      obtain rfl : k = input.length := by omega
      rw [List.drop_length, Decoder.drain_wait frames.wait_nil] at hdrain
      cases hdrain
      rw [if_neg (lt_irrefl _)]
      rfl

theorem receive_eq {s : ChatServer} {i : Nat} (hlt : i < s.peers.length)
    {bytes : List UInt8} {outs : List (List UInt8)} {r : List UInt8}
    (hdrain : frames.drain (s.inputOf i ++ bytes) = (outs, .rest r)) :
    ∃ n, receive s i bytes = addMessages i s outs >>= fun t =>
      .ok { t with peers :=
        t.peers.set i { s.peers[i] with input := leftover r, inputSize := n } } := by
  have hi : s.peers[i]? = some s.peers[i] := List.getElem?_eq_getElem hlt
  have hinput : s.inputOf i = s.peers[i].input := by
    rw [ChatServer.inputOf, hi]
    rfl
  rw [hinput] at hdrain
  obtain ⟨peer, hpeer⟩ : ∃ peer, peer = s.peers[i] := ⟨_, rfl⟩
  rw [← hpeer] at hi hdrain ⊢
  refine ⟨if peer.input.length + bytes.length > peer.inputSize then
    peer.input.length + bytes.length else peer.inputSize, ?_⟩
  have hparse := parseLoop_eq i s (show (peer.input ++ bytes).length - 0 ≤ _ from Nat.sub_le _ _)
    (Nat.zero_le _) hdrain
  -- What is left over is a suffix of the bytes, so the move keeps just that.
  have hsuffix : leftover r <:+ peer.input ++ bytes :=
    (leftover_suffix r).trans (Decoder.drain_rest_suffix hdrain)
  have hkeep := List.suffix_iff_eq_drop.mp hsuffix
  simp only [receive, hi, hparse]
  cases addMessages i s outs with
  | error e => rfl
  | ok t =>
    simp only [ok_bind, pure_eq_ok]
    by_cases hsome : (peer.input ++ bytes).length - (leftover r).length > 0
    · rw [if_pos hsome, ← hkeep]
    · rw [if_neg hsome]
      rw [Nat.le_zero.mp (not_lt.mp hsome), List.drop_zero] at hkeep
      rw [← hkeep]

theorem inputOf_set {s t : ChatServer} {i : Nat} {peer : ChatPeer} (hlt : i < s.peers.length)
    (h : t.peers = s.peers.set i peer) (j : Nat) :
    t.inputOf j = if j = i then peer.input else s.inputOf j := by
  unfold ChatServer.inputOf
  rw [h]
  by_cases hj : j = i
  · subst hj
    rw [List.getElem?_set_self hlt, if_pos rfl]
    rfl
  · rw [List.getElem?_set_ne (Ne.symm hj), if_neg hj]

/-- What reading from peer `i` does when there is room for the messages it completes. -/
theorem receive_ok {s : ChatServer} {i : Nat} (hlt : i < s.peers.length) (hroom : Room s)
    {bytes : List UInt8} {outs : List (List UInt8)} {r : List UInt8}
    (hdrain : frames.drain (s.inputOf i ++ bytes) = (outs, .rest r))
    (hfit : s.totalMessages = 0 → outs = []) :
    ∃ t, receive s i bytes = .ok t ∧ Room t ∧ (t.totalMessages = 0 ↔ s.totalMessages = 0) ∧
      t.peers.length = s.peers.length ∧
      (∀ j, t.inputOf j = if j = i then leftover r else s.inputOf j) ∧
      ∀ j, t.messagesFrom j = s.messagesFrom j ++ if j = i then outs else [] := by
  rcases receive_eq hlt hdrain with ⟨n, hreceive⟩
  obtain ⟨u, hadd, hpeers, hzero, huroom, hmsgs⟩ : ∃ u, addMessages i s outs = .ok u ∧
      u.peers = s.peers ∧ (u.totalMessages = 0 ↔ s.totalMessages = 0) ∧ Room u ∧
      ∀ j, u.messagesFrom j = s.messagesFrom j ++ if j = i then outs else [] := by
    by_cases hz : s.totalMessages = 0
    · rw [hfit hz]
      exact ⟨s, rfl, rfl, Iff.rfl, hroom, by simp⟩
    · rcases addMessages_counted (Nat.pos_of_ne_zero hz) hroom outs (i := i) with
        ⟨u, hadd, hpeers, hpos, huroom, hmsgs⟩
      exact ⟨u, hadd, hpeers, iff_of_false hpos.ne' hz, huroom, hmsgs⟩
  rw [hadd, ok_bind] at hreceive
  refine ⟨_, hreceive, ?_, hzero, ?_, ?_, hmsgs⟩
  · cases huroom with
    | unset hz hnil => exact .unset hz hnil
    | counted hpos halloc hle => exact .counted hpos halloc hle
  · rw [List.length_set, hpeers]
  · intro j
    rw [inputOf_set hlt (show _ = s.peers.set i { s.peers[i] with
      input := leftover r, inputSize := n } by rw [hpeers]) j]

theorem receive_fault {s : ChatServer} {i : Nat} (hlt : i < s.peers.length) (hroom : Room s)
    {bytes : List UInt8} {outs : List (List UInt8)} {r : List UInt8}
    (hdrain : frames.drain (s.inputOf i ++ bytes) = (outs, .rest r))
    (hzero : s.totalMessages = 0) (hne : outs ≠ []) :
    receive s i bytes = .error .outOfBounds := by
  rcases receive_eq hlt hdrain with ⟨n, hreceive⟩
  rw [hreceive, addMessages_unset hzero hroom hne, error_bind]

/-! ## One update -/

section Update

variable {reads : Nat → Option (List UInt8)} {outs : Nat → List (List UInt8)}
  {rest : Nat → List UInt8}

theorem drain_nil {s : List UInt8} (h : s.length < headerSize) :
    frames.drain (s ++ []) = ([], .rest s) := by
  rw [List.append_nil]
  exact Decoder.drain_wait (verdict_short h)

/-- The loop over the peers, when there is room for the messages that it completes. -/
theorem receiveLoop_ok {count i : Nat} {s : ChatServer} (hle : i + count ≤ s.peers.length)
    (hroom : Room s) (hshort : ∀ j, i ≤ j → (s.inputOf j).length < headerSize)
    (hdrain : ∀ j, i ≤ j →
      frames.drain (s.inputOf j ++ (reads j).getD []) = (outs j, .rest (rest j)))
    (hfit : s.totalMessages = 0 → ∀ j, i ≤ j → j < i + count → outs j = []) :
    ∃ t, receiveLoop reads count i s = .ok t ∧ Room t ∧
      (t.totalMessages = 0 ↔ s.totalMessages = 0) ∧ t.peers.length = s.peers.length ∧
      (∀ j, t.inputOf j = if i ≤ j ∧ j < i + count then leftover (rest j) else s.inputOf j) ∧
      ∀ j, t.messagesFrom j =
        s.messagesFrom j ++ if i ≤ j ∧ j < i + count then outs j else [] := by
  induction count generalizing s i with
  | zero =>
    have hnone : ∀ j, ¬ (i ≤ j ∧ j < i + 0) := fun j h => by omega
    refine ⟨s, rfl, hroom, Iff.rfl, rfl, fun j => ?_, fun j => ?_⟩
    · rw [if_neg (hnone j)]
    · rw [if_neg (hnone j), List.append_nil]
  | succ count ih =>
    -- peer `i`, whether there is something to read or not
    obtain ⟨t, hone, htroom, htzero, htlen, htinput, htmsgs⟩ : ∃ t,
        updatePeer s i (reads i) = .ok t ∧ Room t ∧
        (t.totalMessages = 0 ↔ s.totalMessages = 0) ∧ t.peers.length = s.peers.length ∧
        (∀ j, t.inputOf j = if j = i then leftover (rest i) else s.inputOf j) ∧
        ∀ j, t.messagesFrom j = s.messagesFrom j ++ if j = i then outs i else [] := by
      have hi := hdrain i (le_refl i)
      cases hread : reads i with
      | none =>
        rw [hread] at hi
        have hsame := (drain_nil (hshort i (le_refl i))).symm.trans hi
        have hleft : leftover (s.inputOf i) = s.inputOf i :=
          (leftover_eq_iff _).mpr (hshort i (le_refl i))
        obtain ⟨hout, hrest⟩ : [] = outs i ∧ s.inputOf i = rest i := by
          have hboth := Prod.mk.inj hsame
          exact ⟨hboth.1, End.rest.inj hboth.2⟩
        refine ⟨s, rfl, hroom, Iff.rfl, rfl, fun j => ?_, fun j => ?_⟩
        · rw [← hrest, hleft]
          by_cases hj : j = i
          · rw [if_pos hj, hj]
          · rw [if_neg hj]
        · rw [← hout, ite_self, List.append_nil]
      | some bytes =>
        rw [hread] at hi
        exact receive_ok (by omega) hroom hi fun hz => hfit hz i (le_refl i) (by omega)
    -- the peers that are still to come have their input
    have hne : ∀ j, i + 1 ≤ j → t.inputOf j = s.inputOf j := by
      intro j hj
      rw [htinput, if_neg (by omega)]
    rcases ih (s := t) (i := i + 1) (by omega) htroom
      (fun j hj => by rw [hne j hj]; exact hshort j (by omega))
      (fun j hj => by rw [hne j hj]; exact hdrain j (by omega))
      (fun hz j hj hlt => hfit (htzero.mp hz) j (by omega) (by omega)) with
      ⟨u, hloop, huroom, huzero, hulen, huinput, humsgs⟩
    refine ⟨u, ?_, huroom, huzero.trans htzero, hulen.trans htlen, fun j => ?_, fun j => ?_⟩
    · rw [receiveLoop, hone, ok_bind, hloop]
    · rw [huinput, htinput]
      by_cases hj : j = i
      · rw [if_neg (by omega), if_pos hj, if_pos (by omega), hj]
      · by_cases hin : i + 1 ≤ j ∧ j < i + 1 + count
        · rw [if_pos hin, if_pos (by omega)]
        · rw [if_neg hin, if_neg hj, if_neg (by omega)]
    · rw [humsgs, htmsgs, List.append_assoc]
      congr 1
      by_cases hj : j = i
      · rw [if_pos hj, if_neg (by omega), if_pos (by omega), List.append_nil, hj]
      · rw [if_neg hj, List.nil_append]
        by_cases hin : i + 1 ≤ j ∧ j < i + 1 + count
        · rw [if_pos hin, if_pos (by omega)]
        · rw [if_neg hin, if_neg (by omega)]

/-- A message completed while the array counts no entries ends the loop in a fault. -/
theorem receiveLoop_fault {count i : Nat} {s : ChatServer} (hle : i + count ≤ s.peers.length)
    (hroom : Room s) (hshort : ∀ j, i ≤ j → (s.inputOf j).length < headerSize)
    (hdrain : ∀ j, i ≤ j →
      frames.drain (s.inputOf j ++ (reads j).getD []) = (outs j, .rest (rest j)))
    (hzero : s.totalMessages = 0) {k : Nat} (hk : i ≤ k ∧ k < i + count) (hne : outs k ≠ []) :
    receiveLoop reads count i s = .error .outOfBounds := by
  induction count generalizing s i with
  | zero => omega
  | succ count ih =>
    by_cases hfirst : outs i = []
    · -- peer `i` completes nothing, so the loop goes on
      rcases receiveLoop_ok (show i + 1 ≤ s.peers.length by omega) hroom hshort hdrain
        (fun _ j hj hlt => by
        obtain rfl : j = i := by omega
        exact hfirst) with ⟨t, hone, htroom, htzero, htlen, htinput, -⟩
      have hstep : receiveLoop reads 1 i s = updatePeer s i (reads i) := by
        rw [receiveLoop]
        cases updatePeer s i (reads i) <;> rfl
      have hki : k ≠ i := by
        rintro rfl
        exact hne hfirst
      have hsame : ∀ j, i + 1 ≤ j → t.inputOf j = s.inputOf j := by
        intro j hj
        rw [htinput, if_neg (by omega)]
      rw [hstep] at hone
      rw [receiveLoop, hone, ok_bind]
      exact ih (by omega) htroom (fun j hj => by rw [hsame j hj]; exact hshort j (by omega))
        (fun j hj => by rw [hsame j hj]; exact hdrain j (by omega)) (htzero.mpr hzero)
        (by omega)
    · -- the message of peer `i` has no room
      have hi := hdrain i (le_refl i)
      rw [receiveLoop]
      cases hread : reads i with
      | none =>
        rw [hread] at hi
        have hsame := (drain_nil (hshort i (le_refl i))).symm.trans hi
        exact absurd (Prod.mk.inj hsame).1.symm hfirst
      | some bytes =>
        rw [hread, Option.getD_some] at hi
        rw [updatePeer, receive_fault (by omega) hroom hi hzero hfirst, error_bind]

/-- The number of peers after the client of an update, if there is one, has been taken in. -/
def Update.clients (u : Update) (n : Nat) : Nat := if u.clientSocket > 0 then n + 1 else n

/-- The bytes that an update reads from peer `j` when there are `n` peers. -/
def Update.bytes (u : Update) (n j : Nat) : List UInt8 :=
  if j < u.clients n then (u.reads j).getD [] else []

theorem addPeer_inputOf (s : ChatServer) (socket : Int) (inputSize j : Nat) :
    (s.addPeer socket inputSize).inputOf j = s.inputOf j := by
  unfold ChatServer.inputOf ChatServer.addPeer
  by_cases hlt : j < s.peers.length
  · rw [List.getElem?_append_left hlt]
  · rw [List.getElem?_append_right (not_lt.mp hlt), List.getElem?_eq_none (not_lt.mp hlt)]
    cases j - s.peers.length <;> rfl

theorem Room.addPeer {s : ChatServer} (h : Room s) (socket : Int) (inputSize : Nat) :
    Room (s.addPeer socket inputSize) := by
  cases h with
  | unset hz hnil => exact .unset hz hnil
  | counted hpos halloc hle => exact .counted hpos halloc hle

/-- The server with the client of an update. -/
def withClient (s : ChatServer) (u : Update) : ChatServer :=
  if u.clientSocket > 0 then s.addPeer u.clientSocket 0 else s

theorem withClient_spec {s : ChatServer} (hroom : Room s) (u : Update) :
    Room (withClient s u) ∧ (withClient s u).totalMessages = s.totalMessages ∧
      (withClient s u).peers.length = u.clients s.peers.length ∧
      (∀ j, (withClient s u).inputOf j = s.inputOf j) ∧
      ∀ j, (withClient s u).messagesFrom j = s.messagesFrom j := by
  unfold withClient Update.clients
  by_cases h : u.clientSocket > 0
  · rw [if_pos h, if_pos h]
    exact ⟨hroom.addPeer _ 0, rfl, by simp [ChatServer.addPeer], addPeer_inputOf s _ 0, fun _ => rfl⟩
  · rw [if_neg h, if_neg h]
    exact ⟨hroom, rfl, rfl, fun _ => rfl, fun _ => rfl⟩

variable {s : ChatServer} {u : Update}

/-- Reading only from the peers there are is reading what `Update.bytes` says. -/
theorem update_drain (hroom : Room s)
    (hdrain : ∀ j, frames.drain (s.inputOf j ++ u.bytes s.peers.length j) =
      (outs j, .rest (rest j))) (j : Nat) :
    frames.drain ((withClient s u).inputOf j ++
      ((fun i => if i < (withClient s u).peers.length then u.reads i else none) j).getD []) =
        (outs j, .rest (rest j)) := by
  rcases withClient_spec hroom u with ⟨-, -, hlen, hinput, -⟩
  rw [hinput, hlen, ← hdrain j, Update.bytes]
  by_cases hj : j < u.clients s.peers.length
  · simp only [if_pos hj]
  · simp only [if_neg hj, Option.getD_none]

theorem receiveLoop_congr {reads' : Nat → Option (List UInt8)} {count i : Nat}
    (h : ∀ j, i ≤ j → j < i + count → reads' j = reads j) (s : ChatServer) :
    receiveLoop reads' count i s = receiveLoop reads count i s := by
  induction count generalizing i s with
  | zero => rfl
  | succ count ih =>
    rw [receiveLoop, receiveLoop, h i (le_refl i) (by omega)]
    congr 1
    funext t
    exact ih (fun j hj hlt => h j (by omega) (by omega)) t

theorem chatServerUpdate_eq (s : ChatServer) (u : Update) :
    chatServerUpdate s u = receiveLoop
      (fun i => if i < (withClient s u).peers.length then u.reads i else none)
      (withClient s u).peers.length 0 (withClient s u) := by
  refine (receiveLoop_congr (fun j _ hlt => ?_) _).symm
  change j < 0 + (withClient s u).peers.length at hlt
  rw [if_pos (by omega)]

theorem chatServerUpdate_ok (hroom : Room s) (hshort : ∀ j, (s.inputOf j).length < headerSize)
    (hdrain : ∀ j, frames.drain (s.inputOf j ++ u.bytes s.peers.length j) =
      (outs j, .rest (rest j)))
    (hfit : s.totalMessages = 0 → ∀ j, outs j = []) :
    ∃ t, chatServerUpdate s u = .ok t ∧ Room t ∧ (t.totalMessages = 0 ↔ s.totalMessages = 0) ∧
      t.peers.length = u.clients s.peers.length ∧ (∀ j, t.inputOf j = leftover (rest j)) ∧
      ∀ j, t.messagesFrom j = s.messagesFrom j ++ outs j := by
  rcases withClient_spec hroom u with ⟨hwroom, hwzero, hwlen, hwinput, hwmsgs⟩
  rcases receiveLoop_ok (i := 0) (le_of_eq (Nat.zero_add _)) hwroom
    (fun j _ => by rw [hwinput]; exact hshort j) (fun j _ => update_drain hroom hdrain j)
    (fun hz j _ _ => hfit (hwzero ▸ hz) j) with ⟨t, hloop, htroom, htzero, htlen, htinput, htmsgs⟩
  -- a peer that is not there reads nothing
  have habsent : ∀ j, ¬ (0 ≤ j ∧ j < 0 + (withClient s u).peers.length) →
      outs j = [] ∧ s.inputOf j = rest j := by
    intro j hj
    have hnone := hdrain j
    rw [Update.bytes, if_neg (by rw [← hwlen]; omega)] at hnone
    have hboth := Prod.mk.inj ((drain_nil (hshort j)).symm.trans hnone)
    exact ⟨hboth.1.symm, End.rest.inj hboth.2⟩
  refine ⟨t, ?_, htroom, by rw [htzero, hwzero], by rw [htlen, hwlen], fun j => ?_, fun j => ?_⟩
  · rw [chatServerUpdate_eq, hloop]
  · rw [htinput]
    by_cases hj : 0 ≤ j ∧ j < 0 + (withClient s u).peers.length
    · rw [if_pos hj]
    · rw [if_neg hj, hwinput, ← (habsent j hj).2]
      exact ((leftover_eq_iff _).mpr (hshort j)).symm
  · rw [htmsgs, hwmsgs]
    by_cases hj : 0 ≤ j ∧ j < 0 + (withClient s u).peers.length
    · rw [if_pos hj]
    · rw [if_neg hj, (habsent j hj).1]

theorem chatServerUpdate_fault (hroom : Room s)
    (hshort : ∀ j, (s.inputOf j).length < headerSize)
    (hdrain : ∀ j, frames.drain (s.inputOf j ++ u.bytes s.peers.length j) =
      (outs j, .rest (rest j)))
    (hzero : s.totalMessages = 0) {k : Nat} (hne : outs k ≠ []) :
    chatServerUpdate s u = .error .outOfBounds := by
  rcases withClient_spec hroom u with ⟨hwroom, hwzero, hwlen, hwinput, -⟩
  have hk : k < (withClient s u).peers.length := by
    by_contra hge
    have hnone := hdrain k
    rw [Update.bytes, if_neg (by rw [← hwlen]; exact hge)] at hnone
    exact hne (Prod.mk.inj ((drain_nil (hshort k)).symm.trans hnone)).1.symm
  rw [chatServerUpdate_eq]
  exact receiveLoop_fault (le_of_eq (Nat.zero_add _)) hwroom
    (fun j _ => by rw [hwinput]; exact hshort j) (fun j _ => update_drain hroom hdrain j)
    (hwzero.trans hzero) ⟨Nat.zero_le k, by omega⟩ hne

end Update

/-! ## Streams -/

/-- The number of peers after some updates. -/
def clients : Nat → List Update → Nat
  | n, [] => n
  | n, u :: us => clients (u.clients n) us

/-- The bytes that some updates read from peer `j`, starting with `n` peers. -/
def delivered : Nat → List Update → Nat → List UInt8
  | _, [], _ => []
  | n, u :: us, j => u.bytes n j ++ delivered (u.clients n) us j

theorem clients_snoc (n : Nat) (us : List Update) (u : Update) :
    clients n (us ++ [u]) = u.clients (clients n us) := by
  induction us generalizing n with
  | nil => rfl
  | cons v us ih => exact ih _

theorem delivered_snoc (n : Nat) (us : List Update) (u : Update) (j : Nat) :
    delivered n (us ++ [u]) j = delivered n us j ++ u.bytes (clients n us) j := by
  induction us generalizing n with
  | nil => simp [delivered, clients]
  | cons v us ih =>
    rw [List.cons_append, delivered, ih, delivered, clients, List.append_assoc]

theorem chatServerUpdates_snoc (s : ChatServer) (us : List Update) (u : Update) :
    chatServerUpdates s (us ++ [u]) =
      chatServerUpdates s us >>= fun t => chatServerUpdate t u := by
  induction us generalizing s with
  | nil =>
    simp only [List.nil_append, chatServerUpdates, ok_bind]
    cases chatServerUpdate s u <;> rfl
  | cons v us ih =>
    rw [List.cons_append, chatServerUpdates, chatServerUpdates]
    cases chatServerUpdate s v with
    | error e => rfl
    | ok t => exact ih t

theorem delivered_mono {n : Nat} {us vs : List Update} (h : us <+: vs) (j : Nat) :
    delivered n us j <+: delivered n vs j := by
  rcases h with ⟨ws, rfl⟩
  induction ws using List.reverseRecOn with
  | nil => rw [List.append_nil]
  | append_singleton ws w ih =>
    rw [← List.append_assoc, delivered_snoc]
    exact ih.trans (List.prefix_append _ _)

/-- After the updates the server has appended, for every peer, exactly the messages whose frames
have been read completely, and holds exactly the bytes of the next one. -/
def Decodes (s : ChatServer) (messages : Nat → List (List UInt8)) (us : List Update) : Prop :=
  ∃ t, chatServerUpdates s us = .ok t ∧ ∀ j, ∃ got,
    Received (messages j) (delivered s.peers.length us j) got (t.inputOf j) ∧
    t.messagesFrom j = s.messagesFrom j ++ got

/-- The stream stops in the payload of a frame: the header is there, but not the whole frame. -/
def CutInPayload (messages : List (List UInt8)) (stream : List UInt8) : Prop :=
  ∃ got m rest, got ++ [m] <+: messages ∧ stream = encode got ++ rest ∧
    headerSize ≤ rest.length ∧ rest.length < (frame m).length

section Streams

variable {ms got : List (List UInt8)} {stream rest : List UInt8}

theorem cutInPayload_iff (h : Received ms stream got rest) (hms : ∀ m ∈ ms, m.length < 2 ^ 32)
    (hpre : stream <+: encode ms) : CutInPayload ms stream ↔ headerSize ≤ rest.length := by
  constructor
  · rintro ⟨got', m, rest', hgot, hstream, hle, hlt⟩
    have h' : Received ms stream got' rest' := by
      refine ⟨(List.prefix_append _ _).trans hgot, hstream, fun n hn => ?_⟩
      rcases hgot with ⟨more, rfl⟩
      obtain rfl : m = n := by simpa using hn
      exact hlt
    have heq := (h.drain hms hpre).symm.trans (h'.drain hms hpre)
    cases heq
    exact hle
  · intro hle
    rcases h.order with ⟨more, rfl⟩
    cases more with
    | nil =>
      have hnil := hpre
      rw [h.stream, List.append_nil] at hnil
      have hlen := hnil.length_le
      rw [List.length_append] at hlen
      simp only [headerSize] at hle
      omega
    | cons m more =>
      exact ⟨got, m, rest, ⟨more, by simp⟩, h.stream, hle, h.incomplete m (by simp)⟩

/-- Nothing is complete yet exactly while the stream is shorter than the first frame. -/
theorem received_nil_iff (h : Received ms stream got rest) :
    got = [] ↔ ∀ m, ms.head? = some m → stream.length < (frame m).length := by
  constructor
  · rintro rfl m hm
    rw [h.stream]
    exact h.incomplete m (by rw [← hm, List.head?_eq_getElem?]; rfl)
  · intro hshort
    cases hgot : got with
    | nil => rfl
    | cons m more =>
      rcases h.order with ⟨rest', hms⟩
      have hlt := hshort m (by rw [← hms, hgot]; rfl)
      rw [h.stream, hgot, encode_cons, List.append_assoc, List.length_append] at hlt
      omega

end Streams

/-- What is kept from update to update as long as every stream is cut near the end of a frame. -/
structure Tracks (s t : ChatServer) (n : Nat) (streams : Nat → List UInt8) : Prop where
  room : Room t
  zero : t.totalMessages = 0 ↔ s.totalMessages = 0
  count : t.peers.length = n
  short : ∀ j, (t.inputOf j).length < headerSize
  peer : ∀ j, ∃ got, frames.drain (streams j) = (got, .rest (t.inputOf j)) ∧
    t.messagesFrom j = s.messagesFrom j ++ got ∧ (s.totalMessages = 0 → got = [])

section Runs

variable {s t t' : ChatServer} {n : Nat} {streams : Nat → List UInt8} {u : Update}

theorem Tracks.start (hroom : Room s) (hempty : ∀ j, s.inputOf j = []) :
    Tracks s s s.peers.length fun _ => [] := by
  refine ⟨hroom, Iff.rfl, rfl, fun j => ?_, fun j => ⟨[], ?_, by simp, fun _ => rfl⟩⟩
  · rw [hempty]
    decide
  · rw [hempty]
    exact Decoder.drain_wait frames.wait_nil

/-- Decoding what an update adds to a stream. -/
theorem Tracks.extend (h : Tracks s t n streams) (u : Update) :
    ∃ (outs : Nat → List (List UInt8)) (rest : Nat → List UInt8),
      (∀ j, frames.drain (t.inputOf j ++ u.bytes t.peers.length j) = (outs j, .rest (rest j))) ∧
      ∀ j, ∃ got, frames.drain (streams j ++ u.bytes n j) = (got ++ outs j, .rest (rest j)) ∧
        t.messagesFrom j = s.messagesFrom j ++ got ∧ (s.totalMessages = 0 → got = []) := by
  choose outs rest hdrain using fun j => drain_frames (t.inputOf j ++ u.bytes t.peers.length j)
  refine ⟨outs, rest, hdrain, fun j => ?_⟩
  rcases h.peer j with ⟨got, hgot, hmsgs, hnil⟩
  refine ⟨got, ?_, hmsgs, hnil⟩
  have hj := hdrain j
  rw [h.count] at hj
  rw [Decoder.drain_append, hgot]
  simp only [hj, after]

/-- One more update, after which every stream is cut near the end of a frame. -/
theorem Tracks.next (h : Tracks s t n streams)
    (hshort : ∀ j got r, frames.drain (streams j ++ u.bytes n j) = (got, .rest r) →
      r.length < headerSize)
    (hfit : s.totalMessages = 0 → ∀ j got r,
      frames.drain (streams j ++ u.bytes n j) = (got, .rest r) → got = []) :
    ∃ t', chatServerUpdate t u = .ok t' ∧
      Tracks s t' (u.clients n) fun j => streams j ++ u.bytes n j := by
  rcases h.extend u with ⟨outs, rest, hdrain, hpeer⟩
  have hnone : t.totalMessages = 0 → ∀ j, outs j = [] := by
    intro hz j
    rcases hpeer j with ⟨got, hgot, -, -⟩
    exact (List.append_eq_nil_iff.mp (hfit (h.zero.mp hz) j _ _ hgot)).2
  rcases chatServerUpdate_ok h.room h.short hdrain hnone with
    ⟨t', hok, hroom, hzero, hcount, hinput, hmsgs⟩
  have hrest : ∀ j, t'.inputOf j = rest j := by
    intro j
    rcases hpeer j with ⟨got, hgot, -, -⟩
    rw [hinput, (leftover_eq_iff _).mpr (hshort j _ _ hgot)]
  refine ⟨t', hok, hroom, hzero.trans h.zero, by rw [hcount, h.count], fun j => ?_, fun j => ?_⟩
  · rcases hpeer j with ⟨got, hgot, -, -⟩
    rw [hrest]
    exact hshort j _ _ hgot
  · rcases hpeer j with ⟨got, hgot, htmsgs, hnil⟩
    refine ⟨got ++ outs j, by rw [hrest, hgot], by rw [hmsgs, htmsgs, List.append_assoc], ?_⟩
    intro hz
    rw [hnil hz, hnone (h.zero.mpr hz) j]
    rfl

/-- An update that ends with the right bytes in every buffer. -/
theorem Tracks.back (h : Tracks s t n streams) (hok : chatServerUpdate t u = .ok t')
    (hinput : ∀ j got r, frames.drain (streams j ++ u.bytes n j) = (got, .rest r) →
      t'.inputOf j = r) :
    Tracks s t' (u.clients n) fun j => streams j ++ u.bytes n j := by
  rcases h.extend u with ⟨outs, rest, hdrain, hpeer⟩
  have hnone : t.totalMessages = 0 → ∀ j, outs j = [] := by
    intro hz j
    by_contra hne
    rw [chatServerUpdate_fault h.room h.short hdrain hz hne] at hok
    cases hok
  rcases chatServerUpdate_ok h.room h.short hdrain hnone with ⟨v, hv, -, -, -, hvinput, -⟩
  obtain rfl : v = t' := Except.ok.inj (hv.symm.trans hok)
  -- nothing has been taken out of the buffers but complete frames
  have hcut : ∀ j, (rest j).length < headerSize := by
    intro j
    rcases hpeer j with ⟨got, hgot, -, -⟩
    rw [← leftover_eq_iff, ← hvinput, hinput j _ _ hgot]
  have hnext := h.next (u := u) (fun j got r hgr => ?_) fun hz j got r hgr => ?_
  · rcases hnext with ⟨w, hw, htracks⟩
    obtain rfl : w = v := Except.ok.inj (hw.symm.trans hv)
    exact htracks
  · rcases hpeer j with ⟨got', hgot', -, -⟩
    obtain rfl : rest j = r := End.rest.inj (Prod.mk.inj (hgot'.symm.trans hgr)).2
    exact hcut j
  · rcases hpeer j with ⟨got', hgot', -, hnil⟩
    rw [← (Prod.mk.inj (hgot'.symm.trans hgr)).1, hnil hz, hnone (h.zero.mpr hz) j]
    rfl

end Runs

/-- Start with a server that has buffered nothing yet, and let its peers send messages of less than
`2 ^ 32` bytes each.  The server decodes every stream as it is meant to, after every update, if and
only if no update leaves a stream cut inside a payload and, unless `total_messages` has been set
(which it never is), no message is ever complete. -/
theorem chatServer_decodes_iff {s : ChatServer} (hroom : Room s) (hempty : ∀ j, s.inputOf j = [])
    {messages : Nat → List (List UInt8)} (hlen : ∀ j, ∀ m ∈ messages j, m.length < 2 ^ 32)
    {us : List Update} (hstream : ∀ j, delivered s.peers.length us j <+: encode (messages j)) :
    (∀ vs, vs <+: us → Decodes s messages vs) ↔
      (∀ vs, vs <+: us → ∀ j, ¬ CutInPayload (messages j) (delivered s.peers.length vs j)) ∧
      (s.totalMessages = 0 → ∀ j m, (messages j).head? = some m →
        (delivered s.peers.length us j).length < (frame m).length) := by
  have hpre : ∀ vs, vs <+: us → ∀ j, delivered s.peers.length vs j <+: encode (messages j) :=
    fun vs hvs j => (delivered_mono hvs j).trans (hstream j)
  constructor
  · intro hdec
    -- a server that has decoded all messages so far tracks its clients
    have htracks : ∀ vs, vs <+: us → ∃ t, chatServerUpdates s vs = .ok t ∧
        Tracks s t (clients s.peers.length vs) (delivered s.peers.length vs) := by
      intro vs
      induction vs using List.reverseRecOn with
      | nil => exact fun _ => ⟨s, rfl, Tracks.start hroom hempty⟩
      | append_singleton ws u ih =>
        intro hvs
        rcases ih ((List.prefix_append _ _).trans hvs) with ⟨t, ht, htr⟩
        rcases hdec _ hvs with ⟨t', ht', hgot⟩
        have hupdate := ht'
        rw [chatServerUpdates_snoc, ht, ok_bind] at hupdate
        refine ⟨t', ht', ?_⟩
        rw [clients_snoc, show delivered s.peers.length (ws ++ [u]) = fun j =>
          delivered s.peers.length ws j ++ u.bytes (clients s.peers.length ws) j from
          funext fun j => delivered_snoc _ _ _ j]
        refine htr.back hupdate fun j got r hgr => ?_
        rcases hgot j with ⟨got', hreceived, -⟩
        have hdrain := hreceived.drain (hlen j) (hpre _ hvs j)
        rw [delivered_snoc] at hdrain
        exact End.rest.inj (Prod.mk.inj (hdrain.symm.trans hgr)).2
    refine ⟨fun vs hvs j => ?_, fun hz j => ?_⟩
    · rcases htracks vs hvs with ⟨t, -, htr⟩
      rcases htr.peer j with ⟨got, hgot, -, -⟩
      have hreceived := (received_iff (hlen j) (hpre vs hvs j)).mpr hgot
      rw [cutInPayload_iff hreceived (hlen j) (hpre vs hvs j)]
      exact not_le.mpr (htr.short j)
    · rcases htracks us List.prefix_rfl with ⟨t, -, htr⟩
      rcases htr.peer j with ⟨got, hgot, -, hnil⟩
      -- the input of a client is at most a header, so the cut is not in a payload
      have hreceived := (received_iff (hlen j) (hstream j)).mpr hgot
      exact (received_nil_iff hreceived).mp (hnil hz)
  · rintro ⟨hcut, hfirst⟩ vs hvs
    have htracks : ∃ t, chatServerUpdates s vs = .ok t ∧
        Tracks s t (clients s.peers.length vs) (delivered s.peers.length vs) := by
      induction vs using List.reverseRecOn with
      | nil => exact ⟨s, rfl, Tracks.start hroom hempty⟩
      | append_singleton ws u ih =>
        rcases ih ((List.prefix_append _ _).trans hvs) with ⟨t, ht, htr⟩
        have hnext := htr.next (u := u) (fun j got r hgr => ?_) fun hz j got r hgr => ?_
        · rcases hnext with ⟨t', ht', htr'⟩
          refine ⟨t', by rw [chatServerUpdates_snoc, ht, ok_bind, ht'], ?_⟩
          rw [clients_snoc, show delivered s.peers.length (ws ++ [u]) = fun j =>
            delivered s.peers.length ws j ++ u.bytes (clients s.peers.length ws) j from
            funext fun j => delivered_snoc _ _ _ j]
          exact htr'
        · rw [← delivered_snoc] at hgr
          have hreceived := (received_iff (hlen j) (hpre _ hvs j)).mpr hgr
          have hno := hcut _ hvs j
          rw [cutInPayload_iff hreceived (hlen j) (hpre _ hvs j)] at hno
          exact not_le.mp hno
        · rw [← delivered_snoc] at hgr
          have hreceived := (received_iff (hlen j) (hpre _ hvs j)).mpr hgr
          refine (received_nil_iff hreceived).mpr fun m hm => ?_
          exact lt_of_le_of_lt (delivered_mono hvs j).length_le (hfirst hz j m hm)
    rcases htracks with ⟨t, ht, htr⟩
    refine ⟨t, ht, fun j => ?_⟩
    rcases htr.peer j with ⟨got, hgot, hmsgs, -⟩
    exact ⟨got, (received_iff (hlen j) (hpre vs hvs j)).mpr hgot, hmsgs⟩

/-- A listening server with one client, peer 1. -/
def oneClient : ChatServer := (chatServerNew.addPeer 3 1).addPeer 4 0

/-- `bytes` come from peer `i`, and nothing from anybody else. -/
def readFrom (i : Nat) (bytes : List UInt8) : Update := ⟨-1, fun j => if j = i then some bytes else none⟩

/-- Peer `i` sends `ms`, and nobody else sends anything. -/
def sends (i : Nat) (ms : List (List UInt8)) : Nat → List (List UInt8) :=
  fun j => if j = i then ms else []

theorem oneClient_inputOf (j : Nat) : oneClient.inputOf j = [] := by
  rw [oneClient, addPeer_inputOf, addPeer_inputOf]
  rfl

theorem oneClient_room : Room oneClient := .unset rfl rfl

/-- A message whose header comes in one update and whose payload in the next. -/
def headerThenPayload : List Update := [readFrom 1 [3, 0, 0, 0], readFrom 1 [1, 2, 3]]

/-- After the first of the updates the stream is cut inside the payload. -/
theorem chatServer_decodes_iff_headerThenPayload :
    ¬ ∀ vs, vs <+: headerThenPayload → Decodes oneClient (sends 1 [[1, 2, 3]]) vs := by
  intro hdec
  have hlen : ∀ j, ∀ m ∈ sends 1 [[1, 2, 3]] j, m.length < 2 ^ 32 := by
    intro j m hm
    by_cases hj : j = 1
    · rw [sends, if_pos hj, List.mem_singleton] at hm
      rw [hm]
      decide
    · rw [sends, if_neg hj] at hm
      cases hm
  have hstream : ∀ j, delivered oneClient.peers.length headerThenPayload j <+:
      encode (sends 1 [[1, 2, 3]] j) := by
    intro j
    by_cases hj : j = 1
    · subst hj
      exact ⟨[], by decide⟩
    · have hnil : delivered oneClient.peers.length headerThenPayload j = [] := by
        simp [headerThenPayload, delivered, Update.bytes, readFrom, hj]
      rw [hnil]
      exact List.nil_prefix
  have hcut := ((chatServer_decodes_iff oneClient_room oneClient_inputOf hlen hstream).mp hdec).1
  apply hcut [readFrom 1 [3, 0, 0, 0]] ⟨[readFrom 1 [1, 2, 3]], rfl⟩ 1
  exact ⟨[], [1, 2, 3], [3, 0, 0, 0], by decide, by decide, by decide, by decide⟩

/-- In the end the whole frame has been read, but its message is not there, and the payload is left in
the buffer to be taken for a header. -/
theorem header_lost : delivered 2 headerThenPayload 1 = frame [1, 2, 3] ∧
    (∃ t, chatServerUpdates oneClient headerThenPayload = .ok t ∧ t.inputOf 1 = [1, 2, 3] ∧
      t.messagesFrom 1 = []) ∧
    ¬ ∀ vs, vs <+: headerThenPayload → Decodes oneClient (sends 1 [[1, 2, 3]]) vs := by
  have hrun : (chatServerUpdates oneClient headerThenPayload).map (fun t =>
      (t.inputOf 1, t.messagesFrom 1)) = .ok ([1, 2, 3], []) := by decide
  cases ht : chatServerUpdates oneClient headerThenPayload with
  | error e =>
    rw [ht] at hrun
    cases hrun
  | ok t =>
    rw [ht] at hrun
    have hboth := Prod.mk.inj (Except.ok.inj hrun)
    refine ⟨by decide, ⟨t, rfl, hboth.1, hboth.2⟩, fun hdec => ?_⟩
    rcases hdec _ List.prefix_rfl with ⟨u, hu, hgot⟩
    obtain rfl : t = u := Except.ok.inj (ht.symm.trans hu)
    rcases hgot 1 with ⟨got, hreceived, hmsgs⟩
    rw [hboth.2, show oneClient.messagesFrom 1 = [] from rfl, List.nil_append] at hmsgs
    have hstream := hreceived.stream
    rw [← hmsgs, hboth.1] at hstream
    revert hstream
    decide

/-- Without that cut the message does not get through either: there is no room for it. -/
example : chatServerUpdates oneClient [readFrom 1 (frame [1, 2, 3])] = .error .outOfBounds := by
  decide

end SystemProgramming.Chat
