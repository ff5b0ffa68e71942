import SystemProgramming.Chat.InputBuffer

/-!
# The arrays of the server

`chat_server_listen` and `chat_server_update` with a record of every index that they use on
`pfds`, `peers` and `messages`.  An index that is out of bounds is recorded and does no other harm,
and a read that does not fit the input buffer of a peer leaves it as it is, so that the record of a
run goes on behind the first index that is out of bounds.
-/

open Fallible

namespace SystemProgramming.Chat

inductive ServerArray
  | pfds
  | peers
  | messages
  deriving DecidableEq, Repr

/-- An index used on an array that has `allocated` entries. -/
structure Access where
  array : ServerArray
  index : UInt32
  allocated : UInt32
  deriving DecidableEq, Repr

def Access.InBounds (a : Access) : Prop := a.index < a.allocated

instance (a : Access) : Decidable a.InBounds := inferInstanceAs (Decidable (a.index < a.allocated))

/-- `struct chat_server`, with the sockets left out. -/
structure ServerMemory where
  isStarted : Bool
  peers : UInt32 → InputBuffer
  peerCount : UInt32
  peerSize : UInt32
  totalMessagesCount : UInt32
  totalMessages : UInt32
  messagesAllocated : UInt32
  accesses : List Access

/-- What a call of `chat_server_update` finds: the results of `poll` and `accept`, whether `revents`
has `POLLIN` in an entry of `pfds`, and what is read from a peer (`none` when `read` fails). -/
structure Poll where
  ret : Int
  revents : UInt32 → Bool
  clientSocket : Int
  reads : UInt32 → Option (List UInt8)

/-- `accept` is called and gives a client. -/
def Poll.accepts (u : Poll) : Bool := u.revents 0 && 0 < u.clientSocket

namespace ServerMemory

def chatServerNew : ServerMemory where
  isStarted := false
  peers := fun _ => .null
  peerCount := 0
  peerSize := 10
  totalMessagesCount := 0
  totalMessages := 0
  messagesAllocated := 10
  accesses := []

/-- An index is used on an array. -/
def use (s : ServerMemory) (array : ServerArray) (index allocated : UInt32) : ServerMemory :=
  { s with accesses := s.accesses ++ [⟨array, index, allocated⟩] }

/-- All the fields of the entry at `peer_count` are set, and it is counted. -/
def addPeer (s : ServerMemory) (b : InputBuffer) : ServerMemory :=
  let s := s.use .peers s.peerCount s.peerSize
  { s with peers := Function.update s.peers s.peerCount b, peerCount := s.peerCount + 1 }

/-- `listening` is whether `socket`, `bind` and `listen` all succeed. -/
def chatServerListen (s : ServerMemory) (listening : Bool) : ServerMemory :=
  if listening then { s.addPeer ⟨[some 0], 1, 0⟩ with isStarted := true } else s

def addMessage (s : ServerMemory) (_ : ChatMessage) : Except Empty ServerMemory :=
  let s :=
    if s.totalMessages = s.totalMessagesCount then
      { s with totalMessages := s.totalMessages * 2, messagesAllocated := s.totalMessages * 2 }
    else s
  let s := s.use .messages s.totalMessagesCount s.messagesAllocated
  .ok { s with totalMessagesCount := s.totalMessagesCount + 1 }

/-- What comes of a `read` on peer `i`. -/
def receive (s : ServerMemory) (i : UInt32) : Option (List UInt8) → ServerMemory
  | none => s
  | some bytes =>
    match (InputBuffer.receive addMessage i.toNat s (s.peers i) bytes).result with
    | .error _ => s
    | .ok (s, b, _) => { s with peers := Function.update s.peers i b }

/-- The loop that fills `pfds`, from entry `i` on. -/
def fillLoop (entries : UInt32) : Nat → UInt32 → ServerMemory → ServerMemory
  | 0, _, s => s
  | count + 1, i, s =>
    fillLoop entries count (i + 1) ((s.use .pfds i entries).use .peers i s.peerSize)

/-- The loop that reads from the peers, from peer `i` on. -/
def readLoop (entries : UInt32) (u : Poll) : Nat → UInt32 → ServerMemory → ServerMemory
  | 0, _, s => s
  | count + 1, i, s =>
    let s := s.use .pfds i entries
    let s := if u.revents i then (s.use .peers i s.peerSize).receive i (u.reads i) else s
    readLoop entries u count (i + 1) s

def acceptPeer (s : ServerMemory) (u : Poll) : ServerMemory :=
  if u.accepts then
    let s := if s.peerCount = s.peerSize then { s with peerSize := s.peerSize * 2 } else s
    s.addPeer .null
  else s

def chatServerUpdate (s : ServerMemory) (u : Poll) : ServerMemory :=
  if s.isStarted then
    let entries := s.peerCount
    -- the listening socket comes after the peers
    let s := s.use .pfds s.peerCount entries
    let s := fillLoop entries s.peerCount.toNat 0 s
    if u.ret = 0 then s
    else
      let s := s.use .pfds 0 entries
      let s := s.acceptPeer u
      readLoop entries u s.peerCount.toNat 0 s
  else s

/-- A run of a server: `chat_server_listen` and then updates. -/
def run (listening : Bool) (us : List Poll) : ServerMemory :=
  us.foldl chatServerUpdate (chatServerNew.chatServerListen listening)

/-! ## What a step adds to the record -/

/-- No message has been stored and the array counts no entries. -/
def Fresh (s : ServerMemory) : Prop := s.totalMessages = 0 ∧ s.totalMessagesCount = 0

/-- The record has only got longer.  As long as it is fresh, the array of messages is not used, and
the first index used on it is out of bounds. -/
def Extends (s t : ServerMemory) : Prop :=
  ∃ more, t.accesses = s.accesses ++ more ∧
    (s.Fresh → t.Fresh ∧ (∀ a ∈ more, a.array ≠ .messages) ∨
      ∃ a ∈ more, a.array = .messages ∧ ¬ a.InBounds)

/-- The peers are counted as before, and nothing but what is in bounds has been used of them. -/
structure PeersKept (s t : ServerMemory) : Prop where
  started : t.isStarted = s.isStarted
  count : t.peerCount = s.peerCount
  size : t.peerSize = s.peerSize
  used : ∀ a ∈ t.accesses, a.array = .peers → a ∈ s.accesses ∨ a.InBounds

section Steps

variable {s t u : ServerMemory}

theorem Extends.refl (s : ServerMemory) : Extends s s :=
  ⟨[], (List.append_nil _).symm, fun h => .inl ⟨h, List.forall_mem_nil _⟩⟩

theorem Extends.mem (h : Extends s t) {a : Access} (ha : a ∈ s.accesses) : a ∈ t.accesses := by
  rcases h with ⟨more, hmore, -⟩
  rw [hmore]
  exact List.mem_append_left _ ha

theorem Extends.trans (h : Extends s t) (h' : Extends t u) : Extends s u := by
  rcases h with ⟨more, hmore, hfresh⟩
  rcases h' with ⟨more', hmore', hfresh'⟩
  refine ⟨more ++ more', ?_, fun hs => ?_⟩
  · rw [hmore', hmore, List.append_assoc]
  · rcases hfresh hs with ⟨ht, hno⟩ | ⟨a, ha, hbad⟩
    · rcases hfresh' ht with ⟨hu, hno'⟩ | ⟨a, ha, hbad⟩
      · left
        refine ⟨hu, fun a ha => ?_⟩
        rcases List.mem_append.mp ha with ha | ha
        · exact hno a ha
        · exact hno' a ha
      · exact .inr ⟨a, List.mem_append_right _ ha, hbad⟩
    · exact .inr ⟨a, List.mem_append_left _ ha, hbad⟩

/-- A step that records nothing and leaves the messages alone. -/
theorem extends_silent (hacc : t.accesses = s.accesses) (htotal : t.totalMessages = s.totalMessages)
    (hcount : t.totalMessagesCount = s.totalMessagesCount) : Extends s t := by
  refine ⟨[], ?_, fun hs => .inl ⟨?_, List.forall_mem_nil _⟩⟩
  · rw [hacc, List.append_nil]
  · unfold Fresh at *
    rw [htotal, hcount]
    exact hs

theorem extends_use {array : ServerArray} (h : array ≠ .messages) (index allocated : UInt32) :
    Extends s (s.use array index allocated) := by
  refine ⟨[⟨array, index, allocated⟩], rfl, fun hs => .inl ⟨hs, fun a ha => ?_⟩⟩
  rw [List.mem_singleton] at ha
  rw [ha]
  exact h

theorem extends_addMessage {m : ChatMessage} (h : addMessage s m = .ok t) : Extends s t := by
  cases h
  by_cases hfull : s.totalMessages = s.totalMessagesCount
  · refine ⟨[⟨.messages, s.totalMessagesCount, s.totalMessages * 2⟩], ?_, fun hs => .inr ?_⟩
    · simp only [use, if_pos hfull]
    · -- twice no entries are no entries
      refine ⟨_, List.mem_singleton_self _, rfl, ?_⟩
      unfold Access.InBounds
      rw [hs.1, hs.2]
      decide
  · refine ⟨[⟨.messages, s.totalMessagesCount, s.messagesAllocated⟩], ?_, fun hs => ?_⟩
    · simp only [use, if_neg hfull]
    · rw [hs.1, hs.2] at hfull
      exact absurd rfl hfull

theorem extends_receive (i : UInt32) (bytes : Option (List UInt8)) :
    Extends s (s.receive i bytes) := by
  cases bytes with
  | none => exact Extends.refl s
  | some bytes =>
    rw [receive]
    cases hresult : (InputBuffer.receive addMessage i.toNat s (s.peers i) bytes).result with
    | error f => exact Extends.refl s
    | ok r =>
      have hstored : Extends s r.1 := by
        apply InputBuffer.receive_invariant (I := fun t => Extends s t) _ (Extends.refl s) hresult
        intro t m t' ht hput
        exact ht.trans (extends_addMessage hput)
      exact hstored.trans (extends_silent rfl rfl rfl)

theorem extends_fillLoop (entries : UInt32) (count : Nat) (i : UInt32) :
    Extends s (fillLoop entries count i s) := by
  induction count generalizing i s with
  | zero => exact Extends.refl s
  | succ count ih =>
    have hpfds : Extends s (s.use .pfds i entries) := extends_use (by decide) _ _
    have hpeers : Extends (s.use .pfds i entries) ((s.use .pfds i entries).use .peers i s.peerSize) :=
      extends_use (by decide) _ _
    exact (hpfds.trans hpeers).trans (ih (i + 1))

theorem extends_readLoop (entries : UInt32) (p : Poll) (count : Nat) (i : UInt32) :
    Extends s (readLoop entries p count i s) := by
  induction count generalizing i s with
  | zero => exact Extends.refl s
  | succ count ih =>
    have hpfds : Extends s (s.use .pfds i entries) := extends_use (by decide) _ _
    unfold readLoop
    by_cases hin : p.revents i
    · simp only [if_pos hin]
      have hpeers : Extends (s.use .pfds i entries)
          ((s.use .pfds i entries).use .peers i (s.use .pfds i entries).peerSize) :=
        extends_use (by decide) _ _
      exact ((hpfds.trans hpeers).trans (extends_receive i _)).trans (ih (i + 1))
    · simp only [if_neg hin]
      exact hpfds.trans (ih (i + 1))

theorem extends_addPeer (b : InputBuffer) : Extends s (s.addPeer b) := by
  have huse : Extends s (s.use .peers s.peerCount s.peerSize) := extends_use (by decide) _ _
  exact huse.trans (extends_silent rfl rfl rfl)

theorem extends_acceptPeer (p : Poll) : Extends s (s.acceptPeer p) := by
  unfold acceptPeer
  by_cases hin : p.accepts
  · rw [if_pos hin]
    by_cases hfull : s.peerCount = s.peerSize
    · simp only [if_pos hfull]
      have hgrow : Extends s { s with peerSize := s.peerSize * 2 } := extends_silent rfl rfl rfl
      exact hgrow.trans (extends_addPeer _)
    · simp only [if_neg hfull]
      exact extends_addPeer _
  · rw [if_neg hin]
    exact Extends.refl s

theorem extends_chatServerUpdate (p : Poll) : Extends s (s.chatServerUpdate p) := by
  unfold chatServerUpdate
  by_cases hstarted : s.isStarted
  · have hpfds : Extends s (s.use .pfds s.peerCount s.peerCount) := extends_use (by decide) _ _
    have hfill := hpfds.trans
      (extends_fillLoop s.peerCount (s.use .pfds s.peerCount s.peerCount).peerCount.toNat 0)
    simp only [if_pos hstarted]
    by_cases hret : p.ret = 0
    · rw [if_pos hret]
      exact hfill
    · rw [if_neg hret]
      apply Extends.trans _ (extends_readLoop _ _ _ _)
      apply Extends.trans _ (extends_acceptPeer _)
      exact hfill.trans (extends_use (by decide) _ _)
  · rw [if_neg hstarted]
    exact Extends.refl s

theorem extends_updates (us : List Poll) : Extends s (us.foldl chatServerUpdate s) := by
  induction us generalizing s with
  | nil => exact Extends.refl s
  | cons p us ih => exact (extends_chatServerUpdate p).trans ih

end Steps

/-! ## The array of peers -/

/-- The largest array of peers whose size can still be counted in 32 bits. -/
def peersLimit : Nat := 10 * 2 ^ 28

/-- `clients` clients have been taken in beside the listening socket, and every index used on the
array of peers was in bounds. -/
structure Within (s : ServerMemory) (clients : Nat) : Prop where
  started : s.isStarted = true
  count : s.peerCount.toNat = clients + 1
  doubled : ∃ k, k ≤ 28 ∧ s.peerSize.toNat = 10 * 2 ^ k
  room : s.peerCount ≤ s.peerSize
  used : ∀ a ∈ s.accesses, a.array = .peers → a.InBounds

/-- The update takes a client in. -/
def takesIn (p : Poll) : Bool := p.ret ≠ 0 && p.accepts

section Peers

variable {s t u : ServerMemory} {clients : Nat}

theorem PeersKept.refl (s : ServerMemory) : PeersKept s s := ⟨rfl, rfl, rfl, fun _ ha _ => .inl ha⟩

theorem PeersKept.trans (h : PeersKept s t) (h' : PeersKept t u) : PeersKept s u := by
  refine ⟨h'.started.trans h.started, h'.count.trans h.count, h'.size.trans h.size, ?_⟩
  intro a ha harray
  rcases h'.used a ha harray with ha | hin
  · exact h.used a ha harray
  · exact .inr hin

theorem peersKept_use {array : ServerArray} {index allocated : UInt32}
    (h : array = .peers → index < allocated) : PeersKept s (s.use array index allocated) := by
  refine ⟨rfl, rfl, rfl, fun a ha harray => ?_⟩
  rcases List.mem_append.mp ha with ha | ha
  · exact .inl ha
  · rw [List.mem_singleton] at ha
    rw [ha] at harray ⊢
    exact .inr (h harray)

theorem peersKept_addMessage {m : ChatMessage} (h : addMessage s m = .ok t) : PeersKept s t := by
  cases h
  have huse : ∀ s' : ServerMemory, PeersKept s' (s'.use .messages s'.totalMessagesCount
      s'.messagesAllocated) := fun s' => peersKept_use fun h => by cases h
  by_cases hfull : s.totalMessages = s.totalMessagesCount
  · simp only [if_pos hfull]
    have h := huse { s with totalMessages := s.totalMessages * 2
                            messagesAllocated := s.totalMessages * 2 }
    exact ⟨h.started, h.count, h.size, h.used⟩
  · simp only [if_neg hfull]
    have h := huse s
    exact ⟨h.started, h.count, h.size, h.used⟩

theorem peersKept_receive (i : UInt32) (bytes : Option (List UInt8)) :
    PeersKept s (s.receive i bytes) := by
  cases bytes with
  | none => exact PeersKept.refl s
  | some bytes =>
    rw [receive]
    cases hresult : (InputBuffer.receive addMessage i.toNat s (s.peers i) bytes).result with
    | error f => exact PeersKept.refl s
    | ok r =>
      have h : PeersKept s r.1 := by
        apply InputBuffer.receive_invariant (I := fun t => PeersKept s t) _ (PeersKept.refl s)
          hresult
        intro t m t' ht hput
        exact ht.trans (peersKept_addMessage hput)
      exact ⟨h.started, h.count, h.size, h.used⟩

/-- The loops go over the peers that are counted, for each of which there is room. -/
theorem loop_index {i : UInt32} {count : Nat} (hi : i.toNat + (count + 1) = s.peerCount.toNat)
    (hroom : s.peerCount ≤ s.peerSize) :
    i < s.peerSize ∧ (i + 1).toNat + count = s.peerCount.toNat := by
  have hmax := s.peerCount.toNat_lt
  constructor
  · rw [UInt32.le_iff_toNat_le] at hroom
    rw [UInt32.lt_iff_toNat_lt]
    omega
  · rw [UInt32.toNat_add]
    show (i.toNat + 1) % 2 ^ 32 + count = s.peerCount.toNat
    omega

theorem peersKept_fillLoop (entries : UInt32) {count : Nat} {i : UInt32}
    (hi : i.toNat + count = s.peerCount.toNat) (hroom : s.peerCount ≤ s.peerSize) :
    PeersKept s (fillLoop entries count i s) := by
  induction count generalizing i s with
  | zero => exact PeersKept.refl s
  | succ count ih =>
    rcases loop_index hi hroom with ⟨hlt, hnext⟩
    have hpfds : PeersKept s (s.use .pfds i entries) := peersKept_use fun h => by cases h
    have hpeers : PeersKept (s.use .pfds i entries)
        ((s.use .pfds i entries).use .peers i s.peerSize) := peersKept_use fun _ => hlt
    exact (hpfds.trans hpeers).trans (ih hnext hroom)

theorem peersKept_readLoop (entries : UInt32) (p : Poll) {count : Nat} {i : UInt32}
    (hi : i.toNat + count = s.peerCount.toNat) (hroom : s.peerCount ≤ s.peerSize) :
    PeersKept s (readLoop entries p count i s) := by
  induction count generalizing i s with
  | zero => exact PeersKept.refl s
  | succ count ih =>
    rcases loop_index hi hroom with ⟨hlt, hnext⟩
    have hpfds : PeersKept s (s.use .pfds i entries) := peersKept_use fun h => by cases h
    unfold readLoop
    by_cases hin : p.revents i
    · simp only [if_pos hin]
      have hpeers : PeersKept (s.use .pfds i entries)
          ((s.use .pfds i entries).use .peers i (s.use .pfds i entries).peerSize) :=
        peersKept_use fun _ => hlt
      have hread := (hpfds.trans hpeers).trans (peersKept_receive i (p.reads i))
      apply hread.trans
      apply ih
      · rw [hread.count]
        exact hnext
      · rw [hread.count, hread.size]
        exact hroom
    · simp only [if_neg hin]
      exact hpfds.trans (ih hnext hroom)

theorem Within.kept (h : s.Within clients) (hk : PeersKept s t) : t.Within clients := by
  refine ⟨?_, ?_, ?_, ?_, ?_⟩
  · rw [hk.started]
    exact h.started
  · rw [hk.count]
    exact h.count
  · rw [hk.size]
    exact h.doubled
  · rw [hk.count, hk.size]
    exact h.room
  · intro a ha harray
    rcases hk.used a ha harray with ha | hin
    · exact h.used a ha harray
    · exact hin

/-- A peer is added where there is room for it. -/
theorem Within.addPeer (h : s.Within clients) (hroom : s.peerCount < s.peerSize) (b : InputBuffer) :
    (s.addPeer b).Within (clients + 1) := by
  have hmax := s.peerSize.toNat_lt
  have hlt := UInt32.lt_iff_toNat_lt.mp hroom
  have hcount := h.count
  have hnext : (s.peerCount + 1).toNat = clients + 1 + 1 := by
    rw [UInt32.toNat_add]
    show (s.peerCount.toNat + 1) % 2 ^ 32 = clients + 1 + 1
    omega
  refine ⟨h.started, hnext, h.doubled, ?_, ?_⟩
  · show s.peerCount + 1 ≤ s.peerSize
    rw [UInt32.le_iff_toNat_le, hnext]
    omega
  · intro a ha harray
    rcases List.mem_append.mp ha with ha | ha
    · exact h.used a ha harray
    · rw [List.mem_singleton] at ha
      rw [ha]
      exact hroom

theorem toNat_twice (a : UInt32) : (a * 2).toNat = a.toNat * 2 % 2 ^ 32 := UInt32.toNat_mul _ _

/-- With one more client the array is still within the limit. -/
theorem Within.accept (h : s.Within clients) (hlimit : clients + 1 < peersLimit) {p : Poll}
    (hp : p.accepts) : (s.acceptPeer p).Within (clients + 1) := by
  rcases h.doubled with ⟨k, hk, hsize⟩
  have hcount := h.count
  rw [acceptPeer, if_pos hp]
  by_cases hfull : s.peerCount = s.peerSize
  · simp only [if_pos hfull]
    have hlt : 10 * 2 ^ k < 10 * 2 ^ 28 := by
      rw [← hsize, ← hfull, hcount]
      exact hlimit
    have hk' : k + 1 ≤ 28 := by
      by_contra hge
      obtain rfl : k = 28 := by omega
      exact absurd hlt (lt_irrefl _)
    have hpow : 2 ^ (k + 1) ≤ 2 ^ 28 := Nat.pow_le_pow_right (by decide) hk'
    have hdouble : (s.peerSize * 2).toNat = 10 * 2 ^ (k + 1) := by
      rw [toNat_twice, hsize]
      omega
    have hroom : s.peerCount < s.peerSize * 2 := by
      have hpos : 0 < 2 ^ k := Nat.two_pow_pos k
      rw [hfull, UInt32.lt_iff_toNat_lt, hdouble, hsize]
      omega
    apply Within.addPeer _ hroom
    exact ⟨h.started, h.count, ⟨k + 1, hk', hdouble⟩, UInt32.le_of_lt hroom, h.used⟩
  · simp only [if_neg hfull]
    exact h.addPeer (UInt32.lt_of_le_of_ne h.room hfull) _

/-- At the limit doubling wraps, and the peer is added out of bounds. -/
theorem Within.overflow (h : s.Within clients) (hlimit : clients + 1 = peersLimit) {p : Poll}
    (hp : p.accepts) :
    ∃ a ∈ (s.acceptPeer p).accesses, a.array = .peers ∧ ¬ a.InBounds := by
  rcases h.doubled with ⟨k, hk, hsize⟩
  have hcount := h.count
  have hpow : 2 ^ k ≤ 2 ^ 28 := Nat.pow_le_pow_right (by decide) hk
  have hroom := UInt32.le_iff_toNat_le.mp h.room
  have hfull : s.peerCount = s.peerSize := by
    apply UInt32.toNat_inj.mp
    unfold peersLimit at hlimit
    omega
  have hwrap : (s.peerSize * 2).toNat = 2 ^ 30 := by
    rw [toNat_twice, ← hfull, hcount, hlimit]
    rfl
  rw [acceptPeer, if_pos hp]
  simp only [if_pos hfull]
  refine ⟨⟨.peers, s.peerCount, s.peerSize * 2⟩, List.mem_append_right _ (by simp), rfl, ?_⟩
  unfold Access.InBounds
  rw [UInt32.lt_iff_toNat_lt, hwrap, hcount, hlimit]
  decide

/-- An update up to the point where a client may be taken in. -/
theorem Within.fill (h : s.Within clients) :
    (fillLoop s.peerCount s.peerCount.toNat 0 (s.use .pfds s.peerCount s.peerCount)).Within
      clients := by
  have hpfds : PeersKept s (s.use .pfds s.peerCount s.peerCount) := peersKept_use fun h => by cases h
  apply h.kept
  exact hpfds.trans (peersKept_fillLoop s.peerCount (Nat.zero_add _) h.room)

theorem Within.update (h : s.Within clients) {p : Poll}
    (hlimit : clients + (if takesIn p then 1 else 0) < peersLimit) :
    (s.chatServerUpdate p).Within (clients + if takesIn p then 1 else 0) := by
  simp only [chatServerUpdate, h.started, if_true]
  by_cases hret : p.ret = 0
  · have hno : takesIn p = false := by simp [takesIn, hret]
    rw [hno, if_pos hret]
    exact h.fill
  · have htakes : takesIn p = p.accepts := by simp [takesIn, hret]
    have htest : PeersKept _ ((fillLoop s.peerCount s.peerCount.toNat 0
        (s.use .pfds s.peerCount s.peerCount)).use .pfds 0 s.peerCount) :=
      peersKept_use fun h => by cases h
    rw [if_neg hret]
    rw [htakes] at hlimit ⊢
    by_cases hp : p.accepts
    · rw [if_pos hp] at hlimit ⊢
      have haccept := (h.fill.kept htest).accept hlimit hp
      exact haccept.kept (peersKept_readLoop _ _ (Nat.zero_add _) haccept.room)
    · rw [if_neg hp]
      rw [acceptPeer, if_neg hp]
      have hnone := h.fill.kept htest
      exact hnone.kept (peersKept_readLoop _ _ (Nat.zero_add _) hnone.room)

theorem Within.update_overflow (h : s.Within clients) (hlimit : clients + 1 = peersLimit) {p : Poll}
    (hp : takesIn p) : ∃ a ∈ (s.chatServerUpdate p).accesses, a.array = .peers ∧ ¬ a.InBounds := by
  have hboth : p.ret ≠ 0 ∧ p.accepts = true := by simpa [takesIn] using hp
  have htest : PeersKept _ ((fillLoop s.peerCount s.peerCount.toNat 0
      (s.use .pfds s.peerCount s.peerCount)).use .pfds 0 s.peerCount) :=
    peersKept_use fun h => by cases h
  rcases (h.fill.kept htest).overflow hlimit hboth.2 with ⟨a, ha, hbad⟩
  refine ⟨a, ?_, hbad⟩
  simp only [chatServerUpdate, h.started, if_true, if_neg hboth.1]
  exact (extends_readLoop s.peerCount p _ 0).mem ha

/-- The clients that a run takes in. -/
def clientsOf (us : List Poll) : Nat := us.countP takesIn

theorem within_listen : (chatServerNew.chatServerListen true).Within 0 := by
  refine ⟨rfl, rfl, ⟨0, by decide, rfl⟩, by decide, fun a ha _ => ?_⟩
  have heq : a = ⟨.peers, 0, 10⟩ := List.mem_singleton.mp ha
  rw [heq]
  decide

theorem Within.lt_peersLimit (h : s.Within clients) : clients < peersLimit := by
  rcases h.doubled with ⟨k, hk, hsize⟩
  have hpow : 2 ^ k ≤ 2 ^ 28 := Nat.pow_le_pow_right (by decide) hk
  have hroom := UInt32.le_iff_toNat_le.mp h.room
  rw [h.count, hsize] at hroom
  unfold peersLimit
  omega

/-- Below the limit all is well, and the client that reaches it is added out of bounds. -/
theorem Within.updates_iff (h : s.Within clients) (us : List Poll) :
    (∀ a ∈ (us.foldl chatServerUpdate s).accesses, a.array = .peers → a.InBounds) ↔
      clients + clientsOf us < peersLimit := by
  induction us generalizing s clients with
  | nil => exact iff_of_true h.used h.lt_peersLimit
  | cons p us ih =>
    have hclients : clients + clientsOf (p :: us) =
        clients + (if takesIn p then 1 else 0) + clientsOf us := by
      rw [clientsOf, List.countP_cons, clientsOf]
      omega
    rw [hclients, List.foldl_cons]
    by_cases hlimit : clients + (if takesIn p then 1 else 0) < peersLimit
    · exact ih (h.update hlimit)
    · have hlt := h.lt_peersLimit
      have htakes : takesIn p := by
        by_contra hno
        rw [if_neg hno] at hlimit
        exact hlimit hlt
      rw [if_pos htakes] at hlimit ⊢
      rcases h.update_overflow (by omega) htakes with ⟨a, ha, harray, hbad⟩
      apply iff_of_false
      · intro hall
        exact hbad (hall a ((extends_updates us).mem ha) harray)
      · omega

end Peers

/-! ## Runs -/

/-- Every update writes to the entry behind the last one of `pfds` before anything else. -/
theorem chatServerUpdate_writes {s : ServerMemory} (h : s.isStarted = true) (p : Poll) :
    ⟨.pfds, s.peerCount, s.peerCount⟩ ∈ (s.chatServerUpdate p).accesses := by
  have hfirst : (⟨.pfds, s.peerCount, s.peerCount⟩ : Access) ∈
      (fillLoop s.peerCount s.peerCount.toNat 0 (s.use .pfds s.peerCount s.peerCount)).accesses :=
    (extends_fillLoop _ _ _).mem (List.mem_append_right _ (List.mem_singleton_self _))
  simp only [chatServerUpdate, h, if_true]
  by_cases hret : p.ret = 0
  · rw [if_pos hret]
    exact hfirst
  · rw [if_neg hret]
    apply (extends_readLoop _ _ _ _).mem
    apply (extends_acceptPeer p).mem
    exact List.mem_append_left _ hfirst

theorem updates_not_started (us : List Poll) :
    us.foldl chatServerUpdate chatServerNew = chatServerNew := by
  induction us with
  | nil => rfl
  | cons p us ih => exact ih

/-- The number of clients that a run takes in. -/
def runClients (listening : Bool) (us : List Poll) : Nat := if listening then clientsOf us else 0

/-- For every result of `chat_server_listen`, any number of updates and whatever they find: all
indices are in bounds if and only if there is no update of a server that listens.  Those used on the
array of peers are as long as fewer than `10 * 2 ^ 28` clients have been taken in, and those used on
the array of messages only as long as it is not used at all. -/
theorem run_inBounds_iff (listening : Bool) (us : List Poll) :
    ((∀ a ∈ (run listening us).accesses, a.InBounds) ↔ listening = false ∨ us = []) ∧
    ((∀ a ∈ (run listening us).accesses, a.array = .peers → a.InBounds) ↔
      runClients listening us < peersLimit) ∧
    ((∀ a ∈ (run listening us).accesses, a.array = .messages → a.InBounds) ↔
      ∀ a ∈ (run listening us).accesses, a.array ≠ .messages) := by
  cases listening with
  | false =>
    -- a server that does not listen refuses every update
    have hnone : (run false us).accesses = [] := by
      rw [run, show chatServerNew.chatServerListen false = chatServerNew from rfl,
        updates_not_started]
      rfl
    rw [hnone]
    simp [runClients, peersLimit]
  | true =>
    refine ⟨?_, ?_, ?_⟩
    · simp only [Bool.true_eq_false, false_or]
      constructor
      · intro hall
        cases us with
        | nil => rfl
        | cons p us =>
          -- the entry of the listening socket is one past the end
          have hwrite := chatServerUpdate_writes within_listen.started p
          have hin := hall _ ((extends_updates us).mem hwrite)
          exact absurd hin (by decide)
      · intro hnil a ha
        rw [hnil] at ha
        have heq : a = ⟨.peers, 0, 10⟩ := List.mem_singleton.mp ha
        rw [heq]
        decide
    · have hpeers := within_listen.updates_iff us
      rw [Nat.zero_add] at hpeers
      exact hpeers
    · constructor
      · intro hall
        -- the first message of the run has no entry to go to
        have hfresh : (chatServerNew.chatServerListen true).Fresh := ⟨rfl, rfl⟩
        rcases extends_updates (s := chatServerNew.chatServerListen true) us with
          ⟨more, hmore, hmessages⟩
        rcases hmessages hfresh with ⟨-, hno⟩ | ⟨a, ha, harray, hbad⟩
        · intro a ha
          rw [run, hmore] at ha
          rcases List.mem_append.mp ha with ha | ha
          · have heq : a = ⟨.peers, 0, 10⟩ := List.mem_singleton.mp ha
            rw [heq]
            decide
          · exact hno a ha
        · have hin := hall a (by rw [run, hmore]; exact List.mem_append_right _ ha) harray
          exact absurd hin hbad
      · intro hno a ha harray
        exact absurd harray (hno a ha)

/-- `poll` has timed out. -/
def timedOut : Poll := ⟨0, fun _ => false, -1, fun _ => none⟩

/-- A client is waiting, and nothing is read in that call. -/
def clientWaits : Poll := ⟨1, fun i => i = 0, 4, fun _ => none⟩

/-- The client has sent one message of one byte. -/
def clientSends : Poll := ⟨1, fun i => i = 1, -1, fun i => if i = 1 then some (frame [7]) else none⟩

/-- `pfds[1]` of one entry is written in an update that times out, it is read again in the update
that takes a client in, and the first message is stored in `messages[0]` of no entries. -/
theorem indices_out_of_bounds :
    (run true [timedOut]).accesses = [⟨.peers, 0, 10⟩, ⟨.pfds, 1, 1⟩, ⟨.pfds, 0, 1⟩, ⟨.peers, 0, 10⟩] ∧
    (run true [clientWaits]).accesses.getLast? = some ⟨.pfds, 1, 1⟩ ∧
    (run true [clientWaits, clientSends]).accesses.getLast? = some ⟨.messages, 0, 0⟩ ∧
    ¬ ∀ listening us, ∀ a ∈ (run listening us).accesses, a.InBounds := by
  have htimeout : (run true [timedOut]).accesses =
      [⟨.peers, 0, 10⟩, ⟨.pfds, 1, 1⟩, ⟨.pfds, 0, 1⟩, ⟨.peers, 0, 10⟩] := by decide +kernel
  refine ⟨htimeout, by decide +kernel, by decide +kernel, fun hall => ?_⟩
  have hin := hall true [timedOut] ⟨.pfds, 1, 1⟩ (by rw [htimeout]; decide)
  exact absurd hin (by decide)

/-- The index that a message is stored at is in bounds exactly where storing it in the server's
list does not fail. -/
theorem addMessage_refines {s : ServerMemory} {server : ChatServer}
    (htotal : s.totalMessages.toNat = server.totalMessages) (hsmall : server.totalMessages < 2 ^ 31)
    (hcount : s.totalMessagesCount.toNat = server.messages.length)
    (halloc : s.messagesAllocated.toNat = server.allocated) (m : ChatMessage) :
    ∃ t index allocated, addMessage s m = .ok t ∧
      t.accesses = s.accesses ++ [⟨.messages, index, allocated⟩] ∧
      (index < allocated ↔ ∃ server', Chat.addMessage server m = .ok server') := by
  have htest : s.totalMessages = s.totalMessagesCount ↔
      server.totalMessages = server.messages.length := by
    rw [← UInt32.toNat_inj, htotal, hcount]
  unfold addMessage Chat.addMessage
  by_cases hfull : s.totalMessages = s.totalMessagesCount
  · have hdouble : (s.totalMessages * 2).toNat = server.totalMessages * 2 := by
      rw [toNat_twice, htotal]
      omega
    simp only [if_pos hfull, if_pos (htest.mp hfull)]
    refine ⟨_, _, _, rfl, rfl, ?_⟩
    rw [UInt32.lt_iff_toNat_lt, hcount, hdouble]
    by_cases hlt : server.messages.length < server.totalMessages * 2
    · simp [hlt]
    · simp [hlt]
  · simp only [if_neg hfull, if_neg (fun h => hfull (htest.mpr h))]
    refine ⟨_, _, _, rfl, rfl, ?_⟩
    rw [UInt32.lt_iff_toNat_lt, hcount, halloc]
    by_cases hlt : server.messages.length < server.allocated
    · simp [hlt]
    · simp [hlt]

end ServerMemory

end SystemProgramming.Chat
