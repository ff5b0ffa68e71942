import SystemProgramming.Lib.ByteBuffer
import SystemProgramming.Lib.Fallible
import SystemProgramming.Shell.Session

/-!
# The memory of the parser

`parser_feed` and `parser_consume` on the block of memory that `realloc` gave, with all sizes in
`uint32_t`.  A parser that is not out of bounds is a `Parser`, whose buffer is the list of the bytes
in use.  `parser_feed` doubles a capacity; from `2 ^ 31 - 1` on the doubled capacity wraps, and the
test that is to catch a capacity that is too small wraps with it.
-/

open ByteBuffer Fallible

namespace SystemProgramming.Shell

/-- `struct parser`.  The length of `buffer` is the number of bytes last requested from
`realloc`. -/
structure ParserMemory where
  buffer : Memory UInt8
  size : UInt32
  capacity : UInt32

namespace ParserMemory

def parserNew : ParserMemory := ⟨[], 0, 0⟩

/-- Both the `memcpy` past the end and the assertion that it has to fail with are an overrun. -/
def parserFeed (p : ParserMemory) (str : List UInt8) (len : UInt32) : Run ParserMemory :=
  let cap := p.capacity - p.size
  let p :=
    if cap < len then
      let newCapacity := (p.capacity + 1) * 2
      let newCapacity := if newCapacity - p.size < len then p.size + len else newCapacity
      { p with buffer := realloc p.buffer newCapacity.toNat, capacity := newCapacity }
    else p
  match store p.buffer p.size.toNat str with
  | none => .error .overrun
  | some buffer =>
    if p.size + len ≤ p.capacity then .ok { p with buffer := buffer, size := p.size + len }
    else .error .overrun

def parserConsume (p : ParserMemory) (size : UInt32) : Run ParserMemory :=
  if p.size ≥ size then
    if size = p.size then
      .ok { p with size := 0 }
    else
      match moveToFront p.buffer size.toNat (p.size - size).toNat with
      | none => .error .overrun
      | some buffer => .ok { p with buffer := buffer, size := p.size - size }
  else
    .error .parserConsume

end ParserMemory

/-- `p` is the memory of the parser `q`. -/
structure ParserMemory.Represents (p : ParserMemory) (q : Parser) : Prop where
  held : Holds p.buffer q.buffer
  size : p.size.toNat = q.buffer.length
  capacity : p.capacity.toNat = q.capacity
  allocated : p.buffer.length = q.capacity
  within : q.buffer.length ≤ q.capacity

/-! ## The memory and the list of bytes -/

theorem toNat_double (a : UInt32) : ((a + 1) * 2).toNat = (a.toNat + 1) * 2 % 2 ^ 32 := by
  rw [UInt32.toNat_mul, UInt32.toNat_add]
  show (a.toNat + 1) % 2 ^ 32 * 2 % 2 ^ 32 = (a.toNat + 1) * 2 % 2 ^ 32
  omega

namespace ParserMemory

variable {p : ParserMemory} {q : Parser} {str : List UInt8}

theorem Represents.fits (h : p.Represents q) : q.Fits := by
  refine ⟨h.within, ?_⟩
  rw [← h.capacity]
  exact p.capacity.toNat_lt

theorem represents_new : parserNew.Represents Shell.parserNew :=
  ⟨holds_nil _, rfl, rfl, rfl, le_refl _⟩

/-- Storing a string behind the bytes in use, in a block of `capacity` bytes. -/
theorem store_represents {m : Memory UInt8} {size capacity : UInt32} (hm : m.length = capacity.toNat)
    (hheld : Holds m q.buffer) (hsize : size.toNat = q.buffer.length)
    (hfit : q.buffer.length + str.length ≤ capacity.toNat) :
    ∃ m', store m size.toNat str = some m' ∧ size + .ofNat str.length ≤ capacity ∧
      Represents ⟨m', size + .ofNat str.length, capacity⟩ ⟨q.buffer ++ str, capacity.toNat⟩ := by
  have hlt := capacity.toNat_lt
  have hsum : (size + .ofNat str.length).toNat = q.buffer.length + str.length := by
    rw [UInt32.toNat_add, toNat_ofNat_eq (by omega), hsize]
    omega
  rcases hheld.store (t := str) (by omega) with ⟨m', hstore, hlen, hm'⟩
  refine ⟨m', ?_, ?_, hm', ?_, rfl, ?_, ?_⟩
  · rw [hsize]
    exact hstore
  · rw [UInt32.le_iff_toNat_le, hsum]
    exact hfit
  · rw [hsum, List.length_append]
  · rw [hlen, hm]
  · rw [List.length_append]
    exact hfit

/-- A feed does to the memory what it does to the list. -/
theorem Represents.feed (h : p.Represents q) (hlen : q.buffer.length + str.length < 2 ^ 32) :
    (∃ p' q', p.parserFeed str (.ofNat str.length) = .ok p' ∧ Shell.parserFeed q str = .ok q' ∧
      p'.Represents q') ∨
    p.parserFeed str (.ofNat str.length) = .error .overrun ∧
      Shell.parserFeed q str = .error .overrun := by
  have hwithin := h.within
  have hl : (UInt32.ofNat str.length).toNat = str.length := toNat_ofNat_eq (by omega)
  -- the two growth rules find the same capacity
  obtain ⟨c, hc⟩ : ∃ c, c = (if p.capacity - p.size < .ofNat str.length then
      if (p.capacity + 1) * 2 - p.size < .ofNat str.length then p.size + .ofNat str.length
      else (p.capacity + 1) * 2
    else p.capacity) := ⟨_, rfl⟩
  have hcap : c.toNat = if (2 ^ 32 + q.capacity - q.buffer.length) % 2 ^ 32 < str.length then
      if (2 ^ 32 + (q.capacity + 1) * 2 % 2 ^ 32 - q.buffer.length) % 2 ^ 32 < str.length then
        (q.buffer.length + str.length) % 2 ^ 32
      else (q.capacity + 1) * 2 % 2 ^ 32
    else q.capacity := by
    rw [hc]
    simp only [apply_ite UInt32.toNat, UInt32.lt_iff_toNat_lt, toNat_sub_eq, toNat_double,
      UInt32.toNat_add, h.size, h.capacity, hl]
  have hlist : Shell.parserFeed q str =
      if q.buffer.length + str.length ≤ c.toNat then .ok ⟨q.buffer ++ str, c.toNat⟩
      else .error .overrun := by
    rw [hcap]
    rfl
  -- and the block has that many bytes, whether it has been allocated anew or not
  obtain ⟨m, hm, hheld, hfeed⟩ : ∃ m, m.length = c.toNat ∧
      (q.buffer.length + str.length ≤ c.toNat → Holds m q.buffer) ∧
      p.parserFeed str (.ofNat str.length) = match store m p.size.toNat str with
        | none => .error .overrun
        | some buffer =>
          if p.size + .ofNat str.length ≤ c then .ok ⟨buffer, p.size + .ofNat str.length, c⟩
          else .error .overrun := by
    by_cases hgrow : p.capacity - p.size < .ofNat str.length
    · rw [if_pos hgrow] at hc
      refine ⟨realloc p.buffer c.toNat, realloc_length _ _, fun hfit => ?_, ?_⟩
      · exact h.held.realloc (by omega)
      · simp only [parserFeed, if_pos hgrow, ← hc]
    · rw [if_neg hgrow] at hc
      refine ⟨p.buffer, ?_, fun _ => h.held, ?_⟩
      · rw [h.allocated, hc, h.capacity]
      · simp only [parserFeed, if_neg hgrow, hc]
  by_cases hfit : q.buffer.length + str.length ≤ c.toNat
  · rcases store_represents hm (hheld hfit) h.size hfit with ⟨m', hstore, hle, hrep⟩
    left
    rw [hfeed, hlist, hstore, if_pos hfit]
    exact ⟨_, _, if_pos hle, rfl, hrep⟩
  · right
    rw [hfeed, hlist, store_none (by rw [hm, h.size]; omega), if_neg hfit]
    exact ⟨rfl, rfl⟩

/-- Consuming bytes that are there. -/
theorem Represents.consume (h : p.Represents q) {size : UInt32} (hsize : size.toNat ≤ q.buffer.length) :
    ∃ p' q', p.parserConsume size = .ok p' ∧ Shell.parserConsume q size.toNat = .ok q' ∧
      p'.Represents q' := by
  have hge : p.size ≥ size := by
    rw [ge_iff_le, UInt32.le_iff_toNat_le, h.size]
    exact hsize
  have hlist : Shell.parserConsume q size.toNat = .ok { q with buffer := q.buffer.drop size.toNat } :=
    if_pos hsize
  have hwithin := h.within
  by_cases hall : size = p.size
  · -- everything: the bytes stay where they are
    have hnil : q.buffer.drop size.toNat = [] := by
      rw [hall, h.size, List.drop_length]
    rw [hnil] at hlist
    refine ⟨{ p with size := 0 }, _, ?_, hlist, ?_⟩
    · rw [parserConsume, if_pos hge, if_pos hall]
    · exact ⟨holds_nil _, rfl, h.capacity, h.allocated, Nat.zero_le _⟩
  · have hrest : (p.size - size).toNat = q.buffer.length - size.toNat := by
      have hlt := p.size.toNat_lt
      rw [toNat_sub_eq, h.size] at *
      omega
    rcases h.held.moveToFront hsize with ⟨m, hmove, hlen, hm⟩
    refine ⟨⟨m, p.size - size, p.capacity⟩, _, ?_, hlist, ?_⟩
    · simp only [parserConsume, if_pos hge, if_neg hall, hrest, hmove]
    · refine ⟨hm, ?_, h.capacity, ?_, ?_⟩
      · rw [hrest, List.length_drop]
      · rw [hlen, h.allocated]
      · rw [List.length_drop]
        exact (Nat.sub_le _ _).trans hwithin

/-! ## Runs of calls -/

/-- A call of `parser_feed`, or of `parser_consume` from `parser_pop_next`. -/
inductive BufferCall
  | feed (str : List UInt8)
  | consume (size : UInt32)

def bufferCall (p : ParserMemory) : BufferCall → Run ParserMemory
  | .feed str => p.parserFeed str (.ofNat str.length)
  | .consume size => p.parserConsume size

def bufferCalls (p : ParserMemory) (calls : List BufferCall) : Run ParserMemory :=
  calls.foldlM bufferCall p

/-- What is to be in the buffer: a feed adds its string at the end, and consuming takes bytes off
the front. -/
def unconsumed : List BufferCall → List UInt8 :=
  List.foldl (fun bytes call => match call with
    | .feed str => bytes ++ str
    | .consume size => bytes.drop size.toNat) []

/-- No more than `2 ^ 32 - 1` bytes are in use after any feed, and no more bytes are consumed than
are in use. -/
def Counted (calls : List BufferCall) : Prop :=
  (∀ before str, before ++ [.feed str] <+: calls →
    (unconsumed before).length + str.length < 2 ^ 32) ∧
  ∀ before size, before ++ [.consume size] <+: calls → size.toNat ≤ (unconsumed before).length

/-- The calls return; then the size is within the capacity, the capacity is what was requested
from `realloc`, and the first `size` bytes are what is to be in the buffer. -/
def Delivered (calls : List BufferCall) : Prop :=
  ∃ p, bufferCalls parserNew calls = .ok p ∧ p.size ≤ p.capacity ∧
    p.capacity.toNat = p.buffer.length ∧
    p.buffer.take p.size.toNat = (unconsumed calls).map some

section Runs

variable {calls before : List BufferCall}

theorem bufferCalls_snoc (p : ParserMemory) (calls : List BufferCall) (c : BufferCall) :
    bufferCalls p (calls ++ [c]) = bufferCalls p calls >>= fun p' => bufferCall p' c := by
  unfold bufferCalls
  rw [List.foldlM_append]
  simp only [List.foldlM_cons, List.foldlM_nil, bind_pure]

theorem unconsumed_feed (calls : List BufferCall) (str : List UInt8) :
    unconsumed (calls ++ [BufferCall.feed str]) = unconsumed calls ++ str := by
  simp only [unconsumed, List.foldl_append, List.foldl_cons, List.foldl_nil]

theorem unconsumed_consume (calls : List BufferCall) (size : UInt32) :
    unconsumed (calls ++ [BufferCall.consume size]) = (unconsumed calls).drop size.toNat := by
  simp only [unconsumed, List.foldl_append, List.foldl_cons, List.foldl_nil]

theorem Represents.take_eq (h : p.Represents q) : p.buffer.take p.size.toNat = q.buffer.map some := by
  rw [h.size]
  exact h.held.take_eq

theorem delivered_iff : Delivered calls ↔ ∃ p capacity, bufferCalls parserNew calls = .ok p ∧
    p.Represents ⟨unconsumed calls, capacity⟩ := by
  constructor
  · rintro ⟨p, hp, hle, hlen, htake⟩
    rw [UInt32.le_iff_toNat_le, hlen] at hle
    have hsize := congrArg List.length htake
    rw [List.length_take, List.length_map, Nat.min_eq_left hle] at hsize
    refine ⟨p, p.capacity.toNat, hp, ?_, hsize, rfl, hlen.symm, ?_⟩
    · rw [Holds, ← htake]
      exact List.take_prefix _ _
    · show (unconsumed calls).length ≤ p.capacity.toNat
      rw [← hsize, hlen]
      exact hle
  · rintro ⟨p, capacity, hp, h⟩
    refine ⟨p, hp, ?_, ?_, h.take_eq⟩
    · rw [UInt32.le_iff_toNat_le, h.size, h.capacity]
      exact h.within
    · rw [h.capacity, h.allocated]

/-- One more feed delivers its string if and only if it finds the parser roomy. -/
theorem delivered_feed_iff {capacity : Nat} (hp : bufferCalls parserNew before = .ok p)
    (h : p.Represents ⟨unconsumed before, capacity⟩)
    (hlen : (unconsumed before).length + str.length < 2 ^ 32) :
    Delivered (before ++ [BufferCall.feed str]) ↔
      Roomy p.size.toNat p.capacity.toNat str.length := by
  have hcall : bufferCalls parserNew (before ++ [BufferCall.feed str]) =
      p.parserFeed str (.ofNat str.length) := by
    rw [bufferCalls_snoc, hp]
    rfl
  rw [delivered_iff, hcall, unconsumed_feed, h.size, h.capacity]
  constructor
  · rintro ⟨p', capacity', hp', -⟩
    by_contra hcrowded
    have hlist := parserFeed_crowded h.fits hlen hcrowded
    rcases h.feed hlen with ⟨_, q', -, hq', -⟩ | ⟨hfault, -⟩
    · rw [hlist] at hq'
      cases hq'
    · rw [hfault] at hp'
      cases hp'
  · intro hroomy
    rcases parserFeed_roomy h.fits hlen hroomy with ⟨capacity', hlist, -⟩
    rcases h.feed hlen with ⟨p', q', hp', hq', h'⟩ | ⟨-, hfault⟩
    · obtain rfl : _ = q' := Except.ok.inj (hlist.symm.trans hq')
      exact ⟨p', capacity', hp', h'⟩
    · rw [hlist] at hfault
      cases hfault

theorem delivered_consume {size : UInt32} (h : Delivered before)
    (hsize : size.toNat ≤ (unconsumed before).length) :
    Delivered (before ++ [BufferCall.consume size]) := by
  rw [delivered_iff] at *
  rcases h with ⟨p, capacity, hp, h⟩
  rcases h.consume hsize with ⟨p', q', hp', hq', h'⟩
  have hlist : Shell.parserConsume ⟨unconsumed before, capacity⟩ size.toNat =
      .ok ⟨(unconsumed before).drop size.toNat, capacity⟩ := if_pos hsize
  obtain rfl := Except.ok.inj (hlist.symm.trans hq')
  refine ⟨p', capacity, ?_, ?_⟩
  · rw [bufferCalls_snoc, hp]
    exact hp'
  · rw [unconsumed_consume]
    exact h'

/-- Whatever is fed and consumed, the buffer is the bytes fed and not yet consumed after every call
if and only if every feed finds the parser roomy. -/
theorem feeds_delivered_iff (hcounted : Counted calls) :
    (∀ before, before <+: calls → Delivered before) ↔
      ∀ before str p, before ++ [.feed str] <+: calls → bufferCalls parserNew before = .ok p →
        Roomy p.size.toNat p.capacity.toNat str.length := by
  constructor
  · intro hall before str p hpre hp
    have hbefore := hall before ((List.prefix_append _ _).trans hpre)
    rw [delivered_iff] at hbefore
    rcases hbefore with ⟨p', capacity, hp', h⟩
    obtain rfl : p = p' := Except.ok.inj (hp.symm.trans hp')
    exact (delivered_feed_iff hp h (hcounted.1 _ _ hpre)).mp (hall _ hpre)
  · intro hroomy before
    -- call by call, from the empty buffer on
    induction before using List.reverseRecOn with
    | nil => exact fun _ => delivered_iff.mpr ⟨parserNew, 0, rfl, represents_new⟩
    | append_singleton before c ih =>
      intro hpre
      have hbefore := ih ((List.prefix_append _ _).trans hpre)
      cases c with
      | consume size => exact delivered_consume hbefore (hcounted.2 _ _ hpre)
      | feed str =>
        rw [delivered_iff] at hbefore
        rcases hbefore with ⟨p, capacity, hp, h⟩
        apply (delivered_feed_iff hp h (hcounted.1 _ _ hpre)).mpr
        exact hroomy before str p hpre hp

theorem counted_nil : Counted [] := by
  constructor
  · intro before str hpre
    simp at hpre
  · intro before size hpre
    simp at hpre

/-- The last call of a run that is one call longer, or a call of the run. -/
theorem snoc_prefix_cases {c d : BufferCall} (h : before ++ [c] <+: calls ++ [d]) :
    before = calls ∧ c = d ∨ before ++ [c] <+: calls := by
  rcases List.prefix_concat_iff.mp h with heq | hpre
  · left
    simpa using heq
  · right
    exact hpre

theorem Counted.feed (h : Counted calls) (hlen : (unconsumed calls).length + str.length < 2 ^ 32) :
    Counted (calls ++ [BufferCall.feed str]) := by
  constructor
  · intro before s hpre
    rcases snoc_prefix_cases hpre with ⟨rfl, heq⟩ | hpre
    · cases heq
      exact hlen
    · exact h.1 before s hpre
  · intro before size hpre
    rcases snoc_prefix_cases hpre with ⟨-, heq⟩ | hpre
    · cases heq
    · exact h.2 before size hpre

theorem Counted.consume (h : Counted calls) {size : UInt32}
    (hsize : size.toNat ≤ (unconsumed calls).length) :
    Counted (calls ++ [BufferCall.consume size]) := by
  constructor
  · intro before str hpre
    rcases snoc_prefix_cases hpre with ⟨-, heq⟩ | hpre
    · cases heq
    · exact h.1 before str hpre
  · intro before n hpre
    rcases snoc_prefix_cases hpre with ⟨rfl, heq⟩ | hpre
    · cases heq
      exact hsize
    · exact h.2 before n hpre

end Runs

/-- `ls` and the end of the line, of which the first byte is taken in between. -/
theorem feeds_delivered_iff_ls :
    (∀ before, before <+: [.feed [108, 115], .consume 1, .feed [10]] → Delivered before) ↔
      ∀ before str p, before ++ [.feed str] <+: [.feed [108, 115], .consume 1, .feed [10]] →
        bufferCalls parserNew before = .ok p → Roomy p.size.toNat p.capacity.toNat str.length := by
  apply feeds_delivered_iff
  have hls : Counted ([] ++ [BufferCall.feed [108, 115]]) := counted_nil.feed (by decide)
  have htaken : Counted ([BufferCall.feed [108, 115]] ++ [BufferCall.consume 1]) :=
    hls.consume (by decide)
  exact htaken.feed (by decide)

/-- A string of `2 ^ 31 - 1` bytes, and one more byte. -/
def halfAndOne : List BufferCall := [.feed (List.replicate (2 ^ 31 - 1) 97), .feed [97]]

/-- The second feed asks for twice the capacity, which is zero, and copies its byte out of the
block. -/
theorem halfAndOne_overrun : Counted halfAndOne ∧
    bufferCalls parserNew halfAndOne = .error .overrun ∧
    ¬ ∀ calls, Counted calls → ∀ before, before <+: calls → Delivered before := by
  obtain ⟨half, hhalf⟩ : ∃ half : List UInt8, half = List.replicate (2 ^ 31 - 1) 97 := ⟨_, rfl⟩
  have hlen : half.length = 2 ^ 31 - 1 := by rw [hhalf, List.length_replicate]
  have hsingle : [(97 : UInt8)].length = 1 := rfl
  have hcounted : Counted halfAndOne := by
    unfold halfAndOne
    rw [← hhalf]
    have hfirst : Counted ([] ++ [BufferCall.feed half]) := by
      apply counted_nil.feed
      show 0 + half.length < 2 ^ 32
      omega
    apply hfirst.feed
    show half.length + [(97 : UInt8)].length < 2 ^ 32
    omega
  -- the first feed fills the memory to the last byte
  have hlist : Shell.parserFeed Shell.parserNew half = .ok ⟨half, 2 ^ 31 - 1⟩ := by
    unfold Shell.parserFeed Shell.parserNew
    simp [hlen]
  obtain ⟨p, hp, hrep⟩ : ∃ p, parserNew.parserFeed half (.ofNat half.length) = .ok p ∧
      p.Represents ⟨half, 2 ^ 31 - 1⟩ := by
    have hshort : Shell.parserNew.buffer.length + half.length < 2 ^ 32 := by
      show 0 + half.length < 2 ^ 32
      omega
    rcases represents_new.feed hshort with ⟨p, q, hp, hq, hrep⟩ | ⟨-, hfault⟩
    · obtain rfl := Except.ok.inj (hlist.symm.trans hq)
      exact ⟨p, hp, hrep⟩
    · rw [hlist] at hfault
      cases hfault
  -- the capacity is `2 ^ 31 - 1` now, and doubled it is 0
  have hover : p.parserFeed [97] (.ofNat [(97 : UInt8)].length) = .error .overrun := by
    have hshort : half.length + [(97 : UInt8)].length < 2 ^ 32 := by omega
    have hcrowded : ¬ Roomy half.length (2 ^ 31 - 1) [(97 : UInt8)].length := by
      unfold Roomy
      omega
    have hfault := parserFeed_crowded hrep.fits hshort hcrowded
    rcases hrep.feed hshort with ⟨_, q, -, hq, -⟩ | ⟨hover, -⟩
    · rw [hfault] at hq
      cases hq
    · exact hover
  have hrun : bufferCalls parserNew halfAndOne = .error .overrun := by
    have hfirst : bufferCalls parserNew [.feed half] = .ok p := by
      show (parserNew.parserFeed half (.ofNat half.length) >>= fun p => pure p) = .ok p
      rw [hp]
      rfl
    unfold halfAndOne
    rw [← hhalf, show [BufferCall.feed half, .feed [97]] =
      [BufferCall.feed half] ++ [BufferCall.feed [97]] from rfl, bufferCalls_snoc, hfirst]
    exact hover
  refine ⟨hcounted, hrun, fun hall => ?_⟩
  rcases hall halfAndOne hcounted halfAndOne List.prefix_rfl with ⟨q, hq, -⟩
  rw [hrun] at hq
  cases hq

end ParserMemory

end SystemProgramming.Shell
