import SystemProgramming.Shell.Grammar

/-!
# Words of several segments

A word may be written as bare bytes, quoted strings and escaped bytes with nothing between them.
`parse_token` ends the word at the first closing quote, and at a `#` inside of it, so only some of
these words are read as one.
-/

namespace SystemProgramming.Shell

/-- A byte that may be written as it is, except for a `#` at the start of a word. -/
def isBare (c : UInt8) : Bool :=
  !(isSpace c || isQuote c || c == backslash || isOperator c)

inductive Segment
  | bare (w : List UInt8) (ne_nil : w ≠ []) (bare : ∀ c ∈ w, isBare c = true)
  | quoted (q : UInt8) (w e : List UInt8) (quote : isQuote q = true) (means : Quoted q w e)
  | escaped (c : UInt8) (ne_newline : c ≠ newline)

def Segment.bytes : Segment → List UInt8
  | .bare w _ _ => w
  | .quoted q w _ _ _ => q :: (w ++ [q])
  | .escaped c _ => [backslash, c]

def Segment.value : Segment → List UInt8
  | .bare w _ _ => w
  | .quoted _ _ e _ _ => e
  | .escaped c _ => [c]

def bytesOf (segments : List Segment) : List UInt8 := segments.flatMap Segment.bytes

def valueOf (segments : List Segment) : List UInt8 := segments.flatMap Segment.value

/-- A word that is written segment by segment. -/
structure SegmentedWord where
  segments : List Segment
  value_ne_nil : valueOf segments ≠ []
  no_comment : (bytesOf segments).head? ≠ some hash

/-- White space or an operator. -/
def endsSegments (c : UInt8) : Bool := isSpace c || isOperator c

/-- `parse_token` returns the value of the word, and consumes the word and at most the blank that
ends it. -/
def ReadsWord (word : SegmentedWord) (c : UInt8) (rest : List UInt8) : Prop :=
  ∃ used, parseToken (bytesOf word.segments ++ c :: rest) =
      .ok (some (used, ⟨.str, valueOf word.segments⟩)) ∧
    (used = (bytesOf word.segments).length ∨
      isBlank c = true ∧ used = (bytesOf word.segments).length + 1)

/-- Nothing follows a quoted segment but the end of the word, no bare segment has a `#`, and a word
that does not end with a quote ends at a byte that `parse_token` takes for its end. -/
def ReadsOn (c : UInt8) : List Segment → Prop
  | [] => isBlank c = true ∨ endsWord c = true
  | .bare w _ _ :: segments => hash ∉ w ∧ ReadsOn c segments
  | .escaped _ _ :: segments => ReadsOn c segments
  | .quoted _ _ _ _ _ :: segments => segments = []

/-! ## Segments -/

@[simp] theorem bytesOf_nil : bytesOf [] = [] := rfl

@[simp] theorem valueOf_nil : valueOf [] = [] := rfl

@[simp] theorem bytesOf_cons (s : Segment) (segments : List Segment) :
    bytesOf (s :: segments) = s.bytes ++ bytesOf segments := List.flatMap_cons

@[simp] theorem valueOf_cons (s : Segment) (segments : List Segment) :
    valueOf (s :: segments) = s.value ++ valueOf segments := List.flatMap_cons

theorem Segment.bytes_pos (s : Segment) : 0 < s.bytes.length := by
  cases s with
  | bare w ne_nil _ => exact List.length_pos_iff.mpr ne_nil
  | quoted q w _ _ _ => exact Nat.succ_pos _
  | escaped c _ => exact Nat.succ_pos _

theorem bytesOf_pos {segments : List Segment} (h : segments ≠ []) :
    0 < (bytesOf segments).length := by
  obtain ⟨s, segments, rfl⟩ := List.exists_cons_of_ne_nil h
  rw [bytesOf_cons, List.length_append]
  exact Nat.lt_of_lt_of_le s.bytes_pos (Nat.le_add_right _ _)

/-- A bare byte stands for itself, unless it is a `#`. -/
theorem isPlain_of_bare {c : UInt8} (h : isBare c = true) (hne : c ≠ hash) : isPlain c = true := by
  rcases byte_cases c with hc | hc | rfl | hc | rfl | hc | rfl
  · exact hc
  · simp [isBare, hc] at h
  · exact absurd h (by decide)
  · simp [isBare, blank_isSpace hc] at h
  · exact absurd h (by decide)
  · simp [isBare, hc] at h
  · exact absurd rfl hne

/-- What ends a word, if `parse_token` does not see it, is taken for a part of it. -/
theorem isPlain_of_ends {c : UInt8} (h : endsSegments c = true) (hblank : isBlank c ≠ true)
    (hends : endsWord c ≠ true) : isPlain c = true := by
  rcases byte_cases c with hc | hc | rfl | hc | rfl | hc | rfl
  · exact hc
  · rcases quote_cases hc with rfl | rfl
    · exact absurd h (by decide)
    · exact absurd h (by decide)
  · exact absurd h (by decide)
  · exact absurd hc hblank
  · exact absurd (by decide) hends
  · simp [endsWord, hc] at hends
  · exact absurd h (by decide)

/-! ## Scanning -/

section

variable {c : UInt8} {d rest : List UInt8} (u : Nat)

theorem scan_plains {w : List UInt8} (h : ∀ b ∈ w, isPlain b = true) (s : List UInt8) :
    scanToken 0 d u (w ++ s) = scanToken 0 (d ++ w) (u + w.length) s := by
  induction w generalizing d u with
  | nil => rw [List.nil_append, List.append_nil, List.length_nil, Nat.add_zero]
  | cons b w ih =>
    rw [List.cons_append, scan_plain u (h b List.mem_cons_self),
      ih _ fun x hx => h x (List.mem_cons_of_mem b hx), List.append_assoc, List.singleton_append,
      List.length_cons, Nat.add_assoc, Nat.add_comm 1]

/-- What is in the word stays in it. -/
theorem Body.prefix_data {w r : List UInt8} {t : Token} (h : Body d w r t) (ht : t.type = .str) :
    d <+: t.data := by
  induction h with
  | join _ ih => exact ih ht
  | escape _ _ ih => exact (List.prefix_append _ _).trans (ih ht)
  | plain _ _ ih => exact (List.prefix_append _ _).trans (ih ht)
  | quoted => exact List.prefix_append _ _
  | blank => exact List.prefix_refl _
  | stop => exact List.prefix_refl _
  | comment => exact List.nil_prefix
  | doubled => exact List.nil_prefix
  | single => exact List.nil_prefix

theorem scan_prefix_data {s e : List UInt8} {n : Nat}
    (h : scanToken 0 d u s = .ok (some (n, ⟨.str, e⟩))) : d <+: e := by
  rcases body_or_gap_or_open s.length s d (le_refl _) with ⟨w, r, t, rfl, hb⟩ | ⟨rfl, -⟩ | hopen
  · rw [scan_of_body hb u] at h
    have ht : t = ⟨.str, e⟩ := (Prod.mk.inj (Option.some.inj (Except.ok.inj h))).2
    have hprefix := hb.prefix_data (by rw [ht])
    rwa [ht] at hprefix
  · exact List.nil_prefix
  · rw [hopen] at h
    cases h

/-- The word so far is `d`, and the segments are still to come. -/
def ReadsFrom (c : UInt8) (d rest : List UInt8) (u : Nat) (segments : List Segment) : Prop :=
  ∃ used, scanToken 0 d u (bytesOf segments ++ c :: rest) =
      .ok (some (used, ⟨.str, d ++ valueOf segments⟩)) ∧
    (used = u + (bytesOf segments).length ∨
      isBlank c = true ∧ used = u + (bytesOf segments).length + 1)

/-- A token that ends before the word does. -/
theorem not_readsFrom_of_short {segments : List Segment} {n : Nat} {t : Token}
    (h : scanToken 0 d u (bytesOf segments ++ c :: rest) = .ok (some (n, t)))
    (hn : n < u + (bytesOf segments).length) : ¬ ReadsFrom c d rest u segments := by
  rintro ⟨used, hscan, hused⟩
  rw [h] at hscan
  have heq : n = used := (Prod.mk.inj (Option.some.inj (Except.ok.inj hscan))).1
  rcases hused with hused | ⟨-, hused⟩
  · omega
  · omega

theorem readsFrom_nil (hends : endsSegments c = true) (hd : d ≠ []) :
    ReadsFrom c d rest u [] ↔ ReadsOn c [] := by
  unfold ReadsFrom ReadsOn
  simp only [bytesOf_nil, valueOf_nil, List.nil_append, List.append_nil, List.length_nil,
    Nat.add_zero]
  by_cases hblank : isBlank c = true
  · exact ⟨fun _ => .inl hblank, fun _ => ⟨_, scan_blank u hblank hd, .inr ⟨hblank, rfl⟩⟩⟩
  by_cases hstop : endsWord c = true
  · exact ⟨fun _ => .inr hstop, fun _ => ⟨_, scan_stop u hstop hd, .inl rfl⟩⟩
  · -- The byte becomes a part of the word.
    refine ⟨?_, fun h => absurd h (not_or.mpr ⟨hblank, hstop⟩)⟩
    rintro ⟨used, hscan, -⟩
    rw [scan_plain u (isPlain_of_ends hends hblank hstop)] at hscan
    have hlength := (scan_prefix_data _ hscan).length_le
    rw [List.length_append, List.length_singleton] at hlength
    omega

/-- One segment more, of bytes that stand for themselves or are escaped. -/
theorem readsFrom_cons {s : Segment} {segments : List Segment}
    (h : ∀ r, scanToken 0 d u (s.bytes ++ r) = scanToken 0 (d ++ s.value) (u + s.bytes.length) r) :
    ReadsFrom c d rest u (s :: segments) ↔
      ReadsFrom c (d ++ s.value) rest (u + s.bytes.length) segments := by
  unfold ReadsFrom
  rw [bytesOf_cons, valueOf_cons, List.append_assoc, h, List.append_assoc, List.length_append,
    ← Nat.add_assoc]

theorem readsFrom_iff (hends : endsSegments c = true) {segments : List Segment}
    (hstart : d ≠ [] ∨ valueOf segments ≠ [] ∧ (bytesOf segments).head? ≠ some hash) :
    ReadsFrom c d rest u segments ↔ ReadsOn c segments := by
  induction segments generalizing d u with
  | nil => exact readsFrom_nil u hends (hstart.resolve_right fun h => h.1 rfl)
  | cons s segments ih =>
    cases s with
    | bare w ne_nil bare =>
      rw [ReadsOn]
      by_cases hhash : hash ∈ w
      · -- The word ends before the first `#`.
        obtain ⟨w₁, w₂, rfl, hw₁⟩ := List.eq_append_cons_of_mem hhash
        refine ⟨fun hreads => absurd hreads ?_, fun h => absurd hhash h.1⟩
        have hplain : ∀ b ∈ w₁, isPlain b = true := fun b hb =>
          isPlain_of_bare (bare b (List.mem_append_left _ hb)) fun heq => hw₁ (heq ▸ hb)
        have hdata : d ++ w₁ ≠ [] := by
          rcases hstart with hd | ⟨-, hhead⟩
          · exact List.append_ne_nil_of_left_ne_nil hd w₁
          · refine List.append_ne_nil_of_right_ne_nil d fun hnil => hhead ?_
            subst hnil
            rfl
        refine not_readsFrom_of_short (n := u + w₁.length) u (t := ⟨.str, d ++ w₁⟩) ?_ ?_
        · rw [bytesOf_cons, Segment.bytes, List.append_assoc, List.append_assoc,
            scan_plains u hplain, List.cons_append, scan_stop _ (by decide) hdata]
        · rw [bytesOf_cons, Segment.bytes, List.length_append, List.length_append, List.length_cons]
          omega
      · have hplain : ∀ b ∈ w, isPlain b = true := fun b hb =>
          isPlain_of_bare (bare b hb) fun heq => hhash (heq ▸ hb)
        -- plain bytes only, so the scan goes on with the next segment
        have hnext : d ++ (Segment.bare w ne_nil bare).value ≠ [] :=
          List.append_ne_nil_of_right_ne_nil d ne_nil
        rw [readsFrom_cons u (scan_plains u hplain), ih _ (.inl hnext)]
        exact (and_iff_right hhash).symm
    | escaped b ne_newline =>
      -- the byte after the backslash is taken as it is
      have hnext : d ++ (Segment.escaped b ne_newline).value ≠ [] :=
        List.append_ne_nil_of_right_ne_nil d (List.cons_ne_nil b [])
      rw [ReadsOn, readsFrom_cons u fun r => scan_escape u ne_newline, ih _ (.inl hnext)]
    | quoted q w e quote means =>
      have hscan : ∀ r, scanToken 0 d u (q :: (w ++ [q]) ++ r) =
          .ok (some (u + w.length + 2, ⟨.str, d ++ e⟩)) := by
        intro r
        rw [List.cons_append, List.append_assoc, List.singleton_append, scan_open u quote,
          scan_of_quoted quote means, Nat.add_right_comm u 1]
      rw [ReadsOn]
      -- the scan stops at the closing quote, so nothing may come after it
      by_cases hlast : segments = []
      · subst hlast
        refine ⟨fun _ => rfl, fun _ => ⟨u + w.length + 2, ?_, .inl ?_⟩⟩
        · rw [bytesOf_cons, bytesOf_nil, List.append_nil, valueOf_cons, valueOf_nil,
            List.append_nil]
          exact hscan _
        · simp [Segment.bytes, Nat.add_assoc]
      · refine ⟨fun hreads => absurd hreads ?_, fun h => absurd h hlast⟩
        have hpos := bytesOf_pos hlast
        refine not_readsFrom_of_short u (n := u + w.length + 2) (t := ⟨.str, d ++ e⟩) ?_ ?_
        · rw [bytesOf_cons, List.append_assoc]
          exact hscan _
        · simp only [bytesOf_cons, Segment.bytes, List.length_append, List.length_cons,
            List.length_nil]
          omega

end

/-- The first byte of a word is no white space. -/
theorem head_not_space {segments : List Segment} {s : List UInt8} (hne : segments ≠ []) :
    ∀ b ∈ (bytesOf segments ++ s).head?, isSpace b = false := by
  obtain ⟨x, segments, rfl⟩ := List.exists_cons_of_ne_nil hne
  intro b hb
  rw [bytesOf_cons, List.append_assoc] at hb
  cases x with
  | bare w ne_nil bare =>
    obtain ⟨a, w, rfl⟩ := List.exists_cons_of_ne_nil ne_nil
    cases hb
    have hbare := bare b List.mem_cons_self
    simp only [isBare, Bool.not_eq_true', Bool.or_eq_false_iff] at hbare
    exact hbare.1.1.1
  | quoted q w e quote means =>
    cases hb
    rcases quote_cases quote with rfl | rfl
    · decide
    · decide
  | escaped a _ =>
    cases hb
    decide

/-- A word is read as one exactly if it has no quoted segment but the last one and no `#`, and ends
with a quote or at a byte other than a vertical tab and a form feed. -/
theorem readsWord_iff (word : SegmentedWord) {c : UInt8} (hends : endsSegments c = true)
    (rest : List UInt8) : ReadsWord word c rest ↔ ReadsOn c word.segments := by
  have hne : word.segments ≠ [] := fun hnil => word.value_ne_nil (by rw [hnil]; rfl)
  have hiff : ReadsFrom c [] rest 0 word.segments ↔ ReadsOn c word.segments :=
    readsFrom_iff 0 hends (.inr ⟨word.value_ne_nil, word.no_comment⟩)
  rw [← hiff]
  unfold ReadsWord ReadsFrom parseToken
  rw [parseTokenFrom_body (head_not_space hne)]
  simp only [List.nil_append, Nat.zero_add]

/-- A bare segment of one byte. -/
def bareByte (b : UInt8) (h : isBare b = true) : Segment :=
  .bare [b] (List.cons_ne_nil b []) fun c hc => by rwa [List.mem_singleton.mp hc]

/-- `a\ b`. -/
def escapedWord : SegmentedWord where
  segments := [bareByte 97 (by decide), .escaped space (by decide), bareByte 98 (by decide)]
  value_ne_nil := List.cons_ne_nil _ _
  no_comment := fun h => absurd (Option.some.inj h) (by decide)

theorem readsWord_iff_escaped : ReadsWord escapedWord space [] ↔ ReadsOn space escapedWord.segments :=
  readsWord_iff escapedWord (by decide) []

/-- `"a"b`. -/
def mixedWord : SegmentedWord where
  segments := [.quoted doubleQuote [97] [97] (by decide)
      (.plain (by decide) (fun _ => by decide) .nil),
    bareByte 98 (by decide)]
  value_ne_nil := List.cons_ne_nil _ _
  no_comment := fun h => absurd (Option.some.inj h) (by decide)

/-- The word ends at its closing quote. -/
theorem mixedWord_split : ¬ ReadsWord mixedWord space [] := by
  rintro ⟨used, hparse, -⟩
  have hfirst : parseToken (bytesOf mixedWord.segments ++ [space]) = .ok (some (3, ⟨.str, [97]⟩)) := by
    decide
  rw [hfirst] at hparse
  have hdata := (Prod.mk.inj (Option.some.inj (Except.ok.inj hparse))).2
  cases hdata

end SystemProgramming.Shell
