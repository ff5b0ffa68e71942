import SystemProgramming.Chat.Client

/-!
# The lines of every client

What `_process_buffer` makes of the streams of several clients, against the lines of each client's
own stream.  At a line end the static buffer has in it what all the clients have received since
the last line end of any of them.
-/

open Fallible Lines
open SystemProgramming.Shell (isSpace newline)

namespace SystemProgramming.Chat

variable {κ : Type}

/-- All that has been received, in the order of the calls. -/
def received (calls : List (κ × List UInt8)) : List UInt8 := (calls.map Prod.snd).flatten

variable [DecidableEq κ]

/-- What one client has received. -/
def streamOf (client : κ) (calls : List (κ × List UInt8)) : List UInt8 :=
  received (calls.filter fun call => call.1 = client)

/-- The strings for which the branch is taken on behalf of a client. -/
def takenFor (client : κ) (calls : List (κ × List UInt8)) : Except Fault (List (List UInt8)) :=
  (processCalls .static calls).map fun r =>
    (r.2.filter fun message => message.1 = client).map Prod.snd

/-- A line as a message, unless it is empty when trimmed. -/
def lineMessage (line : List UInt8) : Option (List UInt8) :=
  if trimmed line = [] then none else some (trimmed line)

/-- The messages in a client's stream. -/
def messagesIn (stream : List UInt8) : List (List UInt8) :=
  (complete newline stream).filterMap lineMessage

/-- At a line end: `shared` is in the static buffer, and `own` is the line of the client.  Either
the two have the same text, of at least two bytes, or one byte of text is in the buffer and the
line has none. -/
def Agree (shared own : List UInt8) : Prop :=
  trimmed (kept shared) = trimmed own ∧ 2 ≤ (trimmed own).length ∨
    (trimmed (kept shared)).length = 1 ∧ trimmed own = []

omit [DecidableEq κ] in
theorem received_snoc (calls : List (κ × List UInt8)) (client : κ) (buffer : List UInt8) :
    received (calls ++ [(client, buffer)]) = received calls ++ buffer := by
  simp [received]

theorem streamOf_snoc (client c : κ) (calls : List (κ × List UInt8)) (buffer : List UInt8) :
    streamOf client (calls ++ [(c, buffer)]) =
      streamOf client calls ++ if c = client then buffer else [] := by
  unfold streamOf
  rw [List.filter_append]
  by_cases h : c = client
  · rw [if_pos h, List.filter_cons_of_pos (by simpa using h), List.filter_nil, received_snoc]
  · rw [if_neg h, List.filter_cons_of_neg (by simpa using h), List.filter_nil, List.append_nil,
      List.append_nil]

/-! ## One call -/

section Call

variable {shared own line buffer : List UInt8}

theorem kept_of_short (h : line.length ≤ bufferSize - 1) : kept line = line :=
  List.take_of_length_le h

theorem taken_of_long (h : line.length ≤ bufferSize - 1) (h2 : 2 ≤ (trimmed line).length) :
    taken line = some (trimmed line) := by
  rw [taken, kept_of_short h, if_neg (by omega)]

theorem lineMessage_of_long (h2 : 2 ≤ (trimmed line).length) :
    lineMessage line = some (trimmed line) := by
  have hne : trimmed line ≠ [] := by
    intro hnil
    rw [hnil] at h2
    exact absurd h2 (by decide)
  rw [lineMessage, if_neg hne]

/-- A client that shares the buffer with nobody only needs its lines to be long enough. -/
theorem agree_self (h : line.length ≤ bufferSize - 1) :
    Agree line line ↔ 2 ≤ (trimmed line).length := by
  rw [Agree, kept_of_short h]
  constructor
  · rintro (⟨-, h2⟩ | ⟨hone, hnil⟩)
    · exact h2
    · rw [hnil] at hone
      cases hone
  · intro h2
    exact .inl ⟨rfl, h2⟩

theorem agree_iff : Agree shared own ↔ taken shared = lineMessage own := by
  unfold Agree taken lineMessage
  -- The client takes no text of one byte, and the stream has no message on an empty line.
  by_cases hone : (trimmed (kept shared)).length = 1
  · rw [if_pos hone]
    by_cases hnil : trimmed own = []
    · rw [if_pos hnil]
      exact iff_of_true (.inr ⟨hone, hnil⟩) rfl
    · rw [if_neg hnil]
      apply iff_of_false
      · intro h
        rcases h with ⟨heq, h2⟩ | ⟨-, h⟩
        · rw [← heq] at h2
          omega
        · exact hnil h
      · intro h
        cases h
  · rw [if_neg hone]
    by_cases hnil : trimmed own = []
    · rw [if_pos hnil]
      apply iff_of_false
      · intro h
        rcases h with ⟨-, h2⟩ | ⟨h, -⟩
        · rw [hnil] at h2
          exact absurd h2 (by decide)
        · exact hone h
      · intro h
        cases h
    · rw [if_neg hnil, Option.some_inj]
      constructor
      · intro h
        rcases h with ⟨heq, -⟩ | ⟨h, -⟩
        · exact heq
        · exact absurd h hone
      · intro heq
        left
        refine ⟨heq, ?_⟩
        have hpos := List.length_pos_of_ne_nil hnil
        rw [heq] at hone
        omega

/-- The first line end of a call, and the others, at which the buffer has in it the line of the
client.  No message is empty and the code takes none of one byte, so a line that is not long enough
shows in the sequences of messages. -/
theorem first_and_later_iff {lines : List (List UInt8)}
    (hshort : ∀ l ∈ lines, l.length ≤ bufferSize - 1) :
    (taken shared).toList ++ lines.filterMap taken =
        (lineMessage own).toList ++ lines.filterMap lineMessage ↔
      Agree shared own ∧ ∀ l ∈ lines, 2 ≤ (trimmed l).length := by
  have hsame : (∀ l ∈ lines, 2 ≤ (trimmed l).length) →
      lines.filterMap taken = lines.filterMap lineMessage := by
    intro hlong
    apply List.filterMap_congr
    intro l hl
    rw [taken_of_long (hshort l hl) (hlong l hl), lineMessage_of_long (hlong l hl)]
  constructor
  · intro heq
    have htaken : ∀ l t, taken l = some t → t.length ≠ 1 := by
      intro l t ht
      unfold taken at ht
      by_cases hone : (trimmed (kept l)).length = 1
      · rw [if_pos hone] at ht
        cases ht
      · rw [if_neg hone, Option.some_inj] at ht
        rwa [← ht]
    have hmessage : ∀ l t, lineMessage l = some t → t ≠ [] := by
      intro l t ht
      unfold lineMessage at ht
      by_cases hnil : trimmed l = []
      · rw [if_pos hnil] at ht
        cases ht
      · rw [if_neg hnil, Option.some_inj] at ht
        rwa [← ht]
    have hone : ∀ t ∈ (taken shared).toList ++ lines.filterMap taken, t.length ≠ 1 := by
      intro t ht
      rcases List.mem_append.mp ht with ht | ht
      · exact htaken _ _ (Option.mem_toList.mp ht)
      · rcases List.mem_filterMap.mp ht with ⟨l, -, hl⟩
        exact htaken _ _ hl
    have hne : ∀ t ∈ (lineMessage own).toList ++ lines.filterMap lineMessage, t ≠ [] := by
      intro t ht
      rcases List.mem_append.mp ht with ht | ht
      · exact hmessage _ _ (Option.mem_toList.mp ht)
      · rcases List.mem_filterMap.mp ht with ⟨l, -, hl⟩
        exact hmessage _ _ hl
    have hlong : ∀ l ∈ lines, 2 ≤ (trimmed l).length := by
      intro l hl
      by_contra hlt
      by_cases hnil : trimmed l = []
      · -- taken as an empty message
        have ht : taken l = some [] := by
          rw [taken, kept_of_short (hshort l hl), hnil]
          rfl
        apply hne []
        · rw [← heq]
          exact List.mem_append_right _ (List.mem_filterMap.mpr ⟨l, hl, ht⟩)
        · rfl
      · -- not taken, but a message
        have hpos := List.length_pos_of_ne_nil hnil
        have ht : lineMessage l = some (trimmed l) := by
          rw [lineMessage, if_neg hnil]
        apply hone (trimmed l)
        · rw [heq]
          exact List.mem_append_right _ (List.mem_filterMap.mpr ⟨l, hl, ht⟩)
        · omega
    refine ⟨?_, hlong⟩
    rw [hsame hlong] at heq
    apply agree_iff.mpr
    have hlist := List.append_cancel_right heq
    cases hshared : taken shared with
    | none =>
      rw [hshared, Option.toList_none] at hlist
      exact (Option.toList_eq_nil_iff.mp hlist.symm).symm
    | some t =>
      rw [hshared, Option.toList_some] at hlist
      exact (Option.toList_eq_singleton_iff.mp hlist.symm).symm
  · rintro ⟨hfirst, hlong⟩
    rw [agree_iff.mp hfirst, hsame hlong]

theorem filterMap_cons_toList {f : List UInt8 → Option (List UInt8)} (l : List UInt8)
    (lines : List (List UInt8)) :
    (l :: lines).filterMap f = (f l).toList ++ lines.filterMap f := by
  cases h : f l with
  | none => rw [List.filterMap_cons_none h]; rfl
  | some t => rw [List.filterMap_cons_some h]; rfl

/-- A call takes the messages of the client's lines if and only if the static buffer agrees with
the line of the client at every line end. -/
theorem call_iff (hshort : ∀ l ∈ (cut newline own buffer).1, l.length ≤ bufferSize - 1) :
    (cut newline shared buffer).1.filterMap taken =
        (cut newline own buffer).1.filterMap lineMessage ↔
      ∀ u v, buffer = u ++ newline :: v → Agree (cut newline shared u).2 (cut newline own u).2 := by
  induction buffer generalizing shared own with
  | nil =>
    apply iff_of_true rfl
    intro u v h
    simp at h
  | cons b buffer ih =>
    by_cases hb : b = newline
    · subst hb
      simp only [cut_sep, List.forall_mem_cons] at hshort
      rw [cut_sep, cut_sep, filterMap_cons_toList, filterMap_cons_toList,
        first_and_later_iff hshort.2]
      -- Only the first line of the call has the kept part of an earlier call in front of it.
      constructor
      · rintro ⟨hfirst, hlong⟩ u v huv
        cases u with
        | nil => exact hfirst
        | cons c u =>
          obtain ⟨rfl, hs⟩ := List.cons.inj huv
          rw [cut_sep, cut_sep]
          apply (agree_self (forall_mem_complete.mp hshort.2 u v hs)).mpr
          exact forall_mem_complete.mp hlong u v hs
      · intro h
        refine ⟨h [] buffer rfl, ?_⟩
        refine (forall_mem_complete (P := fun l => 2 ≤ (trimmed l).length)).mpr fun u v huv => ?_
        have hagree := h (newline :: u) v (by rw [huv]; rfl)
        rw [cut_sep, cut_sep] at hagree
        exact (agree_self (forall_mem_complete.mp hshort.2 u v huv)).mp hagree
    · -- A byte of the line moves both parts on, and the lines after them are the same.
      rw [cut_ne hb] at hshort
      rw [cut_ne hb, cut_ne hb, ih hshort]
      constructor
      · intro h u v huv
        cases u with
        | nil => exact absurd (List.cons.inj huv).1 hb
        | cons c u =>
          obtain ⟨rfl, hs⟩ := List.cons.inj huv
          rw [cut_ne hb, cut_ne hb]
          exact h u v hs
      · intro h u v huv
        have hagree := h (b :: u) v (by rw [huv]; rfl)
        rw [cut_ne hb, cut_ne hb] at hagree
        exact hagree

end Call

/-! ## Runs of calls -/

section Runs

variable {calls : List (κ × List UInt8)} {client c : κ} {buffer : List UInt8}

omit [DecidableEq κ] in
theorem processCalls_snoc (m : MessageBuffer) (calls : List (κ × List UInt8)) (c : κ)
    (buffer : List UInt8) : processCalls m (calls ++ [(c, buffer)]) =
      processCalls m calls >>= fun r => processBuffer r.1 buffer >>= fun q =>
        pure (q.1, r.2 ++ q.2.map fun message => (c, message)) := by
  induction calls generalizing m with
  | nil =>
    simp only [List.nil_append, processCalls, pure_eq_ok, ok_bind, List.append_nil]
  | cons call calls ih =>
    rw [List.cons_append, processCalls, processCalls]
    cases processBuffer m call.2 with
    | error f => rfl
    | ok q =>
      simp only [ok_bind, ih]
      cases processCalls q.1 calls with
      | error f => rfl
      | ok r =>
        simp only [ok_bind, pure_eq_ok]
        cases processBuffer r.1 buffer with
        | error f => rfl
        | ok t => simp only [ok_bind, List.append_assoc]

omit [DecidableEq κ] in
/-- Without zero bytes nothing goes out of bounds, and the static buffer has in it what has come
since the last line end. -/
theorem processCalls_holds (hzero : ∀ call ∈ calls, 0 ∉ call.2) :
    ∃ m out, processCalls .static calls = .ok (m, out) ∧
      m.Holds (unfinished newline (received calls)) ∧
      0 ∉ unfinished newline (received calls) := by
  induction calls using List.reverseRecOn with
  | nil => exact ⟨_, [], rfl, static_holds, List.not_mem_nil⟩
  | append_singleton calls call ih =>
    rcases ih (fun d hd => hzero d (List.mem_append_left _ hd)) with ⟨m, out, hrun, hm, hline⟩
    have hbuffer : 0 ∉ call.2 := hzero call (by simp)
    rcases processBuffer_eq hm hline hbuffer with ⟨m', hcall, hm'⟩
    have hnext := processCalls_snoc .static calls call.1 call.2
    rw [hrun, ok_bind, hcall, ok_bind] at hnext
    refine ⟨m', _, hnext, ?_, ?_⟩
    · rw [received_snoc, unfinished_append]
      exact hm'
    · rw [received_snoc, unfinished_append]
      intro hmem
      rcases mem_cut (.inr hmem) with h | h
      · exact hline h
      · exact hbuffer h

/-- What one more call adds to the messages of a client. -/
theorem takenFor_snoc (client : κ) (hzero : ∀ call ∈ calls, 0 ∉ call.2) (hbuffer : 0 ∉ buffer) :
    ∃ messages, takenFor client calls = .ok messages ∧
      takenFor client (calls ++ [(c, buffer)]) = .ok (messages ++ if c = client then
        (cut newline (unfinished newline (received calls)) buffer).1.filterMap taken else []) := by
  rcases processCalls_holds hzero with ⟨m, out, hrun, hm, hline⟩
  rcases processBuffer_eq hm hline hbuffer with ⟨m', hcall, -⟩
  unfold takenFor
  rw [processCalls_snoc, hrun, ok_bind, hcall]
  refine ⟨_, rfl, ?_⟩
  simp only [ok_bind, pure_eq_ok, Except.map, List.filter_append, List.map_append, List.filter_map,
    List.map_map]
  by_cases hc : c = client
  · subst hc
    simp [Function.comp_def]
  · simp [hc, Function.comp_def]

theorem messagesIn_snoc (client c : κ) (calls : List (κ × List UInt8)) (buffer : List UInt8) :
    messagesIn (streamOf client (calls ++ [(c, buffer)])) =
      messagesIn (streamOf client calls) ++ if c = client then
        (cut newline (unfinished newline (streamOf client calls)) buffer).1.filterMap lineMessage
      else [] := by
  unfold messagesIn
  rw [streamOf_snoc, complete_append, List.filterMap_append]
  by_cases hc : c = client
  · rw [if_pos hc, if_pos hc]
  · rw [if_neg hc, if_neg hc]
    rfl

/-- Every client has got the messages of its own stream. -/
def SplitsLines (calls : List (κ × List UInt8)) : Prop :=
  ∀ client, takenFor client calls = .ok (messagesIn (streamOf client calls))

/-- One more call keeps it so if and only if the static buffer agrees with the line of the client
at every line end of the call. -/
theorem splitsLines_snoc_iff (h : SplitsLines calls) (hzero : ∀ call ∈ calls, 0 ∉ call.2)
    (hbuffer : 0 ∉ buffer)
    (hshort : ∀ l ∈ complete newline (streamOf c (calls ++ [(c, buffer)])),
      l.length ≤ bufferSize - 1) :
    SplitsLines (calls ++ [(c, buffer)]) ↔ ∀ u v, buffer = u ++ newline :: v →
      Agree (unfinished newline (received calls ++ u)) (unfinished newline (streamOf c calls ++ u)) := by
  have hcall : ∀ l ∈ (cut newline (unfinished newline (streamOf c calls)) buffer).1,
      l.length ≤ bufferSize - 1 := by
    intro l hl
    apply hshort
    rw [streamOf_snoc, if_pos rfl, complete_append]
    exact List.mem_append_right _ hl
  simp only [unfinished_append]
  rw [← call_iff hcall]
  constructor
  · intro hnext
    -- Only the messages of the client that was served grow.
    rcases takenFor_snoc (c := c) c hzero hbuffer with ⟨messages, hbefore, hafter⟩
    rw [h c] at hbefore
    rw [hnext c, messagesIn_snoc, if_pos rfl, if_pos rfl] at hafter
    obtain rfl := Except.ok.inj hbefore
    exact (List.append_cancel_left (Except.ok.inj hafter)).symm
  · intro heq client
    rcases takenFor_snoc (c := c) client hzero hbuffer with ⟨messages, hbefore, hafter⟩
    rw [h client] at hbefore
    obtain rfl := Except.ok.inj hbefore
    rw [hafter, messagesIn_snoc]
    by_cases hc : c = client
    · subst hc
      rw [if_pos rfl, if_pos rfl, heq]
    · rw [if_neg hc, if_neg hc]

/-- For streams without zero bytes and with lines that fit the static buffer, however they are cut
into calls and interleaved: after every call the strings taken on behalf of every client are the
lines of its own stream, trimmed and without those that are empty then, if and only if at every
line end the static buffer agrees with the line of the client that receives it. -/
theorem clients_split_iff (hzero : ∀ call ∈ calls, 0 ∉ call.2)
    (hshort : ∀ client, ∀ l ∈ complete newline (streamOf client calls),
      l.length ≤ bufferSize - 1) :
    (∀ before, before <+: calls → SplitsLines before) ↔
      ∀ before client u v, before ++ [(client, u ++ newline :: v)] <+: calls →
        Agree (unfinished newline (received before ++ u))
          (unfinished newline (streamOf client before ++ u)) := by
  have hpart : ∀ before c buffer, before ++ [(c, buffer)] <+: calls →
      (∀ call ∈ before, 0 ∉ call.2) ∧ 0 ∉ buffer ∧
      ∀ l ∈ complete newline (streamOf c (before ++ [(c, buffer)])), l.length ≤ bufferSize - 1 := by
    intro before c buffer hpre
    refine ⟨fun call hcall => ?_, ?_, fun l hl => ?_⟩
    · exact hzero call (hpre.subset (List.mem_append_left _ hcall))
    · exact hzero (c, buffer) (hpre.subset (by simp))
    · rcases hpre with ⟨more, rfl⟩
      apply hshort c
      unfold streamOf received at *
      rw [List.filter_append _ more, List.map_append, List.flatten_append, complete_append]
      exact List.mem_append_left _ hl
  constructor
  · intro hall before client u v hpre
    rcases hpart _ _ _ hpre with ⟨hbefore, hbuffer, hlines⟩
    have hsplit := hall before ((List.prefix_append _ _).trans hpre)
    exact (splitsLines_snoc_iff hsplit hbefore hbuffer hlines).mp (hall _ hpre) u v rfl
  · intro hagree before
    -- call by call, from empty streams on
    induction before using List.reverseRecOn with
    | nil => exact fun _ client => rfl
    | append_singleton before call ih =>
      intro hpre
      rcases hpart before call.1 call.2 hpre with ⟨hbefore, hbuffer, hlines⟩
      have hsplit := ih ((List.prefix_append _ _).trans hpre)
      apply (splitsLines_snoc_iff hsplit hbefore hbuffer hlines).mpr
      intro u v huv
      apply hagree before call.1 u v
      rw [← huv]
      exact hpre

end Runs

/-- Two clients, of which one receives a line in two calls. -/
def twoClients : List (Fin 2 × List UInt8) :=
  [(0, [104, 105, 10, 32, 111]), (0, [107, 32, 10]), (1, [121, 101, 115, 10])]

theorem clients_split_iff_two :
    (∀ before, before <+: twoClients → SplitsLines before) ↔
      ∀ before client u v, before ++ [(client, u ++ newline :: v)] <+: twoClients →
        Agree (unfinished newline (received before ++ u))
          (unfinished newline (streamOf client before ++ u)) :=
  clients_split_iff (by decide) (by decide)

/-- The line `a`. -/
def oneByteLine : List (Fin 2 × List UInt8) := [(0, [97, 10])]

/-- A line of two spaces. -/
def blankLine : List (Fin 2 × List UInt8) := [(0, [32, 32, 10])]

/-- `ab` for one client, `cd` and a line end for the other, and then the line end for the first. -/
def interleaved : List (Fin 2 × List UInt8) := [(0, [97, 98]), (1, [99, 100, 10]), (0, [10])]

/-- A line of one byte is lost, a blank line is taken, and the beginning of a line is taken for
that of another client. -/
theorem lines_not_split :
    takenFor 0 oneByteLine = .ok [] ∧ messagesIn (streamOf 0 oneByteLine) = [[97]] ∧
    takenFor 0 blankLine = .ok [[]] ∧ messagesIn (streamOf 0 blankLine) = [] ∧
    takenFor 1 interleaved = .ok [[97, 98, 99, 100]] ∧
    messagesIn (streamOf 1 interleaved) = [[99, 100]] ∧
    ¬ ∀ calls : List (Fin 2 × List UInt8), (∀ call ∈ calls, 0 ∉ call.2) →
      (∀ client, ∀ l ∈ complete newline (streamOf client calls), l.length ≤ bufferSize - 1) →
      SplitsLines calls := by
  have hlost : takenFor 0 oneByteLine = .ok [] := by decide +kernel
  refine ⟨hlost, by decide +kernel, by decide +kernel, by decide +kernel, by decide +kernel,
    by decide +kernel, fun hall => ?_⟩
  have hsplit := hall oneByteLine (by decide) (by decide) 0
  rw [hlost] at hsplit
  revert hsplit
  decide +kernel

end SystemProgramming.Chat
