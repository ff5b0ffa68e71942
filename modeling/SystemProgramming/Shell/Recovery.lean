import SystemProgramming.Shell.Line

/-!
# Recovery from errors

The first logical line of a list of tokens ends with the first newline after another token.  A call
that returns a line or an error should take exactly the first logical line, and the empty lines
before it, out of the buffer.
-/

namespace SystemProgramming.Shell

/-- The position after the first newline that follows another token. -/
def firstLine (k : Nat) : List Item → Option Nat
  | [] => none
  | (n, t) :: ts => if t.type = .newLine then firstLine (k + n) ts else lineEnd (k + n) ts

/-- A call takes the first logical line if there is one, and otherwise waits for it. -/
def TakesFirstLine (p : Parser) (ts : List Item) : Prop :=
  match firstLine 0 ts with
  | some n => ∃ err line, ¬ (err = .none ∧ line = none) ∧
      parserPopNext p = .ok ({ p with buffer := p.buffer.drop n }, err, line)
  | none => parserPopNext p = .ok (p, .none, none)

/-- The first line redirects to its own newline. -/
def BareRedirect (ts : List Item) : Prop :=
  ∃ us vs, ts = us ++ vs ∧ AtBareRedirect (us.map Prod.snd)

/-! ## The first line of tokens of a known shape -/

theorem lineEnd_append {us : List Item} (h : ∀ t ∈ us.map Prod.snd, t.type ≠ .newLine) (k : Nat)
    (vs : List Item) : lineEnd k (us ++ vs) = lineEnd (k + width us) vs := by
  induction us generalizing k with
  | nil => rfl
  | cons nt us ih =>
    have hnl : nt.2.type ≠ .newLine := h nt.2 (by simp)
    have hrest : ∀ t ∈ us.map Prod.snd, t.type ≠ .newLine := fun t ht => h t (by simp [ht])
    rw [List.cons_append, lineEnd, if_neg hnl, ih hrest, width_cons, Nat.add_assoc]

theorem firstLine_blankLines {us : List Item} {j : Nat} (h : us.map Prod.snd = blankLines j)
    (k : Nat) (vs : List Item) : firstLine k (us ++ vs) = firstLine (k + width us) vs := by
  induction us generalizing j k with
  | nil => rfl
  | cons nt us ih =>
    cases j with
    | zero => cases h
    | succ j =>
      have hsplit := List.cons.inj h
      have hnl : nt.2.type = .newLine := by
        rw [hsplit.1]
        rfl
      rw [List.cons_append, firstLine, if_pos hnl, ih hsplit.2, width_cons, Nat.add_assoc]

theorem not_newLine_of_plain {ts : List Token} (hplain : ∀ t ∈ ts, t.Plain)
    (h : newLineToken ∉ ts) : ∀ t ∈ ts, t.type ≠ .newLine := by
  intro t ht hnl
  have heq : t = newLineToken := (hplain t ht).eq hnl (by decide)
  exact h (heq ▸ ht)

/-- After the first token of a line that is not empty, only its newline is looked for. -/
theorem firstLine_started {us : List Item} {j : Nat} {ts : List Token}
    (h : us.map Prod.snd = blankLines j ++ ts) (hplain : ∀ t ∈ us.map Prod.snd, t.Plain)
    (hts : newLineToken ∉ ts) (hne : ts ≠ []) (vs : List Item) :
    firstLine 0 (us ++ vs) = lineEnd (width us) vs := by
  rcases map_snd_append h with ⟨us₁, us₂, rfl, h₁, h₂⟩
  cases us₂ with
  | nil => exact absurd h₂.symm hne
  | cons nt us₂ =>
    have hmap : ∀ t ∈ (nt :: us₂).map Prod.snd, t.type ≠ .newLine := by
      rw [h₂]
      refine not_newLine_of_plain (fun t ht => hplain t ?_) hts
      rw [h]
      exact List.mem_append_right _ ht
    rw [List.append_assoc, firstLine_blankLines h₁, List.cons_append, firstLine,
      if_neg (hmap nt.2 (by simp)), lineEnd_append (fun t ht => hmap t (by simp [ht])),
      width_append, width_cons]
    congr 1
    omega

/-- A line with its newline. -/
theorem firstLine_ended {us : List Item} {j : Nat} {ts : List Token}
    (h : us.map Prod.snd = blankLines j ++ ts ++ [newLineToken])
    (hplain : ∀ t ∈ us.map Prod.snd, t.Plain) (hts : newLineToken ∉ ts) (hne : ts ≠ [])
    (vs : List Item) : firstLine 0 (us ++ vs) = some (width us) := by
  rcases map_snd_append h with ⟨us₁, us₂, rfl, h₁, h₂⟩
  rcases map_snd_cons h₂ with ⟨n, us₃, rfl, hnil⟩
  obtain rfl : us₃ = [] := List.map_eq_nil_iff.mp hnil
  have hplain₁ : ∀ t ∈ us₁.map Prod.snd, t.Plain := by
    intro t ht
    exact hplain t (by rw [List.map_append]; exact List.mem_append_left _ ht)
  rw [List.append_assoc, firstLine_started h₁ hplain₁ hts hne, List.singleton_append, lineEnd,
    if_pos (show newLineToken.type = .newLine from rfl), width_append, width_cons, width_nil,
    Nat.add_zero]

theorem pipeline_tokens_ne_nil {l : Pipeline} (h : l ≠ .empty) : l.tokens ≠ [] := by
  rcases l with ⟨joined, last⟩
  cases last with
  | some c => simp [Pipeline.tokens, Simple.tokens]
  | none =>
    cases joined with
    | nil => exact absurd rfl h
    | cons c cs => simp [Pipeline.tokens, joinedTokens]

theorem firstLine_close {us : List Item} {l : Pipeline} {r : Option Redirect} {b : Bool}
    (h : AtClose l r b (us.map Prod.snd)) (hplain : ∀ t ∈ us.map Prod.snd, t.Plain)
    (vs : List Item) : firstLine 0 (us ++ vs) = some (width us) := by
  rcases h with ⟨hl, k, h⟩
  have hnewLine : newLineToken ∉ (r.map Redirect.tokens).getD [] ++
      (if b then [⟨.background, []⟩] else []) := by
    rcases r with _ | ⟨file⟩ | ⟨file⟩ <;> cases b <;>
      simp [Redirect.tokens, Word.token, newLineToken]
  have hne : l.tokens ++ ((r.map Redirect.tokens).getD [] ++
      (if b then [⟨.background, []⟩] else [])) ≠ [] := by
    by_cases hempty : l = .empty
    · rcases hl hempty with hr | rfl
      · rcases r with _ | ⟨file⟩ | ⟨file⟩
        · exact absurd rfl hr
        · simp [Redirect.tokens]
        · simp [Redirect.tokens]
      · simp
    · simp [pipeline_tokens_ne_nil hempty]
  have htokens : us.map Prod.snd = blankLines k ++ (l.tokens ++
      ((r.map Redirect.tokens).getD [] ++ (if b then [⟨.background, []⟩] else []))) ++
      [newLineToken] := by
    rw [h, closingTokens]
    simp only [List.append_assoc]
  refine firstLine_ended htokens hplain ?_ hne vs
  rw [List.mem_append, not_or]
  exact ⟨newLine_not_mem_pipeline l, hnewLine⟩

theorem firstLine_bareRedirect {us : List Item} (h : AtBareRedirect (us.map Prod.snd))
    (hplain : ∀ t ∈ us.map Prod.snd, t.Plain) (vs : List Item) :
    firstLine 0 (us ++ vs) = some (width us) := by
  rcases h with ⟨k, l, t, ht, h⟩
  have hne : newLineToken ≠ t := by
    rcases ht with rfl | rfl <;> decide
  have htokens : us.map Prod.snd = blankLines k ++ (l.tokens ++ [t]) ++ [newLineToken] := by
    rw [h]
    simp only [List.append_assoc, List.cons_append, List.nil_append]
  refine firstLine_ended htokens hplain ?_ (by simp) vs
  simpa using ⟨newLine_not_mem_pipeline l, hne⟩

theorem firstLine_skip {us vs : List Item} (h : Unfinished (us.map Prod.snd))
    (hplain : ∀ t ∈ us.map Prod.snd, t.Plain)
    (hfirst : ∀ k, us.map Prod.snd = blankLines k → vs = []) :
    firstLine 0 (us ++ vs) = lineEnd (width us) vs := by
  rcases h with ⟨k, ts, h, hts⟩
  by_cases hne : ts = []
  · rw [hne, List.append_nil] at h
    rw [hfirst k h, firstLine_blankLines h]
    rfl
  · exact firstLine_started h hplain hts hne vs

theorem lineEnd_bounds {k n : Nat} {ts : List Item} (hpos : ∀ nt ∈ ts, 0 < nt.1)
    (h : lineEnd k ts = some n) : k < n ∧ n ≤ k + width ts := by
  induction ts generalizing k with
  | nil => cases h
  | cons nt ts ih =>
    have hn := hpos nt (by simp)
    rw [width_cons]
    unfold lineEnd at h
    by_cases hnl : nt.2.type = .newLine
    · rw [if_pos hnl] at h
      cases h
      omega
    · rw [if_neg hnl] at h
      have hrest := ih (fun mu hmu => hpos mu (by simp [hmu])) h
      omega

theorem Stream.pos {s : List UInt8} {ts : List Item} {e : Option Fault} (h : Stream s ts e) :
    ∀ nt ∈ ts, 0 < nt.1 := by
  induction h with
  | more => simp
  | stuck => simp
  | token hs _ ih =>
    intro nt hnt
    rw [List.mem_cons] at hnt
    rcases hnt with rfl | hnt
    · exact (parseToken_used hs).1
    · exact ih nt hnt

/-! ## What a call takes -/

/-- A line that redirects to its own newline takes the next line with it, or waits for it. -/
theorem bareRedirect_not_takes {p : Parser} {us vs : List Item} {e : Option Fault}
    (hts : Stream p.buffer (us ++ vs) e) (h : AtBareRedirect (us.map Prod.snd)) :
    ¬ TakesFirstLine p (us ++ vs) := by
  have hplain : ∀ t ∈ us.map Prod.snd, t.Plain := by
    intro t ht
    exact hts.plain t (by rw [List.map_append]; exact List.mem_append_left _ ht)
  have hwidth := hts.width_le
  rw [width_append] at hwidth
  unfold TakesFirstLine
  rw [firstLine_bareRedirect h hplain, parserPopNext_eq hts, lineTokens_bareRedirect h, skipTokens_eq]
  rintro ⟨err, line, hret, hpop⟩
  cases hend : lineEnd (width us) vs with
  | some n =>
    -- the end of the next line is beyond that of the first one
    have hbounds := lineEnd_bounds (fun nt hnt => hts.pos nt (List.mem_append_right _ hnt)) hend
    rw [hend] at hpop
    have hbuffer : p.buffer.drop n = p.buffer.drop (width us) :=
      congrArg Parser.buffer (Prod.mk.inj (Except.ok.inj hpop)).1
    have hlength := congrArg List.length hbuffer
    rw [List.length_drop, List.length_drop] at hlength
    omega
  | none =>
    rw [hend] at hpop
    cases e with
    | none =>
      have hsame := (Prod.mk.inj (Prod.mk.inj (Except.ok.inj hpop)).2)
      exact hret ⟨hsame.1.symm, hsame.2.symm⟩
    | some f => cases hpop

/-- As long as no assertion fails, a call takes exactly the first logical line, or waits for its
end, unless that line redirects to its own newline. -/
theorem takesFirstLine_iff {p : Parser} {ts : List Item} {e : Option Fault}
    (hts : Stream p.buffer ts e) (hok : ∃ r, parserPopNext p = .ok r) :
    TakesFirstLine p ts ↔ ¬ BareRedirect ts := by
  constructor
  · rintro htakes ⟨us, vs, rfl, h⟩
    -- a bare redirect goes on into the next line
    exact bareRedirect_not_takes hts h htakes
  · intro hbare
    rcases hok with ⟨result, hok⟩
    have hplain := hts.plain
    have hparses := lineTokens_parses (e := e) hplain
    have hpop := parserPopNext_eq hts
    generalize lineTokens e .empty 0 ts = o at hpop hparses
    rw [hpop] at hok
    have hleft : ∀ us vs : List Item, ts = us ++ vs → ∀ t ∈ us.map Prod.snd, t.Plain := by
      rintro us vs rfl t ht
      exact hplain t (by rw [List.map_append]; exact List.mem_append_left _ ht)
    unfold TakesFirstLine
    rw [hpop]
    cases hparses with
    | emptyWord _ => cases hok
    | @close us vs l r b h =>
      -- a line that is taken as it is, or has an operator at its end
      rw [firstLine_close h (hleft us vs rfl)]
      unfold closeOutcome at hok ⊢
      cases hlast : (l.line.close r b).exprs.getLast? with
      | none =>
        rw [hlast] at hok
        cases hok
      | some x => cases x <;> exact ⟨_, _, by simp, rfl⟩
    | @bareRedirect us vs h => exact absurd ⟨us, vs, rfl, h⟩ hbare
    | @skip us vs err h herr hfirst =>
      -- an error, after which the rest of the line is skipped
      rw [skipTokens_eq] at hok ⊢
      rw [firstLine_skip h (hleft us vs rfl) hfirst]
      cases hend : lineEnd (width us) vs with
      | some n => exact ⟨err, none, fun hnone => herr hnone.1, rfl⟩
      | none =>
        rw [hend] at hok
        cases e with
        | none => rfl
        | some f => cases hok

/-- `a &` and a newline, and a line that is still to be read. -/
theorem takesFirstLine_iff_background :
    TakesFirstLine ⟨[97, 32, 38, 10, 98], 5⟩
        [(2, ⟨.str, [97]⟩), (1, ⟨.background, []⟩), (1, ⟨.newLine, []⟩)] ↔
      ¬ BareRedirect [(2, ⟨.str, [97]⟩), (1, ⟨.background, []⟩), (1, ⟨.newLine, []⟩)] :=
  takesFirstLine_iff
    (.token (by decide +kernel) (.token (by decide +kernel) (.token (by decide +kernel)
      (.more (by decide +kernel)))))
    ⟨_, show parserPopNext ⟨[97, 32, 38, 10, 98], 5⟩ = .ok (⟨[98], 5⟩, .none,
      some ⟨[.command ⟨[97, 0], []⟩], .stdout, none, true⟩) by decide +kernel⟩

/-- `a >` on one line and `b` on the next: the first line is the first four bytes, and the call that
reports its error leaves nothing in the buffer. -/
theorem bareRedirect_swallows :
    ∃ ts, Stream [97, 32, 62, 10, 98, 10] ts none ∧ firstLine 0 ts = some 4 ∧
      parserPopNext ⟨[97, 32, 62, 10, 98, 10], 6⟩ =
        .ok (⟨[], 6⟩, .outputRedirectBadArg, none) ∧
      ¬ TakesFirstLine ⟨[97, 32, 62, 10, 98, 10], 6⟩ ts := by
  have hpop : parserPopNext ⟨[97, 32, 62, 10, 98, 10], 6⟩ =
      .ok (⟨[], 6⟩, .outputRedirectBadArg, none) := by decide +kernel
  refine ⟨[(2, ⟨.str, [97]⟩), (1, ⟨.outNew, []⟩), (1, ⟨.newLine, []⟩), (1, ⟨.str, [98]⟩),
    (1, ⟨.newLine, []⟩)], ?_, by decide, hpop, ?_⟩
  · exact .token (by decide +kernel) (.token (by decide +kernel) (.token (by decide +kernel)
      (.token (by decide +kernel) (.token (by decide +kernel) (.more (by decide +kernel))))))
  · rintro ⟨err, line, -, htakes⟩
    rw [hpop] at htakes
    have hbuffer := congrArg Parser.buffer (Prod.mk.inj (Except.ok.inj htakes)).1
    revert hbuffer
    decide

end SystemProgramming.Shell
