import Mathlib

/-!
# Incremental decoders

A decoder looks at the symbols it holds and waits for more, emits a value and drops the symbols it
used, or aborts.  If what it decides is not revised when more symbols arrive, then it does not
matter how the input is cut: decoding chunk by chunk is decoding the concatenation.
-/

namespace Incremental

variable {α β ε : Type*}

inductive Verdict (β ε : Type*)
  | wait
  | emit (out : β) (used : Nat)
  | abort (e : ε)

structure Decoder (α β ε : Type*) where
  decide : List α → Verdict β ε
  wait_nil : decide [] = .wait
  progress : ∀ {s out n}, decide s = .emit out n → 0 < n ∧ n ≤ s.length
  stable : ∀ {s}, decide s ≠ .wait → ∀ u, decide (s ++ u) = decide s

/-- How decoding ends: with symbols left over, or aborted. -/
inductive End (α ε : Type*)
  | rest (s : List α)
  | abort (e : ε)

/-- Put earlier outputs before those of a run. -/
def after (outs : List β) (r : List β × End α ε) : List β × End α ε := (outs ++ r.1, r.2)

@[simp] theorem after_nil (r : List β × End α ε) : after [] r = r := rfl

@[simp] theorem after_after (as bs : List β) (r : List β × End α ε) :
    after as (after bs r) = after (as ++ bs) r := by
  simp [after]

namespace Decoder

variable (d : Decoder α β ε)

/-- Decode until the decoder waits or aborts. -/
def drain (s : List α) : List β × End α ε :=
  match _h : d.decide s with
  | .wait => ([], .rest s)
  | .emit out n => after [out] (drain (s.drop n))
  | .abort e => ([], .abort e)
termination_by s.length
decreasing_by
  have hn := d.progress _h
  rw [List.length_drop]
  omega

/-- Decode after each chunk, on top of the symbols left from before. -/
def run (buf : List α) : List (List α) → List β × End α ε
  | [] => ([], .rest buf)
  | c :: cs =>
    match d.drain (buf ++ c) with
    | (outs, .rest s) => after outs (run s cs)
    | (outs, .abort e) => (outs, .abort e)

variable {d} {s : List α}

theorem drain_eq (s : List α) : d.drain s =
    match d.decide s with
    | .wait => ([], .rest s)
    | .emit out n => after [out] (d.drain (s.drop n))
    | .abort e => ([], .abort e) := by
  rw [drain]
  split <;> rename_i h <;> rw [h]

theorem drain_wait (h : d.decide s = .wait) : d.drain s = ([], .rest s) := by
  rw [drain_eq, h]

theorem drain_emit {out : β} {n : Nat} (h : d.decide s = .emit out n) :
    d.drain s = after [out] (d.drain (s.drop n)) := by
  rw [drain_eq, h]

theorem drain_abort {e : ε} (h : d.decide s = .abort e) : d.drain s = ([], .abort e) := by
  rw [drain_eq, h]

/-- Induction along a drain. -/
theorem drain_induction {P : List α → Prop} (hwait : ∀ s, d.decide s = .wait → P s)
    (hemit : ∀ s out n, d.decide s = .emit out n → P (s.drop n) → P s)
    (habort : ∀ s e, d.decide s = .abort e → P s) (s : List α) : P s := by
  induction hlen : s.length using Nat.strong_induction_on generalizing s with
  | _ k ih =>
    cases h : d.decide s with
    | wait => exact hwait s h
    | emit out n =>
      have hn := d.progress h
      have hlt : (s.drop n).length < k := by
        rw [List.length_drop]
        omega
      exact hemit s out n h (ih _ hlt _ rfl)
    | abort e => exact habort s e h

/-- What is left over is waited on. -/
theorem drain_rest {outs : List β} {r : List α} (h : d.drain s = (outs, .rest r)) :
    d.decide r = .wait := by
  induction s using drain_induction (d := d) generalizing outs with
  | hwait s hs =>
    rw [drain_wait hs] at h
    cases h
    exact hs
  | hemit s out n hs ih =>
    rw [drain_emit hs] at h
    cases hrest : d.drain (s.drop n) with
    | mk outs' e =>
      rw [hrest] at h
      cases h
      exact ih hrest
  | habort s e hs =>
    rw [drain_abort hs] at h
    cases h

theorem drain_rest_length {outs : List β} {r : List α} (h : d.drain s = (outs, .rest r)) :
    r.length ≤ s.length := by
  induction s using drain_induction (d := d) generalizing outs with
  | hwait s hs =>
    rw [drain_wait hs] at h
    cases h
    exact le_refl _
  | hemit s out n hs ih =>
    rw [drain_emit hs] at h
    cases hrest : d.drain (s.drop n) with
    | mk outs' e =>
      rw [hrest] at h
      cases h
      have hle := ih hrest
      rw [List.length_drop] at hle
      omega
  | habort s e hs =>
    rw [drain_abort hs] at h
    cases h

/-- What is left over is the end of the input. -/
theorem drain_rest_suffix {outs : List β} {r : List α} (h : d.drain s = (outs, .rest r)) :
    r <:+ s := by
  induction s using drain_induction (d := d) generalizing outs with
  | hwait s hs =>
    rw [drain_wait hs] at h
    cases h
    exact List.suffix_rfl
  | hemit s out n hs ih =>
    rw [drain_emit hs] at h
    cases hrest : d.drain (s.drop n) with
    | mk outs' e =>
      rw [hrest] at h
      cases h
      exact (ih hrest).trans (List.drop_suffix n s)
  | habort s e hs =>
    rw [drain_abort hs] at h
    cases h

/-- A run that aborts does so on a verdict. -/
theorem drain_abort_verdict {outs : List β} {e : ε} (h : d.drain s = (outs, .abort e)) :
    ∃ r, d.decide r = .abort e := by
  induction s using drain_induction (d := d) generalizing outs with
  | hwait s hs =>
    rw [drain_wait hs] at h
    cases h
  | hemit s out n hs ih =>
    rw [drain_emit hs] at h
    cases hrest : d.drain (s.drop n) with
    | mk outs' e' =>
      rw [hrest] at h
      cases h
      exact ih hrest
  | habort s e' hs =>
    rw [drain_abort hs] at h
    cases h
    exact ⟨s, hs⟩

/-- To drain more input is to drain what was left over together with it. -/
theorem drain_append (s u : List α) : d.drain (s ++ u) =
    match d.drain s with
    | (outs, .rest r) => after outs (d.drain (r ++ u))
    | (outs, .abort e) => (outs, .abort e) := by
  induction s using drain_induction (d := d) with
  | hwait s hs =>
    rw [drain_wait hs]
    rfl
  | hemit s out n hs ih =>
    have hmore : d.decide (s ++ u) = .emit out n := by
      rw [d.stable (by simp [hs]), hs]
    rw [drain_emit hmore, List.drop_append_of_le_length (d.progress hs).2, ih, drain_emit hs]
    cases d.drain (s.drop n) with
    | mk outs e => cases e <;> simp [after]
  | habort s e hs =>
    have hmore : d.decide (s ++ u) = .abort e := by
      rw [d.stable (by simp [hs]), hs]
    rw [drain_abort hmore, drain_abort hs]

/-- Decoding chunk by chunk is decoding the concatenation. -/
theorem run_eq_drain {buf : List α} (h : d.decide buf = .wait) (cs : List (List α)) :
    d.run buf cs = d.drain (buf ++ cs.flatten) := by
  induction cs generalizing buf with
  | nil => rw [List.flatten_nil, List.append_nil, drain_wait h, run]
  | cons c cs ih =>
    rw [run, List.flatten_cons, ← List.append_assoc, drain_append (buf ++ c)]
    cases hdrain : d.drain (buf ++ c) with
    | mk outs e =>
      cases e with
      | rest r =>
        show after outs (d.run r cs) = after outs (d.drain (r ++ cs.flatten))
        rw [ih (drain_rest hdrain)]
      | abort e => rfl

/-- The cuts do not matter. -/
theorem run_congr {cs cs' : List (List α)} (h : cs.flatten = cs'.flatten) :
    d.run [] cs = d.run [] cs' := by
  rw [run_eq_drain d.wait_nil, run_eq_drain d.wait_nil, h]

end Decoder

end Incremental
