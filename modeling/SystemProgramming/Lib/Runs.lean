import Mathlib

/-!
# Runs of a labelled transition system

`Run step s as t` takes the labels `as` one after the other from `s` to `t`.  The two rules that
the developments use are here: an invariant that every step keeps holds along every run, also
when it is only kept by the steps that are allowed in the state they are taken in.
-/

namespace Runs

variable {σ ℓ : Type*} {step : σ → ℓ → σ → Prop}

inductive Run (step : σ → ℓ → σ → Prop) : σ → List ℓ → σ → Prop
  | nil (s : σ) : Run step s [] s
  | cons {s t u : σ} {a : ℓ} {as : List ℓ} :
      step s a t → Run step t as u → Run step s (a :: as) u

theorem Run.append {s t u : σ} {as bs : List ℓ} (h : Run step s as t) (h' : Run step t bs u) :
    Run step s (as ++ bs) u := by
  induction h with
  | nil => exact h'
  | cons hs _ ih => exact .cons hs (ih h')

theorem Run.snoc {s t u : σ} {a : ℓ} {as : List ℓ} (h : Run step s as t) (h' : step t a u) :
    Run step s (as ++ [a]) u :=
  h.append (.cons h' (.nil _))

theorem run_append_iff {s u : σ} {as bs : List ℓ} :
    Run step s (as ++ bs) u ↔ ∃ t, Run step s as t ∧ Run step t bs u := by
  constructor
  · intro h
    induction as generalizing s with
    | nil => exact ⟨s, .nil s, h⟩
    | cons a as ih =>
      cases h with
      | cons hst hrest =>
        obtain ⟨t, has, hbs⟩ := ih hrest
        exact ⟨t, .cons hst has, hbs⟩
  · rintro ⟨t, has, hbs⟩
    exact has.append hbs

theorem run_snoc_iff {s u : σ} {a : ℓ} {as : List ℓ} :
    Run step s (as ++ [a]) u ↔ ∃ t, Run step s as t ∧ step t a u := by
  rw [run_append_iff]
  refine exists_congr fun t => and_congr_right fun _ => ⟨fun h => ?_, fun h => .cons h (.nil u)⟩
  cases h with
  | cons hst hnil =>
    cases hnil
    exact hst

/-- Where a label leaves no choice, the labels determine the run. -/
theorem Run.unique (hdet : ∀ s a t t', step s a t → step s a t' → t = t') {s t t' : σ}
    {as : List ℓ} (h : Run step s as t) (h' : Run step s as t') : t = t' := by
  induction h with
  | nil =>
    cases h'
    rfl
  | cons hst _ ih =>
    cases h' with
    | cons hst' hrest =>
      cases hdet _ _ _ _ hst hst'
      exact ih hrest

theorem Run.mono {step' : σ → ℓ → σ → Prop} (hstep : ∀ s a t, step s a t → step' s a t) {s t : σ}
    {as : List ℓ} (h : Run step s as t) : Run step' s as t := by
  induction h with
  | nil => exact .nil _
  | cons hst _ ih => exact .cons (hstep _ _ _ hst) ih

/-- What every step keeps, every run keeps. -/
theorem Run.invariant {P : σ → Prop} (hstep : ∀ s a t, P s → step s a t → P t)
    {s t : σ} {as : List ℓ} (h : Run step s as t) (hs : P s) : P t := by
  induction h with
  | nil => exact hs
  | cons hst _ ih => exact ih (hstep _ _ _ hs hst)

def Reachable (step : σ → ℓ → σ → Prop) (init s : σ) : Prop := ∃ as, Run step init as s

theorem Reachable.refl (init : σ) : Reachable step init init := ⟨[], .nil init⟩

theorem Reachable.snoc {init s t : σ} {a : ℓ} (h : Reachable step init s) (hst : step s a t) :
    Reachable step init t :=
  let ⟨as, hr⟩ := h
  ⟨as ++ [a], hr.snoc hst⟩

theorem Reachable.run {init s t : σ} {as : List ℓ} (h : Reachable step init s)
    (hr : Run step s as t) : Reachable step init t :=
  let ⟨bs, hb⟩ := h
  ⟨bs ++ as, hb.append hr⟩

/-- The invariant rule for reachable states. -/
theorem Reachable.invariant {init s : σ} {P : σ → Prop} (h : Reachable step init s)
    (hinit : P init) (hstep : ∀ s a t, P s → step s a t → P t) : P s :=
  let ⟨_, hr⟩ := h
  hr.invariant hstep hinit

/-- The steps that are allowed in the state they are taken in. -/
def Within (allowed : σ → ℓ → Prop) (step : σ → ℓ → σ → Prop) : σ → ℓ → σ → Prop :=
  fun s a t => allowed s a ∧ step s a t

theorem within_unique {allowed : σ → ℓ → Prop}
    (hdet : ∀ s a t t', step s a t → step s a t' → t = t') (s : σ) (a : ℓ) (t t' : σ)
    (h : Within allowed step s a t) (h' : Within allowed step s a t') : t = t' :=
  hdet s a t t' h.2 h'.2

theorem Run.of_within {allowed : σ → ℓ → Prop} {s t : σ} {as : List ℓ}
    (h : Run (Within allowed step) s as t) : Run step s as t := h.mono fun _ _ _ hst => hst.2

/-- A run of which every step is allowed. -/
theorem Run.within {allowed : σ → ℓ → Prop} {s t : σ} {as : List ℓ} (h : Run step s as t)
    (hall : ∀ bs a u v, bs ++ [a] <+: as → Run (Within allowed step) s bs u → step u a v →
      allowed u a) : Run (Within allowed step) s as t := by
  induction as using List.reverseRecOn generalizing t with
  | nil =>
    cases h
    exact .nil s
  | append_singleton as a ih =>
    obtain ⟨u, hu, hst⟩ := run_snoc_iff.mp h
    have hwithin := ih hu fun bs b v w hbs => hall bs b v w (hbs.trans (List.prefix_append as [a]))
    exact hwithin.snoc ⟨hall as a u t (List.prefix_refl _) hwithin hst, hst⟩

/-- The beginning of a run of allowed steps. -/
theorem Run.within_prefix {allowed : σ → ℓ → Prop}
    (hdet : ∀ s a t t', step s a t → step s a t' → t = t') {s t u : σ} {as bs : List ℓ}
    (h : Run (Within allowed step) s as t) (hbs : bs <+: as) (hu : Run step s bs u) :
    Run (Within allowed step) s bs u := by
  obtain ⟨cs, rfl⟩ := hbs
  obtain ⟨v, hv, -⟩ := run_append_iff.mp h
  obtain rfl : u = v := hu.unique hdet hv.of_within
  exact hv

/-- A property that holds in every state of a run, when the states of a run of allowed steps have it
and a step that is not allowed leads out of it. -/
theorem always_iff_within {allowed : σ → ℓ → Prop} {P I : σ → Prop}
    (hdet : ∀ s a t t', step s a t → step s a t' → t = t') (hP : ∀ s, I s → P s)
    (hkeep : ∀ s a t, I s → allowed s a → step s a t → I t)
    (hleave : ∀ s a t, I s → ¬ allowed s a → step s a t → ¬ P t)
    {s t : σ} {as : List ℓ} (hs : I s) (h : Run step s as t) :
    (∀ bs u, bs <+: as → Run step s bs u → P u) ↔ Run (Within allowed step) s as t := by
  have hinv : ∀ bs u, Run (Within allowed step) s bs u → I u := fun bs u hu =>
    hu.invariant (fun s a t hI hst => hkeep s a t hI hst.1 hst.2) hs
  constructor
  · intro hall
    refine h.within fun bs a u v hbs hu hst => ?_
    by_contra hleft
    exact hleave u a v (hinv bs u hu) hleft hst
      (hall (bs ++ [a]) v hbs (hu.of_within.snoc hst))
  · exact fun hwithin bs u hbs hu => hP u (hinv bs u (hwithin.within_prefix hdet hbs hu))

/-- Forward simulation: when every step of one system is matched by a step of another, with the
image of its label, so is every run. -/
theorem Run.simulate {τ κ : Type*} {step' : τ → κ → τ → Prop} {R : σ → τ → Prop} {φ : ℓ → κ}
    (hstep : ∀ s a t u, R s u → step s a t → ∃ v, step' u (φ a) v ∧ R t v) {s t : σ} {as : List ℓ}
    (h : Run step s as t) {u : τ} (hR : R s u) : ∃ v, Run step' u (as.map φ) v ∧ R t v := by
  induction h generalizing u with
  | nil => exact ⟨u, .nil u, hR⟩
  | cons hst _ ih =>
    obtain ⟨v, huv, hv⟩ := hstep _ _ _ u hR hst
    obtain ⟨w, hvw, hw⟩ := ih hv
    exact ⟨w, .cons huv hvw, hw⟩

/-- Termination: when every step lowers a first measure, or keeps it and lowers a second one that is
bounded, the length of a run is bounded. -/
theorem Run.length_le_of_lex {I : σ → Prop} {work alert : σ → ℕ} {n : ℕ}
    (hkeep : ∀ s a t, I s → step s a t → I t) (hbound : ∀ s, I s → alert s ≤ n)
    (hdec : ∀ s a t, I s → step s a t → work t < work s ∨ work t = work s ∧ alert t < alert s)
    {s t : σ} {as : List ℓ} (h : Run step s as t) (hs : I s) :
    as.length ≤ work s * (n + 1) + alert s := by
  induction h with
  | nil => exact Nat.zero_le _
  | @cons s t u a as hst _ ih =>
    have hrest := ih (hkeep s a t hs hst)
    rw [List.length_cons]
    rcases hdec s a t hs hst with hlt | ⟨heq, hlt⟩
    · have hle := hbound t (hkeep s a t hs hst)
      have hmul : (work t + 1) * (n + 1) ≤ work s * (n + 1) := Nat.mul_le_mul_right _ hlt
      rw [Nat.add_mul, Nat.one_mul] at hmul
      omega
    · rw [heq] at hrest
      omega

end Runs
