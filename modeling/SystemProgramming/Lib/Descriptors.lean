import Mathlib

/-!
# Descriptor tables

What the descriptors of a process refer to, and the calls that change it.  A process that opens
descriptors and closes them again is followed with `Over base held t`: the table is `base`, with the
descriptors of `held` open on top of it.
-/

namespace Descriptors

variable {ι α σ κ : Type*}

/-! ## Traces of calls -/

/-- Each call of a trace is as it may be in the state that it finds. -/
def Along (step : σ → κ → σ) (P : σ → κ → Prop) (s : σ) (cs : List κ) : Prop :=
  ∀ before c, before ++ [c] <+: cs → P (before.foldl step s) c

section

variable {step : σ → κ → σ} {P : σ → κ → Prop} {s : σ} {cs ds es : List κ} {c : κ}

/-- A call that is not among the later ones is among the earlier ones. -/
theorem prefix_of_not_mem (h : cs ++ [c] <+: ds ++ es) (hc : c ∉ es) : cs ++ [c] <+: ds := by
  rcases List.prefix_or_prefix_of_prefix h (List.prefix_append ds es) with hds | ⟨fs, hfs⟩
  · exact hds
  · obtain rfl | ⟨fs, d, rfl⟩ := List.eq_nil_or_concat fs
    · rw [List.append_nil] at hfs
      exact hfs ▸ List.prefix_refl ds
    · -- Then the call is the last of the later ones that are taken.
      rw [List.concat_eq_append, ← List.append_assoc] at hfs
      obtain ⟨-, hlast⟩ := List.append_inj' hfs rfl
      obtain ⟨rfl, -⟩ := List.cons.inj hlast
      rw [← hfs, List.append_assoc, List.prefix_append_right_inj] at h
      exact absurd (h.subset (List.mem_append_right fs List.mem_cons_self)) hc

theorem Along.of_prefix (h : Along step P s ds) (hcs : cs <+: ds) : Along step P s cs :=
  fun before c hbefore => h before c (hbefore.trans hcs)

theorem Along.last (h : Along step P s (cs ++ [c])) : P (cs.foldl step s) c :=
  h cs c (List.prefix_refl _)

/-- The later calls, in the state that the earlier ones lead to. -/
theorem Along.later (h : Along step P s (cs ++ ds)) : Along step P (cs.foldl step s) ds := by
  intro before c hbefore
  rw [← List.foldl_append]
  refine h (cs ++ before) c ?_
  rw [List.append_assoc]
  exact (List.prefix_append_right_inj cs).mpr hbefore

theorem Along.append (h : Along step P s cs) (hlater : Along step P (cs.foldl step s) ds) :
    Along step P s (cs ++ ds) := by
  intro before c hbefore
  rcases List.prefix_or_prefix_of_prefix hbefore (List.prefix_append cs ds) with hcs | ⟨fs, hfs⟩
  · exact h before c hcs
  · obtain rfl | ⟨fs, d, rfl⟩ := List.eq_nil_or_concat fs
    · rw [List.append_nil] at hfs
      exact h before c (hfs ▸ List.prefix_refl _)
    · rw [List.concat_eq_append, ← List.append_assoc] at hfs
      obtain ⟨rfl, hlast⟩ := List.append_inj' hfs rfl
      obtain ⟨rfl, -⟩ := List.cons.inj hlast
      rw [List.append_assoc, List.prefix_append_right_inj] at hbefore
      rw [List.foldl_append]
      exact hlater fs d hbefore

/-- Calls that may be in any state. -/
theorem Along.of_forall (h : ∀ c ∈ cs, ∀ s, P s c) (s : σ) : Along step P s cs :=
  fun _ c hbefore => h c (hbefore.subset (List.mem_append_right _ List.mem_cons_self)) _

theorem Along.nil : Along step P s [] := fun before c h =>
  absurd (List.prefix_nil.mp h) (List.append_ne_nil_of_right_ne_nil before (List.cons_ne_nil c []))

theorem Along.snoc (h : Along step P s cs) (hc : P (cs.foldl step s) c) :
    Along step P s (cs ++ [c]) := by
  intro before d hbefore
  rcases List.prefix_concat_iff.mp hbefore with heq | hcs
  · obtain ⟨rfl, hlast⟩ := List.append_inj' heq rfl
    obtain ⟨rfl, -⟩ := List.cons.inj hlast
    exact hc
  · exact h before d hcs

end

/-! ## Tables -/

/-- What the open descriptors refer to. -/
abbrev Table (ι α : Type*) := ι → Option α

/-! ## Descriptors on top of a table -/

/-- The table is `base` with the descriptors of `held` open, which are free in `base`. -/
structure Over (base : Table ι α) (held : List (ι × α)) (t : Table ι α) : Prop where
  nodup : (held.map Prod.fst).Nodup
  free : ∀ e ∈ held, base e.1 = none
  refers : ∀ e ∈ held, t e.1 = some e.2
  elsewhere : ∀ fd, fd ∉ held.map Prod.fst → t fd = base fd

variable {base t : Table ι α} {held held' : List (ι × α)} {fd : ι}

theorem Over.refl (base : Table ι α) : Over base [] base where
  nodup := List.nodup_nil
  free _ h := nomatch h
  refers _ h := nomatch h
  elsewhere _ _ := rfl

theorem Over.eq (h : Over base [] t) : t = base :=
  funext fun fd => h.elsewhere fd List.not_mem_nil

theorem Over.perm (h : Over base held t) (hperm : held'.Perm held) : Over base held' t where
  nodup := (hperm.map Prod.fst).nodup_iff.mpr h.nodup
  free e he := h.free e (hperm.subset he)
  refers e he := h.refers e (hperm.subset he)
  elsewhere fd hfd := h.elsewhere fd fun hmem => hfd ((hperm.map Prod.fst).mem_iff.mpr hmem)

/-- A descriptor that is not open is neither held nor in the table below. -/
theorem Over.not_held (h : Over base held t) (hfd : t fd = none) : fd ∉ held.map Prod.fst := by
  intro hmem
  obtain ⟨e, he, rfl⟩ := List.mem_map.mp hmem
  rw [h.refers e he] at hfd
  exact Option.some_ne_none _ hfd

/-! ## The calls -/

variable [DecidableEq ι]

def close (t : Table ι α) (fd : ι) : Table ι α := Function.update t fd none

def install (t : Table ι α) (fd : ι) (a : α) : Table ι α := Function.update t fd (some a)

def dup2 (t : Table ι α) (fd onto : ι) : Table ι α := Function.update t onto (t fd)

@[simp] theorem close_self (t : Table ι α) (fd : ι) : close t fd fd = none :=
  Function.update_self ..

theorem close_of_ne {t : Table ι α} {fd fd' : ι} (h : fd' ≠ fd) : close t fd fd' = t fd' :=
  Function.update_of_ne h ..

@[simp] theorem install_self (t : Table ι α) (fd : ι) (a : α) : install t fd a fd = some a :=
  Function.update_self ..

theorem install_of_ne {t : Table ι α} {fd fd' : ι} {a : α} (h : fd' ≠ fd) :
    install t fd a fd' = t fd' := Function.update_of_ne h ..

variable {onto : ι} {a : α}

theorem Over.install (h : Over base held t) (hfd : t fd = none) :
    Over base ((fd, a) :: held) (install t fd a) := by
  have hnot := h.not_held hfd
  have hne : ∀ e ∈ held, e.1 ≠ fd := fun e he heq => hnot (List.mem_map.mpr ⟨e, he, heq⟩)
  refine ⟨List.nodup_cons.mpr ⟨hnot, h.nodup⟩, fun e he => ?_, fun e he => ?_, fun fd' hfd' => ?_⟩
  · rcases List.mem_cons.mp he with rfl | he
    · exact (h.elsewhere fd hnot).symm.trans hfd
    · exact h.free e he
  · rcases List.mem_cons.mp he with rfl | he
    · exact install_self t fd a
    · exact (install_of_ne (hne e he)).trans (h.refers e he)
  · rw [List.map_cons, List.mem_cons, not_or] at hfd'
    exact (install_of_ne hfd'.1).trans (h.elsewhere fd' hfd'.2)

theorem Over.close (h : Over base ((fd, a) :: held) t) : Over base held (close t fd) := by
  obtain ⟨hnot, hnodup⟩ := List.nodup_cons.mp h.nodup
  refine ⟨hnodup, fun e he => h.free e (List.mem_cons_of_mem _ he), fun e he => ?_,
    fun fd' hfd' => ?_⟩
  · have hne : e.1 ≠ fd := fun heq => hnot (List.mem_map.mpr ⟨e, he, heq⟩)
    exact (close_of_ne hne).trans (h.refers e (List.mem_cons_of_mem _ he))
  · by_cases heq : fd' = fd
    · rw [heq, close_self]
      exact (h.free (fd, a) List.mem_cons_self).symm
    · rw [close_of_ne heq]
      refine h.elsewhere fd' fun hmem => ?_
      exact (List.mem_cons.mp hmem).elim heq hfd'

/-- A descriptor that is held is duplicated onto one of the table below. -/
theorem Over.dup2 (h : Over base held t) (hfd : (fd, a) ∈ held) (honto : base onto ≠ none) :
    Over (Descriptors.install base onto a) held (dup2 t fd onto) := by
  have hne : ∀ e ∈ held, e.1 ≠ onto := fun e he heq => honto (heq ▸ h.free e he)
  have hdup : Descriptors.dup2 t fd onto = Descriptors.install t onto a := by
    rw [Descriptors.dup2, h.refers _ hfd]
    rfl
  rw [hdup]
  refine ⟨h.nodup, fun e he => ?_, fun e he => ?_, fun fd' hfd' => ?_⟩
  · exact (install_of_ne (hne e he)).trans (h.free e he)
  · exact (install_of_ne (hne e he)).trans (h.refers e he)
  · by_cases heq : fd' = onto
    · rw [heq, install_self, install_self]
    · rw [install_of_ne heq, install_of_ne heq]
      exact h.elsewhere fd' hfd'

end Descriptors
