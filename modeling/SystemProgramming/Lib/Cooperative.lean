import Mathlib
import SystemProgramming.Lib.Runs

/-!
# Cooperative threads

A thread is a finite program over a shared memory that gives the processor up only where it says
so.  `Prog σ κ α` is such a program: it reads and writes a memory `σ`, starts the threads named by
`κ` and returns an `α`.  `Pool` is the machine that runs threads one slice at a time and picks the
next thread freely.  The rule for reasoning about a thread alone is here: what it is told about the
others (`rely`), what it promises to them (`guar`), and what it has achieved when it returns.
-/

namespace Cooperative

variable {σ κ α β : Type}

/-- A finite program: `act` changes the memory and goes on with what it found there. -/
inductive Prog (σ κ α : Type) where
  | ret (a : α)
  | act (f : σ → σ) (k : σ → Prog σ κ α)
  | yield (k : Prog σ κ α)
  | new (child : κ) (k : Prog σ κ α)

namespace Prog

def bind : Prog σ κ α → (α → Prog σ κ β) → Prog σ κ β
  | ret a, g => g a
  | act f k, g => act f fun s => (k s).bind g
  | yield k, g => yield (k.bind g)
  | new child k, g => new child (k.bind g)

instance : Monad (Prog σ κ) where
  pure := ret
  bind := bind

/-- The memory as it is now. -/
def get : Prog σ κ σ := act id ret

def modify (f : σ → σ) : Prog σ κ Unit := act f fun _ => ret ()

/-- A change of the memory with a result that is read before it. -/
def modifyGet (f : σ → σ) (g : σ → α) : Prog σ κ α := act f fun s => ret (g s)

def pause : Prog σ κ Unit := yield (ret ())

def isYield : Prog σ κ α → Bool
  | yield _ => true
  | _ => false

/-- `Next k p`: `k` is what may be left of `p` after its first instruction. -/
inductive Next : Prog σ κ α → Prog σ κ α → Prop
  | act (f : σ → σ) (k : σ → Prog σ κ α) (s : σ) : Next (k s) (act f k)
  | yield (k : Prog σ κ α) : Next k (yield k)
  | new (child : κ) (k : Prog σ κ α) : Next k (new child k)

theorem next_wellFounded : WellFounded (Next : Prog σ κ α → Prog σ κ α → Prop) := by
  refine ⟨fun p => ?_⟩
  induction p with
  | ret a => exact ⟨_, fun _ h => nomatch h⟩
  | act f k ih =>
    refine ⟨_, fun q h => ?_⟩
    cases h with
    | act f k s => exact ih s
  | yield k ih =>
    refine ⟨_, fun q h => ?_⟩
    cases h with
    | yield k => exact ih
  | new child k ih =>
    refine ⟨_, fun q h => ?_⟩
    cases h with
    | new child k => exact ih

/-! ## Rely and guarantee -/

/-- From memory `s` the program keeps its promise in each of its own steps and returns with `post`,
whatever the others do while it is suspended.  Programs that start threads are left out. -/
def Valid (rely guar : σ → σ → Prop) (post : α → σ → Prop) : Prog σ κ α → σ → Prop
  | ret a, s => post a s
  | act f k, s => guar s (f s) ∧ Valid rely guar post (k s) (f s)
  | yield k, s => ∀ t, rely s t → Valid rely guar post k t
  | new _ _, _ => False

variable {rely guar : σ → σ → Prop} {post : α → σ → Prop} {s : σ}

theorem Valid.mono {post' : α → σ → Prop} {p : Prog σ κ α} (h : p.Valid rely guar post s)
    (hpost : ∀ a t, post a t → post' a t) : p.Valid rely guar post' s := by
  induction p generalizing s with
  | ret a => exact hpost a s h
  | act f k ih => exact ⟨h.1, ih s h.2⟩
  | yield k ih => exact fun t ht => ih (h t ht)
  | new child k ih => exact h

/-- The rule for one program after the other. -/
theorem Valid.bind {mid : β → σ → Prop} {p : Prog σ κ β} {g : β → Prog σ κ α}
    (h : p.Valid rely guar mid s) (hg : ∀ b t, mid b t → (g b).Valid rely guar post t) :
    (p >>= g).Valid rely guar post s := by
  change (p.bind g).Valid rely guar post s
  induction p generalizing s with
  | ret b => exact hg b s h
  | act f k ih => exact ⟨h.1, ih s h.2⟩
  | yield k ih => exact fun t ht => ih (h t ht)
  | new child k ih => exact h.elim

theorem valid_pure {a : α} (h : post a s) :
    (pure a : Prog σ κ α).Valid rely guar post s := h

theorem valid_modify {f : σ → σ} {post : Unit → σ → Prop} (hguar : guar s (f s))
    (h : post () (f s)) : (modify f : Prog σ κ Unit).Valid rely guar post s := ⟨hguar, h⟩

theorem valid_modifyGet {f : σ → σ} {g : σ → α} (hguar : guar s (f s)) (h : post (g s) (f s)) :
    (modifyGet f g : Prog σ κ α).Valid rely guar post s := ⟨hguar, h⟩

/-- One instruction, and what comes after it. -/
theorem valid_modify_bind {f : σ → σ} {g : Unit → Prog σ κ α} (hguar : guar s (f s))
    (h : (g ()).Valid rely guar post (f s)) :
    (modify f >>= g).Valid rely guar post s := ⟨hguar, h⟩

theorem valid_get_bind {g : σ → Prog σ κ α} (hguar : guar s s)
    (h : (g s).Valid rely guar post s) : (get >>= g).Valid rely guar post s := ⟨hguar, h⟩

theorem valid_modifyGet_bind {f : σ → σ} {g : σ → β} {k : β → Prog σ κ α} (hguar : guar s (f s))
    (h : (k (g s)).Valid rely guar post (f s)) :
    (modifyGet f g >>= k).Valid rely guar post s := ⟨hguar, h⟩

theorem valid_pause_bind {g : Unit → Prog σ κ α}
    (h : ∀ t, rely s t → (g ()).Valid rely guar post t) :
    (pause >>= g).Valid rely guar post s := h

/-! ## Programs that keep an invariant -/

/-- Every instruction of the program keeps `I`. -/
def Preserves (I : σ → Prop) (p : Prog σ κ α) : Prop :=
  ∀ s, p.Valid (fun s t => I s → I t) (fun s t => I s → I t) (fun _ _ => True) s

variable {I : σ → Prop}

theorem preserves_pure (a : α) : (pure a : Prog σ κ α).Preserves I := fun _ => trivial

theorem Preserves.bind {p : Prog σ κ β} {g : β → Prog σ κ α} (h : p.Preserves I)
    (hg : ∀ b, (g b).Preserves I) : (p >>= g).Preserves I :=
  fun s => (h s).bind fun b t _ => hg b t

theorem preserves_get : (get : Prog σ κ σ).Preserves I := fun _ => ⟨id, trivial⟩

theorem preserves_modify {f : σ → σ} (h : ∀ s, I s → I (f s)) :
    (modify f : Prog σ κ Unit).Preserves I := fun s => ⟨h s, trivial⟩

theorem preserves_modifyGet {f : σ → σ} {g : σ → α} (h : ∀ s, I s → I (f s)) :
    (modifyGet f g : Prog σ κ α).Preserves I := fun s => ⟨h s, trivial⟩

theorem preserves_pause : (pause : Prog σ κ Unit).Preserves I := fun _ _ _ => trivial

end Prog

/-! ## The machine -/

inductive Thread (σ κ : Type) where
  | ready (p : Prog σ κ Int)
  | ended (v : Int)

/-- The threads have numbers below `made`; `current` is the one in a slice. -/
@[ext]
structure Pool (σ κ : Type) where
  memory : σ
  threads : Nat → Option (Thread σ κ)
  made : Nat
  current : Option Nat

namespace Pool

/-- Before the first thread. -/
def start (memory : σ) : Pool σ κ := ⟨memory, fun _ => none, 0, none⟩

def setThread (P : Pool σ κ) (i : Nat) (t : Thread σ κ) : Pool σ κ :=
  { P with threads := Function.update P.threads i (some t) }

/-- A new thread with the program `p`. -/
def create (P : Pool σ κ) (p : Prog σ κ Int) : Pool σ κ :=
  { P.setThread P.made (.ready p) with made := P.made + 1 }

/-- A change of the memory from outside. -/
def touch (P : Pool σ κ) (f : σ → σ) : Pool σ κ := { P with memory := f P.memory }

variable (code : κ → Prog σ κ Int)

/-- One step of the machine.  Only a thread that yields or returns ends its slice. -/
inductive Step : Pool σ κ → Pool σ κ → Prop
  | pick {P : Pool σ κ} {i : Nat} {p : Prog σ κ Int} (hidle : P.current = none)
      (hready : P.threads i = some (.ready p)) : Step P { P with current := some i }
  | act {P : Pool σ κ} {i : Nat} {f : σ → σ} {k : σ → Prog σ κ Int} (hcurrent : P.current = some i)
      (hready : P.threads i = some (.ready (.act f k))) :
      Step P ((P.setThread i (.ready (k P.memory))).touch f)
  | yield {P : Pool σ κ} {i : Nat} {k : Prog σ κ Int} (hcurrent : P.current = some i)
      (hready : P.threads i = some (.ready (.yield k))) :
      Step P { P.setThread i (.ready k) with current := none }
  | new {P : Pool σ κ} {i : Nat} {child : κ} {k : Prog σ κ Int} (hcurrent : P.current = some i)
      (hready : P.threads i = some (.ready (.new child k))) :
      Step P ((P.setThread i (.ready k)).create (code child))
  | ret {P : Pool σ κ} {i : Nat} {v : Int} (hcurrent : P.current = some i)
      (hready : P.threads i = some (.ready (.ret v))) :
      Step P { P.setThread i (.ended v) with current := none }

/-- The thread that gives way in the next step, if one does. -/
def giving (P : Pool σ κ) : Option Nat :=
  match P.current with
  | none => none
  | some i =>
    match P.threads i with
    | some (.ready (.yield _)) => some i
    | _ => none

/-- A step, labelled with the thread that gives way in it. -/
def Labelled (P : Pool σ κ) (a : Option Nat) (P' : Pool σ κ) : Prop := Step code P P' ∧ a = P.giving

/-- What happens to a pool: a step of its own, or from outside a new thread or a change of the
memory. -/
inductive Event (σ κ : Type)
  | inside (giving : Option Nat)
  | create (func : κ)
  | touch (f : σ → σ)

/-- The thread that gives way in the event. -/
def Event.giving : Event σ κ → Option Nat
  | inside giving => giving
  | create _ | touch _ => none

/-- The machine and its surroundings, which act only while no thread is in a slice. -/
inductive Move : Pool σ κ → Event σ κ → Pool σ κ → Prop
  | inside {P P' : Pool σ κ} {giving : Option Nat} (h : Labelled code P giving P') :
      Move P (.inside giving) P'
  | create {P : Pool σ κ} (func : κ) (hidle : P.current = none) :
      Move P (.create func) (P.create (code func))
  | touch {P : Pool σ κ} (f : σ → σ) (hidle : P.current = none) : Move P (.touch f) (P.touch f)

variable {code} {P P' : Pool σ κ}

theorem giving_of_idle (hidle : P.current = none) : P.giving = none := by
  rw [giving, hidle]

theorem giving_of_ready {i : Nat} {p : Prog σ κ Int} (hcurrent : P.current = some i)
    (hready : P.threads i = some (.ready p)) :
    P.giving = if p.isYield then some i else none := by
  rw [giving, hcurrent]
  dsimp only
  rw [hready]
  cases p <;> rfl

theorem steps_of_labelled {as : List (Option Nat)} (h : Runs.Run (Labelled code) P as P') :
    Relation.ReflTransGen (Step code) P P' := by
  induction h with
  | nil => exact .refl
  | cons hstep _ ih => exact .head hstep.1 ih

theorem moves_of_labelled {as : List (Option Nat)} (h : Runs.Run (Labelled code) P as P') :
    Runs.Run (Move code) P (as.map Event.inside) P' := by
  induction h with
  | nil => exact .nil _
  | cons hstep _ ih => exact .cons (.inside hstep) ih

@[simp] theorem map_giving_inside (as : List (Option Nat)) :
    (as.map (Event.inside : Option Nat → Event σ κ)).map Event.giving = as := by
  rw [List.map_map]
  exact List.map_id as

end Pool

/-! ## Threads that keep a contract -/

/-- What every thread relies on and promises, and what it has done when it returns.  The promise of
one thread is what the others rely on. -/
structure Contract (σ : Type) where
  rely : Nat → σ → σ → Prop
  guar : Nat → σ → σ → Prop
  post : Nat → Int → σ → Prop
  rely_refl : ∀ i s, rely i s s
  rely_trans : ∀ i s t u, rely i s t → rely i t u → rely i s u
  rely_of_guar : ∀ i j s t, i ≠ j → guar i s t → rely j s t
  post_stable : ∀ i v s t, post i v s → rely i s t → post i v t

/-- The contract of threads of which only an invariant is asked. -/
def Contract.invariant (I : σ → Prop) : Contract σ where
  rely _ s t := I s → I t
  guar _ s t := I s → I t
  post _ _ _ := True
  rely_refl _ _ := id
  rely_trans _ _ _ _ h h' := h' ∘ h
  rely_of_guar _ _ _ _ _ h := h
  post_stable _ _ _ _ _ _ := trivial

/-- Every thread of the pool keeps its contract from here on. -/
structure Guarded (C : Contract σ) (P : Pool σ κ) : Prop where
  running : ∀ i p, P.current = some i → P.threads i = some (.ready p) →
    p.Valid (C.rely i) (C.guar i) (C.post i) P.memory
  suspended : ∀ i p, P.current ≠ some i → P.threads i = some (.ready p) →
    ∀ t, C.rely i P.memory t → p.Valid (C.rely i) (C.guar i) (C.post i) t
  ended : ∀ i v, P.threads i = some (.ended v) → C.post i v P.memory

namespace Guarded

variable {C : Contract σ} {P P' : Pool σ κ}

/-- A change of the memory that every thread allows. -/
theorem touch (h : Guarded C P) {f : σ → σ} (hidle : P.current = none)
    (hf : ∀ i, C.rely i P.memory (f P.memory)) : Guarded C (P.touch f) where
  running i p hi := by simp [Pool.touch, hidle] at hi
  suspended i p hi hp t ht := h.suspended i p hi hp t (C.rely_trans _ _ _ _ (hf i) ht)
  ended i v hv := C.post_stable _ _ _ _ (h.ended i v hv) (hf i)

/-- A new thread whose program keeps its contract. -/
theorem create (h : Guarded C P) {p : Prog σ κ Int} (hidle : P.current = none)
    (hp : ∀ t, C.rely P.made P.memory t →
      p.Valid (C.rely P.made) (C.guar P.made) (C.post P.made) t) :
    Guarded C (P.create p) where
  running i q hi := by simp [Pool.create, Pool.setThread, hidle] at hi
  suspended i q hi hq t ht := by
    by_cases hmade : i = P.made
    · subst hmade
      obtain rfl : p = q := by simpa [Pool.create, Pool.setThread] using hq
      exact hp t ht
    · exact h.suspended i q hi (by simpa [Pool.create, Pool.setThread, hmade] using hq) t ht
  ended i v hv := by
    by_cases hmade : i = P.made
    · subst hmade
      simp [Pool.create, Pool.setThread] at hv
    · exact h.ended i v (by simpa [Pool.create, Pool.setThread, hmade] using hv)

/-- What the current thread does leaves the others guarded, if they allow it. -/
theorem advance (h : Guarded C P) {i : Nat} {th : Thread σ κ} {t : σ} {current : Option Nat}
    (hcurrent : P.current = some i) (hothers : ∀ j, i ≠ j → C.rely j P.memory t)
    (hnext : current = some i ∨ current = none)
    (hrunning : ∀ p, th = .ready p → current = some i → p.Valid (C.rely i) (C.guar i) (C.post i) t)
    (hsuspended : ∀ p, th = .ready p → current = none →
      ∀ u, C.rely i t u → p.Valid (C.rely i) (C.guar i) (C.post i) u)
    (hended : ∀ v, th = .ended v → C.post i v t) :
    Guarded C { P.setThread i th with memory := t, current := current } where
  running j p hj hp := by
    obtain rfl : i = j := by
      rcases hnext with rfl | rfl
      · simpa using hj
      · cases hj
    exact hrunning p (by simpa [Pool.setThread] using hp) hj
  suspended j p hj hp u hu := by
    by_cases hij : i = j
    · subst hij
      exact hsuspended p (by simpa [Pool.setThread] using hp) (hnext.resolve_left hj) u hu
    · refine h.suspended j p ?_ (by simpa [Pool.setThread, Ne.symm hij] using hp) u
        (C.rely_trans _ _ _ _ (hothers j hij) hu)
      rw [hcurrent]
      exact fun hsome => hij (Option.some.inj hsome)
  ended j v hv := by
    by_cases hij : i = j
    · subst hij
      exact hended v (by simpa [Pool.setThread] using hv)
    · exact C.post_stable _ _ _ _
        (h.ended j v (by simpa [Pool.setThread, Ne.symm hij] using hv)) (hothers j hij)

/-- Every step keeps the contracts. -/
theorem step {code : κ → Prog σ κ Int} (h : Guarded C P) (hstep : Pool.Step code P P') :
    Guarded C P' := by
  cases hstep with
  | pick hidle hready =>
    -- nobody was running, so every ready thread was suspended
    have hfree : ∀ j, P.current ≠ some j := fun j hj => by rw [hidle] at hj; cases hj
    refine ⟨fun j q _ hq => ?_, fun j q _ hq => ?_, h.ended⟩
    · exact h.suspended j q (hfree j) hq _ (C.rely_refl j _)
    · exact h.suspended j q (hfree j) hq
  | act hcurrent hready =>
    have hvalid := h.running _ _ hcurrent hready
    refine h.advance hcurrent (fun j hij => C.rely_of_guar _ j _ _ hij hvalid.1) (.inl hcurrent)
      ?_ ?_ ?_
    · intro p hp _
      cases hp
      exact hvalid.2
    · intro p _ hnone
      -- the acting thread keeps running
      rw [show P.current = none from hnone] at hcurrent
      cases hcurrent
    · intro v hv
      cases hv
  | yield hcurrent hready =>
    have hvalid := h.running _ _ hcurrent hready
    refine h.advance hcurrent (fun j _ => C.rely_refl j _) (.inr rfl) ?_ ?_ ?_
    · intro p _ hsome
      cases hsome
    · intro p hp _
      cases hp
      exact hvalid
    · intro v hv
      cases hv
  | new hcurrent hready => exact (h.running _ _ hcurrent hready).elim
  | ret hcurrent hready =>
    have hvalid := h.running _ _ hcurrent hready
    refine h.advance hcurrent (fun j _ => C.rely_refl j _) (.inr rfl) ?_ ?_ ?_
    · intro p hp
      cases hp
    · intro p hp
      cases hp
    · intro v hv
      cases hv
      exact hvalid

/-- The rule for whole runs. -/
theorem steps {code : κ → Prog σ κ Int} (h : Guarded C P)
    (hsteps : Relation.ReflTransGen (Pool.Step code) P P') : Guarded C P' := by
  induction hsteps with
  | refl => exact h
  | tail _ hstep ih => exact ih.step hstep

end Guarded

/-! ## What the promises keep -/

/-- The threads keep their contracts, and the memory what their promises keep. -/
structure Kept (C : Contract σ) (I : σ → Prop) (P : Pool σ κ) : Prop where
  guarded : Guarded C P
  memory : I P.memory
  bounded : ∀ i th, P.threads i = some th → i < P.made

namespace Kept

variable {C : Contract σ} {I : σ → Prop} {P P' : Pool σ κ}

theorem bounded_setThread (h : Kept C I P) {i : Nat} {old new : Thread σ κ}
    (hready : P.threads i = some old) (j : Nat) (th : Thread σ κ)
    (hj : (P.setThread i new).threads j = some th) : j < P.made := by
  by_cases hij : j = i
  · exact hij ▸ h.bounded i old hready
  · exact h.bounded j th ((Function.update_of_ne hij _ _).symm.trans hj)

/-- Threads that keep a contract make no threads. -/
theorem step {code : κ → Prog σ κ Int} (h : Kept C I P)
    (hguar : ∀ i s t, i < P.made → C.guar i s t → I s → I t) (hstep : Pool.Step code P P') :
    Kept C I P' ∧ P'.made = P.made := by
  have hguarded := h.guarded.step hstep
  cases hstep with
  | pick => exact ⟨⟨hguarded, h.memory, h.bounded⟩, rfl⟩
  | act hcurrent hready =>
    have hvalid := h.guarded.running _ _ hcurrent hready
    have hmemory := hguar _ _ _ (h.bounded _ _ hready) hvalid.1 h.memory
    exact ⟨⟨hguarded, hmemory, h.bounded_setThread hready⟩, rfl⟩
  | yield hcurrent hready => exact ⟨⟨hguarded, h.memory, h.bounded_setThread hready⟩, rfl⟩
  | new hcurrent hready => exact (h.guarded.running _ _ hcurrent hready).elim
  | ret hcurrent hready => exact ⟨⟨hguarded, h.memory, h.bounded_setThread hready⟩, rfl⟩

theorem steps {code : κ → Prog σ κ Int} (h : Kept C I P)
    (hguar : ∀ i s t, i < P.made → C.guar i s t → I s → I t)
    (hsteps : Relation.ReflTransGen (Pool.Step code) P P') : Kept C I P' ∧ P'.made = P.made := by
  induction hsteps with
  | refl => exact ⟨h, rfl⟩
  | tail _ hstep ih =>
    obtain ⟨hkept, hmade⟩ := ih
    rw [← hmade] at hguar
    obtain ⟨hkept', hmade'⟩ := hkept.step hguar hstep
    exact ⟨hkept', hmade'.trans hmade⟩

end Kept

end Cooperative
