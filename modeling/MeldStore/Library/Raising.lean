import Mathlib.Tactic.Common

namespace Library.Raising

-- Computations that keep what they did to the state when they raise.

variable {ε σ τ α β : Type}

-- A result or an exception, as a value: the computation does not raise.
def attempt (x : EStateM ε σ α) : EStateM ε σ (Except ε α) := fun s =>
  match x s with
  | .ok a t => .ok (.ok a) t
  | .error e t => .ok (.error e) t

def deliver : Except ε α → EStateM ε σ α
  | .ok a => pure a
  | .error e => throw e

def demand (condition : Prop) [Decidable condition] (e : ε) : EStateM ε σ Unit :=
  if condition then pure () else throw e

def raiseAny : Option ε → EStateM ε σ Unit
  | none => pure ()
  | some e => throw e

def perform (x : EStateM ε σ α) (s : σ) : Except ε α × σ :=
  match x s with
  | .ok a t => (.ok a, t)
  | .error e t => (.error e, t)

-- On a part of the state.
def zoom (part : τ → σ) (put : τ → σ → τ) (x : EStateM ε σ α) : EStateM ε τ α := fun s =>
  match x (part s) with
  | .ok a t => .ok a (put s t)
  | .error e t => .error e (put s t)

-- What a computation does from a state, where it returns and where it raises.
def Yields (x : EStateM ε σ α) (s : σ) (returned : α → σ → Prop) (raised : ε → σ → Prop) : Prop :=
  match x s with
  | .ok a t => returned a t
  | .error e t => raised e t

section

variable {x : EStateM ε σ α} {s : σ} {returned : α → σ → Prop} {raised : ε → σ → Prop}

theorem Yields.of_pure {a : α} (h : returned a s) : Yields (pure a) s returned raised := h

theorem Yields.of_throw {e : ε} (h : raised e s) : Yields (throw e : EStateM ε σ α) s returned raised := h

theorem Yields.after_get {f : σ → EStateM ε σ α} (h : Yields (f s) s returned raised) :
    Yields (get >>= f) s returned raised := h

theorem Yields.after_modify {g : σ → σ} {f : PUnit → EStateM ε σ α} (h : Yields (f ⟨⟩) (g s) returned raised) :
    Yields (modify g >>= f) s returned raised := h

theorem Yields.of_demand {condition : Prop} [Decidable condition] {e : ε} {returned : Unit → σ → Prop}
    (h : condition → returned () s) (hnot : ¬condition → raised e s) :
    Yields (demand condition e) s returned raised := by
  rw [demand]
  split_ifs with hcondition
  · exact h hcondition
  · exact hnot hcondition

theorem Yields.after_demand {condition : Prop} [Decidable condition] {e : ε} {f : Unit → EStateM ε σ α}
    (hnot : ¬condition → raised e s) (h : condition → Yields (f ()) s returned raised) :
    Yields (demand condition e >>= f) s returned raised := by
  rw [demand]
  split_ifs with hcondition
  · exact h hcondition
  · exact hnot hcondition

theorem Yields.of_raiseAny {found : Option ε} {returned : Unit → σ → Prop} (h : found = none → returned () s)
    (hsome : ∀ e, found = some e → raised e s) : Yields (raiseAny found) s returned raised := by
  cases found with
  | none => exact h rfl
  | some e => exact hsome e rfl

theorem Yields.after_raiseAny {found : Option ε} {f : Unit → EStateM ε σ α}
    (hsome : ∀ e, found = some e → raised e s)
    (h : found = none → Yields (f ()) s returned raised) : Yields (raiseAny found >>= f) s returned raised := by
  cases found with
  | none => exact h rfl
  | some e => exact hsome e rfl

theorem Yields.mono {returned' : α → σ → Prop} {raised' : ε → σ → Prop} (h : Yields x s returned raised)
    (hreturned : ∀ a t, returned a t → returned' a t) (hraised : ∀ e t, raised e t → raised' e t) :
    Yields x s returned' raised' := by
  rw [Yields] at h ⊢
  cases hx : x s with
  | ok a t =>
      rw [hx] at h
      exact hreturned a t h
  | error e t =>
      rw [hx] at h
      exact hraised e t h

theorem Yields.bind {f : α → EStateM ε σ β} {mid : α → σ → Prop} {returned : β → σ → Prop}
    (h : Yields x s mid raised)
    (hf : ∀ a t, mid a t → Yields (f a) t returned raised) : Yields (x >>= f) s returned raised := by
  rw [Yields] at h ⊢
  change match EStateM.bind x f s with
    | .ok b t => returned b t
    | .error e t => raised e t
  rw [EStateM.bind]
  cases hx : x s with
  | ok a t =>
      rw [hx] at h
      exact hf a t h
  | error e t =>
      rw [hx] at h
      exact h

theorem Yields.attempt {returned : Except ε α → σ → Prop} {never : ε → σ → Prop}
    (h : Yields x s (fun a t => returned (.ok a) t) fun e t => returned (.error e) t) :
    Yields (attempt x) s returned never := by
  rw [Yields] at h ⊢
  rw [Raising.attempt]
  cases hx : x s with
  | ok a t =>
      rw [hx] at h
      exact h
  | error e t =>
      rw [hx] at h
      exact h

-- A computation whose exception is handled.
theorem Yields.after_attempt {f : Except ε α → EStateM ε σ β} {returned : β → σ → Prop}
    (h : Yields x s (fun a t => Yields (f (.ok a)) t returned raised) fun e t =>
      Yields (f (.error e)) t returned raised) :
    Yields (Raising.attempt x >>= f) s returned raised :=
  Yields.bind (@Yields.attempt _ _ _ x s (fun found t => Yields (f found) t returned raised) raised h)
    fun _ _ h => h

theorem Yields.zoom {part : τ → σ} {put : τ → σ → τ} {s : τ} {returned : α → τ → Prop} {raised : ε → τ → Prop}
    (h : Yields x (part s) (fun a t => returned a (put s t)) fun e t => raised e (put s t)) :
    Yields (zoom part put x) s returned raised := by
  rw [Yields] at h ⊢
  rw [Raising.zoom]
  cases hx : x (part s) with
  | ok a t =>
      rw [hx] at h
      exact h
  | error e t =>
      rw [hx] at h
      exact h

theorem Yields.and {returned' : α → σ → Prop} {raised' : ε → σ → Prop} (h : Yields x s returned raised)
    (h' : Yields x s returned' raised') :
    Yields x s (fun a t => returned a t ∧ returned' a t) fun e t => raised e t ∧ raised' e t := by
  rw [Yields] at h h' ⊢
  cases hx : x s with
  | ok a t =>
      rw [hx] at h h'
      exact ⟨h, h'⟩
  | error e t =>
      rw [hx] at h h'
      exact ⟨h, h'⟩

theorem Yields.perform (h : Yields x s returned raised) :
    (∃ a t, perform x s = (.ok a, t) ∧ returned a t) ∨ ∃ e t, perform x s = (.error e, t) ∧ raised e t := by
  rw [Yields] at h
  rw [Raising.perform]
  cases hx : x s with
  | ok a t =>
      rw [hx] at h
      exact .inl ⟨a, t, rfl, h⟩
  | error e t =>
      rw [hx] at h
      exact .inr ⟨e, t, rfl, h⟩

theorem Yields.ok (h : Yields x s returned raised) {a : α} {t : σ} (hx : x s = .ok a t) : returned a t := by
  rwa [Yields, hx] at h

theorem Yields.error (h : Yields x s returned raised) {e : ε} {t : σ} (hx : x s = .error e t) : raised e t := by
  rwa [Yields, hx] at h

end

end Library.Raising
