import MeldStore.Scope

namespace MeldStore

open Library.Raising

namespace Scope

variable {ω ρ α : Type}

namespace Connection

-- What a call of the connection can do.

def tick (c : Connection ω ρ) : Connection ω ρ := { c with clock := c.clock + 1 }

theorem react_yields (c : Connection ω ρ) {raised : Raised → Connection ω ρ → Prop} :
    Yields react c (fun reaction d => reaction = c.reactions c.clock ∧ d = c.tick) raised := ⟨rfl, rfl⟩

theorem isOpen_yields (c : Connection ω ρ) {raised : Raised → Connection ω ρ → Prop} :
    Yields isOpen c (fun found d => found = c.pending.isSome ∧ c = d) raised := ⟨rfl, rfl⟩

theorem settle_cases (reaction : Reaction ω ρ) (effect : Connection ω ρ → Connection ω ρ) (c : Connection ω ρ) :
    (reaction.raised = none → settle reaction effect c = effect c) ∧
      (settle reaction effect c = c ∨ settle reaction effect c = effect c ∨
        settle reaction effect c = { c with pending := none }) := by
  rw [settle]
  cases reaction.raised with
  | none => exact ⟨fun _ => rfl, .inr (.inl rfl)⟩
  | some e =>
      refine ⟨nofun, ?_⟩
      cases reaction.effect with
      | nothing => exact .inl rfl
      | applied => exact .inr (.inl rfl)
      | ended => exact .inr (.inr rfl)

theorem control_yields (requires : Bool) (text : String) (effect : Connection ω ρ → Connection ω ρ)
    (c : Connection ω ρ) :
    Yields (control requires text effect) c (fun _ d => c.pending.isSome = requires ∧ d = effect c.tick)
    fun _ d =>
      d = c.tick ∨ c.pending.isSome = requires ∧ (d = effect c.tick ∨ d = { c.tick with pending := none }) := by
  rw [control]
  refine Yields.bind (react_yields c) ?_
  rintro _ _ ⟨rfl, rfl⟩
  refine Yields.bind (isOpen_yields c.tick) ?_
  rintro _ _ ⟨rfl, rfl⟩
  refine Yields.after_demand (fun _ => .inl rfl) fun hrequires => Yields.after_modify ?_
  obtain ⟨hreturned, hcases⟩ := settle_cases (c.reactions c.clock) effect c.tick
  refine Yields.of_raiseAny (fun hnone => ⟨hrequires, hreturned hnone⟩) fun e _ => ?_
  rcases hcases with hsame | hdone
  · exact .inl hsame
  · exact .inr ⟨hrequires, hdone⟩

-- What stays as it is, but for the query-only state, and for the open transaction.
def Same (c d : Connection ω ρ) : Prop := d.durable = c.durable ∧ d.pending = c.pending

theorem begin_yields (c : Connection ω ρ) :
    Yields begin c (fun _ d => d.durable = c.durable ∧ d.pending = some [] ∧ d.readOnly = c.readOnly) fun _ d =>
      d.durable = c.durable ∧ d.readOnly = c.readOnly := by
  refine (control_yields false _ _ c).mono ?_ ?_
  · rintro _ d ⟨-, rfl⟩
    exact ⟨rfl, rfl, rfl⟩
  · rintro _ d (rfl | ⟨-, rfl | rfl⟩) <;> exact ⟨rfl, rfl⟩

theorem commit_yields (c : Connection ω ρ) :
    Yields commit c
      (fun _ d => ∃ writes, c.pending = some writes ∧ d.durable = c.durable ++ writes ∧ d.pending = none ∧
        d.readOnly = c.readOnly)
      fun _ d => d.durable = c.durable ∨ d.durable = c.durable ++ c.pending.getD [] := by
  refine (control_yields true _ _ c).mono ?_ ?_
  · rintro _ d ⟨hopen, rfl⟩
    obtain ⟨writes, hwrites⟩ := Option.isSome_iff_exists.mp hopen
    refine ⟨writes, hwrites, ?_, rfl, rfl⟩
    simp only [tick, hwrites, Option.getD_some]
  · rintro _ d (rfl | ⟨-, rfl | rfl⟩)
    · exact .inl rfl
    · exact .inr rfl
    · exact .inl rfl

theorem rollback_yields (c : Connection ω ρ) :
    Yields rollback c (fun _ d => d.durable = c.durable ∧ d.pending = none ∧ d.readOnly = c.readOnly) fun _ d =>
      d.durable = c.durable := by
  refine (control_yields true _ _ c).mono ?_ ?_
  · rintro _ d ⟨-, rfl⟩
    exact ⟨rfl, rfl, rfl⟩
  · rintro _ d (rfl | ⟨-, rfl | rfl⟩) <;> rfl

theorem queryOnly_yields (c : Connection ω ρ) :
    Yields queryOnly c (fun found d => found = c.readOnly ∧ d = c.tick) fun _ d => d = c.tick := by
  rw [queryOnly]
  refine Yields.bind (react_yields c) ?_
  rintro _ _ ⟨rfl, rfl⟩
  exact Yields.after_raiseAny (fun _ _ => rfl) fun _ => Yields.after_get ⟨rfl, rfl⟩

theorem setQueryOnly_yields (enabled : Bool) (c : Connection ω ρ) :
    Yields (setQueryOnly enabled) c (fun _ d => Same c d ∧ d.readOnly = enabled) fun _ d => Same c d := by
  rw [setQueryOnly]
  refine Yields.bind (react_yields c) ?_
  rintro _ _ ⟨rfl, rfl⟩
  refine Yields.after_modify ?_
  have hset : Same c (if (c.reactions c.clock).effect = .applied then { c.tick with readOnly := enabled }
    else c.tick) := by
    split_ifs <;> exact ⟨rfl, rfl⟩
  refine Yields.after_raiseAny (fun _ _ => hset) fun _ => ?_
  refine Yields.bind ((queryOnly_yields _).mono (fun _ _ h => h) fun _ _ h => h ▸ hset) ?_
  rintro _ _ ⟨rfl, rfl⟩
  exact Yields.of_demand (fun h => ⟨hset, h⟩) fun _ => hset

theorem execute_yields {statement : String} (hplain : Gate.controls statement = false) {c : Connection ω ρ}
    {writes : List ω} (h : c.pending = some writes) :
    Yields (execute statement) c
      (fun _ d => d.durable = c.durable ∧ d.readOnly = c.readOnly ∧
        ∃ more, d.pending = some (writes ++ more) ∧ (c.readOnly = true → more = []))
      fun _ d => d.durable = c.durable ∧ d.readOnly = c.readOnly := by
  rw [execute]
  refine Yields.bind (react_yields c) ?_
  rintro _ _ ⟨rfl, rfl⟩
  rw [if_neg (by rw [hplain]; decide)]
  refine Yields.after_get (Yields.after_demand (fun _ => ⟨rfl, rfl⟩) fun hwrites => Yields.after_modify ?_)
  obtain ⟨hreturned, hcases⟩ := settle_cases (c.reactions c.clock) (write (c.reactions c.clock).writes) c.tick
  have hwrite : write (c.reactions c.clock).writes c.tick =
      { c.tick with pending := some (writes ++ (c.reactions c.clock).writes) } := by
    rw [write, show c.tick.pending = some writes from h]
  rw [hwrite] at hreturned hcases
  refine Yields.after_raiseAny (fun _ _ => ?_) fun hnone => ?_
  · rcases hcases with hsame | hsame | hsame <;> rw [hsame] <;> exact ⟨rfl, rfl⟩
  · rw [hreturned hnone]
    exact ⟨rfl, rfl, _, rfl, fun hread => List.isEmpty_iff.mp (hwrites hread)⟩

end Connection

end Scope

end MeldStore
