import Mathlib.Logic.Relation

namespace Library.Runs

variable {σ ω : Type*} {step : σ → σ → Prop}

-- A run of any length is the reflexive and transitive closure of one step.
abbrev Run (step : σ → σ → Prop) : σ → σ → Prop := Relation.ReflTransGen step

-- What every step keeps, every run keeps.
theorem invariant (inv : σ → Prop) (hstep : ∀ s t, inv s → step s t → inv t) {s t : σ}
    (hrun : Run step s t) (hs : inv s) : inv t := by
  induction hrun with
  | refl => exact hs
  | tail _ h ih => exact hstep _ _ ih h

-- A relation between the ends of every step that composes holds between the ends
-- of every run.
theorem relates (inv : σ → Prop) (related : σ → σ → Prop)
    (hinv : ∀ s t, inv s → step s t → inv t) (hrefl : ∀ s, related s s)
    (htrans : ∀ s t u, related s t → related t u → related s u)
    (hstep : ∀ s t, inv s → step s t → related s t) {s t : σ} (hrun : Run step s t) (hs : inv s) :
    related s t := by
  have hboth : related s t ∧ inv t := by
    induction hrun with
    | refl => exact ⟨hrefl s, hs⟩
    | tail _ h ih => exact ⟨htrans _ _ _ ih.1 (hstep _ _ ih.2 h), hinv _ _ ih.2 h⟩
  exact hboth.1

-- What is observed of a state moves along a run as it moves along each step.
theorem observes (inv : σ → Prop) (observed : σ → ω → Prop) (move : ω → ω → Prop)
    (hinv : ∀ s t, inv s → step s t → inv t)
    (hmove : ∀ s t a, inv s → step s t → observed s a → ∃ b, observed t b ∧ (b = a ∨ move a b))
    {s t : σ} (hrun : Run step s t) (hs : inv s) {a : ω} (ha : observed s a) :
    ∃ b, observed t b ∧ Relation.ReflTransGen move a b := by
  have hboth : (∃ b, observed t b ∧ Relation.ReflTransGen move a b) ∧ inv t := by
    induction hrun with
    | refl => exact ⟨⟨a, ha, .refl⟩, hs⟩
    | tail _ h ih =>
        obtain ⟨⟨b, hb, hab⟩, hmid⟩ := ih
        obtain ⟨c, hc, hbc⟩ := hmove _ _ b hmid h hb
        refine ⟨⟨c, hc, ?_⟩, hinv _ _ hmid h⟩
        rcases hbc with rfl | hstep
        · exact hab
        · exact hab.tail hstep
  exact hboth.1

-- What holds after a run and not before it came with one of its steps.
theorem introduced (p : σ → Prop) {s t : σ} (hrun : Run step s t) (hs : ¬p s) (ht : p t) :
    ∃ u v, Run step s u ∧ step u v ∧ Run step v t ∧ ¬p u ∧ p v := by
  induction hrun with
  | refl => exact absurd ht hs
  | tail hmid hstep ih =>
      rename_i u v
      by_cases hu : p u
      · obtain ⟨a, b, hsa, hab, hbu, hna, hpb⟩ := ih hu
        exact ⟨a, b, hsa, hab, hbu.tail hstep, hna, hpb⟩
      · exact ⟨u, v, hmid, hstep, .refl, hu, ht⟩

end Library.Runs
