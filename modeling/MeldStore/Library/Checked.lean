import Mathlib.Data.List.Basic
import Mathlib.Data.List.Forall2
import Mathlib.Tactic.Common

namespace Library.Checked

universe u v

variable {ε : Type u} {α β σ : Type v}

-- A guard of a fallible computation: the whole computation fails with `error`
-- when the condition does not hold.
def require (condition : Prop) [Decidable condition] (error : ε) : Except ε PUnit.{v + 1} :=
  if condition then .ok ⟨⟩ else .error error

@[simp] theorem require_eq_ok (condition : Prop) [Decidable condition] (error : ε) (u : PUnit.{v + 1}) :
    require condition error = .ok u ↔ condition := by
  unfold require
  split <;> simp_all

theorem require_eq_error (condition : Prop) [Decidable condition] (error raised : ε) :
    (require condition error : Except ε PUnit.{v + 1}) = .error raised ↔ ¬condition ∧ error = raised := by
  unfold require
  split <;> simp_all

@[simp] theorem bind_eq_ok (first : Except ε α) (next : α → Except ε β) (result : β) :
    (first >>= next) = .ok result ↔ ∃ value, first = .ok value ∧ next value = .ok result := by
  cases first <;> simp [bind, Except.bind]

@[simp] theorem pure_eq_ok (value result : α) :
    (pure value : Except ε α) = .ok result ↔ value = result := by
  simp [pure, Except.pure]

@[simp] theorem throw_eq_ok (error : ε) (result : α) :
    (throw error : Except ε α) = .ok result ↔ False := by
  simp [throw, throwThe, MonadExceptOf.throw]

def fromOption (value : Option α) (error : ε) : Except ε α :=
  match value with
  | some found => .ok found
  | none => .error error

@[simp] theorem fromOption_eq_ok (value : Option α) (error : ε) (result : α) :
    fromOption value error = .ok result ↔ value = some result := by
  cases value <;> simp [fromOption]

-- The result of a computation, or the value before it.
def orElse (result : Except ε α) (before : α) : α :=
  match result with
  | .ok value => value
  | .error _ => before

theorem exists_of_isOk {result : Except ε α} (h : result.isOk = true) : ∃ value, result = .ok value := by
  cases result with
  | error e => cases h
  | ok value => exact ⟨value, rfl⟩

theorem orElse_of_isOk {result : Except ε α} (h : result.isOk = true) (before : α) :
    result = .ok (orElse result before) := by
  cases result with
  | ok value => rfl
  | error e => cases h

theorem bind_eq_error (first : Except ε α) (next : α → Except ε β) (raised : ε) :
    (first >>= next) = .error raised ↔
      first = .error raised ∨ ∃ value, first = .ok value ∧ next value = .error raised := by
  cases first <;> simp [bind, Except.bind]

-- A successful traversal, item by item.
theorem mapM_eq_ok (step : α → Except ε β) (items : List α) (results : List β) :
    items.mapM step = .ok results ↔ List.Forall₂ (fun item result => step item = .ok result) items results := by
  induction items generalizing results with
  | nil => rw [List.mapM_nil, pure_eq_ok, List.forall₂_nil_left_iff, eq_comm]
  | cons item rest ih =>
      rw [List.mapM_cons, bind_eq_ok, List.forall₂_cons_left_iff]
      constructor
      · rintro ⟨first, hfirst, h⟩
        obtain ⟨others, hothers, h⟩ := (bind_eq_ok _ _ _).mp h
        rw [pure_eq_ok] at h
        exact ⟨first, others, hfirst, (ih others).mp hothers, h.symm⟩
      · rintro ⟨first, others, hfirst, hothers, rfl⟩
        exact ⟨first, hfirst, by rw [(ih others).mpr hothers]; rfl⟩

theorem mapM_mem (step : α → Except ε β) (items : List α) (results : List β)
    (h : items.mapM step = .ok results) (item : α) (hitem : item ∈ items) :
    ∃ result ∈ results, step item = .ok result := by
  rw [mapM_eq_ok] at h
  induction h with
  | nil => simp at hitem
  | cons hstep _ ih =>
      rcases List.mem_cons.mp hitem with rfl | hmem
      · exact ⟨_, List.mem_cons_self, hstep⟩
      · obtain ⟨result, hresult, hs⟩ := ih hmem
        exact ⟨result, List.mem_cons_of_mem _ hresult, hs⟩

theorem mapM_mem_result (step : α → Except ε β) (items : List α) (results : List β)
    (h : items.mapM step = .ok results) (result : β) (hresult : result ∈ results) :
    ∃ item ∈ items, step item = .ok result := by
  rw [mapM_eq_ok] at h
  induction h with
  | nil => simp at hresult
  | cons hstep _ ih =>
      rcases List.mem_cons.mp hresult with rfl | hmem
      · exact ⟨_, List.mem_cons_self, hstep⟩
      · obtain ⟨item, hitem, hs⟩ := ih hmem
        exact ⟨item, List.mem_cons_of_mem _ hitem, hs⟩

theorem mapM_eq_map (step : α → Except ε β) (items : List α) (results : List β) (f : α → β)
    (h : items.mapM step = .ok results) (hf : ∀ item ∈ items, ∀ result, step item = .ok result →
      result = f item) :
    results = items.map f := by
  rw [mapM_eq_ok] at h
  induction h with
  | nil => rfl
  | cons hstep _ ih =>
      rw [List.map_cons, hf _ List.mem_cons_self _ hstep,
        ih fun item hitem => hf item (List.mem_cons_of_mem _ hitem)]

theorem mapM_eq_ok_map (step : α → Except ε β) (items : List α) (f : α → β)
    (h : ∀ item ∈ items, step item = .ok (f item)) : items.mapM step = .ok (items.map f) := by
  rw [mapM_eq_ok, List.forall₂_map_right_iff, List.forall₂_same]
  exact h

theorem mapM_observed {γ : Type*} {step : α → Except ε β} {items : List α} {results : List β}
    (f : α → γ) (g : β → γ) (h : items.mapM step = .ok results)
    (hstep : ∀ item ∈ items, ∀ result, step item = .ok result → g result = f item) :
    results.map g = items.map f := by
  rw [mapM_eq_ok] at h
  induction h with
  | nil => rfl
  | cons hfirst _ ih =>
      rw [List.map_cons, List.map_cons, hstep _ List.mem_cons_self _ hfirst,
        ih fun item hitem => hstep item (List.mem_cons_of_mem _ hitem)]

theorem exists_mapM {step : α → Except ε β} {items : List α}
    (h : ∀ item ∈ items, ∃ result, step item = .ok result) :
    ∃ results, items.mapM step = .ok results := by
  induction items with
  | nil => exact ⟨[], rfl⟩
  | cons item rest ih =>
      obtain ⟨first, hfirst⟩ := h item List.mem_cons_self
      obtain ⟨others, hothers⟩ := ih fun other hother => h other (List.mem_cons_of_mem _ hother)
      exact ⟨first :: others, by rw [List.mapM_cons, hfirst, hothers]; rfl⟩

-- A computation whose failures are all of an allowed kind.
def FailsOnly (allowed : ε → Prop) (run : Except ε α) : Prop := ∀ raised, run = .error raised → allowed raised

variable {allowed : ε → Prop}

@[simp] theorem FailsOnly.ok (result : α) : FailsOnly allowed (.ok result) := by
  rintro raised ⟨⟩

@[simp] theorem FailsOnly.pure (result : α) : FailsOnly allowed (pure result) := FailsOnly.ok result

theorem FailsOnly.error {raised : ε} (h : allowed raised) :
    FailsOnly allowed (.error raised : Except ε α) := by
  rintro _ ⟨⟩
  exact h

theorem FailsOnly.bind {first : Except ε α} {next : α → Except ε β} (hfirst : FailsOnly allowed first)
    (hnext : ∀ value, first = .ok value → FailsOnly allowed (next value)) :
    FailsOnly allowed (first >>= next) := by
  intro raised h
  rcases (bind_eq_error _ _ _).mp h with h | ⟨value, hvalue, h⟩
  · exact hfirst raised h
  · exact hnext value hvalue raised h

theorem FailsOnly.require {condition : Prop} [Decidable condition] {error : ε} (h : allowed error) :
    FailsOnly allowed (require condition error : Except ε PUnit.{v + 1}) := by
  intro raised hr
  exact ((require_eq_error _ _ _).mp hr).2 ▸ h

theorem FailsOnly.fromOption {value : Option α} {error : ε} (h : allowed error) :
    FailsOnly allowed (fromOption value error) := by
  intro raised hr
  cases value with
  | none =>
      cases hr
      exact h
  | some _ => cases hr

theorem FailsOnly.mapM {step : α → Except ε β} {items : List α}
    (h : ∀ item ∈ items, FailsOnly allowed (step item)) : FailsOnly allowed (items.mapM step) := by
  induction items with
  | nil => exact FailsOnly.pure _
  | cons item rest ih =>
      rw [List.mapM_cons]
      refine (h item List.mem_cons_self).bind fun _ _ => ?_
      exact (ih fun other hother => h other (List.mem_cons_of_mem _ hother)).bind
        fun _ _ => FailsOnly.pure _

-- A loop of fallible steps keeps every property each of its steps keeps.
theorem foldlM_invariant (property : σ → Prop) (step : σ → α → Except ε σ) (items : List α)
    (start finish : σ) (hrun : items.foldlM step start = .ok finish) (hstart : property start)
    (hstep : ∀ item ∈ items, ∀ before after, property before → step before item = .ok after →
      property after) :
    property finish := by
  induction items generalizing start with
  | nil =>
      simp only [List.foldlM_nil, pure_eq_ok] at hrun
      exact hrun ▸ hstart
  | cons item rest ih =>
      simp only [List.foldlM_cons, bind_eq_ok] at hrun
      obtain ⟨middle, hfirst, hrest⟩ := hrun
      have hmiddle := hstep item List.mem_cons_self start middle hstart hfirst
      exact ih middle hrest hmiddle fun other hother =>
        hstep other (List.mem_cons_of_mem _ hother)

-- A loop relates its first to its last state by every reflexive, transitive
-- relation that relates the states around each step.
theorem foldlM_relates (related : σ → σ → Prop) (step : σ → α → Except ε σ) (items : List α)
    (start finish : σ) (hrun : items.foldlM step start = .ok finish)
    (hrefl : ∀ state, related state state)
    (htrans : ∀ first second third, related first second → related second third →
      related first third)
    (hstep : ∀ item ∈ items, ∀ before after, step before item = .ok after →
      related before after) :
    related start finish :=
  foldlM_invariant (related start) step items start finish hrun (hrefl start)
    fun item hitem before after hb hs => htrans _ _ _ hb (hstep item hitem before after hs)

-- What holds after a fallible loop and not before it came with one of its items.
theorem foldlM_introduced (inv p : σ → Prop) (step : σ → α → Except ε σ) (items : List α)
    (start result : σ) (hrun : items.foldlM step start = .ok result) (hinv : inv start)
    (hstep : ∀ item before after, inv before → step before item = .ok after → inv after)
    (hstart : ¬p start) (hresult : p result) :
    ∃ item ∈ items, ∃ before after, inv before ∧ step before item = .ok after ∧ ¬p before ∧ p after := by
  induction items generalizing start with
  | nil =>
      rw [List.foldlM_nil, pure_eq_ok] at hrun
      exact absurd (hrun ▸ hresult) hstart
  | cons item rest ih =>
      rw [List.foldlM_cons, bind_eq_ok] at hrun
      obtain ⟨mid, hfirst, hrest⟩ := hrun
      by_cases hmid : p mid
      · exact ⟨item, List.mem_cons_self, start, mid, hinv, hfirst, hstart, hmid⟩
      · obtain ⟨other, hother, hfound⟩ := ih mid hrest (hstep item start mid hinv hfirst) hmid
        exact ⟨other, List.mem_cons_of_mem _ hother, hfound⟩

theorem except_ok_bind (value : α) (next : α → Except ε β) : (.ok value >>= next) = next value := rfl

theorem require_true {condition : Prop} [Decidable condition] (h : condition) (error : ε) :
    (require condition error : Except ε PUnit.{v + 1}) = .ok ⟨⟩ := if_pos h

end Library.Checked
