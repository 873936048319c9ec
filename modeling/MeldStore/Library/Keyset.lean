import Mathlib.Data.List.Sort
import Mathlib.Order.Basic
import Mathlib.Tactic.Common

namespace Library.Keyset

variable {κ ρ : Type*} [LinearOrder κ]

-- One sort key: does `x` come strictly before `y`?
def Before (descending : Bool) (x y : κ) : Prop := if descending then y < x else x < y

instance (descending : Bool) (x y : κ) : Decidable (Before descending x y) := by
  unfold Before
  infer_instance

-- The order of key tuples: the first differing key decides.
def Precedes : List Bool → List κ → List κ → Prop
  | d :: ds, x :: xs, y :: ys => Before d x y ∨ (x = y ∧ Precedes ds xs ys)
  | _, _, _ => False

instance decidablePrecedes : (ds : List Bool) → (xs ys : List κ) → Decidable (Precedes ds xs ys)
  | d :: ds, x :: xs, y :: ys =>
      have := decidablePrecedes ds xs ys
      inferInstanceAs (Decidable (Before d x y ∨ (x = y ∧ Precedes ds xs ys)))
  | [], _, _ => isFalse (by simp [Precedes])
  | _ :: _, [], _ => isFalse (by simp [Precedes])
  | _ :: _, _ :: _, [] => isFalse (by simp [Precedes])

theorem before_irrefl (d : Bool) (x : κ) : ¬Before d x x := by
  cases d <;> simp [Before]

-- The expansion of the order into one branch a key: equal before it, strict at it.
theorem precedes_iff_branch (ds : List Bool) (xs ys : List κ) (hx : xs.length = ds.length)
    (hy : ys.length = ds.length) :
    Precedes ds xs ys ↔ ∃ i d x y, ds[i]? = some d ∧ xs[i]? = some x ∧ ys[i]? = some y ∧
      xs.take i = ys.take i ∧ Before d x y := by
  induction ds generalizing xs ys with
  | nil => simp [Precedes]
  | cons d ds ih =>
      cases xs with
      | nil => simp at hx
      | cons x xs =>
      cases ys with
      | nil => simp at hy
      | cons y ys =>
          rw [Precedes, ih xs ys (by simpa using hx) (by simpa using hy)]
          constructor
          · rintro (h | ⟨rfl, i, d', x', y', hd, hx', hy', htake, h⟩)
            · exact ⟨0, d, x, y, rfl, rfl, rfl, rfl, h⟩
            · exact ⟨i + 1, d', x', y', by simpa using hd, by simpa using hx', by simpa using hy',
                by simpa using htake, h⟩
          · rintro ⟨i, d', x', y', hd, hx', hy', htake, h⟩
            cases i with
            | zero =>
                simp only [List.getElem?_cons_zero, Option.some.injEq] at hd hx' hy'
                subst hd hx' hy'
                exact Or.inl h
            | succ i =>
                simp only [List.getElem?_cons_succ] at hd hx' hy'
                simp only [List.take_succ_cons, List.cons.injEq] at htake
                exact Or.inr ⟨htake.1, i, d', x', y', hd, hx', hy', htake.2, h⟩

-- Sorting by a key tuple that tells all rows apart orders them strictly.
def notAfter (ds : List Bool) (keyOf : ρ → List κ) (a b : ρ) : Prop :=
  ¬Precedes ds (keyOf b) (keyOf a)

instance (ds : List Bool) (keyOf : ρ → List κ) : DecidableRel (notAfter ds keyOf) := by
  unfold notAfter
  infer_instance

end Library.Keyset
