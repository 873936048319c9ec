import Mathlib.Algebra.Order.Field.Rat
import Mathlib.Algebra.Order.Ring.Cast
import Mathlib.Data.Prod.Lex
import Mathlib.Data.List.Lex
import Mathlib.Data.String.Basic
import Mathlib.Tactic.Common

namespace MeldStore

-- A SQLite value. A finite double is its exact rational value; infinities and
-- NaN never reach a metadata column (normalize and the column CHECK refuse them).
inductive Value
  | null
  | int (i : Int)
  | real (q : Rat)
  | text (s : String)
  | blob (bytes : List UInt8)
deriving DecidableEq, Repr

-- SQL's truth values: `none` is NULL. A WHERE or WHEN clause takes effect only
-- when it is true; a CHECK fails only when it is false.
abbrev Truth := Option Bool

namespace Truth

def and : Truth → Truth → Truth
  | some false, _ => some false
  | _, some false => some false
  | some true, some true => some true
  | _, _ => none

def or : Truth → Truth → Truth
  | some true, _ => some true
  | _, some true => some true
  | some false, some false => some false
  | _, _ => none

def not : Truth → Truth
  | some b => some !b
  | none => none

def holds : Truth → Bool
  | some true => true
  | _ => false

@[simp] theorem holds_some (b : Bool) : holds (some b) = b := by cases b <;> rfl

@[simp] theorem holds_none : holds none = false := rfl

@[simp] theorem holds_and (a b : Truth) : (and a b).holds = (a.holds && b.holds) := by
  rcases a with _ | (_ | _) <;> rcases b with _ | (_ | _) <;> rfl

@[simp] theorem holds_or (a b : Truth) : (or a b).holds = (a.holds || b.holds) := by
  rcases a with _ | (_ | _) <;> rcases b with _ | (_ | _) <;> rfl

@[simp] theorem and_some (a b : Bool) : and (some a) (some b) = some (a && b) := by
  cases a <;> cases b <;> rfl

@[simp] theorem or_some (a b : Bool) : or (some a) (some b) = some (a || b) := by
  cases a <;> cases b <;> rfl

@[simp] theorem not_some (b : Bool) : not (some b) = some !b := rfl

end Truth

namespace Value

-- SQLite orders NULL before numbers, numbers before text, and text before
-- blobs; text and blobs compare bytewise (code points for valid UTF-8). Cells
-- are compared after column affinity, so an integer and an equal real never
-- meet; the third component only keeps the order antisymmetric there.
def key : Value → ℕ ×ₗ Rat ×ₗ ℕ ×ₗ String ×ₗ List ℕ
  | null => toLex (0, toLex (0, toLex (0, toLex ("", []))))
  | int i => toLex (1, toLex (i, toLex (0, toLex ("", []))))
  | real q => toLex (1, toLex (q, toLex (1, toLex ("", []))))
  | text s => toLex (2, toLex (0, toLex (0, toLex (s, []))))
  | blob b => toLex (3, toLex (0, toLex (0, toLex ("", b.map UInt8.toNat))))

theorem key_injective : Function.Injective key := by
  intro a b h
  cases a <;> cases b <;> simp_all [key]
  rename_i a b
  exact List.map_injective_iff.mpr (fun x y hxy => UInt8.toNat_inj.mp hxy) h

instance : LinearOrder Value := LinearOrder.lift' key key_injective

def isNull : Value → Bool
  | null => true
  | _ => false

@[simp] theorem isNull_iff (v : Value) : v.isNull = true ↔ v = null := by cases v <;> simp [isNull]

private def compared (a b : Value) (test : Bool) : Truth :=
  if a.isNull || b.isNull then none else some test

def eq (a b : Value) : Truth := compared a b (a = b)
def ne (a b : Value) : Truth := compared a b (a ≠ b)
def lt (a b : Value) : Truth := compared a b (a < b)
def le (a b : Value) : Truth := compared a b (a ≤ b)
def gt (a b : Value) : Truth := compared a b (b < a)
def ge (a b : Value) : Truth := compared a b (b ≤ a)

-- IS and IS NOT are never NULL.
def is (a b : Value) : Truth := some (a = b)
def isNot (a b : Value) : Truth := some (a ≠ b)

@[simp] theorem eq_text (a b : String) : eq (.text a) (.text b) = some (decide (a = b)) := by
  simp [eq, compared, isNull]

@[simp] theorem ne_text (a b : String) : ne (.text a) (.text b) = some (decide (a ≠ b)) := by
  simp [ne, compared, isNull]

@[simp] theorem eq_int (a b : Int) : eq (.int a) (.int b) = some (decide (a = b)) := by
  simp [eq, compared, isNull]

@[simp] theorem ne_int (a b : Int) : ne (.int a) (.int b) = some (decide (a ≠ b)) := by
  simp [ne, compared, isNull]

theorem eq_of_ne_null {a b : Value} (ha : a ≠ null) (hb : b ≠ null) :
    eq a b = some (decide (a = b)) := by
  simp [eq, compared, ha, hb]

theorem int_le_int (a b : Int) : Value.int a ≤ Value.int b ↔ a ≤ b := by
  rw [le_iff_lt_or_eq, le_iff_lt_or_eq]
  change key _ < key _ ∨ _ ↔ _
  simp [key, Prod.Lex.toLex_lt_toLex]

theorem holds_eq (a b : Value) : (eq a b).holds = true ↔ a = b ∧ a ≠ null := by
  unfold eq compared
  split
  · simp_all
    rintro rfl
    tauto
  · simp_all

theorem holds_ne (a b : Value) : (ne a b).holds = true ↔ a ≠ b ∧ a ≠ null ∧ b ≠ null := by
  unfold ne compared
  split
  · simp_all
    tauto
  · simp_all

theorem holds_lt (a b : Value) : (lt a b).holds = true ↔ a < b ∧ a ≠ null ∧ b ≠ null := by
  unfold lt compared
  split
  · simp_all
    tauto
  · simp_all

theorem holds_le (a b : Value) : (le a b).holds = true ↔ a ≤ b ∧ a ≠ null ∧ b ≠ null := by
  unfold le compared
  split
  · simp_all
    tauto
  · simp_all

theorem gt_eq_lt (a b : Value) : gt a b = lt b a := by
  simp only [gt, lt, compared, Bool.or_comm]

theorem ge_eq_le (a b : Value) : ge a b = le b a := by
  simp only [ge, le, compared, Bool.or_comm]

theorem null_lt (v : Value) (h : v ≠ null) : null < v := by
  change key null < key v
  cases v <;> simp_all [key, Prod.Lex.toLex_lt_toLex]

theorem not_lt_null (v : Value) : ¬v < null := by
  intro h
  by_cases hv : v = null
  · exact lt_irrefl _ (hv ▸ h)
  · exact lt_asymm h (null_lt v hv)

-- Python's == on the values a row is read back as: an int and a float are
-- compared as numbers.
def pyEq : Value → Value → Bool
  | int i, real q => (i : Rat) = q
  | real q, int i => q = (i : Rat)
  | a, b => a = b

@[simp] theorem pyEq_refl (a : Value) : pyEq a a = true := by cases a <;> simp [pyEq]

end Value

-- A non-null cell of a TEXT column. Column affinity turns every number into
-- text, so what remains is text or, when no CHECK forbids it, a blob.
inductive TextCell
  | text (s : String)
  | blob (bytes : List UInt8)
deriving DecidableEq, Repr

namespace TextCell

def value : TextCell → Value
  | text s => .text s
  | blob b => .blob b

theorem value_injective : Function.Injective value := by
  intro a b h
  cases a <;> cases b <;> simp_all [value]

@[simp] theorem value_inj (a b : TextCell) : a.value = b.value ↔ a = b := value_injective.eq_iff

@[simp] theorem value_ne_null (a : TextCell) : a.value ≠ .null := by cases a <;> simp [value]

instance : LinearOrder TextCell := LinearOrder.lift' value value_injective

def ofValue : Value → Option TextCell
  | .text s => some (text s)
  | .blob b => some (blob b)
  | _ => none

@[simp] theorem ofValue_value (a : TextCell) : ofValue a.value = some a := by cases a <;> rfl

def text? : TextCell → Option String
  | text s => some s
  | blob _ => none

theorem text?_eq_some (a : TextCell) (s : String) : a.text? = some s ↔ a = text s := by
  cases a <;> simp [text?]

theorem ofValue_eq_some (v : Value) (a : TextCell) : ofValue v = some a ↔ v = a.value := by
  cases v <;> cases a <;> simp [ofValue, value]

end TextCell

end MeldStore
