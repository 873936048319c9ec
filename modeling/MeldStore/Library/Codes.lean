import Mathlib.Data.Int.Notation
import Mathlib.Data.List.Basic
import Mathlib.Tactic.Common

namespace Library.Codes

variable {α β : Type*}

-- Blocks of one width

theorem flatMap_injective {block : α → List β} {width : ℕ} (hwidth : ∀ a, (block a).length = width + 1)
    (hinj : Function.Injective block) : Function.Injective fun l : List α => l.flatMap block := by
  have hne (a : α) : block a ≠ [] := fun hnil => by
    have hlength := hwidth a
    rw [hnil] at hlength
    cases hlength
  intro l m h
  induction l generalizing m with
  | nil =>
      cases m with
      | nil => rfl
      | cons b m => exact absurd (List.append_eq_nil_iff.mp h.symm).1 (hne b)
  | cons a l ih =>
      cases m with
      | nil => exact absurd (List.append_eq_nil_iff.mp h).1 (hne a)
      | cons b m =>
          obtain ⟨hfirst, hrest⟩ := List.append_inj h ((hwidth a).trans (hwidth b).symm)
          rw [hinj hfirst, ih hrest]

-- A text ends before its first delimiter, or with the end of the input.

def Delimits (d : α) (rest : List α) : Prop := rest = [] ∨ ∃ tail, rest = d :: tail

theorem takeWhile_delimited [DecidableEq α] {d : α} {text rest : List α} (htext : d ∉ text)
    (hrest : Delimits d rest) :
    (text ++ rest).takeWhile (fun c => c ≠ d) = text := by
  have hall : ∀ c ∈ text, decide (c ≠ d) = true := fun c hc => decide_eq_true fun heq => htext (heq ▸ hc)
  rw [List.takeWhile_append_of_pos hall]
  rcases hrest with rfl | ⟨tail, rfl⟩
  · exact List.append_nil text
  · rw [List.takeWhile_cons_of_neg (by simp), List.append_nil]

theorem delimited_inj {d : α} {a b s t : List α} (ha : d ∉ a) (hb : d ∉ b) (hs : Delimits d s)
    (ht : Delimits d t) (h : a ++ s = b ++ t) : a = b ∧ s = t := by
  classical
  have hab : a = b := by rw [← takeWhile_delimited ha hs, h, takeWhile_delimited hb ht]
  exact ⟨hab, List.append_cancel_left (hab ▸ h)⟩

-- Decimal numbers

theorem toString_nat_injective : Function.Injective fun n : ℕ => toString n := by
  intro m n h
  have hdigits : Nat.toDigits 10 m = Nat.toDigits 10 n := by
    simpa only [Nat.toString_eq_repr, Nat.toList_repr] using congrArg String.toList h
  simpa using congrArg (fun digits => Nat.ofDigitChars 10 digits 0) hdigits

theorem isDigit_of_mem_toString {n : ℕ} {c : Char} (h : c ∈ (toString n).toList) : c.isDigit = true := by
  rw [Nat.toString_eq_repr, Nat.toList_repr] at h
  exact Nat.isDigit_of_mem_toDigits (by decide) (by decide) h

theorem toString_negSucc (n : ℕ) : toString (Int.negSucc n) = "-" ++ toString (n + 1) := rfl

-- A sign and digits, for an integer.
theorem mem_toString_int {i : ℤ} {c : Char} (h : c ∈ (toString i).toList) : c.isDigit = true ∨ c = '-' := by
  cases i with
  | ofNat n => exact .inl (isDigit_of_mem_toString h)
  | negSucc n =>
      rw [toString_negSucc, String.toList_append] at h
      rcases List.mem_append.mp h with hsign | hdigit
      · exact .inr (List.mem_singleton.mp hsign)
      · exact .inl (isDigit_of_mem_toString hdigit)

theorem toString_int_injective : Function.Injective fun i : ℤ => toString i := by
  have hne (m n : ℕ) : toString m ≠ "-" ++ toString n := fun h => by
    have hsign : '-' ∈ (toString m).toList := by
      rw [h, String.toList_append]
      exact List.mem_append_left _ List.mem_cons_self
    exact absurd (isDigit_of_mem_toString hsign) (by decide)
  intro i j h
  cases i with
  | ofNat m =>
      cases j with
      | ofNat n => exact congrArg Int.ofNat (toString_nat_injective h)
      | negSucc n => exact absurd h (hne m (n + 1))
  | negSucc m =>
      cases j with
      | ofNat n => exact absurd h.symm (hne n (m + 1))
      | negSucc n =>
          have htail : toString (m + 1) = toString (n + 1) := by
            have hlist : (toString (Int.negSucc m)).toList = (toString (Int.negSucc n)).toList :=
              congrArg String.toList h
            rw [toString_negSucc, toString_negSucc, String.toList_append, String.toList_append] at hlist
            exact String.toList_inj.mp (List.append_cancel_left hlist)
          exact congrArg Int.negSucc (Nat.succ.inj (toString_nat_injective htail))

end Library.Codes
