import Mathlib.Data.List.Lex
import Mathlib.Data.String.Basic
import Mathlib.Order.Basic
import Mathlib.Tactic.Common

namespace Library.Utf8

-- What is said of the characters of a text is decided along the text, and not for every character there is.
instance (priority := 2000) decidableChars (p : Char → Prop) [DecidablePred p] (text : List Char) :
    Decidable (∀ c ∈ text, p c) :=
  List.decidableBAll p text

-- Encodings that keep an order: whatever follows, the encoding of a smaller item comes
-- before that of a larger one.

section

variable {α β : Type*} [LinearOrder α] [LinearOrder β]

structure Ordered (encode : α → List β) : Prop where
  ne_nil : ∀ a, encode a ≠ []
  lt : ∀ {a b : α}, a < b → ∀ rest rest', encode a ++ rest < encode b ++ rest'

theorem flatMap_lt_of_lt {encode : α → List β} (h : Ordered encode) {l m : List α} (hlt : l < m) :
    l.flatMap encode < m.flatMap encode := by
  induction l generalizing m with
  | nil =>
      cases m with
      | nil => exact absurd hlt (lt_irrefl _)
      | cons b m =>
          rw [List.flatMap_nil, List.flatMap_cons]
          cases hb : encode b with
          | nil => exact absurd hb (h.ne_nil b)
          | cons first rest => exact List.nil_lt_cons _ _
  | cons a l ih =>
      cases m with
      | nil => exact absurd hlt (List.not_lt_nil _)
      | cons b m =>
          rw [List.flatMap_cons, List.flatMap_cons]
          rcases List.cons_lt_cons_iff.mp hlt with hab | ⟨rfl, hrest⟩
          · exact h.lt hab _ _
          · exact List.append_left_lt (ih hrest)

-- Texts compare as their encodings do.
theorem flatMap_lt_iff {encode : α → List β} (h : Ordered encode) (l m : List α) :
    l.flatMap encode < m.flatMap encode ↔ l < m := by
  refine ⟨fun hlt => ?_, flatMap_lt_of_lt h⟩
  rcases lt_trichotomy l m with hlm | rfl | hml
  · exact hlm
  · exact absurd hlt (lt_irrefl _)
  · exact absurd hlt (lt_asymm (flatMap_lt_of_lt h hml))

theorem Ordered.comp {γ : Type*} [LinearOrder γ] {encode : α → List β} (h : Ordered encode) {f : γ → α}
    (hf : StrictMono f) : Ordered fun c => encode (f c) :=
  ⟨fun c => h.ne_nil (f c), fun hlt => h.lt (hf hlt)⟩

-- Texts of one width compare by their first parts, then by the rest.
theorem append_lt_append_iff {l l' : List α} (hlength : l.length = l'.length) (rest rest' : List α) :
    l ++ rest < l' ++ rest' ↔ l < l' ∨ l = l' ∧ rest < rest' := by
  induction l generalizing l' with
  | nil =>
      cases List.eq_nil_of_length_eq_zero hlength.symm
      simp
  | cons a l ih =>
      cases l' with
      | nil => cases hlength
      | cons b l' =>
          simp only [List.cons_append, List.cons_lt_cons_iff, ih (Nat.succ.inj hlength), List.cons.injEq]
          tauto

end

-- The bytes of a code point.
def encode (n : ℕ) : List ℕ :=
  if n < 0x80 then [n]
  else if n < 0x800 then [0xc0 + n / 64, 0x80 + n % 64]
  else if n < 0x10000 then [0xe0 + n / 4096, 0x80 + n / 64 % 64, 0x80 + n % 64]
  else [0xf0 + n / 262144, 0x80 + n / 4096 % 64, 0x80 + n / 64 % 64, 0x80 + n % 64]

theorem encode_ordered : Ordered encode := by
  refine ⟨fun n => ?_, fun {m n} hlt rest rest' => ?_⟩
  · rw [encode]
    split_ifs <;> exact List.cons_ne_nil _ _
  · rw [encode, encode]
    split_ifs
    all_goals simp only [List.cons_append, List.nil_append, List.cons_lt_cons_iff]
    all_goals omega

-- Bytewise order of texts is the order of their code points.
theorem bytes_lt_iff {α : Type*} [LinearOrder α] {f : α → ℕ} (hf : StrictMono f) (s t : List α) :
    (s.flatMap fun c => encode (f c)) < (t.flatMap fun c => encode (f c)) ↔ s < t :=
  flatMap_lt_iff (encode_ordered.comp hf) s t

-- It is the encoding of Lean's own strings.
theorem utf8EncodeChar_eq (c : Char) : (String.utf8EncodeChar c).map UInt8.toNat = encode c.toNat := by
  have hvalid := c.valid
  simp only [UInt32.isValidChar, Nat.isValidChar] at hvalid
  have hnat : c.toNat = c.val.toNat := rfl
  simp only [String.utf8EncodeChar, encode, hnat]
  split_ifs
  all_goals first | omega | skip
  all_goals simp only [List.map_cons, List.map_nil, UInt8.toNat_ofNat', List.cons.injEq, and_true]
  all_goals omega

-- The bytes of a Lean string as a list.

theorem toList_loop (bytes : ByteArray) (i : ℕ) (read : List UInt8) :
    ByteArray.toList.loop bytes i read = read.reverse ++ bytes.data.toList.drop i := by
  fun_induction ByteArray.toList.loop bytes i read with
  | case1 i read hlt ih =>
      have hlength : i < bytes.data.toList.length := hlt
      have hget : bytes.get! i = bytes.data.toList[i] := by
        show bytes.data[i]! = _
        rw [getElem!_pos bytes.data i hlt, Array.getElem_toList]
      rw [ih, List.reverse_cons, List.append_assoc, List.singleton_append, hget, List.getElem_cons_drop]
  | case2 i read hge => rw [List.drop_eq_nil_of_le (Nat.le_of_not_lt hge), List.append_nil]

theorem toList_eq (bytes : ByteArray) : bytes.toList = bytes.data.toList := toList_loop bytes 0 []

theorem toUTF8_injective {s t : String} (h : s.toUTF8.toList = t.toUTF8.toList) : s = t := by
  rw [toList_eq, toList_eq] at h
  exact String.toByteArray_inj.mp (ByteArray.ext (Array.toList_inj.mp h))

end Library.Utf8
