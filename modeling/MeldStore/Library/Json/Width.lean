import MeldStore.Library.Json.Printing

namespace Library.Json

-- The bytes of a text in UTF-8.
def width (text : List Char) : ℕ := (text.map Char.utf8Size).sum

@[simp] theorem width_nil : width [] = 0 := rfl

@[simp] theorem width_cons (c : Char) (text : List Char) : width (c :: text) = c.utf8Size + width text := by
  simp [width]

@[simp] theorem width_append (text rest : List Char) : width (text ++ rest) = width text + width rest := by
  simp [width]

theorem utf8ByteSize_ofList (text : List Char) : (String.ofList text).utf8ByteSize = width text := by
  induction text with
  | nil => rfl
  | cons c text ih =>
      have hone : (String.ofList [c]).utf8ByteSize = width [c] := by
        rw [← String.singleton_eq_ofList, String.utf8ByteSize_singleton]
        simp
      rw [← List.singleton_append, String.ofList_append, String.utf8ByteSize_append, ih, width_append, hone]

theorem width_toList (s : String) : width s.toList = s.utf8ByteSize := by
  rw [← utf8ByteSize_ofList, String.ofList_toList]

theorem width_escapeUnit (n : ℕ) : width (escapeUnit n) = 6 := by
  have hall : ∀ m < 16, (Nat.digitChar m).utf8Size = 1 := by decide
  have hhex : ∀ m, (hexChar m).utf8Size = 1 := fun m => hall _ (Nat.mod_lt _ (by decide))
  simp [escapeUnit, hhex]
  decide

-- The longest escape of a character takes six bytes for each of its own.
theorem width_escapeCodePoint (c : Char) : width (escapeCodePoint c.toNat) ≤ 6 * c.utf8Size := by
  have hpos := c.utf8Size_pos
  have hshort : ∀ e : Char, width ['\\', e] ≤ 1 + 4 := fun e => Nat.add_le_add_left (e.utf8Size_le_four) 1
  have hplain : width [Char.ofNat c.toNat] ≤ 6 * c.utf8Size := by
    rw [Char.ofNat_toNat]
    simp
    omega
  unfold escapeCodePoint
  split_ifs with _ _ _ _ _ _ _ _ hsmall
  iterate 7 exact (hshort _).trans (by omega)
  · exact hplain
  · rw [width_escapeUnit]
    omega
  · have hfour : c.utf8Size = 4 := by
      rw [Char.utf8Size_eq_four_iff]
      show 0xffff < c.toNat
      omega
    rw [width_append, width_escapeUnit, width_escapeUnit, hfour]
    decide

theorem width_quoted (s : String) : width (quoted (ofString s)) ≤ 6 * s.utf8ByteSize + 2 := by
  have hescapes : ∀ text : List Char, width ((text.map Char.toNat).flatMap escapeCodePoint) ≤
    6 * width text := by
    intro text
    induction text with
    | nil => exact Nat.zero_le _
    | cons c text ih =>
        have hc := width_escapeCodePoint c
        rw [List.map_cons, List.flatMap_cons, width_append, width_cons]
        omega
  have hs := hescapes s.toList
  rw [width_toList] at hs
  rw [quoted, width_append, width_cons, ofString]
  have hquote : '"'.utf8Size = 1 := rfl
  simp only [width_cons, width_nil, hquote]
  omega

-- A character that is written as it is.
def isPlain (c : Char) : Bool := 32 ≤ c.toNat && c.toNat ≤ 126 && c != '"' && c != '\\'

theorem escapeCodePoint_plain {c : Char} (h : isPlain c = true) : escapeCodePoint c.toNat = [c] := by
  simp only [isPlain, Bool.and_eq_true, decide_eq_true_eq, bne_iff_ne, ne_eq] at h
  obtain ⟨⟨⟨hlow, hhigh⟩, hquote⟩, hslash⟩ := h
  have hne : ∀ n, c ≠ Char.ofNat n → c.toNat ≠ n := by
    rintro n hc rfl
    exact hc (Char.ofNat_toNat c).symm
  rw [escapeCodePoint, if_neg (hne 34 hquote), if_neg (hne 92 hslash), if_neg (by omega), if_neg (by omega),
    if_neg (by omega), if_neg (by omega), if_neg (by omega), if_pos ⟨hlow, hhigh⟩, Char.ofNat_toNat]

theorem width_quoted_plain {s : String} (h : s.toList.all isPlain = true) :
    width (quoted (ofString s)) = s.length + 2 := by
  have hescapes : ∀ text : List Char, text.all isPlain = true →
      width ((text.map Char.toNat).flatMap escapeCodePoint) = text.length := by
    intro text htext
    induction text with
    | nil => rfl
    | cons c text ih =>
        rw [List.all_cons, Bool.and_eq_true] at htext
        have hone : c.utf8Size = 1 := by
          have hascii := htext.1
          simp only [isPlain, Bool.and_eq_true, decide_eq_true_eq] at hascii
          rw [Char.utf8Size_eq_one_iff]
          show c.toNat ≤ 127
          omega
        rw [List.map_cons, List.flatMap_cons, width_append, escapeCodePoint_plain htext.1,
          ih htext.2, width_cons, hone, width_nil, List.length_cons, Nat.add_comm]
  have hs := hescapes s.toList h
  have hquote : '"'.utf8Size = 1 := rfl
  rw [quoted, width_append, width_cons, ofString, hs]
  simp only [width_cons, width_nil, hquote, String.length_toList]
  omega

theorem width_dumpsItems (items : List Tree) :
    width (dumpsItems items) = (items.map fun item => width (dumps item) + 1).sum - 1 := by
  induction items with
  | nil => rfl
  | cons item items ih =>
      cases items with
      | nil => simp [dumpsItems]
      | cons next items =>
          have hcomma : ','.utf8Size = 1 := rfl
          rw [dumpsItems_cons, width_append, width_cons, ih, hcomma, List.map_cons, List.sum_cons]
          simp only [List.map_cons, List.sum_cons]
          omega

theorem width_dumpsMembers (members : List (Str × Tree)) :
    width (dumpsMembers members) =
      (members.map fun member => width (quoted member.1) + width (dumps member.2) + 2).sum - 1 := by
  have hcolon : ':'.utf8Size = 1 := rfl
  have hcomma : ','.utf8Size = 1 := rfl
  induction members with
  | nil => rfl
  | cons member members ih =>
      obtain ⟨key, item⟩ := member
      cases members with
      | nil =>
          simp only [dumpsMembers, width_append, width_cons, hcolon, List.map_cons, List.map_nil, List.sum_cons,
            List.sum_nil]
          omega
      | cons next members =>
          rw [dumpsMembers_cons, width_append, width_append, width_cons, width_cons, ih, hcomma, hcolon]
          simp only [List.map_cons, List.sum_cons]
          omega

end Library.Json
