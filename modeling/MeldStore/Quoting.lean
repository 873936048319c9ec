import MeldStore.Backup
import MeldStore.Ddl
import MeldStore.Library.Codes
import MeldStore.Library.Sql.Expressions
import MeldStore.Library.Utf8

namespace MeldStore

open Library Library.Checked Library.Sql

-- Quoted names, literals and values, as the lexer of SQLite reads them

def utf8 (text : String) : Bytes := text.toByteArray.data.toList

theorem utf8_eq (text : String) : utf8 text = text.toList.flatMap String.utf8EncodeChar := by
  rw [utf8]
  conv_lhs => rw [← String.ofList_toList (s := text), String.toByteArray_ofList, List.utf8Encode]
  simp

theorem utf8_append (a b : String) : utf8 (a ++ b) = utf8 a ++ utf8 b := by
  rw [utf8_eq, utf8_eq, utf8_eq, String.toList_append, List.flatMap_append]

-- A byte below 128 stands for its own character.
theorem mem_encode {n : ℕ} {b : ℕ} (hb : b ∈ Utf8.encode n) (hlt : b < 0x80) : n = b := by
  rw [Utf8.encode] at hb
  split_ifs at hb <;> simp only [List.mem_cons, List.not_mem_nil, or_false] at hb <;> omega

theorem mem_encodeChar {c q : Char} (hq : q.toNat < 0x80) (h : ascii q ∈ String.utf8EncodeChar c) : c = q := by
  have hmem : (ascii q).toNat ∈ Utf8.encode c.toNat := by
    rw [← Utf8.utf8EncodeChar_eq]
    exact List.mem_map_of_mem h
  have hnat : (ascii q).toNat = q.toNat := by
    rw [ascii, Nat.toUInt8_eq, UInt8.toNat_ofNat']
    omega
  rw [hnat] at hmem
  exact Char.toNat_inj.mp (mem_encode hmem hq)

theorem encodeChar_ascii {q : Char} (hq : q.toNat < 0x80) : String.utf8EncodeChar q = [ascii q] := by
  have hbytes := Utf8.utf8EncodeChar_eq q
  rw [Utf8.encode, if_pos hq] at hbytes
  cases hread : String.utf8EncodeChar q with
  | nil =>
      rw [hread] at hbytes
      cases hbytes
  | cons b rest =>
      rw [hread, List.map_cons] at hbytes
      obtain ⟨hfirst, hrest⟩ := List.cons.inj hbytes
      rw [List.map_eq_nil_iff.mp hrest, ascii, ← hfirst, Nat.toUInt8_eq, UInt8.ofNat_toNat]

theorem mem_utf8 {text : String} {q : Char} (hq : q.toNat < 0x80) : ascii q ∈ utf8 text ↔ q ∈ text.toList := by
  rw [utf8_eq, List.mem_flatMap]
  constructor
  · rintro ⟨c, hc, hmem⟩
    exact mem_encodeChar hq hmem ▸ hc
  · intro hmem
    exact ⟨q, hmem, by rw [encodeChar_ascii hq]; exact List.mem_singleton_self _⟩

theorem head_utf8 {text : String} {q : Char} (hq : q.toNat < 0x80) :
    (utf8 text).head? = some (ascii q) ↔ text.toList.head? = some q := by
  rw [utf8_eq]
  cases text.toList with
  | nil => simp
  | cons c rest =>
      rw [List.flatMap_cons, List.head?_cons]
      constructor
      · intro h
        have hne := Utf8.encode_ordered.ne_nil c.toNat
        rw [← Utf8.utf8EncodeChar_eq, Ne, List.map_eq_nil_iff] at hne
        rw [List.head?_append_of_ne_nil _ hne] at h
        rw [mem_encodeChar hq (List.mem_of_mem_head? h)]
      · intro h
        rw [Option.some.inj h, encodeChar_ascii hq]
        rfl

theorem utf8_doubled {q : Char} (hq : q.toNat < 0x80) (text : String) :
    utf8 (MeldStore.doubled q text) = Sql.doubled (ascii q) (utf8 text) := by
  rw [utf8_eq, utf8_eq, MeldStore.doubled, String.toList_ofList, Sql.doubled, List.flatMap_assoc,
    List.flatMap_assoc]
  refine List.flatMap_congr fun c _ => ?_
  by_cases hc : c = q
  · rw [if_pos hc, hc, encodeChar_ascii hq, List.flatMap_singleton, if_pos rfl, List.flatMap_cons,
      List.flatMap_singleton, encodeChar_ascii hq]
    rfl
  · have hfree : ∀ b ∈ String.utf8EncodeChar c, b ≠ ascii q := fun b hb hsame =>
      hc (mem_encodeChar hq (hsame ▸ hb))
    rw [if_neg hc, List.flatMap_singleton]
    have hsame : ∀ b ∈ String.utf8EncodeChar c, (if b = ascii q then [ascii q, ascii q] else [b]) = [b] :=
      fun b hb =>
      if_neg (hfree b hb)
    rw [List.flatMap_congr hsame, List.flatMap_singleton']

theorem hexDigits_ascii : ∀ n < 16, hexDigits.getD n '0' ∈ hexDigits ∧ (hexDigits.getD n '0').toNat < 0x80 ∧
    isHex (ascii (hexDigits.getD n '0')) = true ∧ hexValue (ascii (hexDigits.getD n '0')) = n := by
  decide

-- The bytes of the digits of one byte.
def hexByte (b : UInt8) : Bytes :=
  [ascii (hexDigits.getD (b.toNat / 16) '0'), ascii (hexDigits.getD (b.toNat % 16) '0')]

theorem utf8_hex (bytes : Bytes) : utf8 (hex bytes) = bytes.flatMap hexByte := by
  rw [utf8_eq, hex, String.toList_ofList, List.flatMap_assoc]
  refine List.flatMap_congr fun b _ => ?_
  have hb := b.toNat_lt
  rw [List.flatMap_cons, List.flatMap_singleton, encodeChar_ascii (hexDigits_ascii _ (by omega)).2.1,
    encodeChar_ascii (hexDigits_ascii _ (by omega)).2.1]
  rfl

theorem unhex_hexByte (b : UInt8) (digits : Bytes) : unhex (hexByte b ++ digits) = b :: unhex digits := by
  have hb := b.toNat_lt
  have hhigh := (hexDigits_ascii (b.toNat / 16) (by omega)).2.2.2
  have hlow := (hexDigits_ascii (b.toNat % 16) (by omega)).2.2.2
  rw [hexByte, List.cons_append, List.cons_append, List.nil_append, unhex, hhigh, hlow, Nat.div_add_mod,
    UInt8.ofNat_toNat]

theorem unhex_hex (bytes : Bytes) : unhex (bytes.flatMap hexByte) = bytes := by
  induction bytes with
  | nil => rfl
  | cons b bytes ih => rw [List.flatMap_cons, unhex_hexByte, ih]

theorem isHex_hex {bytes : Bytes} {d : UInt8} (h : d ∈ bytes.flatMap hexByte) : isHex d = true := by
  obtain ⟨b, _, hd⟩ := List.mem_flatMap.mp h
  have hb := b.toNat_lt
  rcases List.mem_cons.mp hd with rfl | hd
  · exact (hexDigits_ascii (b.toNat / 16) (by omega)).2.2.1
  · rw [List.mem_singleton.mp hd]
    exact (hexDigits_ascii (b.toNat % 16) (by omega)).2.2.1

theorem length_hex_even (bytes : Bytes) : (bytes.flatMap hexByte).length % 2 = 0 := by
  induction bytes with
  | nil => rfl
  | cons b bytes ih =>
      rw [List.flatMap_cons, List.length_append]
      have htwo : (hexByte b).length = 2 := rfl
      omega

-- The digits of a number.

theorem isDigit_ascii {c : Char} (h : c.isDigit = true) :
    c.toNat < 0x80 ∧ Sql.isDigit (ascii c) = true ∧ (ascii c).toNat = c.toNat := by
  simp only [Char.isDigit, Bool.and_eq_true, decide_eq_true_eq] at h
  have hlow : 48 ≤ c.toNat := h.1
  have hhigh : c.toNat ≤ 57 := h.2
  have hnat : (ascii c).toNat = c.toNat := by
    rw [ascii, Nat.toUInt8_eq, UInt8.toNat_ofNat']
    omega
  refine ⟨by omega, ?_, hnat⟩
  simp only [Sql.isDigit, Bool.and_eq_true, decide_eq_true_eq, UInt8.le_iff_toNat_le, hnat]
  exact ⟨hlow, hhigh⟩

theorem utf8_ascii {text : List Char} (h : ∀ c ∈ text, c.toNat < 0x80) :
    utf8 (String.ofList text) = text.map ascii := by
  rw [utf8_eq, String.toList_ofList, List.flatMap_congr fun c hc => encodeChar_ascii (h c hc),
    List.map_eq_flatMap]

theorem utf8_spell (text : String) (h : ∀ c ∈ text.toList, c.toNat < 0x80) : utf8 text = spell text := by
  rw [spell, ← utf8_ascii h, String.ofList_toList]

theorem toString_digits (n : ℕ) : toString n = String.ofList (Nat.toDigits 10 n) := by
  rw [Nat.toString_eq_repr, ← Nat.toList_repr, String.ofList_toList]

theorem isDigit_of_mem_digits {n : ℕ} {c : Char} (h : c ∈ Nat.toDigits 10 n) : c.isDigit = true :=
  Nat.isDigit_of_mem_toDigits (by decide) (by decide) h

theorem utf8_number (n : ℕ) : utf8 (toString n) = (Nat.toDigits 10 n).map ascii := by
  rw [toString_digits]
  exact utf8_ascii fun c hc => (isDigit_ascii (isDigit_of_mem_digits hc)).1

theorem number_digits {n : ℕ} {d : UInt8} (h : d ∈ utf8 (toString n)) : Sql.isDigit d = true := by
  rw [utf8_number] at h
  obtain ⟨c, hc, rfl⟩ := List.mem_map.mp h
  exact (isDigit_ascii (isDigit_of_mem_digits hc)).2.1

theorem number_ne_nil (n : ℕ) : utf8 (toString n) ≠ [] := by
  rw [utf8_number, Ne, List.map_eq_nil_iff]
  exact Nat.toDigits_ne_nil

theorem decimal_foldl {digits : List Char} (h : ∀ c ∈ digits, c.isDigit = true) (start : ℕ) :
    (digits.map ascii).foldl (fun n d => 10 * n + (d.toNat - 48)) start = Nat.ofDigitChars 10 digits start := by
  induction digits generalizing start with
  | nil => simp
  | cons c digits ih =>
      rw [List.map_cons, List.foldl_cons, Nat.ofDigitChars_cons, (isDigit_ascii (h c List.mem_cons_self)).2.2,
        ih fun c hc => h c (List.mem_cons_of_mem _ hc)]
      rfl

theorem decimal_number (n : ℕ) : decimal (utf8 (toString n)) = n := by
  rw [utf8_number, decimal, decimal_foldl fun c hc => isDigit_of_mem_digits hc]
  simp

-- Names and literals

theorem nul_not_mem {text : String} (h : identifier text = .ok text) : (0 : UInt8) ∉ utf8 text := by
  simp only [identifier, bind_eq_ok, require_eq_ok, pure_eq_ok] at h
  obtain ⟨_, ⟨_, hnul⟩, _⟩ := h
  exact fun hmem => hnul ((mem_utf8 (q := Char.ofNat 0) (by decide)).mp hmem)

theorem utf8_quoted {q : Char} (hq : q.toNat < 0x80) (text rest : String) :
    utf8 (String.singleton q ++ MeldStore.doubled q text ++ String.singleton q ++ rest) =
      ascii q :: (Sql.doubled (ascii q) (utf8 text) ++ ascii q :: utf8 rest) := by
  have hone : utf8 (String.singleton q) = [ascii q] := by
    rw [utf8_eq, String.toList_singleton, List.flatMap_singleton, encodeChar_ascii hq]
  rw [utf8_append, utf8_append, utf8_append, utf8_doubled hq, hone]
  simp only [List.append_assoc, List.cons_append, List.nil_append]

theorem next_quoted {q : Char} (hq : q.toNat < 0x80) (hquote : isQuote (ascii q) = true) {text rest : String}
    (htext : identifier text = .ok text) (hrest : rest.toList.head? ≠ some q) :
    next (utf8 (String.singleton q ++ MeldStore.doubled q text ++ String.singleton q ++ rest)) =
      some (some (quotedToken (ascii q) (utf8 text)), utf8 rest) := by
  rw [utf8_quoted hq]
  exact next_doubled hquote (nul_not_mem htext) fun hhead => hrest ((head_utf8 hq).mp hhead)

namespace Backup

def sqlName (name : String) : String := "\"" ++ MeldStore.doubled '"' name ++ "\""

-- `repr` of a double; infinities and NaN are no values of the model.
def sqlValue (repr : ℚ → String) : Value → String
  | .null => "NULL"
  | .text s => "CAST(X'" ++ hex (utf8 s) ++ "' AS TEXT)"
  | .blob bytes => "X'" ++ hex bytes ++ "'"
  | .int i => toString i
  | .real q => repr q

-- The value as the database keeps it: int64 integers, and texts as their bytes.
def stored : Value → Option Sql.Value
  | .null => some .null
  | .int i => if -2 ^ 63 ≤ i ∧ i < 2 ^ 63 then some (.integer i) else none
  | .text s => some (.text (utf8 s))
  | .blob bytes => some (.blob bytes)
  | .real _ => none

def valueTokens : Value → List Token
  | .null => [.word (spell "NULL")]
  | .text s => .word (spell "CAST") :: symbol "(" ::
      ([.blob ((utf8 s).flatMap hexByte)] ++ [.word (spell "AS"), .word (spell "TEXT"), symbol ")"])
  | .blob bytes => [.blob (bytes.flatMap hexByte)]
  | .int (.ofNat n) => [.number (utf8 (toString n))]
  | .int (.negSucc n) => [symbol "-", .number (utf8 (toString (n + 1)))]
  | .real _ => []

def valueExpr : Value → Expr
  | .null => .null
  | .text s => .castText (.blob (utf8 s))
  | .blob bytes => .blob bytes
  | .int (.ofNat n) => .integer n
  | .int (.negSucc n) => .negate (.integer (n + 1))
  | .real _ => .null

theorem next_blob (bytes rest : Bytes) :
    next (ascii 'X' :: 0x27 :: (bytes.flatMap hexByte ++ 0x27 :: rest)) =
      some (some (.blob (bytes.flatMap hexByte)), rest) := by
  have hread : (bytes.flatMap hexByte ++ 0x27 :: rest).dropWhile isHex = 0x27 :: rest := by
    rw [List.dropWhile_append_of_pos fun d hd => isHex_hex hd]
    rfl
  have hbefore : before (bytes.flatMap hexByte ++ 0x27 :: rest) (0x27 :: rest) = bytes.flatMap hexByte := by
    rw [before, List.length_append, Nat.add_sub_cancel, List.take_left]
  have hblob : blob (bytes.flatMap hexByte ++ 0x27 :: rest) = (.blob (bytes.flatMap hexByte), rest) := by
    rw [blob_cons hread, hbefore, length_hex_even, if_pos (by decide)]
  have hscan : ∀ z, scan (ascii 'X') (0x27 :: z) = (some (Sql.blob z).1, (Sql.blob z).2) := fun _ => rfl
  rw [next, if_neg (by decide), hscan, hblob]

theorem utf8_blob (bytes rest : Bytes) :
    utf8 ("X'" ++ hex bytes ++ "'") ++ rest = ascii 'X' :: 0x27 :: (bytes.flatMap hexByte ++ 0x27 :: rest) := by
  rw [utf8_append, utf8_append, utf8_hex, utf8_spell "X'" (by decide), utf8_spell "'" (by decide)]
  simp only [List.append_assoc]
  rfl

theorem takeWhile_stops {rest : Bytes} (text : Bytes) (htext : ∀ b ∈ text, isIdChar b = true)
    (hrest : rest.head?.all stops = true) :
    (text ++ rest).takeWhile isIdChar = text ∧ (text ++ rest).dropWhile isIdChar = rest := by
  rw [List.takeWhile_append_of_pos htext, List.dropWhile_append_of_pos htext]
  cases rest with
  | nil => exact ⟨List.append_nil _, rfl⟩
  | cons c rest =>
      have hc : isIdChar c = false := by
        have hstop : stops c = true := by simpa using hrest
        simp only [stops, Bool.not_eq_true', Bool.or_eq_false_iff] at hstop
        exact hstop.1
      have hnot : ¬isIdChar c = true := by
        rw [hc]
        decide
      exact ⟨by rw [List.takeWhile_cons_of_neg hnot, List.append_nil], List.dropWhile_cons_of_neg hnot⟩

theorem next_null {rest : Bytes} (hrest : rest.head?.all stops = true) :
    next (spell "NULL" ++ rest) = some (some (.word (spell "NULL")), rest) := by
  obtain ⟨htake, hdrop⟩ := takeWhile_stops (spell "ULL") (by decide) hrest
  have hscan : next (spell "NULL" ++ rest) =
    some (some (.word (ascii 'N' :: (spell "ULL" ++ rest).takeWhile isIdChar)),
    (spell "ULL" ++ rest).dropWhile isIdChar) := rfl
  rw [hscan, htake, hdrop]
  rfl

theorem reads_text (bytes rest : Bytes) : Reads (utf8 ("CAST(X'" ++ hex bytes ++ "' AS TEXT)") ++ rest)
    (.word (spell "CAST") :: symbol "(" ::
      ([.blob (bytes.flatMap hexByte)] ++ [.word (spell "AS"), .word (spell "TEXT"), symbol ")"])) rest := by
  have htext : utf8 ("CAST(X'" ++ hex bytes ++ "' AS TEXT)") ++ rest =
      spell "CAST(" ++
        (ascii 'X' :: 0x27 :: (bytes.flatMap hexByte ++ 0x27 :: (spell " AS TEXT)" ++ rest))) := by
    rw [utf8_append, utf8_append, utf8_hex, utf8_spell "CAST(X'" (by decide),
      utf8_spell "' AS TEXT)" (by decide)]
    simp only [List.append_assoc]
    rfl
  rw [htext]
  have hcast : next
    (spell "CAST(" ++ (ascii 'X' :: 0x27 :: (bytes.flatMap hexByte ++ 0x27 :: (spell " AS TEXT)" ++ rest)))) =
    some (some (.word (spell "CAST")), spell "(" ++
      (ascii 'X' :: 0x27 :: (bytes.flatMap hexByte ++ 0x27 :: (spell " AS TEXT)" ++ rest)))) := rfl
  have hopen (z : Bytes) : next (spell "(" ++ z) = some (some (symbol "("), z) := rfl
  have hspace : next (spell " AS TEXT)" ++ rest) = some (none, spell "AS TEXT)" ++ rest) := rfl
  have has : next (spell "AS TEXT)" ++ rest) = some (some (.word (spell "AS")), spell " TEXT)" ++ rest) := rfl
  have hspace' : next (spell " TEXT)" ++ rest) = some (none, spell "TEXT)" ++ rest) := rfl
  have htype : next (spell "TEXT)" ++ rest) = some (some (.word (spell "TEXT")), spell ")" ++ rest) := rfl
  have hclose : next (spell ")" ++ rest) = some (some (symbol ")"), rest) := rfl
  exact .step hcast
    (.step (hopen _) (.step (next_blob bytes _) (.step hspace (.step has (.step hspace' (.step htype
    (.one hclose)))))))

-- The sign of a number.
theorem next_sign {digits rest : Bytes} (hne : digits ≠ []) (hdigits : ∀ d ∈ digits, Sql.isDigit d = true) :
    next (ascii '-' :: (digits ++ rest)) = some (some (symbol "-"), digits ++ rest) := by
  cases digits with
  | nil => exact absurd rfl hne
  | cons d digits =>
      have hcases := digit_cases (hdigits d List.mem_cons_self)
      simp only [List.mem_cons, List.not_mem_nil, or_false] at hcases
      rcases hcases with rfl | rfl | rfl | rfl | rfl | rfl | rfl | rfl | rfl | rfl <;> rfl

-- The tokens of a value, in front of a byte that cannot continue them.
theorem reads_value (repr : ℚ → String) {v : Value} {value : Sql.Value} (hv : stored v = some value)
    {rest : Bytes}
    (hrest : rest.head?.all stops = true) : Reads (utf8 (sqlValue repr v) ++ rest) (valueTokens v) rest := by
  cases v with
  | null =>
      rw [sqlValue, utf8_spell "NULL" (by decide)]
      exact .one (next_null hrest)
  | text s => exact reads_text (utf8 s) rest
  | blob bytes =>
      rw [sqlValue, utf8_blob]
      exact .one (next_blob bytes rest)
  | int i =>
      cases i with
      | ofNat n => exact .one (next_number (number_ne_nil n) (fun _ => number_digits) hrest)
      | negSucc n =>
          rw [sqlValue, Codes.toString_negSucc, utf8_append, utf8_spell "-" (by decide), List.append_assoc]
          exact (Reads.one (next_sign (number_ne_nil _) fun _ => number_digits)).trans
            (.one (next_number (number_ne_nil _) (fun _ => number_digits) hrest))
  | real q => cases hv

theorem operand_value {v : Value} {value : Sql.Value} (hv : stored v = some value) (rest : List Token) :
    operand (valueTokens v ++ rest) = some (valueExpr v, rest) := by
  cases v with
  | null =>
      have hkeyword : keyword "NULL" (.word (spell "NULL")) = true := by decide
      rw [valueTokens, List.cons_append, operand.eq_def]
      dsimp only
      rw [if_pos hkeyword]
      rfl
  | text s =>
      have hinner (rest : List Token) : operand ([.blob ((utf8 s).flatMap hexByte)] ++ rest) =
        some (.blob (utf8 s), rest) := by
        rw [List.cons_append, operand, unhex_hex]
        rfl
      rw [valueTokens, List.cons_append, List.cons_append, List.append_assoc]
      exact operand_cast (by decide) hinner (by decide) (by decide)
  | blob bytes =>
      rw [valueTokens, List.cons_append, operand, unhex_hex]
      rfl
  | int i =>
      cases i with
      | ofNat n =>
          rw [valueTokens, List.cons_append, operand_number fun _ => number_digits, decimal_number]
          rfl
      | negSucc n =>
          rw [valueTokens, List.cons_append, List.cons_append, operand_negative fun _ => number_digits,
            decimal_number]
          rfl
  | real q => cases hv

theorem eval_value {v : Value} {value : Sql.Value} (hv : stored v = some value) :
    (valueExpr v).eval = some value := by
  cases v with
  | null => exact hv
  | text s => exact hv
  | blob bytes => exact hv
  | int i =>
      rw [stored] at hv
      split_ifs at hv with hrange
      cases i with
      | ofNat n =>
          have hn : n < 2 ^ 63 := by
            have h := hrange.2
            simp only [Int.ofNat_eq_natCast] at h
            omega
          rw [valueExpr, Expr.eval, if_pos hn]
          exact hv
      | negSucc n =>
          have hn : n + 1 ≤ 2 ^ 63 := by
            have h := hrange.1
            omega
          rw [valueExpr, Expr.eval, if_pos hn]
          exact hv
  | real q => cases hv

-- One line of the exported script.
def insertLine (repr : ℚ → String) (name : String) (columns : List String) (row : List Value) : String :=
  "INSERT INTO " ++ sqlName name ++ "(" ++ joined "," (columns.map sqlName) ++ ") VALUES(" ++
    joined "," (row.map (sqlValue repr)) ++ ");\n"

theorem utf8_sqlName (name : String) :
    utf8 (sqlName name) = ascii '"' :: (Sql.doubled (ascii '"') (utf8 name) ++ [ascii '"']) := by
  rw [sqlName, utf8_append, utf8_append, utf8_doubled (by decide), utf8_spell "\"" (by decide)]
  rfl

theorem reads_name {name : String} (hname : (0 : UInt8) ∉ utf8 name) (rest : Bytes)
    (hrest : rest.head? ≠ some (ascii '"')) :
    Reads (utf8 (sqlName name) ++ rest) [.name (utf8 name)] rest := by
  rw [utf8_sqlName, List.cons_append, List.append_assoc]
  exact .one (next_doubled (by decide) hname hrest)

-- Items with commas between them, in front of a closing bracket.
theorem reads_joined {α : Type} (text : α → String) (tokens : α → List Token) {items : List α}
    (hne : items ≠ [])
    (h : ∀ item ∈ items, ∀ mark ∈ spell ",)",
      ∀ rest, Reads (utf8 (text item) ++ mark :: rest) (tokens item) (mark :: rest))
    (rest : Bytes) :
    Reads (utf8 (joined "," (items.map text)) ++ ascii ')' :: rest) (Sql.listed (items.map tokens))
    (ascii ')' :: rest) := by
  induction items with
  | nil => exact absurd rfl hne
  | cons first items ih =>
      cases items with
      | nil => exact h first List.mem_cons_self (ascii ')') (by decide) rest
      | cons second items =>
          have hrest := ih (List.cons_ne_nil _ _) fun item hmem => h item (List.mem_cons_of_mem _ hmem)
          have hcomma (z : Bytes) : next (ascii ',' :: z) = some (some (symbol ","), z) := rfl
          rw [List.map_cons, List.map_cons, joined, String.intercalate_cons_cons, utf8_append,
            utf8_append, utf8_spell "," (by decide),
            List.append_assoc, List.append_assoc, List.map_cons, List.map_cons,
            Sql.listed.eq_3 _ _ (by simp)]
          exact (h first List.mem_cons_self (ascii ',') (by decide) _).trans (.step (hcomma _) hrest)

theorem reads_insertLine (repr : ℚ → String) {name : String} {columns : List String} {row : List Value}
    (hnames : ∀ text ∈ name :: columns, (0 : UInt8) ∉ utf8 text) (hcolumns : columns ≠ []) (hrow : row ≠ [])
    (hvalues : ∀ v ∈ row, stored v ≠ none) {rest : Bytes} (hrest : rest.head?.any isSpace = false) :
    Reads (utf8 (insertLine repr name columns row) ++ rest)
      (insertTokens (utf8 name) (columns.map utf8) (row.map valueTokens)) rest := by
  have hmark : ∀ mark ∈ spell ",)", mark ≠ ascii '"' ∧ stops mark = true := by decide
  have hlist := reads_joined sqlName (fun c => [.name (utf8 c)]) hcolumns fun c hc mark hm rest =>
    reads_name (hnames c (List.mem_cons_of_mem _ hc)) (mark :: rest) fun hhead =>
      (hmark mark hm).1 (Option.some.inj hhead)
  have hitems := reads_joined (sqlValue repr) valueTokens hrow fun v hv mark hm rest => by
    obtain ⟨value, hvalue⟩ := Option.ne_none_iff_exists'.mp (hvalues v hv)
    exact reads_value repr hvalue (hmark mark hm).2
  have hinsert (z : Bytes) : Reads (spell "INSERT INTO " ++ ascii '"' :: z)
    [.word (spell "INSERT"), .word (spell "INTO")]
      (ascii '"' :: z) := by
    have hfirst : next (spell "INSERT INTO " ++ ascii '"' :: z) =
      some (some (.word (spell "INSERT")), spell " INTO " ++ ascii '"' :: z) := rfl
    have hspace : next (spell " INTO " ++ ascii '"' :: z) = some (none, spell "INTO " ++ ascii '"' :: z) := rfl
    have hsecond : next (spell "INTO " ++ ascii '"' :: z) =
      some (some (.word (spell "INTO")), spell " " ++ ascii '"' :: z) := rfl
    have hlast : next (spell " " ++ ascii '"' :: z) = some (none, ascii '"' :: z) := rfl
    exact .step hfirst (.step hspace (.step hsecond (.none hlast)))
  have hinsert' (z : Bytes) : Reads (spell "INSERT INTO " ++ (utf8 (sqlName name) ++ z))
      [.word (spell "INSERT"), .word (spell "INTO")] (utf8 (sqlName name) ++ z) := by
    rw [utf8_sqlName]
    exact hinsert _
  have hopen (z : Bytes) : next (ascii '(' :: z) = some (some (symbol "("), z) := rfl
  have hmiddle (z : Bytes) : Reads (spell ") VALUES(" ++ z)
    [symbol ")", .word (spell "VALUES"), symbol "("] z := by
    have hclose : next (spell ") VALUES(" ++ z) = some (some (symbol ")"), spell " VALUES(" ++ z) := rfl
    have hspace : next (spell " VALUES(" ++ z) = some (none, spell "VALUES(" ++ z) := rfl
    have hword : next (spell "VALUES(" ++ z) = some (some (.word (spell "VALUES")), ascii '(' :: z) := rfl
    exact .step hclose (.step hspace (.step hword (.one (hopen z))))
  have hend : Reads (spell ");\n" ++ rest) [symbol ")", symbol ";"] rest := by
    have hclose : next (spell ");\n" ++ rest) = some (some (symbol ")"), spell ";\n" ++ rest) := rfl
    have hmark : next (spell ";\n" ++ rest) = some (some (symbol ";"), spell "\n" ++ rest) := rfl
    have hline : next (spell "\n" ++ rest) = some (none, rest.dropWhile isSpace) := rfl
    have hdrop : rest.dropWhile isSpace = rest := by
      cases rest with
      | nil => rfl
      | cons b rest => exact List.dropWhile_cons_of_neg (by simpa using hrest)
    rw [hdrop] at hline
    exact .step hclose (.step hmark (.none hline))
  have htext : utf8 (insertLine repr name columns row) ++ rest =
      spell "INSERT INTO " ++ (utf8 (sqlName name) ++ (ascii '(' :: (utf8 (joined "," (columns.map sqlName)) ++
        (spell ") VALUES(" ++ (utf8 (joined "," (row.map (sqlValue repr))) ++ (spell ");\n" ++ rest)))))) := by
    have hone : utf8 "(" = [ascii '('] := utf8_spell "(" (by decide)
    have hline : insertLine repr name columns row = "INSERT INTO " ++ sqlName name ++ "(" ++
      joined "," (columns.map sqlName) ++ ") VALUES(" ++ joined "," (row.map (sqlValue repr)) ++ ");\n" := rfl
    rw [hline, utf8_append, utf8_append, utf8_append, utf8_append, utf8_append, utf8_append, hone,
      utf8_spell "INSERT INTO " (by decide), utf8_spell ") VALUES(" (by decide), utf8_spell ");\n" (by decide)]
    simp only [List.append_assoc, List.cons_append, List.nil_append]
  rw [htext]
  have hbracket (z : Bytes) : (ascii '(' :: z).head? ≠ some (ascii '"') := fun hhead =>
    absurd (Option.some.inj hhead) (by decide)
  rw [insertTokens, List.map_map]
  exact (hinsert' _).trans ((reads_name (hnames name List.mem_cons_self) _ (hbracket _)).trans (.step (hopen _)
    ((hlist _).trans ((hmiddle _).trans ((hitems _).trans hend)))))

end Backup

end MeldStore
