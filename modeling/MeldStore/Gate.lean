import MeldStore.Quoting

namespace MeldStore

open Library Library.Checked Library.Sql

namespace Gate

-- The check of a statement before it is executed: catalog._check_sql

-- str.isspace
def isSpace (c : Char) : Bool :=
  (0x09 ≤ c.toNat && c.toNat ≤ 0x0d) || (0x1c ≤ c.toNat && c.toNat ≤ 0x20) ||
    (0x2000 ≤ c.toNat && c.toNat ≤ 0x200a) ||
    c.toNat ∈ [0x85, 0xa0, 0x1680, 0x2028, 0x2029, 0x202f, 0x205f, 0x3000]

def lstrip (z : List Char) : List Char := z.dropWhile isSpace

-- partition("\n")
def afterLine (z : List Char) : List Char := (z.dropWhile fun c => c ≠ '\n').drop 1

-- partition("*/")
def afterBlock : List Char → Option (List Char)
  | [] => none
  | c :: z => if c = '*' ∧ z.head? = some '/' then some (z.drop 1) else afterBlock z

theorem lstrip_le (z : List Char) : (lstrip z).length ≤ z.length := (List.dropWhile_suffix _).length_le

theorem afterLine_lt {z : List Char} (h : z ≠ []) : (afterLine z).length < z.length := by
  have hdrop := (List.dropWhile_suffix (l := z) fun c => decide (c ≠ '\n')).length_le
  have hpos := List.length_pos_iff.mpr h
  rw [afterLine, List.length_drop]
  omega

theorem afterBlock_lt {z rest : List Char} (h : afterBlock z = some rest) : rest.length < z.length := by
  induction z with
  | nil => cases h
  | cons c z ih =>
      rw [afterBlock] at h
      split_ifs at h
      · rw [← Option.some.inj h, List.length_drop, List.length_cons]
        omega
      · exact (ih h).trans (Nat.lt_succ_self _)

def skipComments (z : List Char) : Except Error (List Char) :=
  if ['-', '-'] <+: z then skipComments (lstrip (afterLine z))
  else if ['/', '*'] <+: z then
    match _h : afterBlock z with
    | none => .error (.ValidationError "Unclosed SQL comment")
    | some rest => skipComments (lstrip rest)
  else .ok z
termination_by z.length
decreasing_by
  · rename_i hline
    have hne : z ≠ [] := by
      rintro rfl
      exact absurd hline (by decide)
    exact Nat.lt_of_le_of_lt (lstrip_le _) (afterLine_lt hne)
  · exact Nat.lt_of_le_of_lt (lstrip_le _) (afterBlock_lt _h)

theorem skipComments_block {z rest : List Char} (h : afterBlock ('/' :: '*' :: z) = some rest) :
    skipComments ('/' :: '*' :: z) = skipComments (lstrip rest) := by
  rw [skipComments, if_neg (by simp), if_pos (by simp)]
  split <;> rename_i hfound
  · rw [h] at hfound
    cases hfound
  · rw [h] at hfound
    rw [Option.some.inj hfound]

theorem skipComments_other {z : List Char} (hline : ¬['-', '-'] <+: z) (hblock : ¬['/', '*'] <+: z) :
    skipComments z = .ok z := by
  rw [skipComments, if_neg hline, if_neg hblock]

def CONTROL : List String :=
  ["BEGIN", "COMMIT", "ROLLBACK", "END", "SAVEPOINT", "RELEASE", "VACUUM", "PRAGMA", "ATTACH", "DETACH"]

-- re.match(r"[A-Za-z]+") in upper case
def command (z : List Char) : List Char := (z.takeWhile Char.isAlpha).map Char.toUpper

-- A letter under re.IGNORECASE, which folds three more letters to S and I.
def sameLetter (p c : Char) : Bool :=
  c = p || c = p.toLower || (p = 'S' && c = 'ſ') || (p = 'I' && (c = 'İ' || c = 'ı'))

def literal : List Char → List Char → Option (List Char)
  | [], z => some z
  | p :: pattern, c :: z => if sameLetter p c then literal pattern z else none
  | _ :: _, [] => none

-- \s+
def spaces (z : List Char) : Option (List Char) := if z.head?.any isSpace then some (lstrip z) else none

def queryPlan (z : List Char) : Option (List Char) :=
  ((literal "QUERY".toList z).bind spaces).bind fun z => (literal "PLAN".toList z).bind spaces

-- EXPLAIN\s+(?:QUERY\s+PLAN\s+)?SELECT\b, where the characters of words are those of Python's \w.
def explains (isWord : Char → Bool) (z : List Char) : Bool :=
  ((literal "EXPLAIN".toList z).bind spaces).any fun z =>
    (literal "SELECT".toList ((queryPlan z).getD z)).any fun rest => !rest.head?.any isWord

theorem lawful_words : LawfulBEq (List Char) := inferInstance

instance decidableWord (word : List Char) (words : List (List Char)) : Decidable (word ∈ words) :=
  @List.instDecidableMemOfLawfulBEq _ _ lawful_words word words

def checkSql (isWord : Char → Bool) (statement : String) : Except Error Unit := do
  let remaining ← skipComments (lstrip statement.toList)
  require (command remaining ≠ [] ∧ command remaining ∉ CONTROL.map String.toList)
    (.ValidationError "Transaction and connection control SQL is not supported")
  require (command remaining = "EXPLAIN".toList → explains isWord remaining = true)
    (.ValidationError "EXPLAIN supports SELECT statements only")

-- A block comment in front of the statement that opens with /*/, which closes it here and not in
-- SQLite.
def overlapping (z : List Char) : Bool :=
  if ['-', '-'] <+: z then overlapping (lstrip (afterLine z))
  else if ['/', '*'] <+: z then
    z[2]? = some '/' || match _h : afterBlock z with
    | none => false
    | some rest => overlapping (lstrip rest)
  else false
termination_by z.length
decreasing_by
  · rename_i hline
    have hne : z ≠ [] := by
      rintro rfl
      exact absurd hline (by decide)
    exact Nat.lt_of_le_of_lt (lstrip_le _) (afterLine_lt hne)
  · exact Nat.lt_of_le_of_lt (lstrip_le _) (afterBlock_lt _h)

-- The bytes of characters.

def encode (z : List Char) : Bytes := z.flatMap String.utf8EncodeChar

theorem encode_cons (c : Char) (z : List Char) : encode (c :: z) = String.utf8EncodeChar c ++ encode z :=
    List.flatMap_cons

theorem encode_append (y z : List Char) : encode (y ++ z) = encode y ++ encode z := List.flatMap_append

theorem encode_ascii {c : Char} (hc : c.toNat < 0x80) (z : List Char) :
    encode (c :: z) = ascii c :: encode z := by
  rw [encode_cons, encodeChar_ascii hc, List.singleton_append]

-- The first byte of a character that is not ASCII. Of these characters only some beyond the
-- 0xF000th have the first byte of a byte order mark.
theorem encode_wide {c : Char} (hc : 0x80 ≤ c.toNat) :
    (∀ b ∈ String.utf8EncodeChar c, 0x80 ≤ b) ∧
      ∃ b bytes, String.utf8EncodeChar c = b :: bytes ∧ (c.toNat < 0xf000 → b ≠ 0xef) := by
  have hbytes := Utf8.utf8EncodeChar_eq c
  have hmem (b : UInt8) (hb : b ∈ String.utf8EncodeChar c) : b.toNat ∈ Utf8.encode c.toNat := by
    rw [← hbytes]
    exact List.mem_map_of_mem hb
  constructor
  · intro b hb
    have hlarge := hmem b hb
    rw [Utf8.encode, if_neg (by omega)] at hlarge
    have hle : 0x80 ≤ b.toNat := by
      split_ifs at hlarge <;> simp only [List.mem_cons, List.not_mem_nil, or_false] at hlarge <;> omega
    exact UInt8.le_iff_toNat_le.mpr hle
  · cases hread : String.utf8EncodeChar c with
    | nil =>
        have hne := Utf8.encode_ordered.ne_nil c.toNat
        rw [← hbytes, hread] at hne
        exact absurd rfl hne
    | cons b bytes =>
        refine ⟨b, bytes, rfl, fun hsmall hmark => ?_⟩
        rw [hread, List.map_cons, hmark, Utf8.encode, if_neg (by omega)] at hbytes
        have hfirst := congrArg List.head? hbytes
        split_ifs at hfirst <;> simp only [List.head?_cons, Option.some.injEq] at hfirst <;>
          simp only [UInt8.reduceToNat] at hfirst <;> omega

-- Dropping bytes while dropping characters.
theorem dropWhile_encode {p : UInt8 → Bool} {p' : Char → Bool}
    (hkeep : ∀ c, p' c = true → ∀ b ∈ String.utf8EncodeChar c, p b = true)
    (hstop : ∀ c, p' c = false → ∃ b bytes, String.utf8EncodeChar c = b :: bytes ∧ p b = false)
      (z : List Char) :
    (encode z).dropWhile p = encode (z.dropWhile p') := by
  induction z with
  | nil => rfl
  | cons c z ih =>
      rw [encode_cons, List.dropWhile_cons]
      cases hc : p' c with
      | true => rw [if_pos rfl, List.dropWhile_append_of_pos (hkeep c hc), ih]
      | false =>
          obtain ⟨b, bytes, hread, hb⟩ := hstop c hc
          rw [if_neg Bool.false_ne_true, encode_cons, hread, List.cons_append,
            List.dropWhile_cons_of_neg (by rw [hb]; decide)]

-- Tokens that start with no keyword.

def Keyword (k : String) : Prop := k ≠ "" ∧ ∀ c ∈ k.toList, 'A' ≤ c ∧ c ≤ 'Z'

def Harmless (read : List Token) : Prop := ∀ t ∈ read.head?, ∀ k, Keyword k → keyword k t = false

theorem harmless_nil : Harmless [] := nofun

theorem harmless_cons {t : Token} (h : ∀ k, Keyword k → keyword k t = false) (read : List Token) :
    Harmless (t :: read) :=
  fun u hu k hk => by
    obtain rfl : t = u := Option.some.inj hu
    exact h k hk

theorem harmless_word {text : Bytes} {b : UInt8} (hmem : b ∈ text) (hb : 0x80 ≤ b) (read : List Token) :
    Harmless (.word text :: read) := by
  refine harmless_cons (fun k hk => ?_) read
  rw [keyword, decide_eq_false_iff_not]
  intro hsame
  have hupper : b ∈ spell k := by
    rw [← hsame, List.mem_map]
    refine ⟨b, hmem, ?_⟩
    have hnot : ¬(0x61 ≤ b && b ≤ 0x7a) = true := by
      simp only [Bool.and_eq_true, decide_eq_true_eq, UInt8.le_iff_toNat_le] at hb ⊢
      simp only [UInt8.reduceToNat] at hb ⊢
      omega
    rw [upper, if_neg hnot]
  obtain ⟨c, hc, rfl⟩ := List.mem_map.mp hupper
  have hle : c.toNat ≤ 0x5a := (hk.2 c hc).2
  rw [UInt8.le_iff_toNat_le, ascii, Nat.toUInt8_eq, UInt8.toNat_ofNat'] at hb
  simp only [UInt8.reduceToNat] at hb
  omega

-- One step of the lexer.

theorem next_space {b : UInt8} (hb : b ∈ [(0x09 : UInt8), 0x0a, 0x0c, 0x0d, 0x20]) (z : Bytes) :
    next (b :: z) = some (none, z.dropWhile Sql.isSpace) := by
  simp only [List.mem_cons, List.not_mem_nil, or_false] at hb
  rcases hb with rfl | rfl | rfl | rfl | rfl <;> rfl

theorem next_illegal {b : UInt8} (hb : b ∈ [(0x0b : UInt8), 0x1c, 0x1d, 0x1e, 0x1f]) (z : Bytes) :
    next (b :: z) = some (some (.illegal [b]), z) := by
  simp only [List.mem_cons, List.not_mem_nil, or_false] at hb
  rcases hb with rfl | rfl | rfl | rfl | rfl <;> rfl

-- A letter is in no class that the lexer asks for before it.
theorem classes_of_letter {b : UInt8} (hb : isLetter b = true) :
    isDigit b = false ∧ Sql.isSpace b = false ∧ isQuote b = false := by
  have hrange : (0x41 ≤ b.toNat ∧ b.toNat ≤ 0x5a) ∨ (0x61 ≤ b.toNat ∧ b.toNat ≤ 0x7a) ∨ b.toNat = 0x5f ∨
      0x80 ≤ b.toNat := by
    simp only [isLetter, Bool.or_eq_true, Bool.and_eq_true, decide_eq_true_eq, UInt8.le_iff_toNat_le] at hb
    rcases hb with ((hb | hb) | rfl) | hb
    · exact .inl hb
    · exact .inr (.inl hb)
    · exact .inr (.inr (.inl rfl))
    · exact .inr (.inr (.inr hb))
  have hne {a : UInt8} (ha : a.toNat = 0x20 ∨ a.toNat = 0x22 ∨ a.toNat = 0x27 ∨ a.toNat = 0x60) : b ≠ a := by
    rintro rfl
    omega
  have hnot {a : UInt8} (ha : a.toNat < 0x41) : ¬b ≤ a := by
    rw [UInt8.le_iff_toNat_le]
    omega
  simp [isDigit, Sql.isSpace, isQuote, hne (a := 0x20) (by decide), hne (a := ascii '"') (by decide),
    hne (a := 0x27) (by decide), hne (a := 0x60) (by decide), hnot (a := 0x39) (by decide),
    hnot (a := 0x0d) (by decide)]

theorem next_wide {b : UInt8} (hb : 0x80 ≤ b) (hmark : b ≠ 0xef) (z : Bytes) :
    next (b :: z) = some (some (.word (b :: z.takeWhile isIdChar)), z.dropWhile isIdChar) := by
  have hne {a : UInt8} (ha : a < 0x80) : b ≠ a := by
    rintro rfl
    exact absurd hb (by rw [UInt8.not_le]; exact ha)
  have hletter : isLetter b = true := by simp [isLetter, hb]
  obtain ⟨hdigit, hspace, hquote⟩ := classes_of_letter hletter
  rw [next, if_neg (hne (by decide)), scan]
  simp only [hspace, hquote, hdigit, hletter, hmark, hne (a := ascii '-') (by decide),
    hne (a := ascii '/') (by decide), hne (a := ascii '[') (by decide), hne (a := ascii '.') (by decide),
    hne (a := ascii 'x') (by decide), hne (a := ascii 'X') (by decide), decide_false, Bool.false_and,
    Bool.or_false, Bool.false_eq_true, if_false, if_true]

theorem blob_keyword (z : Bytes) (k : String) : keyword k (Sql.blob z).1 = false := by
  rw [Sql.blob]
  dsimp only
  split
  · rfl
  · split_ifs <;> rfl

def isAsciiLetter (b : UInt8) : Bool := (0x41 ≤ b && b ≤ 0x5a) || (0x61 ≤ b && b ≤ 0x7a)

-- A word, or a blob literal.
theorem next_letter {b : UInt8} (hb : isAsciiLetter b = true) (z : Bytes) :
    next (b :: z) = some (some (.word (b :: z.takeWhile isIdChar)), z.dropWhile isIdChar) ∨
      ∃ t rest, next (b :: z) = some (some t, rest) ∧ ∀ k, keyword k t = false := by
  have hne {a : UInt8} (ha : isAsciiLetter a = false) : b ≠ a := by
    rintro rfl
    rw [hb] at ha
    cases ha
  have hletter : isLetter b = true := by
    simp only [isAsciiLetter, Bool.or_eq_true] at hb
    rcases hb with hb | hb <;> simp [isLetter, hb]
  obtain ⟨hdigit, hspace, hquote⟩ := classes_of_letter hletter
  have hscan : scan b z = if ((b = ascii 'x' || b = ascii 'X') && followedBy z (· = 0x27)) = true then
      (some (Sql.blob (z.drop 1)).1, (Sql.blob (z.drop 1)).2)
      else (some (.word (b :: z.takeWhile isIdChar)), z.dropWhile isIdChar) := by
    rw [scan]
    simp only [hspace, hquote, hdigit, hletter, hne (a := 0xef) (by decide), hne (a := ascii '-') (by decide),
      hne (a := ascii '/') (by decide), hne (a := ascii '[') (by decide), hne (a := ascii '.') (by decide),
      decide_false, Bool.false_and, Bool.or_false, Bool.false_eq_true, if_false, if_true]
  rw [next, if_neg (hne (by decide)), hscan]
  split_ifs
  · exact .inr ⟨_, _, rfl, blob_keyword _⟩
  · exact .inl rfl

theorem next_line (z : Bytes) : next (ascii '-' :: ascii '-' :: z) = some (none, lineRest z) := rfl

theorem next_block {b : UInt8} (hb : b ≠ 0) (z : Bytes) :
    next (ascii '/' :: ascii '*' :: b :: z) = some (none, blockRest (b :: z)) := by
  have hopen : (decide (ascii '/' = ascii '/') && followedBy (ascii '*' :: b :: z) (· = ascii '*') &&
      followedBy ((ascii '*' :: b :: z).drop 1) (· ≠ 0)) = true := by
    simp [followedBy, hb]
  have hdash : decide (ascii '/' = ascii '-') = false := by decide
  rw [next, if_neg (by decide), scan, if_neg (by decide), hdash, Bool.false_and, if_neg Bool.false_ne_true,
    if_pos hopen]
  rfl

theorem next_slash (z : Bytes) :
    next (ascii '/' :: ascii '*' :: 0 :: z) = some (some (symbol "/"), ascii '*' :: 0 :: z) := rfl

-- What is skipped holds no token, or what the lexer reads there is no keyword.

def Skips (z rest : List Char) : Prop := tokens (encode z) = tokens (encode rest) ∨ Harmless (tokens (encode z))

theorem Skips.trans {x y z : List Char} (h : Skips x y) (h' : Skips y z) : Skips x z := by
  rcases h with hsame | hharmless
  · rcases h' with hrest | hrest
    · exact .inl (hsame.trans hrest)
    · exact .inr (by rw [hsame]; exact hrest)
  · exact .inr hharmless

-- A space of both languages, one of Python's that SQLite does not read, or one beyond ASCII.
theorem space_cases {c : Char} (h : isSpace c = true) :
    (c.toNat < 0x80 ∧ ascii c ∈ [(0x09 : UInt8), 0x0a, 0x0c, 0x0d, 0x20]) ∨
      (c.toNat < 0x80 ∧ ascii c ∈ [(0x0b : UInt8), 0x1c, 0x1d, 0x1e, 0x1f]) ∨
      (0x80 ≤ c.toNat ∧ c.toNat < 0xf000) := by
  have hlow : ∀ n < 0x80, (9 ≤ n ∧ n ≤ 13) ∨ (28 ≤ n ∧ n ≤ 32) →
      n.toUInt8 ∈ [(0x09 : UInt8), 0x0a, 0x0c, 0x0d, 0x20] ∨
        n.toUInt8 ∈ [(0x0b : UInt8), 0x1c, 0x1d, 0x1e, 0x1f] := by
    decide
  simp only [isSpace, Bool.or_eq_true, Bool.and_eq_true, decide_eq_true_eq, List.mem_cons,
    List.not_mem_nil, or_false] at h
  by_cases hascii : c.toNat < 0x80
  · rcases hlow c.toNat hascii (by omega) with hmem | hmem
    · exact .inl ⟨hascii, hmem⟩
    · exact .inr (.inl ⟨hascii, hmem⟩)
  · exact .inr (.inr ⟨by omega, by omega⟩)

def isBlank (c : Char) : Bool := c.toNat < 0x80 && Sql.isSpace (ascii c)

theorem isSpace_of_isBlank {c : Char} (h : isBlank c = true) : isSpace c = true := by
  rw [isBlank, Bool.and_eq_true, decide_eq_true_eq] at h
  have hall : ∀ n < 0x80, Sql.isSpace n.toUInt8 = true → (9 ≤ n ∧ n ≤ 13) ∨ (28 ≤ n ∧ n ≤ 32) := by decide
  have hrange := hall c.toNat h.1 h.2
  simp only [isSpace, Bool.or_eq_true, Bool.and_eq_true, decide_eq_true_eq]
  omega

theorem dropWhile_blank (z : List Char) : (encode z).dropWhile Sql.isSpace = encode (z.dropWhile isBlank) := by
  refine dropWhile_encode (fun c hc b hb => ?_) (fun c hc => ?_) z
  · rw [isBlank, Bool.and_eq_true, decide_eq_true_eq] at hc
    rw [encodeChar_ascii hc.1, List.mem_singleton] at hb
    rw [hb]
    exact hc.2
  · by_cases hascii : c.toNat < 0x80
    · refine ⟨ascii c, [], encodeChar_ascii hascii, ?_⟩
      rw [isBlank, decide_eq_true hascii, Bool.true_and] at hc
      exact hc
    · obtain ⟨hwide, b, bytes, hread, -⟩ := encode_wide (not_lt.mp hascii)
      refine ⟨b, bytes, hread, ?_⟩
      have hb := hwide b (hread ▸ List.mem_cons_self)
      have hlarge : 0x80 ≤ b.toNat := UInt8.le_iff_toNat_le.mp hb
      have hspace : b ≠ 0x20 := by
        rintro rfl
        exact absurd hlarge (by decide)
      have hcontrol : ¬b ≤ 0x0d := by
        rw [UInt8.le_iff_toNat_le]
        simp only [UInt8.reduceToNat] at hlarge ⊢
        omega
      simp [Sql.isSpace, hspace, hcontrol]

-- A run of Python's spaces in front of something else.
theorem skips_spaces {w z : List Char} (hw : ∀ c ∈ w, isSpace c = true) (hz : z.head?.any isSpace = false) :
    Skips (w ++ z) z := by
  induction hlength : w.length using Nat.strong_induction_on generalizing w with
  | _ n ih =>
      cases w with
      | nil => exact .inl rfl
      | cons c w =>
          rcases space_cases (hw c List.mem_cons_self) with ⟨hascii, hmem⟩ | ⟨hascii, hmem⟩ | ⟨hwide, hsmall⟩
          · have hstop : z.dropWhile isBlank = z := by
              cases z with
              | nil => rfl
              | cons d z =>
                  refine List.dropWhile_cons_of_neg fun hblank => ?_
                  rw [List.head?_cons, Option.any_some, isSpace_of_isBlank hblank] at hz
                  cases hz
            have hrun : (w ++ z).dropWhile isBlank = w.dropWhile isBlank ++ z := by
              rw [List.dropWhile_append]
              split_ifs with hempty
              · rw [hstop, List.isEmpty_iff.mp hempty, List.nil_append]
              · rfl
            have hshort := (List.dropWhile_suffix (l := w) isBlank).length_le
            have hrest : Skips (w.dropWhile isBlank ++ z) z := by
              refine ih _ ?_
                (fun d hd => hw d (List.mem_cons_of_mem _ ((List.dropWhile_suffix _).subset hd))) rfl
              rw [← hlength, List.length_cons]
              omega
            refine Skips.trans (.inl ?_) hrest
            rw [List.cons_append, encode_ascii hascii, tokens_of_next (next_space hmem _),
              dropWhile_blank, hrun]
            rfl
          · refine .inr ?_
            rw [List.cons_append, encode_ascii hascii, tokens_of_next (next_illegal hmem _)]
            exact harmless_cons (fun _ _ => rfl) _
          · obtain ⟨hbytes, b, bytes, hread, hmark⟩ := encode_wide hwide
            have hb := hbytes b (hread ▸ List.mem_cons_self)
            refine .inr ?_
            rw [List.cons_append, encode_cons, hread, List.cons_append,
              tokens_of_next (next_wide hb (hmark hsmall) _)]
            exact harmless_word List.mem_cons_self hb _

theorem head_dropWhile (p : Char → Bool) (z : List Char) : (z.dropWhile p).head?.any p = false := by
  have hstop := List.head?_dropWhile_not p z
  cases h : (z.dropWhile p).head? with
  | none => rfl
  | some c =>
      rw [h] at hstop
      exact hstop

theorem head_lstrip (z : List Char) : (lstrip z).head?.any isSpace = false := head_dropWhile isSpace z

theorem skips_lstrip (z : List Char) : Skips z (lstrip z) := by
  have hsplit : z.takeWhile isSpace ++ lstrip z = z := List.takeWhile_append_dropWhile
  have hrun :=
    @skips_spaces (z.takeWhile isSpace) (lstrip z) (fun c hc => List.mem_takeWhile_imp hc) (head_lstrip z)
  rwa [hsplit] at hrun

-- A line comment ends with its line, or with a NUL, where SQLite ends the text.
theorem skips_line (z : List Char) : Skips ('-' :: '-' :: z) (lstrip (afterLine ('-' :: '-' :: z))) := by
  let inLine (c : Char) : Bool := c ≠ Char.ofNat 0 && c ≠ '\n'
  have hread : lineRest (encode z) = encode (z.dropWhile inLine) := by
    refine dropWhile_encode (fun c hc b hb => ?_) (fun c hc => ?_) z
    · by_cases hascii : c.toNat < 0x80
      · rw [encodeChar_ascii hascii, List.mem_singleton] at hb
        have hall : ∀ n < 0x80, n ≠ 0 → n ≠ 10 → (n.toUInt8 ≠ 0 && n.toUInt8 ≠ 0x0a) = true := by decide
        simp only [inLine, Bool.and_eq_true, decide_eq_true_eq] at hc
        rw [hb]
        exact hall c.toNat hascii (fun hzero => hc.1 (Char.toNat_inj.mp hzero)) fun hten =>
          hc.2 (Char.toNat_inj.mp hten)
      · have hwide := (encode_wide (not_lt.mp hascii)).1 b hb
        have hzero : b ≠ 0 := by
          rintro rfl
          exact absurd hwide (by decide)
        have hten : b ≠ 0x0a := by
          rintro rfl
          exact absurd hwide (by decide)
        simp [hzero, hten]
    · have hends : c = Char.ofNat 0 ∨ c = '\n' := by
        by_contra hother
        rw [not_or] at hother
        simp [inLine, hother.1, hother.2] at hc
      rcases hends with rfl | rfl
      · exact ⟨0, [], rfl, rfl⟩
      · exact ⟨0x0a, [], rfl, rfl⟩
  have hcomment : tokens (encode ('-' :: '-' :: z)) = tokens (encode (z.dropWhile inLine)) := by
    rw [encode_ascii (by decide), encode_ascii (by decide), tokens_of_next (next_line _), hread]
    rfl
  have hafter : afterLine ('-' :: '-' :: z) = (z.dropWhile fun c => decide (c ≠ '\n')).drop 1 := rfl
  refine Skips.trans (.inl hcomment) ?_
  rw [hafter]
  clear hread hcomment hafter
  induction z with
  | nil => exact .inl rfl
  | cons c z ih =>
      by_cases hnul : c = Char.ofNat 0
      · subst hnul
        refine .inr ?_
        rw [List.dropWhile_cons_of_neg (by decide), encode_ascii (by decide), tokens_eq]
        exact harmless_nil
      · by_cases hline : c = '\n'
        · subst hline
          rw [List.dropWhile_cons_of_neg (by decide), List.dropWhile_cons_of_neg (by decide)]
          exact skips_lstrip ('\n' :: z)
        · have hin : inLine c = true := by simp [inLine, hnul, hline]
          rw [List.dropWhile_cons_of_pos hin, List.dropWhile_cons_of_pos (by simp [hline])]
          exact ih

theorem blockRest_wide {w : Bytes} (hw : ∀ b ∈ w, 0x80 ≤ b) (z : Bytes) : blockRest (w ++ z) = blockRest z := by
  induction w with
  | nil => rfl
  | cons b w ih =>
      have hb := hw b List.mem_cons_self
      have hzero : b ≠ 0 := by
        rintro rfl
        exact absurd hb (by decide)
      have hstar : b ≠ ascii '*' := by
        rintro rfl
        exact absurd hb (by decide)
      rw [List.cons_append, blockRest.eq_def]
      dsimp only
      rw [if_neg hzero, if_neg hstar]
      exact ih fun a ha => hw a (List.mem_cons_of_mem _ ha)

theorem head_encode {c : Char} (hc : c.toNat < 0x80) {z : List Char} (h : (encode z).head? = some (ascii c)) :
    z.head? = some c := by
  cases z with
  | nil => cases h
  | cons d z =>
      by_cases hd : d.toNat < 0x80
      · rw [encode_ascii hd, List.head?_cons, Option.some.injEq] at h
        have hsame := congrArg UInt8.toNat h
        rw [ascii, ascii, Nat.toUInt8_eq, Nat.toUInt8_eq, UInt8.toNat_ofNat', UInt8.toNat_ofNat'] at hsame
        rw [List.head?_cons, Char.toNat_inj.mp (show d.toNat = c.toNat by omega)]
      · obtain ⟨hbytes, b, bytes, hread, -⟩ := encode_wide (not_lt.mp hd)
        have hb := UInt8.le_iff_toNat_le.mp (hbytes b (hread ▸ List.mem_cons_self))
        rw [encode_cons, hread, List.cons_append, List.head?_cons, Option.some.injEq] at h
        rw [h, ascii, Nat.toUInt8_eq, UInt8.toNat_ofNat'] at hb
        simp only [UInt8.reduceToNat] at hb
        omega

-- Where the comment closes here, it closes there too, unless a NUL comes first.
theorem blockRest_encode {z rest : List Char} (h : afterBlock z = some rest) :
    tokens (blockRest (encode z)) = tokens (encode rest) ∨ tokens (blockRest (encode z)) = [] := by
  induction z with
  | nil => cases h
  | cons c z ih =>
      rw [afterBlock] at h
      split_ifs at h with hclose
      · obtain ⟨rfl, hslash⟩ := hclose
        obtain ⟨z, rfl⟩ := List.head?_eq_some_iff.mp hslash
        obtain rfl : z = rest := Option.some.inj h
        exact .inl (by rw [encode_ascii (by decide), encode_ascii (by decide)]; rfl)
      · by_cases hascii : c.toNat < 0x80
        · rw [encode_ascii hascii]
          by_cases hnul : ascii c = 0
          · refine .inr ?_
            rw [blockRest.eq_def]
            dsimp only
            rw [if_pos hnul, hnul, tokens_eq]
            rfl
          · by_cases hstar : c = '*'
            · subst hstar
              have hslash : z.head? ≠ some '/' := fun hslash => hclose ⟨rfl, hslash⟩
              have hnext : blockRest (ascii '*' :: encode z) = blockRest (encode z) := by
                rw [blockRest.eq_def]
                dsimp only
                rw [if_neg hnul, if_pos rfl]
                cases hread : encode z with
                | nil => rfl
                | cons d y =>
                    have hd : d ≠ ascii '/' := by
                      rintro rfl
                      exact hslash (head_encode (by decide) (by rw [hread]; rfl))
                    dsimp only
                    rw [if_neg hd]
              rw [hnext]
              exact ih h
            · have hother : ascii c ≠ ascii '*' := by
                intro hsame
                have hhead := @head_encode '*' (by decide) [c] (by rw [encode_ascii hascii, hsame]; rfl)
                exact hstar (Option.some.inj hhead)
              have hnext : blockRest (ascii c :: encode z) = blockRest (encode z) := by
                rw [blockRest.eq_def]
                dsimp only
                rw [if_neg hnul, if_neg hother]
              rw [hnext]
              exact ih h
        · rw [encode_cons, blockRest_wide (encode_wide (not_lt.mp hascii)).1]
          exact ih h

theorem skips_block {z rest : List Char} (hz : z.head? ≠ some '/')
    (h : afterBlock ('/' :: '*' :: z) = some rest) :
    Skips ('/' :: '*' :: z) rest := by
  have hinside : afterBlock z = some rest := by
    rw [afterBlock, if_neg (by simp), afterBlock, if_neg (by simp [hz])] at h
    exact h
  rw [Skips, encode_ascii (by decide), encode_ascii (by decide)]
  cases hread : encode z with
  | nil =>
      cases z with
      | nil => cases hinside
      | cons c z =>
          rw [encode_cons, List.append_eq_nil_iff] at hread
          exact absurd hread.1 String.utf8EncodeChar_ne_nil
  | cons b bytes =>
      by_cases hnul : b = 0
      · subst hnul
        refine .inr ?_
        rw [tokens_of_next (next_slash bytes)]
        exact harmless_cons (fun _ _ => rfl) _
      · have hcomment : tokens (ascii '/' :: ascii '*' :: b :: bytes) = tokens (blockRest (encode z)) := by
          rw [tokens_of_next (next_block hnul bytes), hread]
          rfl
        rcases blockRest_encode hinside with hsame | hempty
        · exact .inl (hcomment.trans hsame)
        · refine .inr ?_
          rw [hcomment, hempty]
          exact harmless_nil

theorem prefix_two {a b : Char} {z : List Char} (h : [a, b] <+: z) : ∃ y, z = a :: b :: y := by
  obtain ⟨y, rfl⟩ := h
  exact ⟨y, rfl⟩

theorem skips_comments {z rest : List Char} (h : skipComments z = .ok rest) (hover : overlapping z = false)
    (hz : z.head?.any isSpace = false) : Skips z rest ∧ rest.head?.any isSpace = false := by
  fun_induction skipComments z with
  | case1 z hline ih =>
      rw [overlapping, if_pos hline] at hover
      obtain ⟨hrest, hhead⟩ := ih h hover (head_lstrip _)
      obtain ⟨y, rfl⟩ := prefix_two hline
      exact ⟨(skips_line y).trans hrest, hhead⟩
  | case2 z hline hblock hopen => cases h
  | case3 z hline hblock after hafter ih =>
      rw [overlapping, if_neg hline, if_pos hblock, Bool.or_eq_false_iff] at hover
      obtain ⟨hslash, hover⟩ := hover
      have hover : overlapping (lstrip after) = false := by
        split at hover <;> rename_i hfound
        · rw [hafter] at hfound
          cases hfound
        · rw [hafter] at hfound
          rwa [Option.some.inj hfound]
      obtain ⟨hrest, hhead⟩ := ih h hover (head_lstrip _)
      obtain ⟨y, rfl⟩ := prefix_two hblock
      have hy : y.head? ≠ some '/' := by
        cases y with
        | nil => nofun
        | cons c y => simpa using hslash
      exact ⟨((skips_block hy hafter).trans (skips_lstrip after)).trans hrest, hhead⟩
  | case4 z hline hblock =>
      cases h
      exact ⟨.inl rfl, hz⟩

-- The first word.

theorem upper_range {b : UInt8} (h : 0x41 ≤ (upper b).toNat ∧ (upper b).toNat ≤ 0x5a) :
    isAsciiLetter b = true := by
  rw [upper] at h
  simp only [isAsciiLetter, Bool.or_eq_true, Bool.and_eq_true, decide_eq_true_eq, UInt8.le_iff_toNat_le] at h ⊢
  split_ifs at h with hlower
  · exact .inr hlower
  · exact .inl h

theorem keyword_letters {k : String} (hk : Keyword k) {text : Bytes} (h : keyword k (.word text) = true) :
    ∀ b ∈ text, isAsciiLetter b = true := by
  intro b hb
  have hupper : upper b ∈ spell k := by
    rw [← of_decide_eq_true h]
    exact List.mem_map_of_mem hb
  obtain ⟨c, hc, hsame⟩ := List.mem_map.mp hupper
  have hrange : 0x41 ≤ c.toNat ∧ c.toNat ≤ 0x5a := hk.2 c hc
  refine upper_range ?_
  rw [← hsame, ascii, Nat.toUInt8_eq, UInt8.toNat_ofNat']
  omega

theorem isAsciiLetter_ofNat :
    ∀ n < 0x80, isAsciiLetter n.toUInt8 = (decide (65 ≤ n ∧ n ≤ 90) || decide (97 ≤ n ∧ n ≤ 122)) := by
  decide

theorem isAlpha_range {c : Char} : c.isAlpha = true ↔ c.toNat < 0x80 ∧ isAsciiLetter (ascii c) = true := by
  have hrange : c.isAlpha =
    (decide (65 ≤ c.toNat ∧ c.toNat ≤ 90) || decide (97 ≤ c.toNat ∧ c.toNat ≤ 122)) := by
    have halpha : c.isAlpha =
        (decide (c.val ≥ 65 ∧ c.val ≤ 90) || (decide (c.val ≥ 97) && decide (c.val ≤ 122))) := rfl
    rw [halpha, Bool.eq_iff_iff]
    simp only [Bool.or_eq_true, decide_eq_true_eq, ge_iff_le, Bool.and_eq_true, UInt32.le_iff_toNat_le]
    rfl
  rw [hrange]
  constructor
  · intro h
    have hascii : c.toNat < 0x80 := by
      simp only [Bool.or_eq_true, decide_eq_true_eq] at h
      omega
    exact ⟨hascii, (isAsciiLetter_ofNat c.toNat hascii).trans h⟩
  · rintro ⟨hascii, h⟩
    exact (isAsciiLetter_ofNat c.toNat hascii).symm.trans h

theorem exists_letter {b : UInt8} (hb : isAsciiLetter b = true) : ∃ c : Char, c.toNat < 0x80 ∧ ascii c = b := by
  have hall : ∀ n < 0x80, isAsciiLetter n.toUInt8 = true → (Char.ofNat n).toNat < 0x80 ∧
    ascii (Char.ofNat n) = n.toUInt8 := by
    decide
  have hascii : b.toNat < 0x80 := by
    simp only [isAsciiLetter, Bool.or_eq_true, Bool.and_eq_true, decide_eq_true_eq, UInt8.le_iff_toNat_le] at hb
    have hupper : UInt8.toNat 0x5a = 0x5a ∧ UInt8.toNat 0x7a = 0x7a := ⟨rfl, rfl⟩
    omega
  have hb' := hall b.toNat hascii
  rw [show b.toNat.toUInt8 = b from UInt8.ofNat_toNat] at hb'
  exact ⟨_, hb' hb⟩

theorem upper_toUpper {c : Char} (hc : c.isAlpha = true) : upper (ascii c) = ascii c.toUpper := by
  have hall : ∀ n < 0x80, upper n.toUInt8 = ascii (Char.ofNat n).toUpper := by decide
  have hsame := hall c.toNat (isAlpha_range.mp hc).1
  rwa [Char.ofNat_toNat] at hsame

theorem encode_letters {w : List Char} (hw : ∀ c ∈ w, c.isAlpha = true) : encode w = w.map ascii := by
  induction w with
  | nil => rfl
  | cons c w ih =>
      rw [encode_ascii (isAlpha_range.mp (hw c List.mem_cons_self)).1, List.map_cons,
        ih fun d hd => hw d (List.mem_cons_of_mem _ hd)]

theorem map_ascii_inj {y z : List Char} (hy : ∀ c ∈ y, c.toNat < 0x80) (hz : ∀ c ∈ z, c.toNat < 0x80)
    (h : y.map ascii = z.map ascii) : y = z := by
  induction y generalizing z with
  | nil => exact (List.map_eq_nil_iff.mp h.symm).symm
  | cons c y ih =>
      cases z with
      | nil => cases h
      | cons d z =>
          rw [List.map_cons, List.map_cons, List.cons.injEq] at h
          have hc := hy c List.mem_cons_self
          have hd := hz d List.mem_cons_self
          have hsame := congrArg UInt8.toNat h.1
          rw [ascii, ascii, Nat.toUInt8_eq, Nat.toUInt8_eq, UInt8.toNat_ofNat', UInt8.toNat_ofNat'] at hsame
          rw [Char.toNat_inj.mp (show c.toNat = d.toNat by omega),
            ih (fun e he => hy e (List.mem_cons_of_mem _ he))
              (fun e he => hz e (List.mem_cons_of_mem _ he)) h.2]

theorem keyword_command {w : List Char} (hw : ∀ c ∈ w, c.isAlpha = true) {k : String} (hk : Keyword k)
    (h : keyword k (.word (w.map ascii)) = true) : w.map Char.toUpper = k.toList := by
  have hsame : (w.map ascii).map upper = spell k := of_decide_eq_true h
  have hupper : (w.map ascii).map upper = (w.map Char.toUpper).map ascii := by
    rw [List.map_map, List.map_map]
    exact List.map_congr_left fun c hc => upper_toUpper (hw c hc)
  refine map_ascii_inj (fun c hc => ?_) (fun c hc => ?_) (hupper.symm.trans hsame)
  · obtain ⟨d, hd, rfl⟩ := List.mem_map.mp hc
    have hall : ∀ n < 0x80, (Char.ofNat n).toUpper.toNat < 0x80 := by decide
    have hascii := hall d.toNat (isAlpha_range.mp (hw d hd)).1
    rwa [Char.ofNat_toNat] at hascii
  · have hle : c.toNat ≤ 0x5a := (hk.2 c hc).2
    omega

-- A text that starts with a letter: its word, unless more than ASCII letters belong to it.
theorem first_word {z : List Char} (h : z.takeWhile Char.isAlpha ≠ []) :
    Harmless (tokens (encode z)) ∨
      (tokens (encode z) = .word ((z.takeWhile Char.isAlpha).map ascii) ::
        tokens (encode (z.dropWhile Char.isAlpha)) ∧
        (encode (z.dropWhile Char.isAlpha)).head?.any isIdChar = false) := by
  cases z with
  | nil => exact absurd rfl h
  | cons c z =>
      have hc : c.isAlpha = true := by
        by_contra hc
        rw [List.takeWhile_cons_of_neg hc] at h
        exact h rfl
      have hascii := isAlpha_range.mp hc
      rw [encode_ascii hascii.1, List.takeWhile_cons_of_pos hc, List.dropWhile_cons_of_pos hc]
      rcases next_letter hascii.2 (encode z) with hword | ⟨t, rest, hother, hkeyword⟩
      · rw [tokens_of_next hword, Option.toList_some, List.singleton_append]
        let w := z.takeWhile Char.isAlpha
        let r := z.dropWhile Char.isAlpha
        have hw : ∀ c ∈ w, c.isAlpha = true := fun c hc => List.mem_takeWhile_imp hc
        have hsplit : encode z = w.map ascii ++ encode r := by
          rw [← encode_letters hw, ← encode_append, List.takeWhile_append_dropWhile]
        have hidchars : ∀ b ∈ w.map ascii, isIdChar b = true := by
          intro b hb
          obtain ⟨d, hd, rfl⟩ := List.mem_map.mp hb
          have hletter := (isAlpha_range.mp (hw d hd)).2
          simp only [isAsciiLetter, Bool.or_eq_true] at hletter
          rcases hletter with hletter | hletter <;> simp [isIdChar, isLetter, hletter]
        rw [hsplit, List.takeWhile_append_of_pos hidchars, List.dropWhile_append_of_pos hidchars]
        cases hread : encode r with
        | nil =>
            refine .inr ⟨?_, rfl⟩
            rw [List.takeWhile_nil, List.append_nil, List.dropWhile_nil, ← hread]
            rfl
        | cons b bytes =>
            by_cases hid : isIdChar b = true
            · refine .inl (harmless_cons (fun k hk => ?_) _)
              by_contra hsame
              rw [Bool.not_eq_false] at hsame
              have hmem : b ∈ ascii c :: (w.map ascii ++ (b :: bytes).takeWhile isIdChar) := by
                rw [List.takeWhile_cons_of_pos hid]
                exact List.mem_cons_of_mem _ (List.mem_append_right _ List.mem_cons_self)
              have hb := keyword_letters hk hsame b hmem
              obtain ⟨d, hd⟩ := exists_letter hb
              have hhead : r.head? = some d := head_encode hd.1 (by rw [hread, hd.2]; rfl)
              have hstop : r.head?.any Char.isAlpha = false := head_dropWhile Char.isAlpha z
              rw [hhead, Option.any_some] at hstop
              rw [isAlpha_range.mpr ⟨hd.1, by rw [hd.2]; exact hb⟩] at hstop
              cases hstop
            · have hhead : (b :: bytes).head?.any isIdChar = false := by
                rw [List.head?_cons, Option.any_some]
                exact Bool.not_eq_true _ ▸ hid
              refine .inr ⟨?_, hhead⟩
              rw [List.takeWhile_cons_of_neg hid, List.append_nil, List.dropWhile_cons_of_neg hid,
                List.map_cons, ← hread]
      · refine .inl ?_
        rw [tokens_of_next hother]
        exact harmless_cons (fun k _ => hkeyword k) _

def heads (k : String) (read : List Token) : Bool := read.head?.any (keyword k)

theorem Harmless.heads {read : List Token} (h : Harmless read) {k : String} (hk : Keyword k) :
    heads k read = false := by
  rw [Gate.heads]
  cases hfirst : read.head? with
  | none => rfl
  | some t => exact h t hfirst k hk

-- The keyword in front is the command.
theorem heads_command {z : List Char} (hne : command z ≠ []) {k : String} (hk : Keyword k)
    (h : heads k (tokens (encode z)) = true) :
    tokens (encode z) = .word ((z.takeWhile Char.isAlpha).map ascii) ::
    tokens (encode (z.dropWhile Char.isAlpha)) ∧
      command z = k.toList := by
  have hword : z.takeWhile Char.isAlpha ≠ [] := fun hempty => hne (by rw [command, hempty]; rfl)
  rcases first_word hword with hharmless | ⟨hread, -⟩
  · rw [hharmless.heads hk] at h
    cases h
  · refine ⟨hread, keyword_command (fun c hc => List.mem_takeWhile_imp hc) hk ?_⟩
    rwa [hread] at h

-- What EXPLAIN explains.

def STATEMENTS : List String :=
  ["ALTER", "ANALYZE", "ATTACH", "BEGIN", "COMMIT", "CREATE", "DELETE", "DETACH", "DROP", "END",
    "EXPLAIN", "INSERT",
    "PRAGMA", "REINDEX", "RELEASE", "REPLACE", "ROLLBACK", "SAVEPOINT", "SELECT", "UPDATE", "VACUUM",
      "VALUES", "WITH"]

def explained (read : List Token) : List Token :=
  match read.drop 1 with
  | first :: second :: rest =>
      if keyword "QUERY" first && keyword "PLAN" second then rest else first :: second :: rest
  | rest => rest

theorem explained_other {t : Token} {read : List Token} (h : heads "QUERY" read = false) :
    explained (t :: read) = read := by
  match read, h with
  | [], _ => rfl
  | [_], _ => rfl
  | first :: second :: rest, h =>
      have hfirst : keyword "QUERY" first = false := h
      rw [explained, List.drop_one, List.tail_cons]
      dsimp only
      rw [hfirst, Bool.false_and, if_neg Bool.false_ne_true]

theorem explained_query {t u : Token} {read : List Token} (h : heads "PLAN" read = false) :
    explained (t :: u :: read) = u :: read := by
  match read, h with
  | [], _ => rfl
  | second :: rest, h =>
      have hsecond : keyword "PLAN" second = false := h
      rw [explained, List.drop_one, List.tail_cons]
      dsimp only
      rw [hsecond, Bool.and_false, if_neg Bool.false_ne_true]

-- A pattern, and its letters in the text.
def Spelt (pattern : String) (z rest : List Char) : Prop :=
  ∃ w, z = w ++ rest ∧ (∀ c ∈ w, c.isAlpha = true) ∧ w.map Char.toUpper = pattern.toList

theorem sameLetter_cases {p c : Char} (hp : 'A' ≤ p ∧ p ≤ 'Z') (h : sameLetter p c = true) :
    (c.isAlpha = true ∧ c.toUpper = p) ∨ (0x80 ≤ c.toNat ∧ c.toNat < 0xf000) := by
  have hrange : 0x41 ≤ p.toNat ∧ p.toNat ≤ 0x5a := hp
  have hall : ∀ n < 0x5b, 0x41 ≤ n → ((Char.ofNat n).isAlpha = true ∧ (Char.ofNat n).toUpper = Char.ofNat n) ∧
      ((Char.ofNat n).toLower.isAlpha = true ∧ (Char.ofNat n).toLower.toUpper = Char.ofNat n) := by
    decide
  have hletter := hall p.toNat (by omega) hrange.1
  rw [Char.ofNat_toNat] at hletter
  simp only [sameLetter, Bool.or_eq_true, Bool.and_eq_true, decide_eq_true_eq] at h
  rcases h with ((rfl | rfl) | ⟨-, rfl⟩) | ⟨-, rfl | rfl⟩
  · exact .inl hletter.1
  · exact .inl hletter.2
  · exact .inr (by decide)
  · exact .inr (by decide)
  · exact .inr (by decide)

theorem literal_cases {pattern z rest : List Char} (hpattern : ∀ p ∈ pattern, 'A' ≤ p ∧ p ≤ 'Z')
    (h : literal pattern z = some rest) :
    (∃ w, z = w ++ rest ∧ (∀ c ∈ w, c.isAlpha = true) ∧ w.map Char.toUpper = pattern) ∨
      ∃ w c y, z = w ++ c :: y ∧ (∀ c ∈ w, c.isAlpha = true) ∧ 0x80 ≤ c.toNat ∧ c.toNat < 0xf000 := by
  induction pattern generalizing z with
  | nil =>
      obtain rfl : z = rest := Option.some.inj h
      exact .inl ⟨[], rfl, nofun, rfl⟩
  | cons p pattern ih =>
      cases z with
      | nil => cases h
      | cons c z =>
          rw [literal] at h
          split_ifs at h with hsame
          rcases sameLetter_cases (hpattern p List.mem_cons_self) hsame with ⟨hc, rfl⟩ | hwide
          · have hletters {w : List Char} (hw : ∀ d ∈ w, d.isAlpha = true) : ∀ d ∈ c :: w,
              d.isAlpha = true := by
              intro d hd
              rcases List.mem_cons.mp hd with rfl | hd
              · exact hc
              · exact hw d hd
            rcases ih (fun q hq => hpattern q (List.mem_cons_of_mem _ hq)) h with
              ⟨w, rfl, hw, rfl⟩ | ⟨w, d, y, rfl, hw, hwide⟩
            · exact .inl ⟨c :: w, rfl, hletters hw, rfl⟩
            · exact .inr ⟨c :: w, d, y, rfl, hletters hw, hwide⟩
          · exact .inr ⟨[], c, z, rfl, nofun, hwide⟩

-- A letter beyond ASCII takes part in a word, which is then no keyword.
theorem literal_spelt {pattern : String} {z rest : List Char} (hpattern : Keyword pattern)
    (h : literal pattern.toList z = some rest) : Harmless (tokens (encode z)) ∨ Spelt pattern z rest := by
  rcases literal_cases hpattern.2 h with hspelt | ⟨w, c, y, rfl, hw, hwide, hsmall⟩
  · exact .inr hspelt
  · refine .inl ?_
    obtain ⟨hbytes, b, bytes, hread, hmark⟩ := encode_wide hwide
    have hb := hbytes b (hread ▸ List.mem_cons_self)
    have hc : c.isAlpha = false := by
      by_contra hc
      rw [Bool.not_eq_false] at hc
      exact absurd (isAlpha_range.mp hc).1 (not_lt.mpr hwide)
    by_cases hempty : w = []
    · subst hempty
      rw [List.nil_append, encode_cons, hread, List.cons_append, tokens_of_next (next_wide hb (hmark hsmall) _)]
      exact harmless_word List.mem_cons_self hb _
    · have htake : (w ++ c :: y).takeWhile Char.isAlpha = w := by
        rw [List.takeWhile_append_of_pos hw, List.takeWhile_cons_of_neg (by rw [hc]; decide), List.append_nil]
      have hdrop : (w ++ c :: y).dropWhile Char.isAlpha = c :: y := by
        rw [List.dropWhile_append_of_pos hw, List.dropWhile_cons_of_neg (by rw [hc]; decide)]
      rcases first_word (by rw [htake]; exact hempty) with hharmless | ⟨-, hstop⟩
      · exact hharmless
      · rw [hdrop, encode_cons, hread, List.cons_append, List.head?_cons, Option.any_some] at hstop
        have hid : isIdChar b = true := by simp [isIdChar, isLetter, hb]
        rw [hid] at hstop
        cases hstop

theorem Spelt.command_eq {pattern : String} {z rest : List Char} (h : Spelt pattern z rest) :
    command z = pattern.toList ++ command rest := by
  obtain ⟨w, rfl, hw, hsame⟩ := h
  rw [command, List.takeWhile_append_of_pos hw, List.map_append, hsame]
  rfl

theorem Spelt.heads {pattern : String} {z rest : List Char} (hpattern : Keyword pattern)
    (h : Spelt pattern z rest)
    {k : String} (hk : Keyword k) (hread : heads k (tokens (encode z)) = true) :
    pattern.toList <+: k.toList := by
  have hcommand := h.command_eq
  have hne : command z ≠ [] := by
    rw [hcommand]
    exact List.append_ne_nil_of_left_ne_nil (by simpa [String.toList_eq_nil_iff] using hpattern.1) _
  rw [← (heads_command hne hk hread).2, hcommand]
  exact List.prefix_append _ _

theorem isAlpha_of_isSpace {c : Char} (h : isSpace c = true) : c.isAlpha = false := by
  by_contra halpha
  rw [Bool.not_eq_false] at halpha
  have hascii := isAlpha_range.mp halpha
  have hall : ∀ n < 0x80, isAsciiLetter n.toUInt8 = true → ¬(9 ≤ n ∧ n ≤ 13) ∧ ¬(28 ≤ n ∧ n ≤ 32) := by decide
  have hnot := hall c.toNat hascii.1 hascii.2
  simp only [isSpace, Bool.or_eq_true, Bool.and_eq_true, decide_eq_true_eq, List.mem_cons,
    List.not_mem_nil, or_false] at h
  omega

-- A word of the pattern and spaces: the word is the first token, what follows the second.
theorem literal_spaces {pattern : String} (hpattern : Keyword pattern) {z y rest : List Char}
    (h : literal pattern.toList z = some y) (hspaces : spaces y = some rest) :
    Harmless (tokens (encode z)) ∨ ∃ t, tokens (encode z) = t :: tokens (encode y) ∧ keyword pattern t = true ∧
      Skips y rest := by
  rcases literal_spelt hpattern h with hharmless | ⟨w, rfl, hw, hsame⟩
  · exact .inl hharmless
  · rw [spaces] at hspaces
    split_ifs at hspaces with hhead
    obtain rfl : lstrip y = rest := Option.some.inj hspaces
    have hword : w ≠ [] := by
      rintro rfl
      exact hpattern.1 (String.toList_eq_nil_iff.mp hsame.symm)
    have htake : y.takeWhile Char.isAlpha = [] ∧ y.dropWhile Char.isAlpha = y := by
      cases y with
      | nil => exact ⟨rfl, rfl⟩
      | cons c y =>
          have hc := isAlpha_of_isSpace (show isSpace c = true from hhead)
          exact ⟨List.takeWhile_cons_of_neg (by rw [hc]; decide),
            List.dropWhile_cons_of_neg (by rw [hc]; decide)⟩
    have hsplit : (w ++ y).takeWhile Char.isAlpha = w ∧ (w ++ y).dropWhile Char.isAlpha = y := by
      rw [List.takeWhile_append_of_pos hw, List.dropWhile_append_of_pos hw, htake.1, List.append_nil]
      exact ⟨rfl, htake.2⟩
    rcases first_word (by rw [hsplit.1]; exact hword) with hharmless | ⟨hread, -⟩
    · exact .inl hharmless
    · rw [hsplit.1, hsplit.2] at hread
      refine .inr ⟨_, hread, ?_, skips_lstrip y⟩
      have hupper : (w.map ascii).map upper = spell pattern := by
        rw [spell, ← hsame, List.map_map, List.map_map]
        exact List.map_congr_left fun c hc => upper_toUpper (hw c hc)
      exact decide_eq_true hupper

-- After EXPLAIN: a first token that starts a statement is SELECT.

def Explains (read : List Token) : Prop := ∀ k ∈ STATEMENTS, heads k read = true → k = "SELECT"

theorem statement_keyword : ∀ k ∈ STATEMENTS, Keyword k := by
  have hall : ∀ k ∈ STATEMENTS, k ≠ "" ∧ (k.toList.all fun c => 'A' ≤ c && c ≤ 'Z') = true := by decide
  intro k hk
  refine ⟨(hall k hk).1, fun c hc => ?_⟩
  simpa using List.all_eq_true.mp (hall k hk).2 c hc

theorem explains_harmless {read : List Token} (h : Harmless read) : Explains read := by
  intro k hk hread
  rw [h.heads (statement_keyword k hk)] at hread
  cases hread

theorem keyword_explain : Keyword "EXPLAIN" := statement_keyword _ (by decide)

theorem keyword_select : Keyword "SELECT" := statement_keyword _ (by decide)

theorem keyword_query : Keyword "QUERY" := ⟨by decide, by decide⟩

theorem keyword_plan : Keyword "PLAN" := ⟨by decide, by decide⟩

theorem explains_select {z rest : List Char} (h : literal "SELECT".toList z = some rest) :
    Explains (tokens (encode z)) := by
  rcases literal_spelt keyword_select h with hharmless | hspelt
  · exact explains_harmless hharmless
  · intro k hk hread
    have hprefix := hspelt.heads keyword_select (statement_keyword k hk) hread
    exact (by decide : ∀ k ∈ STATEMENTS, "SELECT".toList <+: k.toList → k = "SELECT") k hk hprefix

theorem explains_skips {z rest : List Char} (h : Skips z rest) (hrest : Explains (tokens (encode rest))) :
    Explains (tokens (encode z)) := by
  rcases h with hsame | hharmless
  · rwa [hsame]
  · exact explains_harmless hharmless

theorem Skips.heads {z rest : List Char} (h : Skips z rest) {k : String} (hk : Keyword k)
    (hread : heads k (tokens (encode z)) = true) : tokens (encode z) = tokens (encode rest) := by
  rcases h with hsame | hharmless
  · exact hsame
  · rw [hharmless.heads hk] at hread
    cases hread

theorem heads_both {k k' : String} {read : List Token} (h : heads k read = true) (h' : heads k' read = true) :
    spell k = spell k' := by
  obtain ⟨t, ht, hk⟩ := (Option.any_eq_true _ _).mp h
  obtain ⟨u, hu, hk'⟩ := (Option.any_eq_true _ _).mp h'
  obtain rfl : t = u := Option.some.inj (ht.symm.trans hu)
  cases t with
  | word text => exact (of_decide_eq_true hk).symm.trans (of_decide_eq_true hk')
  | _ => cases hk

-- QUERY PLAN read by both, or by one of them.
theorem explains_plan {z rest : List Char} {t : Token} (h : queryPlan z = some rest)
    (hrest : Explains (tokens (encode rest))) :
    Explains (explained (t :: tokens (encode z))) := by
  rw [queryPlan] at h
  obtain ⟨y2, hy2, h⟩ := Option.bind_eq_some_iff.mp h
  obtain ⟨y1, hquery, hspaces⟩ := Option.bind_eq_some_iff.mp hy2
  obtain ⟨y3, hplan, hspaces'⟩ := Option.bind_eq_some_iff.mp h
  rcases literal_spaces keyword_query hquery hspaces with hharmless | ⟨u, hz, hu, hskips⟩
  · rw [explained_other (hharmless.heads keyword_query)]
    exact explains_harmless hharmless
  · rw [hz]
    cases hsecond : heads "PLAN" (tokens (encode y1)) with
    | false =>
        rw [explained_query hsecond]
        intro k hk hread
        have hsame := heads_both hread (show heads "QUERY" (u :: tokens (encode y1)) = true from hu)
        exact absurd hsame ((by decide : ∀ k ∈ STATEMENTS, spell k ≠ spell "QUERY") k hk)
    | true =>
        have hsame := hskips.heads keyword_plan hsecond
        rw [hsame] at hsecond ⊢
        rcases literal_spaces keyword_plan hplan hspaces' with hharmless | ⟨v, hread, hv, hskips'⟩
        · rw [hharmless.heads keyword_plan] at hsecond
          cases hsecond
        · have hexplained : explained (t :: u :: tokens (encode y2)) = tokens (encode y3) := by
            rw [hread, explained, List.drop_one, List.tail_cons]
            dsimp only
            rw [hu, hv, Bool.and_self, if_pos rfl]
          rw [hexplained]
          exact explains_skips hskips' hrest

theorem explained_select {isWord : Char → Bool} {z : List Char} (h : explains isWord z = true)
    (hread : heads "EXPLAIN" (tokens (encode z)) = true) : Explains (explained (tokens (encode z))) := by
  rw [explains] at h
  obtain ⟨z2, hz2, h⟩ := (Option.any_eq_true _ _).mp h
  obtain ⟨z1, hexplain, hspaces⟩ := Option.bind_eq_some_iff.mp hz2
  obtain ⟨z4, hselect, -⟩ := (Option.any_eq_true _ _).mp h
  rcases literal_spaces keyword_explain hexplain hspaces with hharmless | ⟨t, hz, -, hskips⟩
  · rw [hharmless.heads keyword_explain] at hread
    cases hread
  · rw [hz]
    rcases hskips with hsame | hharmless
    · rw [hsame]
      cases hplan : queryPlan z2 with
      | none =>
          rw [hplan, Option.getD_none] at hselect
          have hquery : heads "QUERY" (tokens (encode z2)) = false := by
            by_contra hquery
            rw [Bool.not_eq_false] at hquery
            rcases literal_spelt keyword_select hselect with hharmless | hspelt
            · rw [hharmless.heads keyword_query] at hquery
              cases hquery
            · exact absurd (hspelt.heads keyword_select keyword_query hquery) (by decide)
          rw [explained_other hquery]
          exact explains_select hselect
      | some z3 =>
          rw [hplan, Option.getD_some] at hselect
          exact explains_plan hplan (explains_select hselect)
    · rw [explained_other (hharmless.heads keyword_query)]
      exact explains_harmless hharmless

theorem utf8_encode (text : String) : utf8 text = encode text.toList := utf8_eq text

theorem control_keyword : ∀ k ∈ CONTROL, k ∈ STATEMENTS := by decide

-- What the check lets through, as SQLite reads it.
theorem checked_heads {isWord : Char → Bool} {statement : String} (h : checkSql isWord statement = .ok ())
    (hover : overlapping (lstrip statement.toList) = false) :
    (∀ k ∈ CONTROL, heads k (tokens (utf8 statement)) = false) ∧
      (heads "EXPLAIN" (tokens (utf8 statement)) = true → ∀ k ∈ STATEMENTS,
        heads k (explained (tokens (utf8 statement))) = true → k = "SELECT") := by
  simp only [checkSql, bind_eq_ok, require_eq_ok] at h
  obtain ⟨remaining, hremaining, _, hcommand, hexplains⟩ := h
  have hskips := (skips_lstrip _).trans (skips_comments hremaining hover (head_lstrip _)).1
  rw [utf8_encode]
  constructor
  · intro k hk
    by_contra hread
    rw [Bool.not_eq_false] at hread
    have hkeyword := statement_keyword k (control_keyword k hk)
    rw [hskips.heads hkeyword hread] at hread
    rw [(heads_command hcommand.1 hkeyword hread).2] at hcommand
    exact hcommand.2 (List.mem_map_of_mem hk)
  · intro hread
    have hsame := hskips.heads keyword_explain hread
    rw [hsame] at hread ⊢
    exact explained_select (hexplains (heads_command hcommand.1 keyword_explain hread).2) hread

-- Behind a comment that opens with /*/ the check reads a SELECT.
theorem hidden_accepted (isWord : Char → Bool) {statement : String} {hidden : List Char}
    (h : statement.toList = "/*/ SELECT */ ".toList ++ hidden) : checkSql isWord statement = .ok () := by
  have hopen : lstrip statement.toList = '/' :: '*' :: ("/ SELECT */ ".toList ++ hidden) := by
    rw [h]
    rfl
  have hclose : afterBlock ('/' :: '*' :: ("/ SELECT */ ".toList ++ hidden)) =
    some (" SELECT */ ".toList ++ hidden) :=
    rfl
  have hrest : lstrip (" SELECT */ ".toList ++ hidden) = 'S' :: ("ELECT */ ".toList ++ hidden) := rfl
  rw [checkSql, hopen, skipComments_block hclose, hrest, skipComments_other (by simp) (by simp), except_ok_bind]
  rfl

-- A text that SQLite reads as a command of the transaction or the connection.
def controls (statement : String) : Bool :=
  let read := tokens (utf8 statement)
  CONTROL.any fun k => heads k read || (heads "EXPLAIN" read && heads k (explained read))

theorem controls_of_checked {isWord : Char → Bool} {statement : String} (h : checkSql isWord statement = .ok ())
    (hover : overlapping (lstrip statement.toList) = false) : controls statement = false := by
  obtain ⟨hfirst, hexplained⟩ := checked_heads h hover
  rw [controls, List.any_eq_false]
  intro k hk
  rw [hfirst k hk, Bool.false_or, Bool.and_eq_true]
  rintro ⟨hexplain, hread⟩
  have hselect := hexplained hexplain k (control_keyword k hk) hread
  subst hselect
  exact absurd hk (by decide)

-- What the check lets through takes no control of the transaction or the connection: what SQLite
-- reads first is no such command, and what it explains is a SELECT. The exception is a comment
-- in front that opens with /*/, behind which a COMMIT passes.
theorem checked_statements_control_nothing (isWord : Char → Bool) :
    (∀ statement, checkSql isWord statement = .ok () → overlapping (lstrip statement.toList) = false →
      (∀ k ∈ CONTROL, heads k (tokens (utf8 statement)) = false) ∧
        (heads "EXPLAIN" (tokens (utf8 statement)) = true → ∀ k ∈ STATEMENTS,
          heads k (explained (tokens (utf8 statement))) = true → k = "SELECT")) ∧
      ∃ statement, checkSql isWord statement = .ok () ∧ heads "COMMIT" (tokens (utf8 statement)) = true :=
  ⟨fun _ h hover => checked_heads h hover, "/*/ SELECT */ COMMIT",
    @hidden_accepted isWord _ "COMMIT".toList rfl, by decide +kernel⟩

end Gate

end MeldStore
