import Mathlib.Data.List.TakeWhile
import Mathlib.Order.Basic
import Mathlib.Tactic.Common

namespace Library.Sql

-- The tokenizer of SQLite, on the bytes of a text: sqlite3GetToken without the Tcl forms of a
-- variable. Keywords are words here.

abbrev Bytes := List UInt8

-- What is said of the bytes of a list is decided along the list, and not for every byte there is.
instance (priority := 2000) decidableBytes (p : UInt8 → Prop) [DecidablePred p] (bytes : List UInt8) :
    Decidable (∀ b ∈ bytes, p b) :=
  List.decidableBAll p bytes

def ascii (c : Char) : UInt8 := c.toNat.toUInt8

def spell (text : String) : Bytes := text.toList.map ascii

inductive Token
  | word (text : Bytes)
  | name (value : Bytes)
  | string (value : Bytes)
  | blob (digits : Bytes)
  | number (text : Bytes)
  | variable (text : Bytes)
  | symbol (text : Bytes)
  | illegal (text : Bytes)
deriving DecidableEq, Repr

def isSpace (b : UInt8) : Bool := b = 0x20 || (0x09 ≤ b && b ≤ 0x0d)

def isDigit (b : UInt8) : Bool := 0x30 ≤ b && b ≤ 0x39

def isHex (b : UInt8) : Bool := isDigit b || (0x41 ≤ b && b ≤ 0x46) || (0x61 ≤ b && b ≤ 0x66)

def isLetter (b : UInt8) : Bool := (0x41 ≤ b && b ≤ 0x5a) || (0x61 ≤ b && b ≤ 0x7a) || b = ascii '_' || 0x80 ≤ b

def isIdChar (b : UInt8) : Bool := isLetter b || isDigit b || b = ascii '$'

-- A digit, or the separator between digits.
def isPlace (b : UInt8) : Bool := isDigit b || b = ascii '_'

def isQuote (b : UInt8) : Bool := b = ascii '"' || b = 0x27 || b = 0x60

-- What a text starts with, and the rest.

def followedBy (z : Bytes) (p : UInt8 → Bool) : Bool := z.head?.any p

-- After the opening quote: the value, where a doubled quote stands for one, and the rest
-- after the closing quote.
def quoted (q : UInt8) : Bytes → Option (Bytes × Bytes)
  | [] => none
  | c :: z =>
      if c = q then
        match z with
        | [] => some ([], [])
        | d :: rest => if d = q then (quoted q rest).map fun read =>
            (q :: read.1, read.2) else some ([], d :: rest)
      else if c = 0 then none
      else (quoted q z).map fun read => (c :: read.1, read.2)

def upToNul (z : Bytes) : Bytes := z.dropWhile fun c => c ≠ 0

-- After the opening mark of a comment.
def blockRest : Bytes → Bytes
  | [] => []
  | c :: z =>
      if c = 0 then c :: z
      else if c = ascii '*' then
        match z with
        | [] => []
        | d :: rest => if d = ascii '/' then rest else blockRest (d :: rest)
      else blockRest z

def lineRest (z : Bytes) : Bytes := z.dropWhile fun c => c ≠ 0 && c ≠ 0x0a

-- The rest after the digits, the fraction and the exponent of a number.
def fractionRest : Bytes → Bytes
  | [] => []
  | c :: z => if c = ascii '.' then z.dropWhile isPlace else c :: z

def exponentRest : Bytes → Bytes
  | [] => []
  | c :: z =>
      if c = ascii 'e' || c = ascii 'E' then
        match z with
        | [] => [c]
        | d :: rest =>
            if isDigit d then rest.dropWhile isPlace
            else if (d = ascii '+' || d = ascii '-') && followedBy rest isDigit then
              (rest.drop 1).dropWhile isPlace
            else c :: d :: rest
      else c :: z

def decimalRest (z : Bytes) : Bytes := exponentRest (fractionRest (z.dropWhile isPlace))

def numberRest (z : Bytes) : Bytes :=
  match z with
  | c :: x :: h :: rest =>
      if c = ascii '0' && (x = ascii 'x' || x = ascii 'X') && isHex h then
        rest.dropWhile fun b => isHex b || b = ascii '_'
      else decimalRest z
  | _ => decimalRest z

-- The bytes of a text before a rest of it.
def before (z rest : Bytes) : Bytes := z.take (z.length - rest.length)

def number (z : Bytes) : Token × Bytes :=
  let rest := numberRest z
  if followedBy rest isIdChar then
    let stop := rest.dropWhile isIdChar
    (.illegal (before z stop), stop)
  else (.number (before z rest), rest)

-- After the opening quote of a blob literal.
def blob (z : Bytes) : Token × Bytes :=
  let rest := z.dropWhile isHex
  match rest with
  | [] => (.illegal z, [])
  | c :: after =>
      if c = 0x27 && (before z rest).length % 2 = 0 then (.blob (before z rest), after)
      else
        let stop := rest.dropWhile fun b => b ≠ 0 && b ≠ 0x27
        (.illegal (before z stop), if followedBy stop (· = 0x27) then stop.drop 1 else stop)

def operators : List Bytes := ["->>", "->", "==", "<=", "<>", "<<", ">=", ">>", "!=", "||"].map spell

def punctuation : Bytes := spell "();+*/%=<>|,&~.-"

def operator (c : UInt8) (z : Bytes) : Token × Bytes :=
  match operators.find? fun operator => operator.isPrefixOf (c :: z) with
  | some operator => (.symbol operator, (c :: z).drop operator.length)
  | none => if c ∈ punctuation then (.symbol [c], z) else (.illegal [c], z)

-- Spaces, comments and a byte order mark are no tokens.
def scan (c : UInt8) (z : Bytes) : Option Token × Bytes :=
  if isSpace c && c ≠ 0x0b then (none, z.dropWhile isSpace)
  else if c = ascii '-' && followedBy z (· = ascii '-') then (none, lineRest (z.drop 1))
  else if c = ascii '/' && followedBy z (· = ascii '*') && followedBy (z.drop 1) (· ≠ 0) then
    (none, blockRest (z.drop 1))
  else if isQuote c then
    match quoted c z with
    | some (value, rest) => (some (if c = 0x27 then .string value else .name value), rest)
    | none => (some (.illegal (before z (upToNul z))), upToNul z)
  else if c = ascii '[' then
    let rest := z.dropWhile fun b => b ≠ 0 && b ≠ ascii ']'
    if followedBy rest (· = ascii ']') then (some (.name (before z rest)), rest.drop 1)
    else (some (.illegal (before z rest)), rest)
  else if isDigit c || (c = ascii '.' && followedBy z isDigit) then
    let (token, rest) := number (c :: z)
    (some token, rest)
  else if (c = ascii 'x' || c = ascii 'X') && followedBy z (· = 0x27) then
    let (token, rest) := blob (z.drop 1)
    (some token, rest)
  else if c = 0xef && [0xbb, 0xbf].isPrefixOf z then (none, z.drop 2)
  else if isLetter c then (some (.word (c :: z.takeWhile isIdChar)), z.dropWhile isIdChar)
  else if c = ascii '?' then (some (.variable (c :: z.takeWhile isDigit)), z.dropWhile isDigit)
  else if c ∈ spell "$@#:" then
    (some (if followedBy z isIdChar then .variable (c :: z.takeWhile isIdChar) else .illegal [c]),
      z.dropWhile isIdChar)
  else
    let (token, rest) := operator c z
    (some token, rest)

-- A NUL ends the text.
def next : Bytes → Option (Option Token × Bytes)
  | [] => none
  | c :: z => if c = 0 then none else some (scan c z)

section

variable {q c : UInt8} {z : Bytes}

theorem quoted_other (hc : c ≠ q) (hnul : c ≠ 0) :
    quoted q (c :: z) = (quoted q z).map fun read => (c :: read.1, read.2) := by
  rw [quoted.eq_def]
  dsimp only
  rw [if_neg hc, if_neg hnul]

theorem quoted_twice : quoted q (q :: q :: z) = (quoted q z).map fun read => (q :: read.1, read.2) := by
  rw [quoted, if_pos rfl, if_pos rfl]

theorem quoted_nul (hc : c ≠ q) (hnul : c = 0) : quoted q (c :: z) = none := by
  rw [quoted.eq_def]
  dsimp only
  rw [if_neg hc, if_pos hnul]

theorem quoted_close (h : z.head? ≠ some q) : quoted q (q :: z) = some ([], z) := by
  cases z with
  | nil => rw [quoted, if_pos rfl]
  | cons d z => rw [quoted, if_pos rfl, if_neg fun hsame => h (congrArg some hsame)]

end

-- The rest of a text is a suffix of it.

theorem quoted_suffix {q : UInt8} {z value rest : Bytes}
    (h : quoted q z = some (value, rest)) : rest <:+ z := by
  fun_induction quoted q z generalizing value rest with
  | case1 => cases h
  | case2 =>
      cases h
      exact List.nil_suffix
  | case3 z ih =>
      obtain ⟨⟨inner, rest'⟩, hinner, hsame⟩ := Option.map_eq_some_iff.mp h
      cases hsame
      exact (ih hinner).trans ((List.suffix_cons _ _).trans (List.suffix_cons _ _))
  | case4 =>
      cases h
      exact List.suffix_cons _ _
  | case5 => cases h
  | case6 c z hc hnul ih =>
      obtain ⟨⟨inner, rest'⟩, hinner, hsame⟩ := Option.map_eq_some_iff.mp h
      cases hsame
      exact (ih hinner).trans (List.suffix_cons _ _)

theorem quoted_tail {q c : UInt8} {z value rest : Bytes}
    (h : quoted q (c :: z) = some (value, rest)) : rest <:+ z := by
  by_cases hc : c = q
  · subst hc
    by_cases hclose : z.head? = some c
    · obtain ⟨after, rfl⟩ := List.head?_eq_some_iff.mp hclose
      rw [quoted_twice] at h
      obtain ⟨⟨inner, rest'⟩, hinner, hsame⟩ := Option.map_eq_some_iff.mp h
      cases hsame
      exact (quoted_suffix hinner).trans (List.suffix_cons _ _)
    · rw [quoted_close hclose] at h
      cases h
      exact List.suffix_rfl
  · by_cases hnul : c = 0
    · rw [quoted_nul hc hnul] at h
      cases h
    · rw [quoted_other hc hnul] at h
      obtain ⟨⟨inner, rest'⟩, hinner, hsame⟩ := Option.map_eq_some_iff.mp h
      cases hsame
      exact quoted_suffix hinner

theorem blockRest_suffix (z : Bytes) : blockRest z <:+ z := by
  fun_induction blockRest z with
  | case1 => exact List.suffix_rfl
  | case2 => exact List.suffix_rfl
  | case3 => exact List.nil_suffix
  | case4 => exact (List.suffix_cons _ _).trans (List.suffix_cons _ _)
  | case5 d rest hnul hd ih => exact ih.trans (List.suffix_cons _ _)
  | case6 c z hnul hc ih => exact ih.trans (List.suffix_cons _ _)

theorem fractionRest_suffix (z : Bytes) : fractionRest z <:+ z := by
  cases z with
  | nil => exact List.suffix_rfl
  | cons c z =>
      rw [fractionRest]
      split_ifs
      · exact (List.dropWhile_suffix _).trans (List.suffix_cons _ _)
      · exact List.suffix_rfl

theorem exponentRest_suffix (z : Bytes) : exponentRest z <:+ z := by
  fun_cases exponentRest z with
  | case1 => exact List.suffix_rfl
  | case2 c => exact List.suffix_rfl
  | case3 c hc d rest hd =>
      exact (List.dropWhile_suffix _).trans ((List.suffix_cons _ _).trans (List.suffix_cons _ _))
  | case4 c hc d rest hd hsign =>
      exact (List.dropWhile_suffix _).trans ((List.drop_suffix _ _).trans
        ((List.suffix_cons _ _).trans (List.suffix_cons _ _)))
  | case5 => exact List.suffix_rfl
  | case6 => exact List.suffix_rfl

theorem decimalRest_suffix (z : Bytes) : decimalRest z <:+ z :=
  (exponentRest_suffix _).trans ((fractionRest_suffix _).trans (List.dropWhile_suffix _))

theorem numberRest_suffix (z : Bytes) : numberRest z <:+ z := by
  fun_cases numberRest z with
  | case1 =>
      exact (List.dropWhile_suffix _).trans
        ((List.suffix_cons _ _).trans ((List.suffix_cons _ _).trans (List.suffix_cons _ _)))
  | case2 => exact decimalRest_suffix _
  | case3 => exact decimalRest_suffix _

theorem dropWhile_tail {p : UInt8 → Bool} {c : UInt8} {z : Bytes} (h : p c = true) :
    (c :: z).dropWhile p <:+ z := by
  rw [List.dropWhile_cons_of_pos h]
  exact List.dropWhile_suffix _

theorem isPlace_of_isDigit {b : UInt8} (h : isDigit b = true) : isPlace b = true := by
  rw [isPlace, h, Bool.true_or]

theorem decimalRest_tail {c : UInt8} {z : Bytes} (h : isDigit c = true ∨ c = ascii '.') :
    decimalRest (c :: z) <:+ z := by
  rw [decimalRest]
  rcases h with hdigit | rfl
  · exact (exponentRest_suffix _).trans ((fractionRest_suffix _).trans
      (dropWhile_tail (isPlace_of_isDigit hdigit)))
  · have hpoint : (ascii '.' :: z).dropWhile isPlace = ascii '.' :: z := List.dropWhile_cons_of_neg (by decide)
    rw [hpoint, fractionRest, if_pos rfl]
    exact (exponentRest_suffix _).trans (List.dropWhile_suffix _)

theorem numberRest_tail {c : UInt8} {z : Bytes} (h : isDigit c = true ∨ c = ascii '.') :
    numberRest (c :: z) <:+ z := by
  match z with
  | [] => exact decimalRest_tail h
  | [_] => exact decimalRest_tail h
  | x :: d :: rest =>
      rw [numberRest]
      split_ifs
      · exact (List.dropWhile_suffix _).trans ((List.suffix_cons _ _).trans (List.suffix_cons _ _))
      · exact decimalRest_tail h

theorem number_suffix {c : UInt8} {z : Bytes} (h : isDigit c = true ∨ c = ascii '.') :
    (number (c :: z)).2 <:+ z := by
  simp only [number]
  split_ifs
  · exact (List.dropWhile_suffix _).trans (numberRest_tail h)
  · exact numberRest_tail h

theorem blob_suffix (z : Bytes) : (blob z).2 <:+ z := by
  simp only [blob]
  cases hrest : z.dropWhile isHex with
  | nil => exact List.nil_suffix
  | cons c after =>
      have hsuffix : c :: after <:+ z := hrest ▸ List.dropWhile_suffix _
      dsimp only
      split_ifs
      · exact (List.suffix_cons _ _).trans hsuffix
      · exact (List.drop_suffix _ _).trans ((List.dropWhile_suffix _).trans hsuffix)
      · exact (List.dropWhile_suffix _).trans hsuffix

theorem operator_suffix (c : UInt8) (z : Bytes) : (operator c z).2 <:+ z := by
  simp only [operator]
  split
  · rename_i operator hfound
    have hlength : 1 ≤ operator.length :=
      (by decide : ∀ operator ∈ operators, 1 ≤ operator.length) operator (List.mem_of_find?_eq_some hfound)
    obtain ⟨n, hn⟩ := Nat.exists_eq_add_of_le' hlength
    rw [hn, List.drop_succ_cons]
    exact List.drop_suffix _ _
  · split_ifs <;> exact List.suffix_rfl

theorem scan_suffix (c : UInt8) (z : Bytes) : (scan c z).2 <:+ z := by
  fun_cases scan c z with
  | case1 => exact List.dropWhile_suffix _
  | case2 => exact (List.dropWhile_suffix _).trans (List.drop_suffix _ _)
  | case3 => exact (blockRest_suffix _).trans (List.drop_suffix _ _)
  | case4 _ _ _ _ value rest hquoted => exact quoted_suffix hquoted
  | case5 => exact List.dropWhile_suffix _
  | case6 => exact (List.drop_suffix _ _).trans (List.dropWhile_suffix _)
  | case7 => exact List.dropWhile_suffix _
  | case8 _ _ _ _ _ hdigit token rest hnumber =>
      have hstart : isDigit c = true ∨ c = ascii '.' := by
        simp only [Bool.or_eq_true, Bool.and_eq_true, decide_eq_true_eq] at hdigit
        exact hdigit.imp_right And.left
      exact congrArg Prod.snd hnumber ▸ number_suffix hstart
  | case9 _ _ _ _ _ _ _ token rest hblob =>
      exact (congrArg Prod.snd hblob ▸ blob_suffix (z.drop 1)).trans (List.drop_suffix _ _)
  | case10 => exact List.drop_suffix _ _
  | case11 => exact List.dropWhile_suffix _
  | case12 => exact List.dropWhile_suffix _
  | case13 => exact List.dropWhile_suffix _
  | case14 _ _ _ _ _ _ _ _ _ _ _ token rest hoperator => exact congrArg Prod.snd hoperator ▸ operator_suffix c z

theorem next_suffix {z rest : Bytes} {token : Option Token} (h : next z = some (token, rest)) :
    rest <:+ z ∧ rest.length < z.length := by
  cases z with
  | nil => cases h
  | cons c z =>
      rw [next] at h
      split_ifs at h
      have hsuffix := scan_suffix c z
      rw [Option.some.inj h] at hsuffix
      exact ⟨hsuffix.trans (List.suffix_cons _ _), Nat.lt_succ_of_le hsuffix.length_le⟩

def tokens (z : Bytes) : List Token :=
  match _h : next z with
  | none => []
  | some (token, rest) => token.toList ++ tokens rest
termination_by z.length
decreasing_by exact (next_suffix _h).2

theorem tokens_eq (z : Bytes) : tokens z = match next z with
    | none => []
    | some (token, rest) => token.toList ++ tokens rest := by
  rw [tokens]
  split <;> simp_all

theorem tokens_of_next {z rest : Bytes} {token : Option Token} (h : next z = some (token, rest)) :
    tokens z = token.toList ++ tokens rest := by
  rw [tokens_eq, h]

end Library.Sql
