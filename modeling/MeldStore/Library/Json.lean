import Mathlib.Algebra.Order.Field.Rat
import Mathlib.Data.List.Lex
import Mathlib.Data.List.Sort
import Mathlib.Tactic.Common

namespace Library.Json

-- A decoded string: code points, of which an escape may also give a lone
-- surrogate.
abbrev Str := List ℕ

-- A number is kept as its literal, so that a tree says what was written;
-- `Number.ofLexeme` gives the value it is read back as.
inductive Tree
  | null
  | bool (b : Bool)
  | num (lexeme : List Char)
  | str (s : Str)
  | arr (items : List Tree)
  | obj (members : List (Str × Tree))

def isBlank (c : Char) : Bool := c == ' ' || c == '\t' || c == '\n' || c == '\r'

def skipBlanks : List Char → List Char
  | [] => []
  | c :: rest => if isBlank c then skipBlanks rest else c :: rest

def hexDigit (c : Char) : Option ℕ :=
  if '0' ≤ c ∧ c ≤ '9' then some (c.toNat - 48)
  else if 'a' ≤ c ∧ c ≤ 'f' then some (c.toNat - 87)
  else if 'A' ≤ c ∧ c ≤ 'F' then some (c.toNat - 55)
  else none

def escapeValue : Char → Option ℕ
  | '"' => some 34
  | '\\' => some 92
  | '/' => some 47
  | 'b' => some 8
  | 'f' => some 12
  | 'n' => some 10
  | 'r' => some 13
  | 't' => some 9
  | _ => none

def isHigh (n : ℕ) : Bool := 0xd800 ≤ n && n ≤ 0xdbff

def isLow (n : ℕ) : Bool := 0xdc00 ≤ n && n ≤ 0xdfff

-- An escaped surrogate pair is one code point. Text itself never holds a
-- surrogate, so adjacent ones both come from escapes.
def joinSurrogates : Str → Str
  | high :: low :: rest =>
      if isHigh high && isLow low then
        (0x10000 + (high - 0xd800) * 1024 + (low - 0xdc00)) :: joinSurrogates rest
      else high :: joinSurrogates (low :: rest)
  | rest => rest

-- The units of a string after its opening quote, and what follows the closing one.
def stringUnits : List Char → Option (Str × List Char)
  | [] => none
  | '"' :: rest => some ([], rest)
  | '\\' :: 'u' :: a :: b :: c :: d :: rest => do
      let w ← hexDigit a
      let x ← hexDigit b
      let y ← hexDigit c
      let z ← hexDigit d
      let (units, after) ← stringUnits rest
      some ((((w * 16 + x) * 16 + y) * 16 + z) :: units, after)
  | '\\' :: e :: rest => do
      let unit ← escapeValue e
      let (units, after) ← stringUnits rest
      some (unit :: units, after)
  | c :: rest =>
      if c.toNat < 32 ∨ c = '\\' then none
      else do
        let (units, after) ← stringUnits rest
        some (c.toNat :: units, after)

def isDigit (c : Char) : Bool := '0' ≤ c && c ≤ '9'

def digits (text : List Char) : List Char × List Char := (text.takeWhile isDigit, text.dropWhile isDigit)

-- The optional fraction of a number: without a digit after the point the number
-- ends before it.
def fraction (text : List Char) : List Char × List Char :=
  match text with
  | '.' :: rest =>
      match digits rest with
      | ([], _) => ([], text)
      | (ds, after) => ('.' :: ds, after)
  | _ => ([], text)

def exponentSign : List Char → List Char × List Char
  | '+' :: rest => (['+'], rest)
  | '-' :: rest => (['-'], rest)
  | rest => ([], rest)

def exponent (text : List Char) : List Char × List Char :=
  match text with
  | c :: rest =>
      if c = 'e' ∨ c = 'E' then
        let (sign, rest) := exponentSign rest
        match digits rest with
        | ([], _) => ([], text)
        | (ds, after) => (c :: sign ++ ds, after)
      else ([], text)
  | [] => ([], [])

def integerPart : List Char → Option (List Char × List Char)
  | '0' :: rest => some (['0'], rest)
  | text =>
      match digits text with
      | ([], _) => none
      | (ds, after) => some (ds, after)

def unsigned (text : List Char) : Option (List Char × List Char) := do
  let (whole, text) ← integerPart text
  let (frac, text) := fraction text
  let (exp, text) := exponent text
  some (whole ++ frac ++ exp, text)

def number : List Char → Option (List Char × List Char)
  | '-' :: rest => do
      let (lexeme, after) ← unsigned rest
      some ('-' :: lexeme, after)
  | text => unsigned text

def literals : List (List Char × Tree) :=
  [("null".toList, .null), ("true".toList, .bool true), ("false".toList, .bool false),
    ("NaN".toList, .num "NaN".toList), ("Infinity".toList, .num "Infinity".toList),
    ("-Infinity".toList, .num "-Infinity".toList)]

def scalar (text : List Char) : Option (Tree × List Char) :=
  match literals.find? fun literal => literal.1.isPrefixOf text with
  | some (word, value) => some (value, text.drop word.length)
  | none => do
      let (lexeme, after) ← number text
      some (.num lexeme, after)

mutual

def value : ℕ → List Char → Option (Tree × List Char)
  | 0, _ => none
  | fuel + 1, text =>
      match text with
      | '"' :: rest => do
          let (units, after) ← stringUnits rest
          some (.str (joinSurrogates units), after)
      | '[' :: rest =>
          match skipBlanks rest with
          | ']' :: after => some (.arr [], after)
          | rest => do
              let (items, after) ← elements fuel rest
              some (.arr items, after)
      | '{' :: rest =>
          match skipBlanks rest with
          | '}' :: after => some (.obj [], after)
          | rest => do
              let (members, after) ← entries fuel rest
              some (.obj members, after)
      | _ => scalar text

def elements : ℕ → List Char → Option (List Tree × List Char)
  | 0, _ => none
  | fuel + 1, text => do
      let (item, rest) ← value fuel text
      match skipBlanks rest with
      | ']' :: after => some ([item], after)
      | ',' :: rest => do
          let (items, after) ← elements fuel (skipBlanks rest)
          some (item :: items, after)
      | _ => none

def entries : ℕ → List Char → Option (List (Str × Tree) × List Char)
  | 0, _ => none
  | fuel + 1, text =>
      match text with
      | '"' :: rest => do
          let (units, rest) ← stringUnits rest
          match skipBlanks rest with
          | ':' :: rest => do
              let (item, rest) ← value fuel (skipBlanks rest)
              match skipBlanks rest with
              | '}' :: after => some ([(joinSurrogates units, item)], after)
              | ',' :: rest => do
                  let (members, after) ← entries fuel (skipBlanks rest)
                  some ((joinSurrogates units, item) :: members, after)
              | _ => none
          | _ => none
      | _ => none

end

-- Every call but the one from `[` to its first element consumes a character.
def loads (text : List Char) : Option Tree :=
  match value (2 * text.length + 2) (skipBlanks text) with
  | some (tree, rest) => if skipBlanks rest = [] then some tree else none
  | none => none

-- The numeric value of a literal: Python reads one without a point or an
-- exponent as an int, any other as the nearest double.
inductive Number
  | int (i : ℤ)
  | double (q : ℚ)
  | infinity (negative : Bool)
  | nan
deriving DecidableEq

def natOf (ds : List Char) : ℕ := ds.foldl (fun n c => 10 * n + (c.toNat - 48)) 0

def roundHalfEven (q : ℚ) : ℕ :=
  let whole := q.num.toNat / q.den
  let rest := q.num.toNat % q.den
  if 2 * rest < q.den then whole
  else if q.den < 2 * rest then whole + 1
  else whole + whole % 2

def scale (exponent : ℤ) : ℚ := if 0 ≤ exponent then 2 ^ exponent.toNat else 1 / 2 ^ (-exponent).toNat

-- The double nearest to a positive rational, ties to even; `none` on overflow.
def nearestDouble (q : ℚ) : Option ℚ :=
  let estimate : ℤ := (Nat.log2 q.num.toNat : ℤ) - (Nat.log2 q.den : ℤ)
  let top := if q < scale estimate then estimate - 1 else estimate
  let step := max (top - 52) (-1074)
  let rounded := (roundHalfEven (q / scale step) : ℚ) * scale step
  if rounded < 2 ^ 1024 then some rounded else none

def decimal (whole frac : List Char) (exp : ℤ) : ℚ :=
  let shift := exp - frac.length
  (natOf (whole ++ frac) : ℚ) *
    (if 0 ≤ shift then 10 ^ shift.toNat else 1 / 10 ^ (-shift).toNat)

def exponentOf : List Char → ℤ
  | '-' :: ds => -(natOf ds : ℤ)
  | '+' :: ds => natOf ds
  | ds => natOf ds

def magnitude (negative : Bool) (text : List Char) : Number :=
  if text.all isDigit then .int (if negative then -(natOf text : ℤ) else natOf text)
  else
    let (whole, rest) := digits text
    let (frac, rest) := fraction rest
    let q := decimal whole (frac.drop 1) (exponentOf (rest.drop 1))
    if q = 0 then .double 0
    else
      match nearestDouble q with
      | some d => .double (if negative then -d else d)
      | none => .infinity negative

def Number.ofLexeme (lexeme : List Char) : Number :=
  if lexeme = "NaN".toList then .nan
  else if lexeme = "Infinity".toList then .infinity false
  else if lexeme = "-Infinity".toList then .infinity true
  else
    match lexeme with
    | '-' :: text => magnitude true text
    | text => magnitude false text

-- Python's == on numbers.
def Number.equal : Number → Number → Bool
  | .nan, _ => false
  | _, .nan => false
  | .int i, .double q => (i : ℚ) = q
  | .double q, .int i => q = (i : ℚ)
  | a, b => a = b

-- True and False are the integers 1 and 0.
def numeric : Tree → Option Number
  | .bool b => some (.int (if b then 1 else 0))
  | .num lexeme => some (Number.ofLexeme lexeme)
  | _ => none

-- A JSON object becomes a dict: the last member of a key wins.
def lookup (members : List (Str × Tree)) (key : Str) : Option Tree :=
  (members.reverse.find? fun member => member.1 = key).map Prod.snd

mutual

-- Python's == on decoded values; `fuel` bounds the depth.
def equal : ℕ → Tree → Tree → Bool
  | 0, _, _ => false
  | fuel + 1, a, b =>
      match numeric a, numeric b with
      | some m, some n => m.equal n
      | _, _ =>
          match a, b with
          | .null, .null => true
          | .str s, .str t => s = t
          | .arr xs, .arr ys => equalItems fuel xs ys
          | .obj ms, .obj ns =>
              coveredBy fuel ms ns (ms.map Prod.fst) && coveredBy fuel ns ms (ns.map Prod.fst)
          | _, _ => false

def equalItems : ℕ → List Tree → List Tree → Bool
  | _, [], [] => true
  | fuel + 1, x :: xs, y :: ys => equal fuel x y && equalItems fuel xs ys
  | _, _, _ => false

-- Every listed key has equal values in both dicts.
def coveredBy : ℕ → List (Str × Tree) → List (Str × Tree) → List Str → Bool
  | _, _, _, [] => true
  | fuel + 1, ms, ns, key :: keys =>
      (match lookup ms key, lookup ns key with
        | some x, some y => equal fuel x y
        | _, _ => false) && coveredBy fuel ms ns keys
  | 0, _, _, _ :: _ => false

end

mutual

def size : Tree → ℕ
  | .arr items => sizeItems items + 1
  | .obj members => sizeMembers members + 1
  | _ => 1

def sizeItems : List Tree → ℕ
  | [] => 0
  | item :: items => size item + sizeItems items + 1

def sizeMembers : List (Str × Tree) → ℕ
  | [] => 0
  | (_, item) :: members => size item + sizeMembers members + 1

end

def Tree.equal (a b : Tree) : Bool := Library.Json.equal (size a + size b + 1) a b

-- Writing: separators "," and ":", ASCII only.
def hexChar (n : ℕ) : Char := Nat.digitChar (n % 16)

def escapeUnit (n : ℕ) : List Char :=
  ['\\', 'u', hexChar (n / 4096), hexChar (n / 256), hexChar (n / 16), hexChar n]

def escapeCodePoint (n : ℕ) : List Char :=
  if n = 34 then ['\\', '"']
  else if n = 92 then ['\\', '\\']
  else if n = 10 then ['\\', 'n']
  else if n = 13 then ['\\', 'r']
  else if n = 9 then ['\\', 't']
  else if n = 12 then ['\\', 'f']
  else if n = 8 then ['\\', 'b']
  else if 32 ≤ n ∧ n ≤ 126 then [Char.ofNat n]
  else if n < 65536 then escapeUnit n
  else escapeUnit (0xd800 + (n - 0x10000) / 1024) ++ escapeUnit (0xdc00 + (n - 0x10000) % 1024)

def quoted (s : Str) : List Char := '"' :: s.flatMap escapeCodePoint ++ ['"']

mutual

def dumps : Tree → List Char
  | .null => "null".toList
  | .bool true => "true".toList
  | .bool false => "false".toList
  | .num lexeme => lexeme
  | .str s => quoted s
  | .arr items => '[' :: dumpsItems items ++ [']']
  | .obj members => '{' :: dumpsMembers members ++ ['}']

def dumpsItems : List Tree → List Char
  | [] => []
  | [item] => dumps item
  | item :: items => dumps item ++ ',' :: dumpsItems items

def dumpsMembers : List (Str × Tree) → List Char
  | [] => []
  | [(key, item)] => quoted key ++ ':' :: dumps item
  | (key, item) :: members => quoted key ++ ':' :: dumps item ++ ',' :: dumpsMembers members

end

mutual

-- sort_keys=True, at every depth.
def sortKeys : Tree → Tree
  | .arr items => .arr (sortItems items)
  | .obj members => .obj ((sortMembers members).insertionSort fun a b => a.1 ≤ b.1)
  | tree => tree

def sortItems : List Tree → List Tree
  | [] => []
  | item :: items => sortKeys item :: sortItems items

def sortMembers : List (Str × Tree) → List (Str × Tree)
  | [] => []
  | (key, item) :: members => (key, sortKeys item) :: sortMembers members

end

def ofString (s : String) : Str := s.toList.map Char.toNat

end Library.Json
