import MeldStore.Library.Sql.Parts
import Mathlib.Data.Int.Notation

namespace Library.Sql

-- Literal expressions: their grammar and their values. A text is kept as the bytes of its encoding,
-- which is the one of the database.

inductive Value
  | null
  | integer (i : ℤ)
  | text (bytes : Bytes)
  | blob (bytes : Bytes)
deriving DecidableEq, Repr

inductive Expr
  | null
  | integer (n : ℕ)
  | text (bytes : Bytes)
  | blob (bytes : Bytes)
  | negate (e : Expr)
  | castText (e : Expr)
deriving DecidableEq, Repr

def upper (b : UInt8) : UInt8 := if 0x61 ≤ b && b ≤ 0x7a then b - 0x20 else b

-- A keyword, in any case.
def keyword (spelling : String) : Token → Bool
  | .word text => text.map upper = spell spelling
  | _ => false

def symbol (spelling : String) : Token := .symbol (spell spelling)

def decimal (digits : Bytes) : ℕ := digits.foldl (fun n d => 10 * n + (d.toNat - 48)) 0

def hexValue (b : UInt8) : ℕ := if isDigit b then b.toNat - 48 else (upper b).toNat - 55

def unhex : Bytes → Bytes
  | high :: low :: digits => UInt8.ofNat (16 * hexValue high + hexValue low) :: unhex digits
  | _ => []

-- After `CAST(operand`.
def castEnd : Expr × List Token → Option (Expr × List Token)
  | (e, connective :: type :: close :: rest) =>
      if keyword "AS" connective && keyword "TEXT" type && close = symbol ")" then
        some (.castText e, rest) else none
  | _ => none

-- One operand, and the tokens after it.
def operand : List Token → Option (Expr × List Token)
  | .number digits :: rest => if digits.all isDigit then some (.integer (decimal digits), rest) else none
  | .string bytes :: rest => some (.text bytes, rest)
  | .blob digits :: rest => some (.blob (unhex digits), rest)
  | .symbol sign :: rest =>
      if sign = spell "-" then (operand rest).map fun read => (.negate read.1, read.2) else none
  | .word text :: rest =>
      if keyword "NULL" (.word text) then some (.null, rest)
      else match rest with
        | bracket :: rest =>
            if keyword "CAST" (.word text) && bracket = symbol "(" then (operand rest).bind castEnd else none
        | [] => none
  | _ => none

-- An integer out of range is a REAL; its negation is not, at the one end of the range.
def Expr.eval : Expr → Option Value
  | null => some .null
  | integer n => if n < 2 ^ 63 then some (.integer n) else none
  | text bytes => some (.text bytes)
  | blob bytes => some (.blob bytes)
  | negate (integer n) => if n ≤ 2 ^ 63 then some (.integer (-n)) else none
  | negate _ => none
  | castText e => match e.eval with
    | some .null => some .null
    | some (.text bytes) => some (.text bytes)
    | some (.blob bytes) => some (.text bytes)
    | _ => none

-- The names in front of a closing bracket.
def nameList : List Token → Option (List Bytes × List Token)
  | .name first :: mark :: rest =>
      if mark = symbol ")" then some ([first], rest)
      else if mark = symbol "," then (nameList rest).map fun read => (first :: read.1, read.2)
      else none
  | _ => none

-- The operands in front of a closing bracket.
def operandList : ℕ → List Token → Option (List Expr × List Token)
  | 0, _ => none
  | fuel + 1, tokens => (operand tokens).bind fun first => match first.2 with
    | mark :: rest =>
        if mark = symbol ")" then some ([first.1], rest)
        else if mark = symbol "," then (operandList fuel rest).map fun read => (first.1 :: read.1, read.2)
        else none
    | [] => none

structure Insert where
  table : Bytes
  columns : List Bytes
  values : List Expr
deriving DecidableEq, Repr

-- One statement that inserts a row, and the tokens after it.
def insertStatement : List Token → Option (Insert × List Token)
  | insert :: into :: .name table :: bracket :: rest =>
      if keyword "INSERT" insert && keyword "INTO" into && bracket = symbol "(" then
        (nameList rest).bind fun columns => match columns.2 with
          | values :: bracket :: rest =>
              if keyword "VALUES" values && bracket = symbol "(" then
                (operandList rest.length rest).bind fun operands => match operands.2 with
                  | mark :: rest =>
                      if mark = symbol ";" then some (⟨table, columns.1, operands.1⟩, rest) else none
                  | [] => none
              else none
          | _ => none
      else none
  | _ => none

-- What is written is read back.

theorem operand_cast {text : Bytes} {inner rest : List Token} {e : Expr}
    (hcast : keyword "CAST" (.word text) = true)
    (h : ∀ rest, operand (inner ++ rest) = some (e, rest)) {connective type : Token}
    (has : keyword "AS" connective = true) (htype : keyword "TEXT" type = true) :
    operand (.word text :: symbol "(" :: (inner ++ connective :: type :: symbol ")" :: rest)) =
      some (.castText e, rest) := by
  have hnull : keyword "NULL" (.word text) = false := by
    simp only [keyword, decide_eq_true_eq] at hcast ⊢
    rw [hcast]
    decide
  rw [operand]
  simp only [hnull, hcast, Bool.false_eq_true, if_false, decide_true, Bool.and_self, if_true, h,
    Option.bind_some, castEnd, has, htype]

theorem operand_negative {digits : Bytes} (hdigits : ∀ b ∈ digits, isDigit b = true) (rest : List Token) :
    operand (symbol "-" :: .number digits :: rest) = some (.negate (.integer (decimal digits)), rest) := by
  have hall : digits.all isDigit = true := List.all_eq_true.mpr hdigits
  rw [symbol, operand, if_pos rfl, operand, if_pos hall]
  rfl

theorem operand_number {digits : Bytes} (hdigits : ∀ b ∈ digits, isDigit b = true) (rest : List Token) :
    operand (.number digits :: rest) = some (.integer (decimal digits), rest) := by
  rw [operand, if_pos (List.all_eq_true.mpr hdigits)]

-- Lists with commas between their items.
def listed : List (List Token) → List Token
  | [] => []
  | [item] => item
  | item :: items => item ++ symbol "," :: listed items

theorem nameList_listed {names : List Bytes} (hne : names ≠ []) (rest : List Token) :
    nameList (listed (names.map fun name => [.name name]) ++ symbol ")" :: rest) = some (names, rest) := by
  induction names with
  | nil => exact absurd rfl hne
  | cons first names ih =>
      cases names with
      | nil => rfl
      | cons second names =>
          have hrest := ih (List.cons_ne_nil _ _)
          rw [List.map_cons] at hrest
          rw [List.map_cons, List.map_cons, listed.eq_3 _ _ (by simp), List.append_assoc, List.cons_append,
            List.cons_append, List.nil_append, nameList, if_neg (by decide), if_pos rfl, hrest]
          rfl

theorem operandList_listed {items : List (List Token × Expr)} {fuel : ℕ} (hne : items ≠ [])
    (h : ∀ item ∈ items, ∀ rest, operand (item.1 ++ rest) = some (item.2, rest)) (hfuel : items.length ≤ fuel)
    (rest : List Token) :
    operandList fuel (listed (items.map Prod.fst) ++ symbol ")" :: rest) = some (items.map Prod.snd, rest) := by
  induction items generalizing fuel with
  | nil => exact absurd rfl hne
  | cons first items ih =>
      have hfirst := h first List.mem_cons_self
      obtain ⟨fuel, rfl⟩ :=
        Nat.exists_eq_add_of_le' (Nat.one_le_of_lt (Nat.lt_of_lt_of_le (Nat.succ_pos _) hfuel))
      cases items with
      | nil =>
          rw [operandList, List.map_cons, List.map_nil, listed, hfirst, Option.bind_some]
          rfl
      | cons second items =>
          have hrest := ih (List.cons_ne_nil _ _) (fun item hmem => h item (List.mem_cons_of_mem _ hmem))
            (Nat.le_of_succ_le_succ hfuel)
          rw [List.map_cons] at hrest
          rw [operandList, List.map_cons, List.map_cons, listed.eq_3 _ _ (by simp), List.append_assoc, hfirst,
            Option.bind_some, List.cons_append]
          dsimp only
          rw [if_neg (by decide), if_pos rfl, hrest]
          rfl

theorem length_listed (items : List (List Token)) : items.length ≤ (listed items).length + 1 := by
  fun_induction listed items with
  | case1 => exact Nat.zero_le _
  | case2 => simp
  | case3 item items hne ih =>
      rw [List.length_cons, List.length_append, List.length_cons]
      omega

-- The tokens of a statement that inserts a row.
def insertTokens (table : Bytes) (columns : List Bytes) (operands : List (List Token)) : List Token :=
  [.word (spell "INSERT"), .word (spell "INTO"), .name table, symbol "("] ++
    (listed (columns.map fun name => [.name name]) ++ symbol ")" :: .word (spell "VALUES") :: symbol "(" ::
      (listed operands ++ [symbol ")", symbol ";"]))

theorem insertStatement_insertTokens {table : Bytes} {columns : List Bytes} {items : List (List Token × Expr)}
    (hcolumns : columns ≠ []) (hne : items ≠ [])
    (h : ∀ item ∈ items, ∀ rest, operand (item.1 ++ rest) = some (item.2, rest)) (rest : List Token) :
    insertStatement (insertTokens table columns (items.map Prod.fst) ++ rest) =
      some (⟨table, columns, items.map Prod.snd⟩, rest) := by
  have hcount := length_listed (items.map Prod.fst)
  rw [List.length_map] at hcount
  have hfuel : items.length ≤
      (listed (items.map Prod.fst) ++ symbol ")" :: symbol ";" :: rest).length := by
    rw [List.length_append, List.length_cons]
    omega
  have hoperands := operandList_listed hne h hfuel (symbol ";" :: rest)
  have hnames := nameList_listed hcolumns (.word (spell "VALUES") :: symbol "(" ::
    (listed (items.map Prod.fst) ++ symbol ")" :: symbol ";" :: rest))
  simp only [insertTokens, List.append_assoc, List.cons_append, List.nil_append]
  rw [insertStatement, if_pos (by decide), hnames, Option.bind_some]
  dsimp only
  rw [if_pos (by decide), hoperands, Option.bind_some]
  dsimp only
  rw [if_pos rfl]

end Library.Sql
