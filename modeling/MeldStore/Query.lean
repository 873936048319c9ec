import MeldStore.Codecs
import MeldStore.Store
import MeldStore.Library.Keyset

namespace MeldStore

open Library Library.Checked Library.Keyset
open Codecs (Argument Cell Str)

namespace Query

-- A scalar, or a tuple or list of scalars. Their text may be any Python string.
inductive Operand
  | one (value : Argument)
  | many (values : List Argument)

structure Predicate where
  field : String
  op : String
  value : Operand

structure Order where
  field : String
  descending : Bool
deriving DecidableEq, Repr

-- The values are SQL values as records hold them.
structure FindCursor where
  schemaName : String
  schemaVersion : Int
  order : List Order
  values : List Cell

inductive After
  | none
  | id (value : Str)
  | cursor (value : FindCursor)

-- The SQL the compiler generates: conditions over the columns of the two joined
-- rows, with `?` placeholders.
inductive Column
  | id
  | state
  | schemaName
  | schemaVersion
  | metaSchemaVersion
  | field (name : String)

abbrev Row := BlobRow × MetaRow

def Column.value (row : Row) : Column → Value
  | id => .text row.1.id
  | state => .text row.1.state.text
  | schemaName => .text row.1.schemaName
  | schemaVersion => .int row.1.schemaVersion
  | metaSchemaVersion => .int row.2.schemaVersion
  | field name => row.2.fields name

inductive Comparison
  | eq
  | ne
  | lt
  | lte
  | gt
  | gte
  | is
deriving DecidableEq

def Comparison.apply : Comparison → Value → Value → Truth
  | eq => Value.eq
  | ne => Value.ne
  | lt => Value.lt
  | lte => Value.le
  | gt => Value.gt
  | gte => Value.ge
  | is => Value.is

inductive Cond
  | isText (column : Column) (text : String)
  | compare (column : Column) (op : Comparison)
  | isNull (column : Column)
  | notNull (column : Column)
  | member (negated : Bool) (column : Column) (count : Nat)
  | zero
  | both (a b : Cond)
  | either (a b : Cond)

-- The number of placeholders.
def Cond.holes : Cond → Nat
  | compare _ _ => 1
  | member _ _ count => count
  | both a b => a.holes + b.holes
  | either a b => a.holes + b.holes
  | _ => 0

def anyEqual (value : Value) (values : List Value) : Truth :=
  (values.map fun other => Value.eq value other).foldl Truth.or (some false)

-- Placeholders take the parameters from left to right.
def Cond.eval (row : Row) : Cond → List Value → Truth
  | isText column text, _ => Value.eq (column.value row) (.text text)
  | compare column op, params => op.apply (column.value row) (params.headD .null)
  | isNull column, _ => Value.is (column.value row) .null
  | notNull column, _ => Value.isNot (column.value row) .null
  | member negated column count, params =>
      let test := anyEqual (column.value row) (params.take count)
      if negated then test.not else test
  | zero, _ => some false
  | both a b, params => Truth.and (a.eval row params) (b.eval row (params.drop a.holes))
  | either a b, params => Truth.or (a.eval row params) (b.eval row (params.drop a.holes))

-- A condition with the parameters pushed for it.
abbrev Clause := Cond × List Cell

def conj : List Clause → Clause
  | [] => (.zero, [])
  | c :: cs => cs.foldl (fun a b => (.both a.1 b.1, a.2 ++ b.2)) c

def disj : List Clause → Clause
  | [] => (.zero, [])
  | c :: cs => cs.foldl (fun a b => (.either a.1 b.1, a.2 ++ b.2)) c

structure Select where
  table : String
  condition : Cond
  order : List Order

def column (name : String) : Column := if name = "id" then .id else .field name

def field (schema : BlobSchema) (name : String) : Except Error Field :=
  if name = "id" then .ok (Text true)
  else fromOption (schema.field? name) (.ValidationError "Query references an undeclared field")

-- One item of an ordering: a declared field not named before, id only at the end.
def orderItem (schema : BlobSchema) (order : List Order) (entry : Order × Nat) : Except Error Order := do
  let _ ← field schema entry.1.field
  require (entry.1.field ∉ (order.take entry.2).map Order.field ∧
      (entry.1.field = "id" → entry.2 + 1 = order.length))
    (.ValidationError "Ordering fields must be distinct; id must be last")
  pure entry.1

def ordering (schema : BlobSchema) (orderBy : List Order) : Except Error (List Order) := do
  require (orderBy.length ≤ 8) (.ValidationError "order_by must contain at most 8 Order declarations")
  let order := if orderBy = [] then [⟨"id", false⟩] else orderBy
  let order ← order.zipIdx.mapM (orderItem schema order)
  pure (if "id" ∈ order.map Order.field then order else order ++ [⟨"id", false⟩])

def cursor (record : Record) (schema : BlobSchema) (orderBy : List Order) : Except Error FindCursor := do
  require (record.schemaName = schema.name ∧ record.schemaVersion = schema.version)
    (.ValidationError "Cursor record belongs to another schema version")
  let order ← ordering schema orderBy
  let values ← order.mapM fun item =>
    if item.field = "id" then .ok (.text record.id)
    else fromOption ((record.metadata.find? fun entry => entry.1 = item.field).map Prod.snd)
      (.PythonError "KeyError")
  pure { schemaName := schema.name, schemaVersion := schema.version, order := order,
         values := values.map .ofValue }

def comparison : String → Option Comparison
  | "eq" => some .eq
  | "ne" => some .ne
  | "lt" => some .lt
  | "lte" => some .lte
  | "gt" => some .gt
  | "gte" => some .gte
  | _ => none

def Operand.isNone : Operand → Bool
  | .one .none => true
  | _ => false

def nullClause (column : Column) (isNull : Bool) : Clause :=
  (if isNull then .isNull column else .notNull column, [])

def compileTerm (schema : BlobSchema) (term : Predicate) : Except Error Clause := do
  let spec ← field schema term.field
  let col := column term.field
  if term.op = "is_null" ∨ term.op = "not_null" then do
    require term.value.isNone (.ValidationError "Null predicates do not take a value")
    pure (nullClause col (term.op = "is_null"))
  else if term.op = "in" ∨ term.op = "not_in" then
    match term.value with
    | .one _ => .error (.ValidationError "Membership needs 1..100 values")
    | .many values => do
        require (1 ≤ values.length ∧ values.length ≤ 100)
          (.ValidationError "Membership needs 1..100 values")
        require (Argument.none ∉ values)
          (.ValidationError "Use an explicit null predicate instead of null membership")
        let params ← values.mapM (Codecs.normalize spec)
        pure (.member (term.op = "not_in") col values.length, params)
  else
    match comparison term.op with
    | none => .error (.ValidationError "Unsupported scalar operator")
    | some op =>
        match term.value with
        | .one .none => do
            require (op = .eq ∨ op = .ne) (.ValidationError "Null has no scalar range ordering")
            pure (nullClause col (op = .eq))
        | .one value => do
            let param ← Codecs.normalize spec value
            pure (.compare col op, [param])
        | .many _ => .error (Field.unexpected spec.kind)

-- One value of a cursor, checked against its sort field.
def cursorValue (schema : BlobSchema) (item : Order) (value : Cell) : Except Error Cell := do
  let spec ← field schema item.field
  if value = .null then do
    require (¬(item.field = "id" ∨ spec.required))
      (.ValidationError "Required sort field cannot have a null cursor")
    pure .null
  else do
    let given ← Codecs.fromSql spec value
    Codecs.normalize spec given

-- The rows strictly behind the cursor at one key, NULL being the smallest value.
def strictly (item : Order) (value : Cell) : Clause :=
  let col := column item.field
  if value = .null then (if item.descending then .zero else .notNull col, [])
  else if item.descending then (.either (.compare col .lt) (.isNull col), [value])
  else (.compare col .gt, [value])

def equally (item : Order) (value : Cell) : Clause := (.compare (column item.field) .is, [value])

-- Branch i: equal at the keys before it, strictly behind at it.
def branch (order : List Order) (values : List Cell) (i : Nat) : Clause :=
  match order[i]?, values[i]? with
  | some item, some value =>
      conj (((order.zip values).take i).map (fun entry => equally entry.1 entry.2) ++ [strictly item value])
  | _, _ => (.zero, [])

def compileAfter (schema : BlobSchema) (order : List Order) (after : After) : Except Error (List Clause) :=
  let given : Option FindCursor := match after with
    | .none => none
    | .id value => some { schemaName := schema.name, schemaVersion := schema.version,
                          order := [⟨"id", false⟩], values := [.text value] }
    | .cursor value => some value
  match given with
  | none => .ok []
  | some cursor => do
      require (cursor.schemaName = schema.name ∧ cursor.schemaVersion = schema.version ∧
          cursor.order = order ∧ cursor.values.length = order.length)
        (.ValidationError "Cursor schema/order does not match this query")
      let values ← (order.zip cursor.values).mapM fun entry => cursorValue schema entry.1 entry.2
      pure [disj ((List.range order.length).map (branch order values))]

def scope (schema : BlobSchema) : List Clause :=
  [(.isText .state "ready", []), (.compare .schemaName .eq, [.text (Codecs.ofString schema.name)]),
    (.compare .schemaVersion .eq, [.int schema.version]),
    (.compare .metaSchemaVersion .eq, [.int schema.version])]

def terms (conditions : List (String × Argument)) (predicates : List Predicate) : List Predicate :=
  (conditions.map fun entry => { field := entry.1, op := "eq", value := .one entry.2 }) ++ predicates

def compileQuery (schema : BlobSchema) (conditions : List (String × Argument))
    (predicates : List Predicate) (orderBy : List Order) (after : After) (limit : Int) :
    Except Error (Select × List Cell) := do
  require (1 ≤ limit ∧ limit ≤ 1000) (.ValidationError "limit must be an integer between 1 and 1000")
  require ((terms conditions predicates).length ≤ 64)
    (.ValidationError "At most 64 predicates are supported")
  let clauses ← (terms conditions predicates).mapM (compileTerm schema)
  let order ← ordering schema orderBy
  let behind ← compileAfter schema order after
  let condition := conj (scope schema ++ clauses ++ behind)
  pure ({ table := schema.name, condition := condition.1, order := order },
    condition.2 ++ [.int limit])

-- What SQLite does with the statement.

def joined (db : Catalog) (table : String) : List Row :=
  db.blobs.flatMap fun b =>
    ((db.tableRows table).filter fun m => m.id = .text b.id).map fun m => (b, m)

def sortKey (order : List Order) (row : Row) : List Value :=
  order.map fun item => (column item.field).value row

-- ORDER BY: ascending with NULL as the smallest value, or the reverse.
def orderBy (order : List Order) (rows : List Row) : List Row :=
  rows.insertionSort (notAfter (order.map Order.descending) (sortKey order))

def limitOf : Value → Nat
  | .int n => n.toNat
  | _ => 0

-- UnicodeEncodeError, for the first surrogates of a text
def unencodable (s : Str) : String :=
  let start := (s.takeWhile fun c => !Codecs.isSurrogate c).length
  let surrogates := (s.drop start).takeWhile Codecs.isSurrogate
  let found := match surrogates with
    | [c] => " '\\u" ++ String.ofList (Nat.toDigits 16 c.val) ++ "' in position " ++ toString start
    | _ => "s in position " ++ toString start ++ "-" ++ toString (start + surrogates.length - 1)
  "'utf-8' codec can't encode character" ++ found ++ ": surrogates not allowed"

-- The driver refuses what it cannot encode, and Transaction.sql raises it as ValidationError.
def bindParameter : Cell → Except Error Value
  | .text s => fromOption (Cell.text s).value? (.ValidationError (unencodable s))
  | param => .ok param.value

def Select.run (db : Catalog) (select : Select) (params : List Cell) : Except Error (List String) := do
  require (params.length = select.condition.holes + 1) (.PythonError "ProgrammingError")
  let params ← params.mapM bindParameter
  let rows := (joined db select.table).filter fun row => (select.condition.eval row params).holds
  pure (((orderBy select.order rows).take (limitOf (params.getLastD .null))).map fun row => row.1.id)

end Query

namespace Store

def find (db : Catalog) (schema : BlobSchema) (conditions : List (String × Argument))
    (predicates : List Query.Predicate) (orderBy : List Query.Order) (after : Query.After)
    (limit : Int) : Except Error (List Record) := do
  Store.schema db schema false
  let (select, params) ← Query.compileQuery schema conditions predicates orderBy after limit
  let ids ← select.run db params
  ids.mapM fun id => record db id true

end Store

end MeldStore
