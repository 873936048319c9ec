import Mathlib.Data.List.Nodup
import MeldStore.Errors
import MeldStore.Timestamp
import MeldStore.Library.Checked

namespace MeldStore

open Library.Checked

-- Argument values an application may pass. `other` is every object of a type
-- that no field kind accepts. A text with a lone surrogate is accepted by `normalize`
-- but cannot be bound by the driver, so no statement that stores metadata runs with
-- one; Codecs and Query have texts as code points.
inductive PyValue
  | none
  | bool (b : Bool)
  | int (i : Int)
  | float (q : Rat)
  | nonfinite
  | str (s : String)
  | datetime (d : DateTime)
  | other (repr : String)
deriving DecidableEq, Repr

inductive Kind
  | text
  | int64
  | float
  | boolean
  | timestamp
deriving DecidableEq, Repr

def Kind.name : Kind → String
  | text => "text"
  | int64 => "int64"
  | float => "float"
  | boolean => "boolean"
  | timestamp => "timestamp"

structure Field where
  kind : Kind
  required : Bool
  immutable : Bool
deriving DecidableEq, Repr

-- The field of query.py for the identifier column.
def Text (required : Bool) : Field := ⟨.text, required, false⟩

def isInt64 (i : Int) : Bool := -(2 ^ 63) ≤ i && i < 2 ^ 63

namespace Field

def unexpected (kind : Kind) : Error :=
  .ValidationError s!"Expected {kind.name}; implicit coercion is disabled"

def normalize (spec : Field) (value : PyValue) : Except Error Value :=
  match value with
  | .none =>
      if spec.required then .error (.ValidationError "Required field cannot be null")
      else .ok .null
  | value =>
      match spec.kind, value with
      | .text, .str s => .ok (.text s)
      | .int64, .int i => if isInt64 i then .ok (.int i) else .error (unexpected .int64)
      | .float, .float q => .ok (.real q)
      | .boolean, .bool b => .ok (.int (if b then 1 else 0))
      | .timestamp, .datetime d =>
          match d.utcoffset with
          | none => .error (unexpected .timestamp)
          | some offset =>
              match d.astimezone offset with
              | some utc => .ok (.text (String.ofList utc.isoformat))
              | none => .error (.ValidationError "Timestamp is outside UTC datetime range")
      | kind, _ => .error (unexpected kind)

-- A stored value as the Python value it is read back as.
def pyOfValue : Value → PyValue
  | .null => .none
  | .int i => .int i
  | .real q => .float q
  | .text s => .str s
  | .blob _ => .other "bytes"

def fromSql (spec : Field) (value : Value) : Except Error PyValue :=
  match value with
  | .null => do
      let _ ← spec.normalize .none
      pure .none
  | value =>
      match spec.kind with
      | .boolean =>
          if value = .int 0 then .ok (.bool false)
          else if value = .int 1 then .ok (.bool true)
          else .error (.ValidationError "Invalid stored boolean")
      | .timestamp =>
          match value with
          | .text s =>
              match DateTime.fromisoformat s.toList with
              | some d => do
                  require (spec.normalize (.datetime d) = .ok value)
                    (.ValidationError "Invalid stored UTC timestamp")
                  pure (.datetime d)
              | none => .error (.ValidationError "Invalid stored UTC timestamp")
          | _ => .error (.ValidationError "Invalid stored UTC timestamp")
      | _ => do
          let _ ← spec.normalize (pyOfValue value)
          pure (pyOfValue value)

end Field

def identifier (value : String) : Except Error String := do
  require (value ≠ "" ∧ '\x00' ∉ value.toList)
    (.ValidationError "Identifiers must be nonempty text without NUL")
  require (value.utf8ByteSize ≤ 128)
    (.ValidationError "Identifiers must fit in 128 UTF-8 bytes")
  pure value

structure Index where
  fields : List String
  unique : Bool
deriving DecidableEq, Repr

def Index.Valid (index : Index) : Prop :=
  index.fields ≠ [] ∧ index.fields.Nodup ∧ ∀ name ∈ index.fields, identifier name = .ok name

instance (index : Index) : Decidable index.Valid := by unfold Index.Valid; infer_instance

def RESERVED : List String := ["id", "schema_name", "schema_version", "version"]

def asciiLower (name : String) : String :=
  String.ofList (name.toList.map fun c => if 'A' ≤ c ∧ c ≤ 'Z' then Char.ofNat (c.toNat + 32) else c)

-- What the constructor of a BlobSchema is given, already sorted as it stores it.
-- The payload validator itself is application code and is not part of the
-- declaration (`compare=False`), only its identifier is.
structure Declaration where
  name : String
  version : Int
  fields : List (String × Field)
  indexes : List Index
  handlers : List String
  validatorId : Option String
deriving DecidableEq, Repr

def Declaration.Valid (d : Declaration) : Prop :=
  identifier d.name = .ok d.name ∧ d.name.utf8ByteSize ≤ 48 ∧ 1 ≤ d.version ∧ d.version < 2 ^ 63 ∧
    (∀ field ∈ d.fields, identifier field.1 = .ok field.1 ∧
      asciiLower field.1 ∉ RESERVED ∧ ¬['m', 's', '_'] <+: (asciiLower field.1).toList) ∧
    (d.fields.map fun field => asciiLower field.1).Nodup ∧
    (d.fields.map Prod.fst).Pairwise (· < ·) ∧
    (∀ index ∈ d.indexes, index.Valid ∧ ∀ name ∈ index.fields, name ∈ d.fields.map Prod.fst) ∧
    (d.indexes.Pairwise fun i j => i.fields < j.fields ∨ (i.fields = j.fields ∧ i.unique < j.unique)) ∧
    (∀ handler ∈ d.handlers, identifier handler = .ok handler) ∧ d.handlers ≠ [] ∧
    d.handlers.Pairwise (· < ·) ∧
    ∀ validator ∈ d.validatorId, identifier validator = .ok validator

instance (d : Declaration) : Decidable d.Valid := by unfold Declaration.Valid; infer_instance

namespace Declaration

-- The repr of the name, for one without quotes or backslashes.
def reserved (name : String) : Error := .ValidationError s!"Reserved or duplicate field: '{name}'"

-- One field against those before it.
def checkField (seen : List String) (field : String × Field) : Except Error (List String) := do
  let _ ← identifier field.1
  let key := asciiLower field.1
  require (key ∉ seen ∧ ¬['m', 's', '_'] <+: key.toList) (reserved field.1)
  pure (key :: seen)

theorem identifier_eq_ok {value result : String} (h : identifier value = .ok result) :
    identifier value = .ok value := by
  simp only [identifier, bind_eq_ok, require_eq_ok, pure_eq_ok] at h ⊢
  obtain ⟨_, hname, _, hsize, _⟩ := h
  exact ⟨⟨⟩, hname, ⟨⟩, hsize, trivial⟩

-- What the checks of the fields establish, one field at a time.
structure Checked (seen : List String) (fields : List (String × Field)) : Prop where
  names : ∀ field ∈ fields, identifier field.1 = .ok field.1 ∧ asciiLower field.1 ∉ seen ∧
    ¬['m', 's', '_'] <+: (asciiLower field.1).toList
  distinct : (fields.map fun field => asciiLower field.1).Nodup

theorem checkField_eq_ok {seen result : List String} {field : String × Field} :
    checkField seen field = .ok result ↔ identifier field.1 = .ok field.1 ∧ asciiLower field.1 ∉ seen ∧
      ¬['m', 's', '_'] <+: (asciiLower field.1).toList ∧ asciiLower field.1 :: seen = result := by
  simp only [checkField, bind_eq_ok, require_eq_ok, pure_eq_ok]
  constructor
  · rintro ⟨_, hidentifier, _, ⟨hseen, hreserved⟩, rfl⟩
    exact ⟨identifier_eq_ok hidentifier, hseen, hreserved, rfl⟩
  · rintro ⟨hidentifier, hseen, hreserved, rfl⟩
    exact ⟨_, hidentifier, ⟨⟩, ⟨hseen, hreserved⟩, rfl⟩

theorem checked_cons {seen : List String} {field : String × Field} {fields : List (String × Field)} :
    Checked seen (field :: fields) ↔ (identifier field.1 = .ok field.1 ∧ asciiLower field.1 ∉ seen ∧
      ¬['m', 's', '_'] <+: (asciiLower field.1).toList) ∧ Checked (asciiLower field.1 :: seen) fields := by
  constructor
  · rintro ⟨hnames, hdistinct⟩
    rw [List.map_cons, List.nodup_cons] at hdistinct
    refine ⟨hnames field List.mem_cons_self, fun other hother => ?_, hdistinct.2⟩
    obtain ⟨hidentifier, hseen, hreserved⟩ := hnames other (List.mem_cons_of_mem _ hother)
    refine ⟨hidentifier, fun hmem => ?_, hreserved⟩
    rcases List.mem_cons.mp hmem with hsame | hmem
    · exact hdistinct.1 (hsame ▸ List.mem_map_of_mem hother)
    · exact hseen hmem
  · rintro ⟨hfield, hnames, hdistinct⟩
    refine ⟨fun other hother => ?_, ?_⟩
    · rcases List.mem_cons.mp hother with rfl | hother
      · exact hfield
      · obtain ⟨hidentifier, hseen, hreserved⟩ := hnames other hother
        exact ⟨hidentifier, fun hmem => hseen (List.mem_cons_of_mem _ hmem), hreserved⟩
    · rw [List.map_cons, List.nodup_cons]
      refine ⟨fun hmem => ?_, hdistinct⟩
      obtain ⟨other, hother, hsame⟩ := List.mem_map.mp hmem
      exact (hnames other hother).2.1 (hsame ▸ List.mem_cons_self)

theorem foldlM_checkField {seen : List String} {fields : List (String × Field)} :
    (∃ result, fields.foldlM checkField seen = .ok result) ↔ Checked seen fields := by
  induction fields generalizing seen with
  | nil => exact ⟨fun _ => ⟨nofun, List.nodup_nil⟩, fun _ => ⟨_, rfl⟩⟩
  | cons field fields ih =>
      rw [checked_cons, ← ih]
      simp only [List.foldlM_cons, bind_eq_ok, checkField_eq_ok]
      constructor
      · rintro ⟨result, _, ⟨hidentifier, hseen, hreserved, rfl⟩, hrest⟩
        exact ⟨⟨hidentifier, hseen, hreserved⟩, result, hrest⟩
      · rintro ⟨⟨hidentifier, hseen, hreserved⟩, result, hrest⟩
        exact ⟨result, _, ⟨hidentifier, hseen, hreserved, rfl⟩, hrest⟩

end Declaration

structure BlobSchema extends Declaration where
  valid : toDeclaration.Valid

namespace BlobSchema

theorem ext_declaration {s t : BlobSchema} (h : s.toDeclaration = t.toDeclaration) : s = t := by
  cases s
  cases t
  simpa using h

instance : DecidableEq BlobSchema := fun s t =>
  decidable_of_iff (s.toDeclaration = t.toDeclaration) ⟨ext_declaration, fun h => h ▸ rfl⟩

def field? (schema : BlobSchema) (name : String) : Option Field :=
  (schema.fields.find? fun field => field.1 = name).map Prod.snd

-- A Python mapping from names to values, in iteration order.
abbrev Metadata := List (String × PyValue)

def lookup (metadata : Metadata) (name : String) : PyValue :=
  ((metadata.find? fun entry => entry.1 = name).map Prod.snd).getD .none

def normalizeMetadata (schema : BlobSchema) (values : Metadata) : Except Error (List (String × Value)) := do
  require (∀ entry ∈ values, entry.1 ∈ schema.fields.map Prod.fst)
    (.ValidationError "Metadata must be a mapping of declared fields only")
  schema.fields.mapM fun field => do
    let value ← field.2.normalize (lookup values field.1)
    pure (field.1, value)

theorem one_le_version (schema : BlobSchema) : 1 ≤ schema.version := schema.valid.2.2.1

theorem names_nodup (schema : BlobSchema) : (schema.fields.map Prod.fst).Nodup := by
  obtain ⟨_, _, _, _, _, _, hsorted, _⟩ := schema.valid
  exact hsorted.imp fun h => ne_of_lt h

theorem field?_of_mem {schema : BlobSchema} {field : String × Field} (h : field ∈ schema.fields) :
    schema.field? field.1 = some field.2 := by
  unfold field?
  cases hfound : schema.fields.find? fun other => other.1 = field.1 with
  | none => exact absurd (decide_eq_true rfl) (List.find?_eq_none.mp hfound field h)
  | some other =>
      have hname : other.1 = field.1 := by simpa using List.find?_some hfound
      rw [List.inj_on_of_nodup_map schema.names_nodup (List.mem_of_find?_eq_some hfound) h hname]
      rfl

end BlobSchema

end MeldStore
