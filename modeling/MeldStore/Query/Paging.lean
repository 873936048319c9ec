import MeldStore.Committed
import MeldStore.Guards
import MeldStore.Query.Compile

namespace MeldStore

open Library Library.Checked Library.Keyed Library.Keyset
open Codecs (Argument Cell)

-- What the constraints and triggers of the tables promise of their rows, that the
-- descriptors can be read, and that stored timestamps are dates of the calendar.
structure Catalog.Content (db : Catalog) : Prop where
  wf : db.Wf
  complete : ∀ b ∈ db.blobs, b.state = .ready → ∃ o p m, db.Complete b.id b o p m
  admitted : ∀ m ∈ db.metadata, db.Admits m
  decodable : ∀ e ∈ db.encodings, (loadsDescriptor e.descriptor).isOk = true
  calendar : ∀ m ∈ db.metadata, ∀ column ∈ db.columns m.table, column.2.kind = .timestamp →
    ∀ s, m.fields column.1 = .text s → (DateTime.fromisoformat s.toList).isSome

-- Direct statements can break only the last two.
theorem Served.content {db : Catalog} (h : Served db)
    (hdecodable : ∀ e ∈ db.encodings, (loadsDescriptor e.descriptor).isOk = true)
    (hcalendar : ∀ m ∈ db.metadata, ∀ column ∈ db.columns m.table, column.2.kind = .timestamp →
      ∀ s, m.fields column.1 = .text s → (DateTime.fromisoformat s.toList).isSome) : db.Content := by
  obtain ⟨hheld, hkeys⟩ := h.held
  obtain ⟨hw, hc⟩ := h.conforming
  exact ⟨hw, fun b hb hready => hheld.guarded.complete hkeys hb hready, fun m hm => (hc.rows m hm).1,
    hdecodable, hcalendar⟩

namespace Query

instance (descending : Bool) (x y : Value) : Decidable (ComesFirst descending x y) := by
  unfold ComesFirst
  infer_instance

instance decidableInOrder : (orderBy : List Order) → (a b : String → Value) →
    Decidable (InOrder orderBy a b)
  | [], a, b => inferInstanceAs (Decidable (ComesFirst false (a "id") (b "id")))
  | item :: rest, a, b =>
      have := decidableInOrder rest a b
      inferInstanceAs (Decidable (ComesFirst item.descending (a item.field) (b item.field) ∨
        (a item.field = b item.field ∧ InOrder rest a b)))

instance (orderBy : List Order) (after : After) (row : Row) : Decidable (Behind orderBy after row) := by
  unfold Behind
  cases after <;> infer_instance

-- The loop of a caller that asks for the page after the last record it was given,
-- until a page is empty.
def visit (page : After → Except Error (List Record)) (next : Record → Except Error FindCursor) :
    Nat → After → Except Error (List Record)
  | 0, _ => .error (.PythonError "RuntimeError")
  | fuel + 1, after => do
      let records ← page after
      match records.getLast? with
      | none => pure []
      | some last => do
          let cursor ← next last
          let rest ← visit page next fuel (.cursor cursor)
          pure (records ++ rest)

-- The rows of the join

section Listing

variable {db : Catalog} (hdb : db.Content) {schema : BlobSchema} {conditions : List (String × Argument)}
  {predicates : List Predicate} {order : List Order} {limit : Int}

include hdb

end Listing

-- The cursor of a listed record

section Cursor

variable {db : Catalog} (hdb : db.Content) {schema : BlobSchema}

include hdb

omit hdb in
theorem mem_fields_of_field {name : String} {spec : Field} (h : field schema name = .ok spec)
    (hid : name ≠ "id") : (name, spec) ∈ schema.fields := by
  simp only [field, if_neg hid, fromOption_eq_ok, BlobSchema.field?, Option.map_eq_some_iff] at h
  obtain ⟨entry, hentry, rfl⟩ := h
  have hname := List.find?_some hentry
  simp only [decide_eq_true_eq] at hname
  subst hname
  exact List.mem_of_find?_eq_some hentry

end Cursor

-- A record, as Store.record reads it, and the row of the listing it is of.
structure Lists (db : Catalog) (schema : BlobSchema) (row : Row) (record : Record) : Prop where
  read : Store.record db row.1.id true = .ok record
  id : record.id = row.1.id
  schemaName : record.schemaName = schema.name
  schemaVersion : record.schemaVersion = schema.version
  metadata : record.metadata = schema.fields.map fun field => (field.1, row.2.fields field.1)

section Pages

variable {db : Catalog} (hdb : db.Content) {schema : BlobSchema}
  (hschema : Store.schema db schema false = .ok ())

include hdb hschema

end Pages

end Query

end MeldStore
