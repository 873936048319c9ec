import MeldStore.Library.Keyed
import MeldStore.Library.Json
import MeldStore.Schema

namespace MeldStore

-- One row of ms_schemas. The definition column holds the canonical JSON of the
-- declaration, here the declaration itself.
structure SchemaRow where
  name : String
  version : Int
  definition : BlobSchema
deriving DecidableEq

inductive BlobState
  | publishing
  | ready
  | pendingDelete
deriving DecidableEq, Repr

def BlobState.text : BlobState → String
  | publishing => "publishing"
  | ready => "ready"
  | pendingDelete => "pending_delete"

theorem BlobState.text_inj (a b : BlobState) : a.text = b.text ↔ a = b := by
  cases a <;> cases b <;> decide

-- Rows of ms_blobs. The typeof CHECK and the foreign key to ms_schemas leave no
-- other storage class for these columns.
structure BlobRow where
  id : String
  schemaName : String
  schemaVersion : Int
  state : BlobState
deriving DecidableEq, Repr

structure PreparedRow where
  token : TextCell
  storageId : TextCell
  objectKey : TextCell
  byteSize : Int
  digest : TextCell
  hashAlgorithm : String
  handlerId : String
  handlerVersion : Int
  schemaName : String
  schemaVersion : Int
deriving DecidableEq, Repr

structure ObjectRow where
  blobId : String
  token : TextCell
deriving DecidableEq, Repr

structure EncodingRow where
  token : TextCell
  encodingId : TextCell
  encodingVersion : Int
  descriptor : TextCell
deriving DecidableEq, Repr

structure RetiredRow where
  blobId : String
  token : TextCell
  schemaName : String
  schemaVersion : Int
  metadataVersion : Int
deriving DecidableEq, Repr

inductive Reason
  | retired
  | discarded
  | orphan
deriving DecidableEq, Repr

inductive JobState
  | pending
  | done
deriving DecidableEq, Repr

structure GcRow where
  storageId : TextCell
  objectKey : TextCell
  token : Option TextCell
  blobId : Option String
  reason : Reason
  state : JobState
  lastError : Option String
deriving DecidableEq, Repr

-- Rows of the metadata tables. `table` is the schema whose table holds the row,
-- which its CHECK makes the value of the schema_name column. `fields` gives the
-- value of each metadata column and is NULL elsewhere.
structure MetaRow where
  table : String
  id : TextCell
  schemaVersion : Int
  version : Int
  fields : String → Value

inductive MigrationState
  | running
  | complete
deriving DecidableEq, Repr

structure MigrationRow where
  name : String
  schemaName : String
  sourceVersion : Int
  targetVersion : Int
  transformId : String
  state : MigrationState
  totalRows : Nat
  migratedRows : Nat
  lastId : Option TextCell
deriving DecidableEq, Repr

structure StepRow where
  blobId : String
  migrationName : String
  expectedVersion : Int
deriving DecidableEq, Repr

-- A publication guard trigger; `evolved` is the variant that admits an object
-- prepared under an earlier schema version.
structure Guard where
  schemaName : String
  evolved : Bool
deriving DecidableEq, Repr

-- A catalog whose fixed ms_* objects are installed. Triggers and constraints are
-- the statements' own; of the generated objects only what varies is kept.
structure Catalog where
  schemas : List SchemaRow
  payloadSchemas : List (String × Int)
  lifecycleSchemas : List String
  guards : List Guard
  blobs : List BlobRow
  prepared : List PreparedRow
  objects : List ObjectRow
  encodings : List EncodingRow
  retired : List RetiredRow
  gc : List GcRow
  metadata : List MetaRow
  layouts : List String
  migrations : List MigrationRow
  steps : List StepRow

theorem lawful_keys : LawfulBEq (String × Int) := inferInstance

instance decidableKey (key : String × Int) (keys : List (String × Int)) : Decidable (key ∈ keys) :=
  @List.instDecidableMemOfLawfulBEq _ _ lawful_keys key keys

namespace Catalog

def empty : Catalog :=
  { schemas := [], payloadSchemas := [], lifecycleSchemas := [], guards := [], blobs := [],
    prepared := [], objects := [], encodings := [], retired := [], gc := [], metadata := [],
    layouts := [], migrations := [], steps := [] }

def schema? (db : Catalog) (name : String) (version : Int) : Option SchemaRow :=
  db.schemas.find? fun s => s.name = name ∧ s.version = version

-- SELECT definition ... WHERE name=? ORDER BY version
def declarations (db : Catalog) (name : String) : List BlobSchema :=
  ((db.schemas.filter fun s => s.name = name).insertionSort fun s t => s.version ≤ t.version).map
    SchemaRow.definition

def evolved (db : Catalog) (name : String) : Bool := name ∈ db.layouts

def latestVersion (db : Catalog) (name : String) : Option Int :=
  (db.declarations name).getLast?.map fun s => s.version

-- The columns of a metadata table: those of the only version, or of the union of
-- all versions once the table has been rebuilt.
def columns (db : Catalog) (name : String) : List (String × Field) :=
  (db.declarations name).flatMap fun s => s.fields

def tableRows (db : Catalog) (table : String) : List MetaRow :=
  db.metadata.filter fun m => m.table = table

end Catalog

end MeldStore
