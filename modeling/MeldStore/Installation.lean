import MeldStore.Names
import MeldStore.Rebuild

namespace MeldStore

open Library Library.Checked Rebuild

-- A catalog as the installers see it: sqlite_master with the rows of the format tables,
-- the rows of the registries, and a count that every write raises.
structure SqlCatalog where
  database : Rebuild.Database
  rows : Catalog
  writes : ℕ

namespace SqlCatalog

def objects (s : SqlCatalog) : String → Option String := objectsOf s.database

def statement (change : Rebuild.Database → Except Error Rebuild.Database) (s : SqlCatalog) :
    Except Error SqlCatalog := do
  let database ← change s.database
  pure { s with database := database, writes := s.writes + 1 }

-- The rows of the registries after an INSERT or DELETE.
def write (rows : Catalog) (s : SqlCatalog) : SqlCatalog := { s with rows := rows, writes := s.writes + 1 }

-- for sql in ddl.values(): tx.sql(sql)
def execute (object : String × String → SqlObject) (ddl : Ddl) (s : SqlCatalog) : Except Error SqlCatalog :=
  ddl.foldlM (fun s entry => s.statement (create (object entry))) s

def formatRow (columns : List (String × Value)) : Row := fun name => (columns.lookup name).getD .null

def insertFormat (table : String) (columns : List (String × Value)) (s : SqlCatalog) : SqlCatalog :=
  { s with
    database := { s.database with
      rows := Function.update s.database.rows table (s.database.rows table ++ [formatRow columns]) }
    writes := s.writes + 1 }

def select (table : String) (columns : List String) (s : SqlCatalog) : List (List Value) :=
  (s.database.rows table).map columns.map

def declarations (name : String) (s : SqlCatalog) : Except Error (List BlobSchema) :=
  (s.rows.declarations name).mapM fun schema => Migrations.decode schema.definition

def evolved (name : String) (s : SqlCatalog) : Bool :=
  (s.objects "ms_metadata_layouts").isSome && s.rows.evolved name

end SqlCatalog

-- The table that a fixed trigger or index is on.
def tableOf : String → String
  | "ms_blob_identity" => "ms_blobs"
  | "ms_prepared_immutable" => "ms_prepared"
  | "ms_objects_immutable" => "ms_objects"
  | "ms_insert_publishing" => "ms_blobs"
  | "ms_encoding_insert" => "ms_encodings"
  | "ms_encoding_update" => "ms_encodings"
  | "ms_encoding_delete" => "ms_encodings"
  | "ms_state_transition" => "ms_blobs"
  | "ms_no_resurrection" => "ms_blobs"
  | "ms_retire_identity" => "ms_blobs"
  | "ms_retire_object" => "ms_objects"
  | "ms_unrevoked_object" => "ms_objects"
  | "ms_fresh_object_key" => "ms_prepared"
  | "ms_gc_identity" => "ms_gc"
  | "ms_gc_retain" => "ms_gc"
  | "ms_retired_update" => "ms_retired"
  | "ms_retired_delete" => "ms_retired"
  | "ms_migrations_active" => "ms_migrations"
  | "ms_gc_pending" => "ms_gc"
  | name => name

def fixedObject (entry : String × String) : SqlObject := objectOf (tableOf entry.1) entry

-- The ms_ prefix, in any case.
def reserved (name : String) : Bool := "ms_".toList.isPrefixOf (asciiLower name).toList

namespace SqlCatalog

namespace Migrations

def verify (name : String) (s : SqlCatalog) : Except Error Unit := do
  verifyObjects s.objects Migrations.DDL
  let schemas ← s.declarations name
  let layout ← Migrations.layoutObjects schemas
  verifyObjects s.objects layout

end Migrations

namespace Installation

def FORMAT_VERSION : Int := 1

def core (s : SqlCatalog) : Except Error SqlCatalog :=
  if s.objects "ms_format" = none then do
    require (∀ o ∈ s.database.objects, isInternal o.name = true ∨ reserved o.name = false)
      (.SchemaConflictError "Reserved ms_ namespace already contains SQL objects")
    let s ← s.execute fixedObject Installation.CORE
    pure (s.insertFormat "ms_format" [("singleton", .int 1), ("version", .int FORMAT_VERSION)])
  else do
    verifyObjects s.objects Installation.CORE
    require (s.select "ms_format" ["singleton", "version"] = [[.int 1, .int FORMAT_VERSION]])
      (.SchemaConflictError "Unsupported or damaged catalog format")
    pure s

def install (schema : BlobSchema) (s : SqlCatalog) : Except Error (String × SqlCatalog) := do
  let objects := s.objects
  let s ← core s
  let expected ← Installation.schemaObjects schema
  match s.rows.schema? schema.name schema.version with
  | some existing => do
      require
        (existing.definition.definition = schema.definition ∧
          tableName existing.definition = tableName schema)
        (.SchemaConflictError "Schema name/version already has a different definition")
      (if s.evolved schema.name then Migrations.verify schema.name s else verifyObjects objects expected)
      pure (tableName schema, s)
  | none => do
      require (schema.version = 1)
        (.SchemaConflictError "Use an explicit MetadataMigration to install a new version")
      require (∀ entry ∈ expected, objects entry.1 = none)
        (.SchemaConflictError "Schema SQL names already exist")
      let rows ← insertSchema s.rows schema
      let s ← (s.write rows).execute (objectOf (tableName schema)) expected
      pure (tableName schema, s)

end Installation

namespace PayloadCatalog

def extend (s : SqlCatalog) : Except Error SqlCatalog :=
  if s.objects "ms_payload_format" = none then do
    require (∀ entry ∈ PayloadCatalog.DDL, s.objects entry.1 = none)
      (.SchemaConflictError "Partial or conflicting payload extension")
    require (∀ b ∈ s.rows.blobs, b.state = .publishing)
      (.SchemaConflictError "Cannot adopt existing ready/retired S01 fixture rows")
    let s ← s.execute fixedObject PayloadCatalog.DDL
    pure (s.insertFormat "ms_payload_format" [("version", .int 1)])
  else do
    verifyObjects s.objects PayloadCatalog.DDL
    require (s.select "ms_payload_format" ["version"] = [[.int 1]])
      (.SchemaConflictError "Unsupported payload extension version")
    pure s

def enrolled (schema : BlobSchema) (s : SqlCatalog) : Catalog :=
  { s.rows with guards := s.rows.guards ++ [⟨schema.name, s.evolved schema.name⟩],
                payloadSchemas := s.rows.payloadSchemas ++ [(schema.name, schema.version)] }

def install (schema : BlobSchema) (s : SqlCatalog) : Except Error SqlCatalog := do
  let objects := s.objects
  let s ← extend s
  let entry ← PayloadCatalog.guard schema (s.evolved schema.name)
  if (schema.name, schema.version) ∈ s.rows.payloadSchemas then do
    verifyObjects objects [entry]
    pure s
  else do
    require (objects entry.1 = none) (.SchemaConflictError "Publication guard exists without schema enrollment")
    require (∀ b ∈ s.rows.blobs, b.schemaName = schema.name → b.state = .publishing)
      (.SchemaConflictError "Cannot adopt ready/retired rows from an unenrolled schema")
    let rows := enrolled schema s
    let s ← s.statement (create (objectOf "ms_blobs" entry))
    pure (s.write rows)

end PayloadCatalog

namespace Encodings

def verify (s : SqlCatalog) : Except Error Unit := do
  verifyObjects s.objects Encodings.DDL
  require (s.select "ms_encoding_format" ["version"] = [[.int 1]])
    (.SchemaConflictError "Unsupported encoding extension")

def install (s : SqlCatalog) : Except Error SqlCatalog :=
  if s.objects "ms_encoding_format" = none then do
    require (∀ entry ∈ Encodings.DDL, s.objects entry.1 = none)
      (.SchemaConflictError "Partial encoding extension")
    let s ← s.execute fixedObject Encodings.DDL
    pure (s.insertFormat "ms_encoding_format" [("version", .int 1)])
  else do
    verify s
    pure s

end Encodings

namespace Lifecycle

-- BlobSchema(name, {})
def bare (name : String) : Except Error BlobSchema :=
  BlobSchema.init { name := name, version := 1, fields := [], indexes := [], handlers := ["file"],
                    validatorId := none }

def verifyGuard (s : SqlCatalog) (name : String) : Except Error Unit := do
  let schema ← bare name
  let entry ← Lifecycle.schemaGuard schema
  verifyObjects s.objects [entry]

def verify (s : SqlCatalog) : Except Error Unit := do
  verifyObjects s.objects Lifecycle.DDL
  require (s.select "ms_lifecycle_format" ["version"] = [[.int 1]])
    (.SchemaConflictError "Unsupported lifecycle extension")
  s.rows.lifecycleSchemas.forM (verifyGuard s)

def install (s : SqlCatalog) : Except Error SqlCatalog :=
  if s.objects "ms_lifecycle_format" = none then do
    require (∀ entry ∈ Lifecycle.DDL, s.objects entry.1 = none)
      (.SchemaConflictError "Partial lifecycle extension")
    require (s.objects "ms_blobs" ≠ none) (.ValidationError "no such table: ms_blobs")
    require (∀ b ∈ s.rows.blobs, b.state ≠ .pendingDelete)
      (.SchemaConflictError "Resolve legacy pending_delete rows before installing S04")
    let s ← s.execute fixedObject Lifecycle.DDL
    pure (s.insertFormat "ms_lifecycle_format" [("version", .int 1)])
  else do
    verify s
    pure s

def installSchema (schema : BlobSchema) (s : SqlCatalog) : Except Error SqlCatalog := do
  let entry ← Lifecycle.schemaGuard schema
  if schema.name ∈ s.rows.lifecycleSchemas then do
    verifyObjects s.objects [entry]
    pure s
  else do
    require (s.objects entry.1 = none) (.SchemaConflictError "Retirement guard exists without enrollment")
    let rows := { s.rows with lifecycleSchemas := s.rows.lifecycleSchemas ++ [schema.name] }
    let s ← s.statement (create (objectOf (tableName schema) entry))
    pure (s.write rows)

end Lifecycle

namespace Store

def installSchema (schema : BlobSchema) (s : SqlCatalog) : Except Error (String × SqlCatalog) := do
  let (table, s) ← Installation.install schema s
  let s ← PayloadCatalog.install schema s
  let s ← Encodings.install s
  let s ← Lifecycle.install s
  let s ← Lifecycle.installSchema schema s
  pure (table, s)

def installLifecycle (s : SqlCatalog) : Except Error SqlCatalog := do
  let s ← Lifecycle.install s
  (s.rows.schemas.insertionSort fun a b => a.name < b.name ∨ (a.name = b.name ∧ a.version ≤ b.version)).foldlM
    (fun s row => do
      let schema ← Migrations.decode row.definition.definition
      Lifecycle.installSchema schema s) s

def installQueryIndexes (s : SqlCatalog) : Except Error (List String × SqlCatalog) := do
  Lifecycle.verify s
  let objects := s.objects
  Store.queryIndexes.foldlM (fun (added, s) entry =>
    if objects entry.1 = none then do
      let s ← s.statement (create (fixedObject entry))
      pure (added ++ [entry.1], s)
    else do
      verifyObjects objects [entry]
      pure (added, s)) ([], s)

-- _schema without write
def schema (schema : BlobSchema) (s : SqlCatalog) : Except Error Unit := do
  require ((s.rows.schema? schema.name schema.version).map (fun row => row.definition.definition) =
      some schema.definition)
    (.SchemaConflictError "Schema is not installed or its definition differs")
  let entry ← PayloadCatalog.guard schema (s.evolved schema.name)
  require ((s.database.objects.filter fun o => o.name = entry.1).map SqlObject.sql = [entry.2])
    (.SchemaConflictError "Call Store.install_schema before using payload APIs")

end Store

namespace Migrations

-- The part of _initialize that starts a new migration.
def start (sqlite : Sqlite) (plan : MetadataMigration) (hooks : Hooks) (backup : String)
    (objects : String → Option String) (s : SqlCatalog) : Except Error (MigrationRow × SqlCatalog) := do
  Migrations.writable s.rows plan.source
  require (∀ j ∈ s.rows.migrations, ¬(j.schemaName = plan.source.name ∧ j.state = .running))
    (.ConflictError "Finish the active migration first")
  require (¬Migrations.unready s.rows plan.source.name)
    (.ConflictError "Resolve unpublished or retiring blobs before migrating")
  let schemas ← s.declarations plan.source.name
  let old ← (if s.evolved plan.source.name then Migrations.layoutObjects schemas
    else Installation.schemaObjects plan.source)
  verifyObjects objects old
  let new ← Migrations.layoutObjects (schemas ++ [plan.target])
  let rows ← insertSchema s.rows plan.target
  let s := s.write rows
  let s ← s.statement (rebuild sqlite hooks (tableName plan.source) old new backup)
  let entry ← PayloadCatalog.guard plan.target true
  let s ← s.statement (dropTrigger entry.1)
  let s ← s.statement (create (objectOf "ms_blobs" entry))
  require ((plan.target.name, plan.target.version) ∉ s.rows.payloadSchemas)
    (uniqueFailed "ms_payload_schemas.schema_name, ms_payload_schemas.schema_version")
  let rows := Migrations.rebuilt plan s.rows
  let rows ← insertMigration rows (Migrations.newJob plan s.rows)
  let job ← Migrations.status rows plan.name
  pure (job, s.write rows)

def initializeJob (sqlite : Sqlite) (plan : MetadataMigration) (hooks : Hooks) (backup : String)
    (s : SqlCatalog) : Except Error (MigrationRow × SqlCatalog) := do
  let (_, s) ← Installation.install plan.source s
  let s ← PayloadCatalog.install plan.source s
  Store.schema plan.source s
  let objects := s.objects
  if objects "ms_metadata_layouts" = none then do
    require (∀ entry ∈ Migrations.DDL, objects entry.1 = none)
      (.SchemaConflictError "Partial migration extension")
    let s ← s.execute fixedObject Migrations.DDL
    start sqlite plan hooks backup objects s
  else do
    verifyObjects objects Migrations.DDL
    match s.rows.migrations.find? fun j => j.name = plan.name with
    | some job => do
        require (job.schemaName = plan.source.name ∧ job.sourceVersion = plan.source.version ∧
            job.targetVersion = plan.target.version ∧ job.transformId = plan.transformId)
          (.SchemaConflictError "Migration name already identifies another transformation")
        Store.schema plan.target s
        verify plan.source.name s
        pure (job, s)
    | none => start sqlite plan hooks backup objects s

end Migrations

-- with self.catalog.transaction(): a failure, also of COMMIT, takes everything back.
def transaction {α : Type} (body : SqlCatalog → Except Error (α × SqlCatalog)) (s : SqlCatalog) :
    Except Error α × SqlCatalog :=
  match body s with
  | .error raised => (.error raised, s)
  | .ok (value, after) =>
      if after.rows.DeferredKeys then (.ok value, after) else (.error foreignKeyFailed, s)

end SqlCatalog

end MeldStore
