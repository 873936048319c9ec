import MeldStore.Store

namespace MeldStore

open Library.Checked Library.Keyed

namespace CatalogInstall

-- The part of installation.install that depends on the schema.
def install (schema : BlobSchema) (db : Catalog) : Except Error Catalog :=
  match db.schema? schema.name schema.version with
  | some row => do
      require (row.definition = schema)
        (.SchemaConflictError "Schema name/version already has a different definition")
      pure db
  | none => do
      require (schema.version = 1)
        (.SchemaConflictError "Use an explicit MetadataMigration to install a new version")
      insertSchema db schema

end CatalogInstall

namespace PayloadCatalog

def install (schema : BlobSchema) (db : Catalog) : Except Error Catalog :=
  let guard : Guard := ⟨schema.name, db.evolved schema.name⟩
  if (schema.name, schema.version) ∈ db.payloadSchemas then do
    require (guard ∈ db.guards) (.SchemaConflictError "Installed SQL objects differ")
    pure db
  else do
    require (∀ other ∈ db.guards, other.schemaName ≠ schema.name)
      (.SchemaConflictError "Publication guard exists without schema enrollment")
    require (∀ b ∈ db.blobs, b.schemaName = schema.name → b.state = .publishing)
      (.SchemaConflictError "Cannot adopt ready/retired rows from an unenrolled schema")
    pure { db with guards := db.guards ++ [guard],
                   payloadSchemas := db.payloadSchemas ++ [(schema.name, schema.version)] }

end PayloadCatalog

namespace Lifecycle

-- The retirement guard of a schema and its enrolment are created together.
def installSchema (schema : BlobSchema) (db : Catalog) : Catalog :=
  if schema.name ∈ db.lifecycleSchemas then db
  else { db with lifecycleSchemas := db.lifecycleSchemas ++ [schema.name] }

def version (value : Int) : Except Error Unit :=
  require (1 ≤ value ∧ value < 2 ^ 63) (.ValidationError "expected_version must be a positive int64")

def retired (db : Catalog) (id : String) : Option (RetiredRow × GcRow) := do
  let r ← db.retired.find? fun r => r.blobId = id
  let g ← db.gc.find? fun g => g.blobId = some id
  pure (r, g)

def delete (storage : String) (id : String) (expectedVersion : Int) (db : Catalog) :
    Except Error (Option (RetiredRow × GcRow) × Catalog) := do
  let _ ← identifier id
  Lifecycle.version expectedVersion
  match retired db id with
  | some previous => do
      require (previous.2.storageId = .text storage)
        (.ValidationError "Retirement belongs to another storage root")
      require (previous.1.metadataVersion = expectedVersion)
        (.ConflictError "Retirement concurrency version differs")
      pure (some previous, db)
  | none => do
      let row ← Store.record db id false
      require (row.storageId = .text storage)
        (.ValidationError "Blob belongs to another storage root")
      require (row.version = expectedVersion) (.ConflictError "Metadata concurrency version is stale")
      require (∀ j ∈ db.migrations, ¬(j.schemaName = row.schemaName ∧ j.state = .running))
        (.ConflictError "Finish the schema migration before retiring its blobs")
      let db ← insertRetired db { blobId := id, token := row.token, schemaName := row.schemaName,
                                  schemaVersion := row.schemaVersion, metadataVersion := row.version }
      let db ← insertGc db { storageId := row.storageId, objectKey := row.objectKey,
                             token := some row.token, blobId := some id, reason := .retired,
                             state := .pending, lastError := none }
      let db ← onRow db.blobs (fun b => b.id = id)
        (fun b => updateBlob db b { b.cells with state := .text "pending_delete" } true) db
      let db ← onRow db.metadata (fun m => m.table = row.schemaName && m.id = .text id)
        (fun m => deleteMeta db m) db
      let db ← onRow db.objects (fun o => o.blobId = id) (fun o => deleteObject db o) db
      let db ← onRow db.blobs (fun b => b.id = id) (fun b => deleteBlob db b) db
      pure (retired db id, db)

def discard (storage : String) (prepared : PreparedFile) (db : Catalog) :
    Except Error (GcRow × Catalog) := do
  require (prepared.storageId = storage) (.ValidationError "Expected this storage root's PreparedFile")
  require (Encodings.matches db prepared) (.ValidationError "Prepared token is unknown or altered")
  require (∀ o ∈ db.objects, o.token ≠ .text prepared.token)
    (.ConflictError "Prepared token belongs to a blob; resolve that blob first")
  require (∀ r ∈ db.retired, r.token ≠ .text prepared.token)
    (.ConflictError "Prepared token belongs to a retired blob")
  let db ← insertOrIgnoreGc db
    { storageId := .text prepared.storageId, objectKey := .text prepared.objectKey,
      token := some (.text prepared.token), blobId := none, reason := .discarded,
      state := .pending, lastError := none }
  let row ← fromOption (db.gc.find? fun g => g.token = some (.text prepared.token))
    (.PythonError "IndexError")
  pure (row, db)

-- What resolve answers, with the retirement or the record it found.
inductive Outcome
  | retired (retirement : RetiredRow × GcRow)
  | live (record : Record)
  | discarded
  | unknown
  | prepared

-- The checks of the arguments, before anything about the id or the token is read.
def expected (storage id : String) (prepared : PreparedFile) (schema : BlobSchema)
    (metadata : BlobSchema.Metadata) (db : Catalog) : Except Error (List (String × Value)) := do
  let _ ← identifier id
  require (prepared.storageId = storage) (.ValidationError "Expected this storage root's PreparedFile")
  Store.schema db schema false
  let values ← schema.normalizeMetadata metadata
  require (prepared.schemaName = schema.name ∧ prepared.schemaVersion = schema.version)
    (.ValidationError "Token and schema differ")
  pure values

def resolve (storage id : String) (prepared : PreparedFile) (schema : BlobSchema)
    (metadata : BlobSchema.Metadata) (db : Catalog) : Except Error Outcome := do
  let values ← expected storage id prepared schema metadata db
  let journal := db.prepared.filter fun p => p.token = .text prepared.token
  require (¬(journal ≠ [] ∧ Encodings.matches db prepared = false))
    (.ConflictError "Prepared token descriptor differs")
  match retired db id with
  | some prior => do
      require (prior.1.token = .text prepared.token)
        (.ConflictError "ID belongs to another retired operation")
      pure (.retired prior)
  | none =>
      if ∃ b ∈ db.blobs, b.id = id then do
        let row ← Store.record db id false
        require (row.token = .text prepared.token ∧ row.schemaName = schema.name ∧
            row.schemaVersion = schema.version ∧ Store.sameMetadata row.metadata values)
          (.ConflictError "ID exists with different object or metadata")
        pure (.live row)
      else do
        require (∀ o ∈ db.objects, o.token ≠ .text prepared.token)
          (.ConflictError "Token is associated with another ID")
        if ∃ g ∈ db.gc, g.token = some (.text prepared.token) then pure .discarded
        else if journal = [] then pure .unknown
        else pure .prepared

end Lifecycle

namespace Store

def installSchema (schema : BlobSchema) (db : Catalog) : Except Error Catalog := do
  let db ← CatalogInstall.install schema db
  let db ← PayloadCatalog.install schema db
  pure (Lifecycle.installSchema schema db)

end Store

end MeldStore
