import MeldStore.Catalog.Statements

namespace MeldStore

open Library Library.Checked Library.Keyed

-- The SQL parts of Store, each inside a transaction: a function from the catalog
-- to its result and the catalog it leaves. `storage` is the identity of the
-- storage root of the store that runs it.

structure Encoding where
  encodingId : String
  encodingVersion : Int
  descriptor : String
deriving DecidableEq, Repr

-- A PreparedFile, or with an encoding a PreparedValue.
structure PreparedFile where
  token : String
  storageId : String
  objectKey : String
  byteSize : Int
  digest : String
  hashAlgorithm : String
  handlerId : String
  handlerVersion : Int
  schemaName : String
  schemaVersion : Int
  encoding : Option Encoding
deriving DecidableEq, Repr

structure Record where
  id : String
  schemaName : String
  schemaVersion : Int
  state : BlobState
  token : TextCell
  storageId : TextCell
  objectKey : TextCell
  byteSize : Int
  digest : TextCell
  hashAlgorithm : String
  handlerId : TextCell
  handlerVersion : Int
  version : Int
  metadata : List (String × Value)
  descriptor : Option Json.Tree

-- A statement with a WHERE clause on a unique key: it runs on the row it selects,
-- if there is one.
def onRow {α : Type} (rows : List α) (select : α → Bool) (statement : α → Except Error Catalog)
    (db : Catalog) : Except Error Catalog :=
  match rows.find? select with
  | some row => statement row
  | none => .ok db

namespace Migrations

def writable (db : Catalog) (schema : BlobSchema) : Except Error Unit :=
  require (db.latestVersion schema.name = some schema.version)
    (.SchemaConflictError "Old schema versions are read-only after migration starts")

end Migrations

namespace Encodings

def read (db : Catalog) (token : TextCell) : Option EncodingRow :=
  db.encodings.find? fun e => e.token = token

def physical (prepared : PreparedFile) : PreparedRow :=
  { token := .text prepared.token, storageId := .text prepared.storageId,
    objectKey := .text prepared.objectKey, byteSize := prepared.byteSize,
    digest := .text prepared.digest, hashAlgorithm := prepared.hashAlgorithm,
    handlerId := prepared.handlerId, handlerVersion := prepared.handlerVersion,
    schemaName := prepared.schemaName, schemaVersion := prepared.schemaVersion }

def logical (prepared : PreparedFile) : Option EncodingRow :=
  prepared.encoding.map fun e =>
    { token := .text prepared.token, encodingId := .text e.encodingId,
      encodingVersion := e.encodingVersion, descriptor := .text e.descriptor }

def «matches» (db : Catalog) (prepared : PreparedFile) : Bool :=
  (db.prepared.filter fun p => p.token = .text prepared.token) = [physical prepared] &&
    read db (.text prepared.token) = logical prepared

end Encodings

-- json.loads of a stored descriptor; a blob is read as UTF-8.
def loadsDescriptor (descriptor : TextCell) : Except Error Json.Tree :=
  let text := match descriptor with
    | .text s => some s
    | .blob bytes => String.fromUTF8? ⟨bytes.toArray⟩
  match text.bind fun s => Json.loads s.toList with
  | some tree => .ok tree
  | none => .error (.PythonError "ValueError")

-- descriptor_json reads its text back; without NaN what it reads equals itself.
def readsBack (descriptor : String) : Bool :=
  match loadsDescriptor (.text descriptor) with
  | .ok tree => tree.equal tree
  | .error _ => false

-- What _prepare_snapshot journals: a file passthrough, and for prepare and put the
-- encoding that descriptor_json has sealed.
def PreparedFile.Sealed (prepared : PreparedFile) : Prop :=
  (prepared.hashAlgorithm = "xxh3_128" ∧ prepared.handlerId = "file" ∧ prepared.handlerVersion = 1) ∧
    ∀ e ∈ prepared.encoding, readsBack e.descriptor = true

instance (prepared : PreparedFile) : Decidable prepared.Sealed := by
  unfold PreparedFile.Sealed
  infer_instance

namespace Store

def schema (db : Catalog) (schema : BlobSchema) (write : Bool) : Except Error Unit := do
  require ((db.schema? schema.name schema.version).map (fun s => s.definition) = some schema)
    (.SchemaConflictError "Schema is not installed or its definition differs")
  (if write then Migrations.writable db schema else pure ())
  require (⟨schema.name, db.evolved schema.name⟩ ∈ db.guards)
    (.SchemaConflictError "Call Store.install_schema before using payload APIs")

-- The join of _record: the object association and its journal row, when both exist.
def association (db : Catalog) (id : String) : Option PreparedRow := do
  let o ← db.objects.find? fun o => o.blobId = id
  db.prepared.find? fun p => p.token = o.token

def record (db : Catalog) (id : String) (readyOnly : Bool) : Except Error Record := do
  let ready := if readyOnly then "ready " else ""
  let b ← fromOption (db.blobs.find? fun b => b.id = id && (!readyOnly || b.state = .ready))
    (.NotFoundError s!"No {ready}blob: {id}")
  let p ← fromOption (association db id)
    (.IntegrityError "Blob object association is missing or inconsistent")
  require (p.schemaName = b.schemaName ∧ p.schemaVersion ≤ b.schemaVersion)
    (.IntegrityError "Blob object association is missing or inconsistent")
  let m ← fromOption (db.metadata.find? fun m => m.table = b.schemaName && m.id = .text id)
    (.IntegrityError "Blob metadata is missing")
  require (m.schemaVersion = b.schemaVersion) (.IntegrityError "Blob metadata version is inconsistent")
  let declaration ← fromOption (db.schema? b.schemaName b.schemaVersion) (.PythonError "IndexError")
  let plain : Record :=
    { id := b.id, schemaName := b.schemaName, schemaVersion := b.schemaVersion, state := b.state,
      token := p.token, storageId := p.storageId, objectKey := p.objectKey, byteSize := p.byteSize,
      digest := p.digest, hashAlgorithm := p.hashAlgorithm, handlerId := .text p.handlerId,
      handlerVersion := p.handlerVersion, version := m.version,
      metadata := declaration.definition.fields.map fun field => (field.1, m.fields field.1),
      descriptor := none }
  match Encodings.read db p.token with
  | none => pure plain
  | some encoding => do
      let tree ← loadsDescriptor encoding.descriptor
      pure { plain with handlerId := encoding.encodingId, handlerVersion := encoding.encodingVersion,
                        descriptor := some tree }

def stat (db : Catalog) (id : String) : Except Error Record := do
  let _ ← identifier id
  record db id true

-- Python's == on two dicts of metadata values.
def sameMetadata (a b : List (String × Value)) : Bool :=
  a.length == b.length && a.all fun entry =>
    b.any fun other => other.1 = entry.1 && Value.pyEq entry.2 other.2

-- The logical encoding, which precedes the physical journal row.
def journalEncoding (db : Catalog) (prepared : PreparedFile) : Except Error Catalog :=
  match prepared.encoding with
  | none => .ok db
  | some e =>
      insertEncoding db { token := .text prepared.token, encodingId := .text e.encodingId,
                          encodingVersion := .int e.encodingVersion,
                          descriptor := .text e.descriptor }

-- The transaction that journals a completed upload.
def journal (db : Catalog) (schema : BlobSchema) (prepared : PreparedFile) : Except Error Catalog := do
  Store.schema db schema true
  let db ← journalEncoding db prepared
  insertPrepared db
    { token := .text prepared.token, storageId := .text prepared.storageId,
      objectKey := .text prepared.objectKey, byteSize := .int prepared.byteSize,
      digest := .text prepared.digest, hashAlgorithm := .text prepared.hashAlgorithm,
      handlerId := .text prepared.handlerId, handlerVersion := .int prepared.handlerVersion,
      schemaName := .text prepared.schemaName, schemaVersion := .int prepared.schemaVersion }

def cellsOf (values : List (String × Value)) : String → Value :=
  fun name => ((values.find? fun entry => entry.1 = name).map Prod.snd).getD .null

def finalize (storage : String) (prepared : PreparedFile) (schema : BlobSchema)
    (metadata : BlobSchema.Metadata) (id : String) (db : Catalog) : Except Error (Record × Catalog) := do
  let _ ← identifier id
  Store.schema db schema true
  let values ← schema.normalizeMetadata metadata
  require (Encodings.matches db prepared ∧ prepared.storageId = storage)
    (.ValidationError "Unknown, altered or foreign prepared token")
  require (∀ g ∈ db.gc, g.token ≠ some (.text prepared.token))
    (.ConflictError "Prepared token has been revoked for cleanup")
  require (prepared.schemaName = schema.name ∧ prepared.schemaVersion = schema.version)
    (.ValidationError "Prepared token belongs to another schema")
  if ∃ b ∈ db.blobs, b.id = id then do
    let existing ← record db id false
    require (existing.token = .text prepared.token ∧ sameMetadata existing.metadata values)
      (.ConflictError "Blob ID already identifies a different operation")
    pure (existing, db)
  else do
    require (∀ o ∈ db.objects, o.token ≠ .text prepared.token)
      (.ConflictError "Prepared token is already associated with another blob")
    let db ← insertBlob db { id := .text id, schemaName := .text schema.name,
                             schemaVersion := .int schema.version, state := .text "publishing" }
    let db ← insertMeta db schema.name
      { id := .text id, schemaName := .text schema.name, schemaVersion := .int schema.version,
        version := .int 1, fields := cellsOf values }
    let db ← insertObject db { blobId := .text id, token := .text prepared.token }
    let created ← record db id false
    pure (created, db)

def publish (storage : String) (id : String) (db : Catalog) : Except Error (Record × Catalog) := do
  let existing ← record db id false
  require (existing.storageId = .text storage)
    (.ValidationError "Blob belongs to another storage root")
  require (existing.state ≠ .pendingDelete) (.ConflictError "Retired blob cannot be published")
  let db ← onRow db.blobs (fun b => b.id = id && b.state = .publishing)
    (fun b => updateBlob db b { b.cells with state := .text "ready" } true) db
  let published ← record db id true
  pure (published, db)

def changeFields (schema : BlobSchema) (changes : BlobSchema.Metadata) :
    Except Error (List (String × Value)) :=
  changes.mapM fun change => do
    let spec ← fromOption (schema.field? change.1)
      (.ValidationError "changes must be a nonempty mapping of declared metadata fields")
    require (¬spec.immutable) (.ValidationError s!"Immutable metadata field: {change.1}")
    let value ← spec.normalize change.2
    pure (change.1, value)

def overwrite (values : List (String × Value)) (fields : String → Value) : String → Value :=
  fun name => ((values.find? fun entry => entry.1 = name).map Prod.snd).getD (fields name)

def updateMetadata (id : String) (schema : BlobSchema) (changes : BlobSchema.Metadata)
    (expectedVersion : Int) (db : Catalog) : Except Error (Record × Catalog) := do
  let _ ← identifier id
  Store.schema db schema true
  require (1 ≤ expectedVersion ∧ expectedVersion < 2 ^ 63 - 1)
    (.ValidationError "expected_version must be a positive, incrementable int64")
  require (changes ≠ [] ∧ ∀ change ∈ changes, change.1 ∈ schema.fields.map Prod.fst)
    (.ValidationError "changes must be a nonempty mapping of declared metadata fields")
  let values ← changeFields schema changes
  let current ← record db id true
  require (current.schemaName = schema.name ∧ current.schemaVersion = schema.version ∧
      current.version = expectedVersion)
    (.ConflictError "Metadata schema or concurrency version is stale")
  let m ← fromOption (db.metadata.find? fun m => m.table = schema.name && m.id = .text id &&
      m.schemaVersion = schema.version && m.version = expectedVersion)
    (.ConflictError "Metadata changed before the guarded update")
  let db ← updateMeta db m
    { m.cells with fields := overwrite values m.fields, version := .int (m.version + 1) }
  let updated ← record db id true
  pure (updated, db)

-- The token of _prepare_snapshot; `token` and `key` are the two names it draws.
def prepareSnapshot (storage token key : String) (schema : BlobSchema) (byteSize : Int) (digest : String)
    (encoding : Option Encoding) : PreparedFile :=
  { token := token, storageId := storage, objectKey := "objects/" ++ key, byteSize := byteSize,
    digest := digest, hashAlgorithm := "xxh3_128", handlerId := "file", handlerVersion := 1,
    schemaName := schema.name, schemaVersion := schema.version, encoding := encoding }

-- What put and import_file give to their retry checks.
structure Creation where
  id : String
  schema : BlobSchema
  metadata : BlobSchema.Metadata
  values : List (String × Value)
  byteSize : Int
  digest : String
  encoding : Option Encoding

-- The comparison of _retry, without the descriptor.
def Creation.agrees (storage : String) (call : Creation) (existing : Record) : Bool :=
  existing.schemaName = call.schema.name && existing.schemaVersion = call.schema.version &&
    sameMetadata existing.metadata call.values && existing.storageId = .text storage &&
    existing.byteSize = call.byteSize && existing.digest = .text call.digest &&
    existing.handlerId = .text ((call.encoding.map fun e => e.encodingId).getD "file") &&
    existing.handlerVersion = (call.encoding.map fun e => e.encodingVersion).getD 1 &&
    existing.state = .ready

-- existing.get("descriptor") == json.loads(encoding["descriptor"])
def sameDescriptor (existing : Option Json.Tree) (wanted : Json.Tree) : Bool :=
  match existing with
  | some tree => tree.equal wanted
  | none => match wanted with
    | .null => true
    | _ => false

def retry (storage : String) (call : Creation) (db : Catalog) : Except Error (Option Record) := do
  require (∀ r ∈ db.retired, r.blobId ≠ call.id)
    (.ConflictError "Retired blob IDs cannot be reused")
  if ∀ b ∈ db.blobs, b.id ≠ call.id then pure none
  else do
    let existing ← match record db call.id false with
      | .error (.NotFoundError _) =>
          .error (.ConflictError "Blob ID exists without a complete object association")
      | result => result
    require (call.agrees storage existing)
      (.ConflictError "Existing ID is different or unfinished; resolve explicitly")
    match call.encoding with
    | none => pure (some existing)
    | some e => do
        let wanted ← loadsDescriptor (.text e.descriptor)
        require (sameDescriptor existing.descriptor wanted)
          (.ConflictError "Existing ID has a different encoding descriptor")
        pure (some existing)

-- The last transaction of put and import_file.
def create (storage : String) (call : Creation) (prepared : PreparedFile) (db : Catalog) :
    Except Error (Record × Catalog) := do
  match ← retry storage call db with
  | some existing => pure (existing, db)
  | none => do
      let (_, db) ← finalize storage prepared call.schema call.metadata call.id db
      publish storage call.id db

end Store

end MeldStore
