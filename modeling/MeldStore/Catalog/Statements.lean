import MeldStore.Catalog

namespace MeldStore

open Library.Checked Library.Keyed

-- Single-row statements, one definition a table and kind. Each runs the BEFORE
-- triggers, then NOT NULL and CHECK (the conversion to a row), then UNIQUE, then
-- the immediate foreign keys, and fails as a whole. The NEW row is given as SQL
-- values after column affinity.

def abort (text : String) : Error := .ConstraintError text

def checkFailed (table : String) : Error := .ConstraintError s!"CHECK constraint failed: {table}"

def uniqueFailed (columns : String) : Error := .ConstraintError s!"UNIQUE constraint failed: {columns}"

def foreignKeyFailed : Error := .ConstraintError "FOREIGN KEY constraint failed"

-- SQLite's text functions stop at the first NUL.
def cString (s : String) : List Char := s.toList.takeWhile fun c => c ≠ '\x00'

def cBytes (b : List UInt8) : List UInt8 := b.takeWhile fun c => c ≠ 0

def TextCell.length : TextCell → Nat
  | .text s => (cString s).length
  | .blob b => b.length

structure BlobCells where
  id : Value
  schemaName : Value
  schemaVersion : Value
  state : Value

structure ObjectCells where
  blobId : Value
  token : Value

structure PreparedCells where
  token : Value
  storageId : Value
  objectKey : Value
  byteSize : Value
  digest : Value
  hashAlgorithm : Value
  handlerId : Value
  handlerVersion : Value
  schemaName : Value
  schemaVersion : Value

structure EncodingCells where
  token : Value
  encodingId : Value
  encodingVersion : Value
  descriptor : Value

structure MetaCells where
  id : Value
  schemaName : Value
  schemaVersion : Value
  version : Value
  fields : String → Value

namespace Catalog

def hasSchema (db : Catalog) (name : String) (version : Int) : Prop :=
  ∃ s ∈ db.schemas, s.name = name ∧ s.version = version

instance (db : Catalog) (name : String) (version : Int) : Decidable (db.hasSchema name version) := by
  unfold hasSchema
  infer_instance

def isRetired (db : Catalog) (id : Value) : Truth :=
  some (db.retired.any fun r => (Value.eq (.text r.blobId) id).holds)

end Catalog

-- ms_blobs

def stateOfText (s : String) : Option BlobState :=
  if s = "publishing" then some .publishing
  else if s = "ready" then some .ready
  else if s = "pending_delete" then some .pendingDelete
  else none

def BlobCells.row (new : BlobCells) : Option BlobRow :=
  match new.id, new.schemaName, new.schemaVersion, new.state with
  | .text id, .text name, .int version, .text state =>
      if 0 < (cString id).length then
        (stateOfText state).map fun state =>
          { id := id, schemaName := name, schemaVersion := version, state := state }
      else none
  | _, _, _, _ => none

def BlobRow.cells (b : BlobRow) : BlobCells :=
  { id := .text b.id, schemaName := .text b.schemaName, schemaVersion := .int b.schemaVersion,
    state := .text b.state.text }

def msInsertPublishing (new : BlobCells) : Truth := Value.ne new.state (.text "publishing")

def msNoResurrection (db : Catalog) (new : BlobCells) : Truth := db.isRetired new.id

def msBlobIdentity (old : BlobRow) (new : BlobCells) : Truth :=
  Truth.or (Value.isNot new.id (.text old.id)) (Value.isNot new.schemaName (.text old.schemaName))

def msStateTransition (db : Catalog) (old : BlobRow) (new : BlobCells) : Truth :=
  let oldState := Value.text old.state.text
  Truth.and (Value.ne new.state oldState) (Truth.not (Truth.or
    (Truth.and (Value.eq oldState (.text "publishing")) (Value.eq new.state (.text "ready")))
    (Truth.and (Value.eq new.state (.text "pending_delete")) (db.isRetired (.text old.id)))))

def msRetireIdentity (db : Catalog) (old : BlobRow) : Truth :=
  Truth.or (Value.ne (.text old.state.text) (.text "pending_delete"))
    (Truth.not (db.isRetired (.text old.id)))

-- The EXISTS subqueries of a publication guard.
def hasMetadata (db : Catalog) (table : String) (new : BlobCells) : Bool :=
  (db.tableRows table).any fun m =>
    (Truth.and (Value.eq m.id.value new.id) (Value.eq (.int m.schemaVersion) new.schemaVersion)).holds

def hasObject (db : Catalog) (evolved : Bool) (new : BlobCells) : Bool :=
  db.objects.any fun o => db.prepared.any fun p =>
    o.token = p.token && (Truth.and (Value.eq (.text o.blobId) new.id)
      (Truth.and (Value.eq (.text p.schemaName) new.schemaName)
        (if evolved then Value.le (.int p.schemaVersion) new.schemaVersion
          else Value.eq (.int p.schemaVersion) new.schemaVersion))).holds

def readyGuard (db : Catalog) (guard : Guard) (new : BlobCells) : Truth :=
  Truth.and (Value.eq new.schemaName (.text guard.schemaName))
    (Truth.and (Value.eq new.state (.text "ready"))
      (Truth.or (some (!hasMetadata db guard.schemaName new))
        (some (!hasObject db guard.evolved new))))

def insertBlob (db : Catalog) (new : BlobCells) : Except Error Catalog := do
  require (¬(msInsertPublishing new).holds) (abort "new blobs must start publishing")
  require (¬(msNoResurrection db new).holds) (abort "retired blob IDs cannot be reused")
  let row ← fromOption new.row (checkFailed "ms_blobs")
  require (∀ b ∈ db.blobs, b.id ≠ row.id) (uniqueFailed "ms_blobs.id")
  require (db.hasSchema row.schemaName row.schemaVersion) foreignKeyFailed
  pure { db with blobs := db.blobs ++ [row] }

-- Metadata rows of a blob's current key. The parent key of a table that has not
-- been rebuilt is ON UPDATE RESTRICT.
def MetaRow.childOf (m : MetaRow) (b : BlobRow) : Prop :=
  m.table = b.schemaName ∧ m.id = .text b.id ∧ m.schemaVersion = b.schemaVersion

instance (m : MetaRow) (b : BlobRow) : Decidable (m.childOf b) := by
  unfold MetaRow.childOf
  infer_instance

-- `ofState` says whether the statement sets the state column, which is when the
-- UPDATE OF state triggers fire.
def updateBlob (db : Catalog) (old : BlobRow) (new : BlobCells) (ofState : Bool) :
    Except Error Catalog := do
  let new := if ofState then new else { new with state := .text old.state.text }
  require (¬(msBlobIdentity old new).holds) (abort "blob identity is immutable")
  require (ofState → ¬(msStateTransition db old new).holds) (abort "invalid lifecycle transition")
  require (ofState → ∀ guard ∈ db.guards, ¬(readyGuard db guard new).holds)
    (abort "blob is not ready for publication")
  let row ← fromOption new.row (checkFailed "ms_blobs")
  require (∀ b ∈ db.blobs, b.id ≠ old.id → b.id ≠ row.id) (uniqueFailed "ms_blobs.id")
  require (db.hasSchema row.schemaName row.schemaVersion) foreignKeyFailed
  require (row.schemaVersion = old.schemaVersion ∨ db.evolved old.schemaName ∨
    ∀ m ∈ db.metadata, ¬m.childOf old) foreignKeyFailed
  pure { db with blobs := rewrite (fun b => b.id = old.id) (fun _ => row) db.blobs }

def deleteBlob (db : Catalog) (old : BlobRow) : Except Error Catalog := do
  require (¬(msRetireIdentity db old).holds) (abort "blob retirement requires queued deletion")
  require (∀ o ∈ db.objects, o.blobId ≠ old.id) foreignKeyFailed
  require (∀ m ∈ db.metadata, ¬m.childOf old) foreignKeyFailed
  require (∀ s ∈ db.steps, s.blobId ≠ old.id) foreignKeyFailed
  pure { db with blobs := db.blobs.filter fun b => b.id ≠ old.id }

-- ms_objects

def ObjectCells.row (new : ObjectCells) : Option ObjectRow :=
  match new.blobId, TextCell.ofValue new.token with
  | .text id, some token => some { blobId := id, token := token }
  | _, _ => none

def msUnrevokedObject (db : Catalog) (new : ObjectCells) : Truth :=
  some (db.gc.any fun g => g.token.any fun t => (Value.eq t.value new.token).holds)

def msRetireObject (db : Catalog) (old : ObjectRow) : Truth :=
  some (!db.retired.any fun r => r.blobId = old.blobId && r.token = old.token)

def insertObject (db : Catalog) (new : ObjectCells) : Except Error Catalog := do
  require (¬(msUnrevokedObject db new).holds) (abort "prepared token is revoked")
  let row ← fromOption new.row (checkFailed "ms_objects")
  require (∀ o ∈ db.objects, o.blobId ≠ row.blobId) (uniqueFailed "ms_objects.blob_id")
  require (∀ o ∈ db.objects, o.token ≠ row.token) (uniqueFailed "ms_objects.token")
  require (∃ b ∈ db.blobs, b.id = row.blobId) foreignKeyFailed
  require (∃ p ∈ db.prepared, p.token = row.token) foreignKeyFailed
  pure { db with objects := db.objects ++ [row] }

-- Every UPDATE of ms_objects is refused by ms_objects_immutable.
def updateObject (_db : Catalog) (_old : ObjectRow) (_new : ObjectCells) : Except Error Catalog :=
  .error (abort "object association is immutable")

def deleteObject (db : Catalog) (old : ObjectRow) : Except Error Catalog := do
  require (¬(msRetireObject db old).holds) (abort "object association requires explicit retirement")
  pure { db with objects := db.objects.filter fun o => o.blobId ≠ old.blobId }

-- ms_prepared

def isHexChar (c : Char) : Bool := ('0' ≤ c && c ≤ '9') || ('a' ≤ c && c ≤ 'f')

def isHexByte (b : UInt8) : Bool := (48 ≤ b && b ≤ 57) || (97 ≤ b && b ≤ 102)

def TextCell.isDigest : TextCell → Bool
  | .text s => (cString s).length == 32 && (cString s).all isHexChar
  | .blob b => b.length == 32 && (cBytes b).all isHexByte

def PreparedCells.row (new : PreparedCells) : Option PreparedRow := do
  let token ← TextCell.ofValue new.token
  let storageId ← TextCell.ofValue new.storageId
  let objectKey ← TextCell.ofValue new.objectKey
  let digest ← TextCell.ofValue new.digest
  match new.byteSize, new.schemaName, new.schemaVersion with
  | .int size, .text name, .int version =>
      if 0 ≤ size ∧ digest.isDigest ∧ new.hashAlgorithm = .text "xxh3_128" ∧
          new.handlerId = .text "file" ∧ new.handlerVersion = .int 1 then
        some { token := token, storageId := storageId, objectKey := objectKey, byteSize := size,
               digest := digest, hashAlgorithm := "xxh3_128", handlerId := "file",
               handlerVersion := 1, schemaName := name, schemaVersion := version }
      else none
  | _, _, _ => none

def msFreshObjectKey (db : Catalog) (new : PreparedCells) : Truth :=
  some (db.gc.any fun g => (Truth.and (Value.eq g.storageId.value new.storageId)
    (Value.eq g.objectKey.value new.objectKey)).holds)

def insertPrepared (db : Catalog) (new : PreparedCells) : Except Error Catalog := do
  require (¬(msFreshObjectKey db new).holds) (abort "object key was queued for cleanup")
  let row ← fromOption new.row (checkFailed "ms_prepared")
  require (∀ p ∈ db.prepared, p.token ≠ row.token) (uniqueFailed "ms_prepared.token")
  require (∀ p ∈ db.prepared, ¬(p.storageId = row.storageId ∧ p.objectKey = row.objectKey))
    (uniqueFailed "ms_prepared.storage_id, ms_prepared.object_key")
  require (db.hasSchema row.schemaName row.schemaVersion) foreignKeyFailed
  pure { db with prepared := db.prepared ++ [row] }

-- Every UPDATE of ms_prepared is refused by ms_prepared_immutable.
def updatePrepared (_db : Catalog) (_old : PreparedRow) (_new : PreparedCells) : Except Error Catalog :=
  .error (abort "prepared descriptor is immutable")

def deletePrepared (db : Catalog) (old : PreparedRow) : Except Error Catalog := do
  require (∀ o ∈ db.objects, o.token ≠ old.token) foreignKeyFailed
  require (∀ r ∈ db.retired, r.token ≠ old.token) foreignKeyFailed
  require (∀ e ∈ db.encodings, e.token ≠ old.token) foreignKeyFailed
  pure { db with prepared := db.prepared.filter fun p => p.token ≠ old.token }

-- ms_encodings

def EncodingCells.row (new : EncodingCells) : Option EncodingRow := do
  let token ← TextCell.ofValue new.token
  let encodingId ← TextCell.ofValue new.encodingId
  let descriptor ← TextCell.ofValue new.descriptor
  match new.encodingVersion with
  | .int version =>
      if 0 < encodingId.length ∧ encodingId ≠ .text "file" ∧ 0 < version ∧
          descriptor.length ≤ 65536 then
        some { token := token, encodingId := encodingId, encodingVersion := version,
               descriptor := descriptor }
      else none
  | _ => none

def msEncodingInsert (db : Catalog) (new : EncodingCells) : Truth :=
  some (db.prepared.any fun p => (Value.eq p.token.value new.token).holds)

def insertEncoding (db : Catalog) (new : EncodingCells) : Except Error Catalog := do
  require (¬(msEncodingInsert db new).holds) (abort "encoding must precede physical journal")
  let row ← fromOption new.row (checkFailed "ms_encodings")
  require (∀ e ∈ db.encodings, e.token ≠ row.token) (uniqueFailed "ms_encodings.token")
  pure { db with encodings := db.encodings ++ [row] }

-- ms_encoding_update and ms_encoding_delete refuse every other statement.
def updateEncoding (_db : Catalog) (_old : EncodingRow) (_new : EncodingCells) : Except Error Catalog :=
  .error (abort "encoding is immutable")

def deleteEncoding (_db : Catalog) (_old : EncodingRow) : Except Error Catalog :=
  .error (abort "encoding is retained for recovery")

-- The metadata tables

def maxDouble : Rat := (2 ^ 53 - 1) * 2 ^ 971

-- The type CHECK of a column.
def Kind.admits (kind : Kind) (value : Value) : Bool :=
  match value with
  | .null => true
  | value =>
      match kind, value with
      | .text, .text _ => true
      | .int64, .int i => isInt64 i
      | .float, .real q => -maxDouble ≤ q && q ≤ maxDouble
      | .boolean, .int i => i == 0 || i == 1
      | .timestamp, .text s => DateTime.shaped (cString s)
      | _, _ => false

-- Required fields are not null and fields of other versions are. In the layout
-- of a single version this is the columns' NOT NULL.
def BlobSchema.admits (schema : BlobSchema) (columns : List (String × Field))
    (fields : String → Value) : Prop :=
  (∀ field ∈ schema.fields, field.2.required → fields field.1 ≠ .null) ∧
    ∀ column ∈ columns, column.1 ∉ schema.fields.map Prod.fst → fields column.1 = .null

instance (schema : BlobSchema) (columns : List (String × Field)) (fields : String → Value) :
    Decidable (schema.admits columns fields) := by
  unfold BlobSchema.admits
  infer_instance

def restrictTo (columns : List (String × Field)) (fields : String → Value) : String → Value :=
  fun name => if name ∈ columns.map Prod.fst then fields name else .null

def MetaCells.row (db : Catalog) (table : String) (new : MetaCells) : Option MetaRow := do
  let id ← TextCell.ofValue new.id
  match new.schemaVersion, new.version with
  | .int schemaVersion, .int version =>
      if new.schemaName = .text table ∧ 0 < version ∧ isInt64 version ∧
          schemaVersion ∈ (db.declarations table).map (fun s => s.version) ∧
          (∀ column ∈ db.columns table, column.2.kind.admits (new.fields column.1)) ∧
          ∀ s ∈ db.declarations table, s.version = schemaVersion →
            s.admits (db.columns table) new.fields then
        some { table := table, id := id, schemaVersion := schemaVersion, version := version,
               fields := restrictTo (db.columns table) new.fields }
      else none
  | _, _ => none

-- Two rows agree on a unique index: every indexed value is equal and not null.
def Index.conflict (index : Index) (a b : MetaRow) : Bool :=
  index.unique && index.fields.all fun name => (Value.eq (a.fields name) (b.fields name)).holds

-- The index of a version covers the rows of that version.
def BlobSchema.conflict (schema : BlobSchema) (a b : MetaRow) : Bool :=
  schema.indexes.any fun index =>
    a.schemaVersion == schema.version && b.schemaVersion == schema.version && index.conflict a b

def Catalog.conflict (db : Catalog) (a b : MetaRow) : Bool :=
  (db.declarations a.table).any fun s => s.conflict a b

def Catalog.hasParent (db : Catalog) (m : MetaRow) : Prop := ∃ b ∈ db.blobs, m.childOf b

instance (db : Catalog) (m : MetaRow) : Decidable (db.hasParent m) := by
  unfold Catalog.hasParent
  infer_instance

def anyHolds (tests : List Truth) : Truth := tests.foldl Truth.or (some false)

def metaInsertTrigger (db : Catalog) (table : String) (new : MetaCells) : Truth :=
  if db.evolved table then
    Truth.or (Value.ne new.version (.int 1))
      (match db.latestVersion table with
        | some latest => Value.ne new.schemaVersion (.int latest)
        | none => none)
  else Value.ne new.version (.int 1)

def immutableChanged (schema : BlobSchema) (old : MetaRow) (new : MetaCells) : List Truth :=
  (schema.fields.filter fun field => field.2.immutable).map fun field =>
    Value.isNot (new.fields field.1) (old.fields field.1)

-- The step a migration batch records before it moves a row.
def hasStep (db : Catalog) (old : MetaRow) (new : MetaCells) : Bool :=
  db.steps.any fun s => db.migrations.any fun j =>
    j.name = s.migrationName && (.text s.blobId : TextCell) = old.id &&
      s.expectedVersion = old.version && j.state = .running && j.schemaName = old.table &&
      j.sourceVersion = old.schemaVersion &&
      (Value.eq (.int j.targetVersion) new.schemaVersion).holds

def metaUpdateTrigger (db : Catalog) (old : MetaRow) (new : MetaCells) : Truth :=
  let oldVersion := Value.int old.schemaVersion
  let stale := Value.ne new.version (.int (old.version + 1))
  match (db.declarations old.table).getLast? with
  | none => none
  | some latest =>
      if db.evolved old.table then
        anyHolds
          [Value.isNot new.id old.id.value, Value.isNot new.schemaName (.text old.table), stale,
            Truth.and (Value.eq new.schemaVersion oldVersion)
              (anyHolds (Value.ne oldVersion (.int latest.version) :: immutableChanged latest old new)),
            Truth.and (Value.ne new.schemaVersion oldVersion) (some (!hasStep db old new))]
      else
        Truth.or
          (anyHolds (Value.isNot new.id old.id.value :: Value.isNot new.schemaName (.text old.table) ::
            Value.isNot new.schemaVersion oldVersion :: immutableChanged latest old new)) stale

def metaDeleteTrigger (db : Catalog) (old : MetaRow) : Truth :=
  if db.evolved old.table then
    match db.latestVersion old.table with
    | some latest => Value.ne (.int old.schemaVersion) (.int latest)
    | none => none
  else some false

def metaRetireTrigger (db : Catalog) (old : MetaRow) : Truth :=
  if old.table ∈ db.lifecycleSchemas then Truth.not (db.isRetired old.id.value) else some false

def insertMeta (db : Catalog) (table : String) (new : MetaCells) : Except Error Catalog := do
  require (¬(metaInsertTrigger db table new).holds)
    (abort (if db.evolved table then "insert requires latest schema and initial version"
      else "initial concurrency version must be 1"))
  let row ← fromOption (new.row db table) (checkFailed table)
  require (∀ m ∈ db.metadata, ¬(m.table = table ∧ m.id = row.id)) (uniqueFailed "id")
  require (∀ m ∈ db.metadata, m.table = table → ¬db.conflict row m) (uniqueFailed "index")
  require (db.evolved table ∨ db.hasParent row) foreignKeyFailed
  pure { db with metadata := db.metadata ++ [row] }

def MetaRow.sameKey (a b : MetaRow) : Bool := a.table = b.table && a.id = b.id

def updateMeta (db : Catalog) (old : MetaRow) (new : MetaCells) : Except Error Catalog := do
  require (¬(metaUpdateTrigger db old new).holds)
    (abort (if db.evolved old.table then "invalid metadata edit or migration"
      else "immutable field or invalid concurrency version"))
  let row ← fromOption (new.row db old.table) (checkFailed old.table)
  require (∀ m ∈ db.metadata, ¬m.sameKey old → ¬(m.table = old.table ∧ m.id = row.id))
    (uniqueFailed "id")
  require (∀ m ∈ db.metadata, ¬m.sameKey old → m.table = old.table → ¬db.conflict row m)
    (uniqueFailed "index")
  require (db.evolved old.table ∨ db.hasParent row) foreignKeyFailed
  pure { db with metadata := rewrite (fun m => m.sameKey old) (fun _ => row) db.metadata }

def deleteMeta (db : Catalog) (old : MetaRow) : Except Error Catalog := do
  require (¬(metaDeleteTrigger db old).holds) (abort "old metadata is frozen for migration")
  require (¬(metaRetireTrigger db old).holds) (abort "metadata deletion requires explicit retirement")
  pure { db with metadata := db.metadata.filter fun m => !m.sameKey old }

def MetaRow.cells (m : MetaRow) : MetaCells :=
  { id := m.id.value, schemaName := .text m.table, schemaVersion := .int m.schemaVersion,
    version := .int m.version, fields := m.fields }

-- Tables only the library writes

def insertRetired (db : Catalog) (row : RetiredRow) : Except Error Catalog := do
  require (0 < row.metadataVersion) (checkFailed "ms_retired")
  require (∀ r ∈ db.retired, r.blobId ≠ row.blobId) (uniqueFailed "ms_retired.blob_id")
  require (∀ r ∈ db.retired, r.token ≠ row.token) (uniqueFailed "ms_retired.token")
  require (∃ p ∈ db.prepared, p.token = row.token) foreignKeyFailed
  require (db.hasSchema row.schemaName row.schemaVersion) foreignKeyFailed
  pure { db with retired := db.retired ++ [row] }

def GcRow.sameKey (a b : GcRow) : Bool := a.storageId = b.storageId && a.objectKey = b.objectKey

-- The PRIMARY KEY and both UNIQUE columns of ms_gc; NULLs never collide.
def GcRow.collides (a b : GcRow) : Prop :=
  (a.storageId = b.storageId ∧ a.objectKey = b.objectKey) ∨
    (a.token ≠ none ∧ a.token = b.token) ∨ (a.blobId ≠ none ∧ a.blobId = b.blobId)

instance (a b : GcRow) : Decidable (a.collides b) := by
  unfold GcRow.collides
  infer_instance

def insertGc (db : Catalog) (row : GcRow) : Except Error Catalog := do
  require (∀ g ∈ db.gc, ¬row.collides g) (uniqueFailed "ms_gc")
  require (∀ id ∈ row.blobId, ∃ r ∈ db.retired, r.blobId = id) foreignKeyFailed
  pure { db with gc := db.gc ++ [row] }

def insertOrIgnoreGc (db : Catalog) (row : GcRow) : Except Error Catalog :=
  if ∀ g ∈ db.gc, ¬row.collides g then insertGc db row else .ok db

def msGcIdentity (old new : GcRow) : Truth :=
  Truth.or (anyHolds [Value.isNot new.storageId.value old.storageId.value,
      Value.isNot new.objectKey.value old.objectKey.value, some (new.token ≠ old.token),
      some (new.blobId ≠ old.blobId), some (new.reason ≠ old.reason)])
    (some (old.state = .done && new.state ≠ .done))

def updateGc (db : Catalog) (old new : GcRow) : Except Error Catalog := do
  require (¬(msGcIdentity old new).holds) (abort "cleanup identity is immutable")
  pure { db with gc := rewrite (fun g => g.sameKey old) (fun _ => new) db.gc }

def insertSchema (db : Catalog) (schema : BlobSchema) : Except Error Catalog := do
  require (¬db.hasSchema schema.name schema.version) (uniqueFailed "ms_schemas.name, ms_schemas.version")
  pure { db with schemas := db.schemas ++
    [{ name := schema.name, version := schema.version, definition := schema }] }

-- Its name, its target and the running job of a schema are unique.
def MigrationRow.collides (a b : MigrationRow) : Prop :=
  a.name = b.name ∨ (a.schemaName = b.schemaName ∧ a.targetVersion = b.targetVersion) ∨
    (a.schemaName = b.schemaName ∧ a.state = .running ∧ b.state = .running)

instance (a b : MigrationRow) : Decidable (a.collides b) := by
  unfold MigrationRow.collides
  infer_instance

def insertMigration (db : Catalog) (row : MigrationRow) : Except Error Catalog := do
  require (∀ j ∈ db.migrations, ¬row.collides j) (uniqueFailed "ms_migrations")
  require (db.hasSchema row.schemaName row.sourceVersion) foreignKeyFailed
  require (db.hasSchema row.schemaName row.targetVersion) foreignKeyFailed
  pure { db with migrations := db.migrations ++ [row] }

-- The progress a migration batch records.
def updateMigration (db : Catalog) (name : String) (moved : Nat) (lastId : Option TextCell)
    (state : MigrationState) : Catalog :=
  let change (j : MigrationRow) : MigrationRow :=
    { j with migratedRows := j.migratedRows + moved, lastId := lastId, state := state }
  { db with migrations := rewrite (fun j => j.name = name) change db.migrations }

def insertStep (db : Catalog) (row : StepRow) : Except Error Catalog := do
  require (∀ s ∈ db.steps, s.blobId ≠ row.blobId) (uniqueFailed "ms_migration_steps.blob_id")
  require (∃ b ∈ db.blobs, b.id = row.blobId) foreignKeyFailed
  require (∃ j ∈ db.migrations, j.name = row.migrationName) foreignKeyFailed
  pure { db with steps := db.steps ++ [row] }

def deleteStep (db : Catalog) (blobId : String) : Catalog :=
  { db with steps := db.steps.filter fun s => s.blobId ≠ blobId }

-- What COMMIT checks: the deferred foreign keys of rebuilt metadata tables and of
-- ms_encodings.
def Catalog.DeferredKeys (db : Catalog) : Prop :=
  (∀ m ∈ db.metadata, db.evolved m.table → db.hasParent m) ∧
    ∀ e ∈ db.encodings, ∃ p ∈ db.prepared, p.token = e.token

instance (db : Catalog) : Decidable db.DeferredKeys := by
  unfold Catalog.DeferredKeys
  infer_instance

end MeldStore
