import MeldStore.Lifecycle

namespace MeldStore

open Library.Checked Library.Keyed

-- A MetadataMigration without coordination hooks. `transform` is the pure
-- function from the inputs of a row to the metadata it gives, or the exception
-- it raises.
structure MetadataMigration where
  name : String
  source : BlobSchema
  target : BlobSchema
  transformId : String
  transform : BlobSchema.Metadata → Except Error BlobSchema.Metadata
  validName : identifier name = .ok name
  validTransformId : identifier transformId = .ok transformId
  sameSchema : source.name = target.name
  nextVersion : target.version = source.version + 1
  samePayload : source.handlers = target.handlers ∧ source.validatorId = target.validatorId

namespace Migrations

-- The columns of a rebuilt table: a field keeps its kind in every version, and
-- no two fields differ in case only.
def unionField (columns : List (String × Kind)) (field : String × Field) :
    Except Error (List (String × Kind)) :=
  match columns.find? fun column => column.1 = field.1 with
  | some column => do
      require (column.2 = field.2.kind)
        (.SchemaConflictError "Changing a field type requires a new field name")
      pure columns
  | none => pure (columns ++ [(field.1, field.2.kind)])

def layout (schemas : List BlobSchema) : Except Error (List (String × Kind)) := do
  let union ← (schemas.flatMap fun s => s.fields).foldlM unionField []
  -- BlobSchema(latest.name, union), of which the names of the columns are new
  let _ ← (union.map fun column => (column.1, Field.mk column.2 false false)).foldlM
      Declaration.checkField RESERVED
  pure union

def status (db : Catalog) (name : String) : Except Error MigrationRow :=
  fromOption (db.migrations.find? fun j => j.name = name) (.NotFoundError s!"No migration: {name}")

def sourceRows (db : Catalog) (table : String) (version : Int) : List MetaRow :=
  db.metadata.filter fun m => m.table = table && m.schemaVersion = version

def unready (db : Catalog) (name : String) : Prop :=
  ∃ b ∈ db.blobs, b.schemaName = name ∧ b.state ≠ .ready

instance (db : Catalog) (name : String) : Decidable (unready db name) := by
  unfold unready
  infer_instance

-- The catalog after the rebuild: the rows move unchanged to a table that also has
-- the columns of the target, and the publication guard admits older objects.
def rebuilt (plan : MetadataMigration) (db : Catalog) : Catalog :=
  { db with
    layouts := if db.evolved plan.source.name then db.layouts else db.layouts ++ [plan.source.name],
    guards := (db.guards.filter fun guard => guard.schemaName ≠ plan.target.name) ++
      [⟨plan.target.name, true⟩],
    payloadSchemas := db.payloadSchemas ++ [(plan.target.name, plan.target.version)] }

def newJob (plan : MetadataMigration) (db : Catalog) : MigrationRow :=
  { name := plan.name, schemaName := plan.source.name, sourceVersion := plan.source.version,
    targetVersion := plan.target.version, transformId := plan.transformId, state := .running,
    totalRows := (sourceRows db plan.source.name plan.source.version).length,
    migratedRows := 0, lastId := none }

def initializeJob (plan : MetadataMigration) (db : Catalog) : Except Error (MigrationRow × Catalog) := do
  let db ← CatalogInstall.install plan.source db
  let db ← PayloadCatalog.install plan.source db
  Store.schema db plan.source false
  match db.migrations.find? fun j => j.name = plan.name with
  | some job => do
      require (job.schemaName = plan.source.name ∧ job.sourceVersion = plan.source.version ∧
          job.targetVersion = plan.target.version ∧ job.transformId = plan.transformId)
        (.SchemaConflictError "Migration name already identifies another transformation")
      Store.schema db plan.target false
      pure (job, db)
  | none => do
      writable db plan.source
      require (∀ j ∈ db.migrations, ¬(j.schemaName = plan.source.name ∧ j.state = .running))
        (.ConflictError "Finish the active migration first")
      require (¬unready db plan.source.name)
        (.ConflictError "Resolve unpublished or retiring blobs before migrating")
      let _ ← layout (db.declarations plan.source.name ++ [plan.target])
      let db ← insertSchema db plan.target
      require (rebuilt plan db).DeferredKeys
        (.SchemaConflictError "Foreign key check failed after metadata rebuild")
      require ((plan.target.name, plan.target.version) ∉ db.payloadSchemas)
        (uniqueFailed "ms_payload_schemas.schema_name, ms_payload_schemas.schema_version")
      let db ← insertMigration (rebuilt plan db) (newJob plan db)
      let job ← status db plan.name
      pure (job, db)

-- The rows a batch reads: ordered by id, from the checkpoint on.
def selected (db : Catalog) (plan : MetadataMigration) (lastId : Option TextCell) (batchSize : Nat) :
    List MetaRow :=
  (((sourceRows db plan.source.name plan.source.version).filter fun m =>
    ∀ last ∈ lastId, last < m.id).insertionSort fun a b => a.id ≤ b.id).take batchSize

def inputs (plan : MetadataMigration) (row : MetaRow) : Except Error BlobSchema.Metadata :=
  plan.source.fields.mapM fun field => do
    let value ← field.2.fromSql (row.fields field.1)
    pure (field.1, value)

-- The target metadata of a row.
def transformed (plan : MetadataMigration) (row : MetaRow) : Except Error (List (String × Value)) := do
  let given ← inputs plan row
  let result ← plan.transform given
  plan.target.normalizeMetadata result

def migrateRow (plan : MetadataMigration) (db : Catalog) (row : MetaRow) : Except Error Catalog := do
  let values ← transformed plan row
  let id ← fromOption row.id.text? foreignKeyFailed
  let db ← insertStep db { blobId := id, migrationName := plan.name, expectedVersion := row.version }
  let current ← fromOption (db.metadata.find? fun m => m.table = plan.source.name && m.id = row.id &&
      m.schemaVersion = plan.source.version && m.version = row.version)
    (.ConflictError "Migration row changed unexpectedly")
  let db ← updateMeta db current
    { current.cells with fields := Store.cellsOf values, schemaVersion := .int plan.target.version,
                         version := .int (current.version + 1) }
  let db ← onRow db.blobs (fun b => b.id = id)
    (fun b => updateBlob db b { b.cells with schemaVersion := .int plan.target.version } false) db
  pure (deleteStep db id)

def batch (plan : MetadataMigration) (batchSize : Nat) (db : Catalog) :
    Except Error (MigrationRow × Catalog) := do
  let job ← status db plan.name
  if job.state = .complete then pure (job, db)
  else do
    require (¬unready db plan.source.name)
      (.ConflictError "Resolve unpublished or retiring blobs before resuming")
    let rows := selected db plan job.lastId batchSize
    let db ← rows.foldlM (migrateRow plan) db
    let last := (rows.getLast?.map fun m => m.id).orElse fun _ => job.lastId
    let remaining := sourceRows db plan.source.name plan.source.version ≠ []
    require (¬(remaining ∧ rows = []))
      (.ConflictError "Source rows exist behind the checkpoint; catalog needs inspection")
    let db := updateMigration db plan.name rows.length last
      (if remaining then .running else .complete)
    let job ← status db plan.name
    pure (job, db)

-- One transaction: its body, then the check of COMMIT.
def transaction {α : Type} (body : Catalog → Except Error (α × Catalog)) (db : Catalog) :
    Except Error (α × Catalog) := do
  let (value, after) ← body db
  require after.DeferredKeys foreignKeyFailed
  pure (value, after)

theorem transaction_eq_ok {α : Type} {body : Catalog → Except Error (α × Catalog)}
    {db after : Catalog} {value : α}
    (h : transaction body db = .ok (value, after)) : body db = .ok (value, after) ∧ after.DeferredKeys := by
  simp only [transaction, bind_eq_ok, require_eq_ok, pure_eq_ok, Prod.mk.injEq] at h
  obtain ⟨⟨_, _⟩, hbody, _, hkeys, rfl, rfl⟩ := h
  exact ⟨hbody, hkeys⟩

def arguments (batchSize : Int) (maxBatches : Option Int) (dryRun : Bool) : Except Error Unit := do
  require (1 ≤ batchSize ∧ batchSize ≤ 1000) (.ValidationError "batch_size must be between 1 and 1000")
  require (∀ limit ∈ maxBatches, 0 ≤ limit)
    (.ValidationError "max_batches must be a nonnegative integer or None")
  require (¬(dryRun = true ∧ maxBatches ≠ none))
    (.ValidationError "dry_run requires boolean True and no max_batches limit")

-- The loop of a dry run, inside its one transaction. Every loop counts down `fuel`
-- and gives none when it runs out.
def dryBatches (plan : MetadataMigration) (batchSize : Nat) :
    Nat → MigrationRow → Catalog → Option (Except Error (MigrationRow × Catalog))
  | 0, _, _ => none
  | fuel + 1, job, db =>
      if job.state = .complete then some (.ok (job, db))
      else match batch plan batchSize db with
        | .error raised => some (.error raised)
        | .ok (job, db) => dryBatches plan batchSize fuel job db

-- The loop of a real run, a transaction each batch. `others` is what other calls
-- commit before a batch.
def batches (plan : MetadataMigration) (batchSize : Nat) (limit : Option Int)
    (others : Nat → Catalog → Catalog) :
    Nat → Nat → MigrationRow → Catalog → Option (Except Error MigrationRow × Catalog)
  | 0, _, _, _ => none
  | fuel + 1, done, job, db =>
      if job.state ≠ .complete ∧ ∀ most ∈ limit, (done : Int) < most then
        match transaction (batch plan batchSize) (others done db) with
        | .error raised => some (.error raised, others done db)
        | .ok (job, db) => batches plan batchSize limit others fuel (done + 1) job db
      else some (.ok job, db)

structure Report where
  job : MigrationRow
  dryRun : Bool
deriving DecidableEq, Repr

-- The result of run, and the catalog it leaves: _DryRunRollback takes back all of a
-- dry run.
def run (plan : MetadataMigration) (batchSize : Int) (maxBatches : Option Int) (dryRun : Bool)
    (others : Nat → Catalog → Catalog) (fuel : Nat) (db : Catalog) :
    Option (Except Error Report × Catalog) :=
  match arguments batchSize maxBatches dryRun with
  | .error raised => some (.error raised, db)
  | .ok _ =>
      if dryRun then
        match initializeJob plan db with
        | .error raised => some (.error raised, db)
        | .ok (job, started) =>
            match dryBatches plan batchSize.toNat fuel job started with
            | none => none
            | some (.error raised) => some (.error raised, db)
            | some (.ok (job, after)) =>
                if after.DeferredKeys then some (.ok ⟨job, true⟩, db)
                else some (.error (.SchemaConflictError "Dry-run foreign key validation failed"), db)
      else
        match transaction (initializeJob plan) db with
        | .error raised => some (.error raised, db)
        | .ok (job, started) =>
            match batches plan batchSize.toNat maxBatches others fuel 0 job started with
            | none => none
            | some (.error raised, after) => some (.error raised, after)
            | some (.ok job, after) => some (.ok ⟨job, false⟩, after)

end Migrations

end MeldStore
