import MeldStore.Migrations
import MeldStore.Maintenance
import MeldStore.Catalog.Wf
import Mathlib.Logic.Relation

namespace MeldStore

open Library.Checked Library.Keyed

-- What each operation of the store says about the catalog it ran on, and the
-- catalog it leaves.

theorem onRow_effect {α : Type} {rows : List α} {select : α → Bool}
    {statement : α → Except Error Catalog} {db after : Catalog}
    (h : onRow rows select statement db = .ok after) :
    (∃ row, rows.find? select = some row ∧ row ∈ rows ∧ select row = true ∧
        statement row = .ok after) ∨
      (rows.find? select = none ∧ after = db) := by
  unfold onRow at h
  split at h
  · rename_i row hrow
    exact Or.inl ⟨row, hrow, List.mem_of_find?_eq_some hrow, List.find?_some hrow, h⟩
  · rename_i hnone
    cases h
    exact Or.inr ⟨hnone, rfl⟩

theorem BlobRow.cells_injective (a b : BlobRow) (h : a.cells = b.cells) : a = b := by
  obtain ⟨aid, aname, aversion, astate⟩ := a
  obtain ⟨bid, bname, bversion, bstate⟩ := b
  simp only [BlobRow.cells, BlobCells.mk.injEq, Value.text.injEq, Value.int.injEq,
    BlobState.text_inj] at h
  obtain ⟨rfl, rfl, rfl, rfl⟩ := h
  rfl

-- An installed schema, with its publication guard.
structure Catalog.Installed (db : Catalog) (schema : BlobSchema) : Prop where
  declared : (db.schema? schema.name schema.version).map (fun s => s.definition) = some schema
  guarded : ⟨schema.name, db.evolved schema.name⟩ ∈ db.guards

theorem schema_effect {db : Catalog} {schema : BlobSchema} {write : Bool} {u : Unit}
    (h : Store.schema db schema write = .ok u) :
    db.Installed schema ∧ (write = true → db.latestVersion schema.name = some schema.version) := by
  simp only [Store.schema, bind_eq_ok, require_eq_ok] at h
  obtain ⟨_, hdeclared, _, hwrite, hguard⟩ := h
  refine ⟨⟨hdeclared, hguard⟩, fun hw => ?_⟩
  rw [if_pos hw] at hwrite
  exact (require_eq_ok _ _ _).mp hwrite

theorem mem_of_schema? {db : Catalog} {name : String} {version : Int} {row : SchemaRow}
    (h : db.schema? name version = some row) :
    row ∈ db.schemas ∧ row.name = name ∧ row.version = version := by
  have hselect := List.find?_some h
  simp only [decide_eq_true_eq] at hselect
  exact ⟨List.mem_of_find?_eq_some h, hselect⟩

theorem identifier_eq_ok {value : String} {result : String} (h : identifier value = .ok result) :
    result = value ∧ value ≠ "" := by
  simp only [identifier, bind_eq_ok, require_eq_ok, pure_eq_ok] at h
  obtain ⟨_, ⟨hne, _⟩, _, _, rfl⟩ := h
  exact ⟨rfl, hne⟩

-- The rows behind a record.
structure Catalog.Complete (db : Catalog) (id : String) (b : BlobRow) (o : ObjectRow)
    (p : PreparedRow) (m : MetaRow) : Prop where
  blob : b ∈ db.blobs
  blobId : b.id = id
  object : o ∈ db.objects
  objectBlob : o.blobId = id
  prepared : p ∈ db.prepared
  preparedToken : p.token = o.token
  sameSchema : p.schemaName = b.schemaName
  notAbove : p.schemaVersion ≤ b.schemaVersion
  metadata : m ∈ db.metadata
  metaTable : m.table = b.schemaName
  metaId : m.id = .text id
  sameVersion : m.schemaVersion = b.schemaVersion

theorem association_eq_some {db : Catalog} {id : String} {p : PreparedRow}
    (h : Store.association db id = some p) :
    ∃ o ∈ db.objects, o.blobId = id ∧ p ∈ db.prepared ∧ p.token = o.token := by
  simp only [Store.association, Option.bind_eq_bind, Option.bind_eq_some_iff] at h
  obtain ⟨o, ho, hp⟩ := h
  refine ⟨o, List.mem_of_find?_eq_some ho, by simpa using List.find?_some ho,
    List.mem_of_find?_eq_some hp, by simpa using List.find?_some hp⟩

-- What a record reports of the rows behind it.
structure Catalog.Shows (db : Catalog) (r : Record) (b : BlobRow) (p : PreparedRow) (m : MetaRow) :
    Prop where
  id : r.id = b.id
  schemaName : r.schemaName = b.schemaName
  schemaVersion : r.schemaVersion = b.schemaVersion
  state : r.state = b.state
  token : r.token = p.token
  storageId : r.storageId = p.storageId
  objectKey : r.objectKey = p.objectKey
  byteSize : r.byteSize = p.byteSize
  digest : r.digest = p.digest
  hashAlgorithm : r.hashAlgorithm = p.hashAlgorithm
  version : r.version = m.version
  metadata : ∃ s, db.schema? b.schemaName b.schemaVersion = some s ∧
    r.metadata = s.definition.fields.map fun field => (field.1, m.fields field.1)
  passthrough : Encodings.read db p.token = none →
    r.handlerId = .text p.handlerId ∧ r.handlerVersion = p.handlerVersion ∧ r.descriptor = none
  encoded : ∀ e, Encodings.read db p.token = some e → r.handlerId = e.encodingId ∧
    r.handlerVersion = e.encodingVersion ∧ ∃ tree, loadsDescriptor e.descriptor = .ok tree ∧
      r.descriptor = some tree

theorem record_shows {db : Catalog} {id : String} {readyOnly : Bool} {r : Record}
    (h : Store.record db id readyOnly = .ok r) :
    ∃ b o p m, db.Complete id b o p m ∧ db.Shows r b p m ∧ (readyOnly = true → b.state = .ready) := by
  simp only [Store.record, bind_eq_ok, require_eq_ok, fromOption_eq_ok] at h
  obtain ⟨b, hb, p, hp, _, ⟨hname, hversion⟩, m, hm, _, hsame, s, hs, hresult⟩ := h
  obtain ⟨o, ho, hoid, hpmem, htoken⟩ := association_eq_some hp
  have hbid := List.find?_some hb
  simp only [Bool.and_eq_true, decide_eq_true_eq, Bool.or_eq_true, Bool.not_eq_true'] at hbid
  have hmid := List.find?_some hm
  simp only [Bool.and_eq_true, decide_eq_true_eq] at hmid
  refine ⟨b, o, p, m, ⟨List.mem_of_find?_eq_some hb, hbid.1, ho, hoid, hpmem, htoken, hname, hversion,
    List.mem_of_find?_eq_some hm, hmid.1, hmid.2, hsame⟩, ?_, ?_⟩
  · cases hread : Encodings.read db p.token with
    | none =>
        simp only [hread, pure_eq_ok] at hresult
        subst hresult
        constructor <;> first | rfl | exact ⟨s, hs, rfl⟩ | simp [hread]
    | some e =>
        simp only [hread, bind_eq_ok, pure_eq_ok] at hresult
        obtain ⟨tree, htree, rfl⟩ := hresult
        constructor <;> first | rfl | exact ⟨s, hs, rfl⟩ | simp [hread, htree]
  · intro hready
    rcases hbid.2 with hfalse | hstate
    · simp [hready] at hfalse
    · exact hstate

theorem record_effect {db : Catalog} {id : String} {readyOnly : Bool} {r : Record}
    (h : Store.record db id readyOnly = .ok r) :
    ∃ b o p m, db.Complete id b o p m ∧ (readyOnly = true → b.state = .ready) ∧
      r.id = id ∧ r.schemaName = b.schemaName ∧ r.schemaVersion = b.schemaVersion ∧
      r.state = b.state ∧ r.token = p.token ∧ r.storageId = p.storageId ∧
      r.objectKey = p.objectKey ∧ r.version = m.version := by
  obtain ⟨b, o, p, m, hcomplete, hshows, hready⟩ := record_shows h
  exact ⟨b, o, p, m, hcomplete, hready, hshows.id.trans hcomplete.blobId, hshows.schemaName, hshows.schemaVersion,
    hshows.state, hshows.token, hshows.storageId, hshows.objectKey, hshows.version⟩

-- What the installation of a schema adds to the catalog and its publication
-- guards: nothing that is already there.
structure Installs (db : Catalog) (schema : BlobSchema) (after : Catalog) : Prop where
  rows : ∃ schemas guards payload,
    after = { db with schemas := db.schemas ++ schemas, guards := db.guards ++ guards,
                      payloadSchemas := db.payloadSchemas ++ payload } ∧
    ((schemas = [] ∧ (db.schema? schema.name schema.version).map (fun s => s.definition) = some schema) ∨
      (schemas = [{ name := schema.name, version := schema.version, definition := schema }] ∧
        ¬db.hasSchema schema.name schema.version ∧ schema.version = 1)) ∧
    ((guards = [] ∧ payload = [] ∧ ⟨schema.name, db.evolved schema.name⟩ ∈ db.guards ∧
        (schema.name, schema.version) ∈ db.payloadSchemas) ∨
      (guards = [⟨schema.name, db.evolved schema.name⟩] ∧
        payload = [(schema.name, schema.version)] ∧
        (∀ guard ∈ db.guards, guard.schemaName ≠ schema.name) ∧
        ∀ b ∈ db.blobs, b.schemaName = schema.name → b.state = .publishing))

def Migrations.started (plan : MetadataMigration) (db : Catalog) : Catalog :=
  { Migrations.rebuilt plan db with
    schemas := db.schemas ++ [{ name := plan.target.name, version := plan.target.version,
                                definition := plan.target }],
    migrations := db.migrations ++ [Migrations.newJob plan db] }

-- The rows one operation on blobs and cleanup jobs changes.
inductive RowChange (db : Catalog) : Catalog → Prop
  | finalized (schema : BlobSchema) (b : BlobRow) (m : MetaRow) (o : ObjectRow) (p : PreparedRow)
      (hinstalled : db.Installed schema)
      (hlatest : db.latestVersion schema.name = some schema.version)
      (hblob : b.schemaName = schema.name ∧ b.schemaVersion = schema.version ∧ b.state = .publishing)
      (hfresh : ∀ other ∈ db.blobs, other.id ≠ b.id)
      (hretired : ∀ r ∈ db.retired, r.blobId ≠ b.id)
      (hmeta : m.table = schema.name ∧ m.id = .text b.id ∧ m.schemaVersion = schema.version ∧
        m.version = 1)
      (hadmits : db.Admits m)
      (hmetaFresh : ∀ other ∈ db.metadata, ¬(other.table = m.table ∧ other.id = m.id))
      (hobject : o.blobId = b.id ∧ o.token = p.token)
      (htoken : ∀ other ∈ db.objects, other.token ≠ o.token)
      (hrevoked : ∀ g ∈ db.gc, g.token ≠ some o.token)
      (hprepared : p ∈ db.prepared)
      (hsame : p.schemaName = schema.name ∧ p.schemaVersion = schema.version)
      (hnarrow : db.Narrow m)
      (hidentifier : identifier b.id = .ok b.id) :
      RowChange db { db with blobs := db.blobs ++ [b], metadata := db.metadata ++ [m],
                             objects := db.objects ++ [o] }
  | published (b : BlobRow) (hblob : b ∈ db.blobs) (hstate : b.state = .publishing)
      (hguards : ∀ guard ∈ db.guards, guard.schemaName = b.schemaName → Publishable db guard b) :
      RowChange db { db with blobs := rewrite (fun other => other.id = b.id)
                                        (fun _ => { b with state := .ready }) db.blobs }
  | edited (schema : BlobSchema) (old new : MetaRow)
      (hlatest : db.latestVersion schema.name = some schema.version)
      (hold : old ∈ db.metadata)
      (htable : old.table = schema.name)
      (hversion : old.schemaVersion = schema.version)
      (hnew : new.table = old.table ∧ new.id = old.id ∧ new.schemaVersion = old.schemaVersion ∧
        new.version = old.version + 1)
      (hadmits : db.Admits new)
      (hnarrow : db.Narrow new) :
      RowChange db { db with metadata := rewrite (fun m => m.sameKey old) (fun _ => new) db.metadata }
  | retired (b : BlobRow) (o : ObjectRow) (p : PreparedRow) (m : MetaRow) (r : RetiredRow) (g : GcRow)
      (hcomplete : db.Complete b.id b o p m)
      (hfresh : ∀ other ∈ db.retired, other.blobId ≠ b.id)
      (htoken : ∀ other ∈ db.retired, other.token ≠ p.token)
      (hidle : ∀ j ∈ db.migrations, ¬(j.schemaName = b.schemaName ∧ j.state = .running))
      (hr : r.blobId = b.id ∧ r.token = p.token)
      (hg : g = { storageId := p.storageId, objectKey := p.objectKey, token := some p.token,
                  blobId := some b.id, reason := .retired, state := .pending, lastError := none })
      (hcollides : ∀ other ∈ db.gc, ¬g.collides other)
      (hdeclared : db.hasSchema r.schemaName r.schemaVersion) :
      RowChange db { db with blobs := db.blobs.filter fun other => other.id ≠ b.id,
                             metadata := db.metadata.filter fun other => !other.sameKey m,
                             objects := db.objects.filter fun other => other.blobId ≠ b.id,
                             retired := db.retired ++ [r], gc := db.gc ++ [g] }
  | discarded (p : PreparedRow) (g : GcRow) (hprepared : p ∈ db.prepared)
      (hg : g = { storageId := p.storageId, objectKey := p.objectKey, token := some p.token,
                  blobId := none, reason := .discarded, state := .pending, lastError := none })
      (hunbound : ∀ o ∈ db.objects, o.token ≠ p.token)
      (hretired : ∀ r ∈ db.retired, r.token ≠ p.token)
      (hcollides : ∀ other ∈ db.gc, ¬g.collides other) :
      RowChange db { db with gc := db.gc ++ [g] }
  | orphaned (g : GcRow) (htoken : g.token = none) (hblob : g.blobId = none)
      (hreason : g.reason = .orphan) (hstate : g.state = .pending)
      (hunknown : ∀ p ∈ db.prepared, ¬(p.storageId = g.storageId ∧ p.objectKey = g.objectKey))
      (hcollides : ∀ other ∈ db.gc, ¬g.collides other) :
      RowChange db { db with gc := db.gc ++ [g] }

-- A step of a migration: its start, one row of a batch, or the checkpoint after it.
inductive MigrationChange (db : Catalog) : Catalog → Prop
  | initialized (plan : MetadataMigration)
      (hinstalled : db.Installed plan.source)
      (hlatest : db.latestVersion plan.source.name = some plan.source.version)
      (hname : ∀ j ∈ db.migrations, j.name ≠ plan.name)
      (hidle : ∀ j ∈ db.migrations, ¬(j.schemaName = plan.source.name ∧ j.state = .running))
      (hready : ∀ b ∈ db.blobs, b.schemaName = plan.source.name → b.state = .ready)
      (hfresh : ¬db.hasSchema plan.target.name plan.target.version)
      (hlayout : ∃ union, Migrations.layout (db.declarations plan.source.name ++ [plan.target]) = .ok union) :
      MigrationChange db (Migrations.started plan db)
  | moved (plan : MetadataMigration) (b : BlobRow) (old new : MetaRow)
      (hold : old ∈ db.metadata) (hblob : b ∈ db.blobs) (hid : old.id = .text b.id)
      (htable : old.table = plan.source.name)
      (hversion : old.schemaVersion = plan.source.version)
      (hnew : new.table = old.table ∧ new.id = old.id ∧
        new.schemaVersion = plan.target.version ∧ new.version = old.version + 1)
      (hadmits : db.Admits new)
      (hevolved : db.evolved old.table)
      (hjob : ∃ j ∈ db.migrations, j.name = plan.name ∧ j.state = .running ∧
        j.schemaName = old.table ∧ j.sourceVersion = old.schemaVersion ∧
        j.targetVersion = plan.target.version)
      (hparent : plan.target.version = b.schemaVersion ∨ db.evolved b.schemaName ∨
        ∀ m ∈ db.metadata, ¬m.sameKey old → ¬m.childOf b)
      (hschema : db.hasSchema b.schemaName plan.target.version)
      (hnarrow : db.Narrow new) :
      MigrationChange db { db with
        metadata := rewrite (fun m => m.sameKey old) (fun _ => new) db.metadata,
        blobs := rewrite (fun other => other.id = b.id)
          (fun _ => { b with schemaVersion := plan.target.version }) db.blobs }
  | progressed (name : String) (moved : Nat) (lastId : Option TextCell) (state : MigrationState)
      (hrunning : ∃ j ∈ db.migrations, j.name = name ∧ j.state = .running) :
      MigrationChange db (updateMigration db name moved lastId state)

-- The changes of every operation but a migration.
inductive Write (db : Catalog) : Catalog → Prop
  | installed (schema : BlobSchema) (after : Catalog) (h : Installs db schema after) : Write db after
  | enrolled (name : String) (hfresh : name ∉ db.lifecycleSchemas) :
      Write db { db with lifecycleSchemas := db.lifecycleSchemas ++ [name] }
  | rows (after : Catalog) (h : RowChange db after) : Write db after

-- The changes a transaction is made of: the catalog before and after one
-- operation, or after one row of an operation over many rows.
inductive Effect (db : Catalog) : Catalog → Prop
  | installed (schema : BlobSchema) (after : Catalog) (h : Installs db schema after) : Effect db after
  | enrolled (name : String) (hfresh : name ∉ db.lifecycleSchemas) :
      Effect db { db with lifecycleSchemas := db.lifecycleSchemas ++ [name] }
  | rows (after : Catalog) (h : RowChange db after) : Effect db after
  | migration (after : Catalog) (h : MigrationChange db after) : Effect db after

-- The journal row of a completed upload, in a transaction of its own.
inductive Journaled (db : Catalog) (prepared : PreparedFile) : Catalog → Prop
  | intro (schema : BlobSchema)
      (hinstalled : db.Installed schema)
      (htoken : ∀ p ∈ db.prepared, p.token ≠ .text prepared.token)
      (hkey : ∀ p ∈ db.prepared,
        ¬(p.storageId = .text prepared.storageId ∧ p.objectKey = .text prepared.objectKey))
      (hqueued : ∀ g ∈ db.gc,
        ¬(g.storageId = .text prepared.storageId ∧ g.objectKey = .text prepared.objectKey))
      (hencoding : ∀ e ∈ db.encodings, prepared.encoding ≠ none → e.token ≠ .text prepared.token)
      (hschema : db.hasSchema prepared.schemaName prepared.schemaVersion) :
      Journaled db prepared
        { db with encodings := db.encodings ++ (Encodings.logical prepared).toList,
                  prepared := db.prepared ++ [Encodings.physical prepared] }

-- The recording of a cleanup outcome, in a transaction of its own.
inductive Recorded (db : Catalog) : Catalog → Prop
  | intro (old new : GcRow) (hold : old ∈ db.gc) (hstate : old.state = .pending)
      (hnew : new = { old with state := new.state, lastError := new.lastError }) :
      Recorded db { db with gc := rewrite (fun g => g.sameKey old) (fun _ => new) db.gc }

inductive Change (db after : Catalog) : Prop
  | effect (h : Effect db after)
  | journaled (prepared : PreparedFile) (h : Journaled db prepared after)
  | recorded (h : Recorded db after)

def RowChanges : Catalog → Catalog → Prop := Relation.ReflTransGen RowChange

def MigrationChanges : Catalog → Catalog → Prop := Relation.ReflTransGen MigrationChange

def Writes : Catalog → Catalog → Prop := Relation.ReflTransGen Write

def Effects : Catalog → Catalog → Prop := Relation.ReflTransGen Effect

def Changes : Catalog → Catalog → Prop := Relation.ReflTransGen Change

theorem Effects.changes {db after : Catalog} (h : Effects db after) : Changes db after :=
  Relation.ReflTransGen.mono (fun _ _ => .effect) _ _ h

theorem Write.effect {db after : Catalog} (h : Write db after) : Effect db after := by
  cases h with
  | installed schema _ h => exact .installed schema _ h
  | enrolled name hfresh => exact .enrolled name hfresh
  | rows _ h => exact .rows _ h

theorem Writes.effects {db after : Catalog} (h : Writes db after) : Effects db after :=
  Relation.ReflTransGen.mono (fun _ _ => Write.effect) _ _ h

theorem RowChanges.writes {db after : Catalog} (h : RowChanges db after) : Writes db after :=
  Relation.ReflTransGen.mono (fun _ _ => .rows _) _ _ h

theorem MigrationChanges.effects {db after : Catalog} (h : MigrationChanges db after) : Effects db after :=
  Relation.ReflTransGen.mono (fun _ _ => .migration _) _ _ h

theorem Effects.refl (db : Catalog) : Effects db db := Relation.ReflTransGen.refl

theorem Effects.single {db after : Catalog} (h : Effect db after) : Effects db after :=
  Relation.ReflTransGen.single h

theorem Effects.trans {db mid after : Catalog} (h : Effects db mid) (h' : Effects mid after) :
    Effects db after := Relation.ReflTransGen.trans h h'

theorem installs_effect {db mid after : Catalog} {schema : BlobSchema}
    (hcatalog : CatalogInstall.install schema db = .ok mid)
    (hpayload : PayloadCatalog.install schema mid = .ok after) : Installs db schema after := by
  have hmid : ∃ schemas, mid = { db with schemas := db.schemas ++ schemas } ∧
      ((schemas = [] ∧
        (db.schema? schema.name schema.version).map (fun s => s.definition) = some schema) ∨
      (schemas = [{ name := schema.name, version := schema.version, definition := schema }] ∧
        ¬db.hasSchema schema.name schema.version ∧ schema.version = 1)) := by
    unfold CatalogInstall.install at hcatalog
    split at hcatalog
    · rename_i row hrow
      simp only [bind_eq_ok, require_eq_ok, pure_eq_ok] at hcatalog
      obtain ⟨_, hsame, rfl⟩ := hcatalog
      exact ⟨[], by simp, Or.inl ⟨rfl, by simp [hrow, hsame]⟩⟩
    · simp only [bind_eq_ok, require_eq_ok] at hcatalog
      obtain ⟨_, hfirst, hinsert⟩ := hcatalog
      obtain ⟨hfresh, rfl⟩ := insertSchema_effect hinsert
      exact ⟨_, rfl, Or.inr ⟨rfl, hfresh, hfirst⟩⟩
  obtain ⟨schemas, rfl, hschemas⟩ := hmid
  unfold PayloadCatalog.install at hpayload
  split at hpayload
  · rename_i henrolled
    simp only [bind_eq_ok, require_eq_ok, pure_eq_ok] at hpayload
    obtain ⟨_, hguard, rfl⟩ := hpayload
    exact ⟨schemas, [], [], by simp, hschemas, Or.inl ⟨rfl, rfl, hguard, henrolled⟩⟩
  · simp only [bind_eq_ok, require_eq_ok, pure_eq_ok] at hpayload
    obtain ⟨_, hfresh, _, hempty, rfl⟩ := hpayload
    exact ⟨schemas, _, _, rfl, hschemas, Or.inr ⟨rfl, rfl, hfresh, hempty⟩⟩

theorem installSchema_effects {db after : Catalog} {schema : BlobSchema}
    (h : Store.installSchema schema db = .ok after) :
    ∃ mid, Installs db schema mid ∧ after = Lifecycle.installSchema schema mid := by
  simp only [Store.installSchema, bind_eq_ok, pure_eq_ok] at h
  obtain ⟨first, hcatalog, second, hpayload, rfl⟩ := h
  exact ⟨second, installs_effect hcatalog hpayload, rfl⟩

theorem preparedCells_physical (prepared : PreparedFile) (row : PreparedRow)
    (h : (Encodings.physical prepared).cells = row.cells) : row = Encodings.physical prepared := by
  obtain ⟨token, storage, key, size, digest, algorithm, handler, handlerVersion, name, version⟩ := row
  simp only [PreparedRow.cells, PreparedCells.mk.injEq, TextCell.value_inj, Value.int.injEq,
    Value.text.injEq] at h
  obtain ⟨rfl, rfl, rfl, rfl, rfl, rfl, rfl, rfl, rfl, rfl⟩ := h
  rfl

theorem encodingCells_injective (a b : EncodingRow) (h : a.cells = b.cells) : a = b := by
  obtain ⟨token, id, version, descriptor⟩ := a
  obtain ⟨token', id', version', descriptor'⟩ := b
  simp only [EncodingRow.cells, EncodingCells.mk.injEq, TextCell.value_inj, Value.int.injEq] at h
  obtain ⟨rfl, rfl, rfl, rfl⟩ := h
  rfl

theorem journalEncoding_effect {db after : Catalog} {prepared : PreparedFile}
    (h : Store.journalEncoding db prepared = .ok after) :
    after = { db with encodings := db.encodings ++ (Encodings.logical prepared).toList } ∧
      ∀ e ∈ db.encodings, prepared.encoding ≠ none → e.token ≠ .text prepared.token := by
  unfold Store.journalEncoding at h
  cases he : prepared.encoding with
  | none =>
      simp only [he, Except.ok.injEq] at h
      subst h
      simp [Encodings.logical, he]
  | some encoding =>
      simp only [he] at h
      obtain ⟨row, hrow, _, hfresh, rfl⟩ := insertEncoding_effect h
      have hlogical : Encodings.logical prepared = some row := by
        simp only [Encodings.logical, he, Option.map_some, Option.some.injEq]
        exact encodingCells_injective _ _ hrow
      have htoken : row.token = .text prepared.token := by
        simp only [Encodings.logical, he, Option.map_some, Option.some.injEq] at hlogical
        rw [← hlogical]
      exact ⟨by rw [hlogical]; rfl, fun e he _ => htoken ▸ hfresh e he⟩

theorem journal_effect {db after : Catalog} {schema : BlobSchema} {prepared : PreparedFile}
    (h : Store.journal db schema prepared = .ok after) : Journaled db prepared after := by
  simp only [Store.journal, bind_eq_ok] at h
  obtain ⟨_, hschema, mid, hencoding, hinsert⟩ := h
  have hinstalled := (schema_effect hschema).1
  obtain ⟨rfl, hfresh⟩ := journalEncoding_effect hencoding
  obtain ⟨row, hrow, hgc, htoken, hkey, hhas, rfl⟩ := insertPrepared_effect hinsert
  obtain rfl := preparedCells_physical prepared row hrow
  exact .intro schema hinstalled htoken hkey hgc hfresh hhas

theorem filter_eq_singleton_mem {α : Type*} {rows : List α} {select : α → Bool} {row : α}
    (h : rows.filter select = [row]) : row ∈ rows ∧ select row = true :=
  List.mem_filter.mp (h ▸ List.mem_singleton.mpr rfl)

theorem matches_effect {db : Catalog} {prepared : PreparedFile}
    (h : Encodings.matches db prepared = true) :
    Encodings.physical prepared ∈ db.prepared ∧
      Encodings.read db (.text prepared.token) = Encodings.logical prepared := by
  simp only [Encodings.matches, Bool.and_eq_true, decide_eq_true_eq] at h
  exact ⟨(filter_eq_singleton_mem h.1).1, h.2⟩

-- Creating a blob inserts its row, its metadata and its association, or finds all
-- three already there.
theorem finalize_effect {db after : Catalog} {storage id : String} {prepared : PreparedFile}
    {schema : BlobSchema} {metadata : BlobSchema.Metadata} {r : Record}
    (h : Store.finalize storage prepared schema metadata id db = .ok (r, after)) :
    Store.record after id false = .ok r ∧
      ((after = db ∧ r.token = .text prepared.token) ∨
        ∃ values b m o, schema.normalizeMetadata metadata = .ok values ∧
          b = { id := id, schemaName := schema.name, schemaVersion := schema.version,
                state := .publishing } ∧
          m.fields = restrictTo (db.columns schema.name) (Store.cellsOf values) ∧
          o = { blobId := id, token := .text prepared.token } ∧
          Encodings.matches db prepared = true ∧ prepared.storageId = storage ∧
          (m.table = schema.name ∧ m.id = .text id ∧ m.schemaVersion = schema.version ∧
            m.version = 1) ∧
          after = { db with blobs := db.blobs ++ [b], metadata := db.metadata ++ [m],
                            objects := db.objects ++ [o] } ∧
          RowChange db after) := by
  simp only [Store.finalize, bind_eq_ok, require_eq_ok] at h
  obtain ⟨checked, hidentifier, _, hschema, values, hvalues, _, ⟨hmatches, hstorage⟩, _, hgc, _, hsame, h⟩ := h
  rw [(identifier_eq_ok hidentifier).1] at hidentifier
  obtain ⟨hinstalled, hlatest⟩ := schema_effect hschema
  split at h
  · simp only [bind_eq_ok, require_eq_ok, pure_eq_ok, Prod.mk.injEq] at h
    obtain ⟨existing, hrecord, _, ⟨htoken, _⟩, rfl, rfl⟩ := h
    exact ⟨hrecord, Or.inl ⟨rfl, htoken⟩⟩
  · simp only [bind_eq_ok, require_eq_ok, pure_eq_ok, Prod.mk.injEq] at h
    obtain ⟨_, hunbound, _, hblob, _, hmeta, _, hobject, created, hrecord, rfl, rfl⟩ := h
    obtain ⟨b, hb, _, hretired, hfresh, _, rfl⟩ := insertBlob_effect hblob
    obtain ⟨m, htable, hid, hversion, hfields, hadmits, hone, _, hmetaFresh, _, rfl⟩ :=
      insertMeta_effect hmeta
    obtain ⟨o, hoid, hotoken, hrevoked, hobid, _, _, _, rfl⟩ := insertObject_effect hobject
    have hbrow : b = { id := id, schemaName := schema.name, schemaVersion := schema.version,
                       state := .publishing } := BlobRow.cells_injective _ _ hb.symm
    have hmid : m.id = .text id := (textCell_value_eq_text _ _).mp hid.symm
    have hmversion : m.schemaVersion = schema.version := by simpa using hversion.symm
    have horow : o = { blobId := id, token := .text prepared.token } := by
      have htoken := (textCell_value_eq_text _ _).mp hotoken.symm
      obtain ⟨blobId, token⟩ := o
      simp only [Value.text.injEq] at hoid htoken
      rw [← hoid, htoken]
    refine ⟨hrecord, Or.inr ⟨values, b, m, o, hvalues, hbrow, hfields, horow, hmatches, hstorage,
      ⟨htable, hmid, hmversion, hone⟩, rfl, ?_⟩⟩
    have hprepared := (matches_effect hmatches).1
    refine .finalized schema b m o (Encodings.physical prepared) hinstalled (hlatest rfl) ?_ hfresh
      hretired ?_ hadmits ?_ ?_ ?_ ?_ hprepared hsame (narrow_of_restrictTo htable hfields) ?_
    · simp [hbrow]
    · simp [hbrow, htable, hmid, hmversion, hone]
    · simpa only [htable] using hmetaFresh
    · simp [horow, hbrow, Encodings.physical]
    · simpa only [horow] using hunbound
    · exact hrevoked
    · rw [hbrow]
      exact hidentifier

theorem publish_effect {db after : Catalog} {storage id : String} {r : Record}
    (h : Store.publish storage id db = .ok (r, after)) :
    Store.record after id true = .ok r ∧
      ((after = db ∧ ∃ b ∈ db.blobs, b.id = id ∧ b.state = .ready) ∨
        ∃ b ∈ db.blobs, b.id = id ∧ b.state = .publishing ∧
          after = { db with blobs := rewrite (fun other => other.id = id)
                                       (fun _ => { b with state := .ready }) db.blobs } ∧
          RowChange db after) := by
  simp only [Store.publish, bind_eq_ok, require_eq_ok, pure_eq_ok, Prod.mk.injEq] at h
  obtain ⟨existing, hrecord, _, _, _, hstate, mid, hupdate, published, hpublished, rfl, rfl⟩ := h
  refine ⟨hpublished, ?_⟩
  rcases onRow_effect hupdate with ⟨b, _, hb, hselect, hstatement⟩ | ⟨hnone, rfl⟩
  · simp only [Bool.and_eq_true, decide_eq_true_eq] at hselect
    obtain ⟨row, hcells, hid, hname, _, _, _, hguards, _, _, rfl⟩ := updateBlob_effect hstatement
    have hrow : row = { b with state := .ready } := by
      refine (BlobRow.cells_injective _ _ ?_).symm
      simpa [BlobRow.cells, BlobState.text] using hcells
    refine Or.inr ⟨b, hb, hselect.1, hselect.2, by simp [hrow, hselect.1], ?_⟩
    subst hrow
    refine .published b hb hselect.2 fun guard hguard hguardName => ?_
    exact hguards rfl rfl guard hguard hguardName
  · left
    obtain ⟨b, _, _, _, hcomplete, hready, _⟩ := record_effect hpublished
    exact ⟨rfl, b, hcomplete.blob, hcomplete.blobId, hready rfl⟩

theorem updateMetadata_effect {db after : Catalog} {id : String} {schema : BlobSchema}
    {changes : BlobSchema.Metadata} {expectedVersion : Int} {r : Record}
    (h : Store.updateMetadata id schema changes expectedVersion db = .ok (r, after)) :
    ∃ old new : MetaRow, old ∈ db.metadata ∧ old.table = schema.name ∧ old.id = .text id ∧
      new.table = schema.name ∧ new.id = .text id ∧
      after = { db with metadata := rewrite (fun m => m.sameKey old) (fun _ => new) db.metadata } ∧
      RowChange db after := by
  simp only [Store.updateMetadata, bind_eq_ok, require_eq_ok, fromOption_eq_ok, pure_eq_ok,
    Prod.mk.injEq] at h
  obtain ⟨_, _, _, hschema, _, _, _, _, values, _, current, _, _, _, old, hold, mid, hupdate,
    _, _, rfl, rfl⟩ := h
  have hlatest := (schema_effect hschema).2 rfl
  have hmem := List.mem_of_find?_eq_some hold
  have hselect := List.find?_some hold
  simp only [Bool.and_eq_true, decide_eq_true_eq, and_assoc] at hselect
  obtain ⟨htable, hid, hversion, _⟩ := hselect
  obtain ⟨new, _, _, hntable, hnid, hbump, hnversion, hfields, hadmits, _, _, rfl⟩ :=
    updateMeta_effect hupdate
  have hsame : new.schemaVersion = old.schemaVersion := by
    simpa [MetaRow.cells] using hnversion.symm
  refine ⟨old, new, hmem, htable, hid, hntable.trans htable, hnid.trans hid, rfl, ?_⟩
  exact .edited schema old new hlatest hmem htable hversion ⟨hntable, hnid, hsame, hbump⟩ hadmits
    (narrow_of_restrictTo hntable hfields)

theorem Catalog.Complete.found_blob {db : Catalog} {id : String} {b : BlobRow} {o : ObjectRow}
    {p : PreparedRow} {m : MetaRow} (h : db.Complete id b o p m) {rows : List BlobRow}
    {statement : BlobRow → Except Error Catalog} {start after : Catalog} (row : BlobRow)
    (hrow : row ∈ rows) (hid : row.id = id)
    (hrun : onRow rows (fun b => b.id = id) statement start = .ok after) :
    ∃ found ∈ rows, found.id = b.id ∧ statement found = .ok after := by
  rcases onRow_effect hrun with ⟨found, _, hmem, hselect, hstatement⟩ | ⟨hnone, _⟩
  · exact ⟨found, hmem, (of_decide_eq_true hselect).trans h.blobId.symm, hstatement⟩
  · exact absurd (decide_eq_true hid) (List.find?_eq_none.mp hnone row hrow)

-- Retiring a blob replaces its three rows by a retirement and a cleanup job, or
-- finds it already retired.
theorem delete_effect {db after : Catalog} (hw : db.Wf) {storage id : String} {expectedVersion : Int}
    {result : Option (RetiredRow × GcRow)}
    (h : Lifecycle.delete storage id expectedVersion db = .ok (result, after)) :
    after = db ∨ ((∃ b ∈ db.blobs, b.id = id) ∧
      (∃ g, after.gc = db.gc ++ [g] ∧ g.reason = .retired) ∧ RowChange db after) := by
  simp only [Lifecycle.delete, bind_eq_ok] at h
  obtain ⟨_, _, _, _, h⟩ := h
  split at h
  · simp only [bind_eq_ok, require_eq_ok, pure_eq_ok, Prod.mk.injEq] at h
    obtain ⟨_, _, _, _, _, rfl⟩ := h
    exact Or.inl rfl
  right
  simp only [bind_eq_ok, require_eq_ok, pure_eq_ok, Prod.mk.injEq] at h
  obtain ⟨row, hrecord, _, _, _, _, _, hidle, _, hretire, _, hqueue, _, hpend, _, hmeta, _, hobject,
    _, hremove, _, rfl⟩ := h
  obtain ⟨b, o, p, m, hcomplete, _, _, hname, _, _, htoken, hstorage, hkey, _⟩ := record_effect hrecord
  obtain ⟨hfresh, hfreshToken, _, hdeclared, rfl⟩ := insertRetired_effect hretire
  obtain ⟨hcollides, _, rfl⟩ := insertGc_effect hqueue
  obtain ⟨b', hb', hb'id, hupdate⟩ :=
    hcomplete.found_blob b hcomplete.blob hcomplete.blobId hpend
  obtain rfl := hw.blob_eq hb' hcomplete.blob hb'id
  obtain ⟨pending, hcells, hpid, _, _, _, _, _, _, _, rfl⟩ := updateBlob_effect hupdate
  rcases onRow_effect hmeta with ⟨m', _, hm', hselect, hdelete⟩ | ⟨hnone, _⟩
  swap
  · have := List.find?_eq_none.mp hnone m hcomplete.metadata
    simp [hcomplete.metaTable, hcomplete.metaId, hname] at this
  simp only [Bool.and_eq_true, decide_eq_true_eq] at hselect
  obtain rfl := hw.meta_eq hm' hcomplete.metadata (by rw [hselect.1, hname, hcomplete.metaTable])
    (by rw [hselect.2, hcomplete.metaId])
  obtain ⟨_, rfl⟩ := deleteMeta_effect hdelete
  rcases onRow_effect hobject with ⟨o', _, _, hselectO, hdeleteO⟩ | ⟨hnone, _⟩
  swap
  · have := List.find?_eq_none.mp hnone o hcomplete.object
    simp [hcomplete.objectBlob] at this
  obtain ⟨_, rfl⟩ := deleteObject_effect hdeleteO
  have ho'id : o'.blobId = b'.id := (of_decide_eq_true hselectO).trans hcomplete.blobId.symm
  obtain ⟨gone, hgone, hgoneId, hdeleteB⟩ := hcomplete.found_blob pending
    ((mem_rewrite _ _ _ _).mpr (Or.inr ⟨b', hcomplete.blob, by simp, rfl⟩))
    (hpid.trans hcomplete.blobId) hremove
  obtain ⟨_, _, _, _, _, hafter⟩ := deleteBlob_effect hdeleteB
  refine ⟨⟨b', hcomplete.blob, hcomplete.blobId⟩, ⟨_, by rw [hafter], rfl⟩, ?_⟩
  have hblobs : (rewrite (fun other => other.id = b'.id) (fun _ => pending) db.blobs).filter
      (fun other => other.id ≠ gone.id) = db.blobs.filter fun other => other.id ≠ b'.id := by
    rw [filter_rewrite _ _ _ _ (by simp [hgoneId]) (by simp [hgoneId, hpid])]
    simp [hgoneId]
  rw [hafter]
  simp only [hblobs, ho'id]
  have hid := hcomplete.blobId
  subst hid
  refine .retired b' o p m' _ _ hcomplete hfresh ?_ ?_ ⟨rfl, htoken⟩ ?_ ?_ hdeclared
  · simpa only [htoken] using hfreshToken
  · simpa only [hname] using hidle
  · simp [hstorage, hkey, htoken]
  · exact hcollides

theorem discard_effect {db after : Catalog} {storage : String} {prepared : PreparedFile} {g : GcRow}
    (h : Lifecycle.discard storage prepared db = .ok (g, after)) :
    (Encodings.matches db prepared = true ∧ ∀ r ∈ after.retired, r.token ≠ .text prepared.token) ∧
      (∃ g ∈ after.gc, g.token = some (.text prepared.token)) ∧
      (after = db ∨ ((∃ g, after.gc = db.gc ++ [g] ∧ g.token = some (.text prepared.token) ∧
        g.reason = .discarded) ∧ RowChange db after)) := by
  simp only [Lifecycle.discard, bind_eq_ok, require_eq_ok, fromOption_eq_ok, pure_eq_ok,
    Prod.mk.injEq] at h
  obtain ⟨_, _, _, hmatches, _, hunbound, _, hretired, mid, hinsert, found, hfound, _, rfl⟩ := h
  have hqueued : ∃ g ∈ mid.gc, g.token = some (.text prepared.token) :=
    ⟨found, List.mem_of_find?_eq_some hfound, by simpa using List.find?_some hfound⟩
  rcases insertOrIgnoreGc_effect hinsert with ⟨_, rfl⟩ | ⟨hcollides, rfl⟩
  · exact ⟨⟨hmatches, hretired⟩, hqueued, Or.inl rfl⟩
  · exact ⟨⟨hmatches, hretired⟩, hqueued, Or.inr ⟨⟨_, rfl, rfl, rfl⟩,
      .discarded (Encodings.physical prepared) _ (matches_effect hmatches).1 rfl hunbound hretired hcollides⟩⟩

theorem queueOrphan_effect {db after : Catalog} {storage key : String}
    (h : Maintenance.queueOrphan storage db key = .ok after) :
    after = db ∨ ((∃ g, after.gc = db.gc ++ [g] ∧ g.reason = .orphan) ∧ RowChange db after) := by
  simp only [Maintenance.queueOrphan, bind_eq_ok, require_eq_ok] at h
  obtain ⟨_, hunknown, hinsert⟩ := h
  rcases insertOrIgnoreGc_effect hinsert with ⟨_, rfl⟩ | ⟨hcollides, rfl⟩
  · exact Or.inl rfl
  · exact Or.inr ⟨⟨_, rfl, rfl⟩, .orphaned _ rfl rfl rfl rfl hunknown hcollides⟩

theorem RowChanges.of_or {db after : Catalog} (h : after = db ∨ RowChange db after) :
    RowChanges db after := by
  rcases h with rfl | h
  · exact .refl
  · exact .single h

theorem queueOrphans_effects {db after : Catalog} {storage : String} {keys : List String}
    (h : Maintenance.queueOrphans storage keys db = .ok after) : RowChanges db after := by
  simp only [Maintenance.queueOrphans, bind_eq_ok] at h
  obtain ⟨_, _, _, _, _, _, hloop⟩ := h
  exact foldlM_relates RowChanges _ keys db after hloop (fun _ => .refl) (fun _ _ _ => .trans)
    fun _ _ _ _ hstep => .of_or ((queueOrphan_effect hstep).imp_right And.right)

theorem recordCleanup_effect {db after : Catalog} {job : GcRow} {error : Option String}
    (h : Maintenance.recordCleanup job error db = .ok after) :
    after = db ∨ ∃ old ∈ db.gc, old.sameKey job = true ∧ old.state = .pending ∧
      after = { db with
        gc := rewrite (fun g => g.sameKey old)
          (fun _ => { old with state := Maintenance.jobState error, lastError := error }) db.gc } ∧
      Recorded db after := by
  rcases onRow_effect h with ⟨old, _, hold, hselect, hupdate⟩ | ⟨_, rfl⟩
  · simp only [Bool.and_eq_true, decide_eq_true_eq] at hselect
    obtain ⟨_, _, _, _, _, _, rfl⟩ := updateGc_effect hupdate
    exact Or.inr ⟨old, hold, hselect.1, hselect.2, rfl, .intro old _ hold hselect.2 rfl⟩
  · exact Or.inl rfl

-- A migration is set up once; after that its name gives back the job.
theorem initializeJob_effect {db after : Catalog} {plan : MetadataMigration} {job : MigrationRow}
    (h : Migrations.initializeJob plan db = .ok (job, after)) :
    ∃ mid, Installs db plan.source mid ∧ mid.Installed plan.source ∧
      after.migrations.find? (fun j => j.name = plan.name) = some job ∧
      ((after = mid ∧ job.schemaName = plan.source.name ∧ job.sourceVersion = plan.source.version ∧
          job.targetVersion = plan.target.version ∧ mid.Installed plan.target) ∨
        (after = Migrations.started plan mid ∧
          (∀ b ∈ mid.blobs, b.schemaName = plan.source.name → b.state = .ready) ∧
          MigrationChange mid after)) := by
  simp only [Migrations.initializeJob, bind_eq_ok] at h
  obtain ⟨first, hcatalog, mid, hpayload, _, hschema, h⟩ := h
  have hinstalled := (schema_effect hschema).1
  refine ⟨mid, installs_effect hcatalog hpayload, hinstalled, ?_⟩
  split at h
  · rename_i found hfound
    simp only [bind_eq_ok, require_eq_ok, pure_eq_ok, Prod.mk.injEq] at h
    obtain ⟨_, ⟨hname, hsource, htarget, _⟩, _, hschemaTarget, rfl, rfl⟩ := h
    exact ⟨hfound, Or.inl ⟨rfl, hname, hsource, htarget, (schema_effect hschemaTarget).1⟩⟩
  · rename_i hnone
    simp only [bind_eq_ok, require_eq_ok, pure_eq_ok, Prod.mk.injEq, Migrations.writable] at h
    obtain ⟨_, hlatest, _, hidle, _, hready, union, hlayout, withTarget, hinsert, _, _, _, _, final,
      hmigration, _, hstatus, rfl, rfl⟩ := h
    obtain ⟨hfresh, rfl⟩ := insertSchema_effect hinsert
    obtain ⟨_, rfl⟩ := insertMigration_effect hmigration
    have hallReady : ∀ b ∈ mid.blobs, b.schemaName = plan.source.name → b.state = .ready := by
      intro b hb hname
      by_contra hne
      exact hready ⟨b, hb, hname, hne⟩
    refine ⟨by simpa [Migrations.status] using hstatus, Or.inr ⟨rfl, hallReady, ?_⟩⟩
    refine .initialized plan hinstalled hlatest (fun j hj => ?_) hidle hallReady hfresh ⟨union, hlayout⟩
    simpa using List.find?_eq_none.mp hnone j hj

theorem filter_step_append (steps : List StepRow) (step : StepRow)
    (hfresh : ∀ s ∈ steps, s.blobId ≠ step.blobId) :
    ((steps ++ [step]).filter fun s => s.blobId ≠ step.blobId) = steps := by
  rw [List.filter_append]
  simpa using hfresh

-- One row of a batch: the metadata row takes the transformed fields and the target
-- version, the blob the target version, and no step remains.
theorem migrateRow_effect {db after : Catalog} {plan : MetadataMigration} {row : MetaRow}
    (h : Migrations.migrateRow plan db row = .ok after) :
    ∃ values b old new, Migrations.transformed plan row = .ok values ∧
      old ∈ db.metadata ∧ old.table = plan.source.name ∧ old.id = row.id ∧
      old.schemaVersion = plan.source.version ∧ old.version = row.version ∧
      b ∈ db.blobs ∧ row.id = .text b.id ∧
      new.fields = restrictTo (db.columns plan.source.name) (Store.cellsOf values) ∧
      (new.table = old.table ∧ new.id = old.id ∧ new.schemaVersion = plan.target.version ∧
        new.version = old.version + 1) ∧
      (∃ j ∈ db.migrations, j.name = plan.name ∧ j.state = .running ∧ j.schemaName = old.table ∧
        j.sourceVersion = old.schemaVersion ∧ j.targetVersion = plan.target.version) ∧
      after = { db with
        metadata := rewrite (fun m => m.sameKey old) (fun _ => new) db.metadata,
        blobs := rewrite (fun other => other.id = b.id)
          (fun _ => { b with schemaVersion := plan.target.version }) db.blobs } ∧
      MigrationChange db after := by
  simp only [Migrations.migrateRow, bind_eq_ok, fromOption_eq_ok, pure_eq_ok] at h
  obtain ⟨values, hvalues, id, hid, _, hstep, old, hold, _, hmeta, _, hblob, rfl⟩ := h
  have hrowId := (TextCell.text?_eq_some _ _).mp hid
  obtain ⟨hfresh, ⟨known, hknown, hknownId⟩, rfl⟩ := insertStep_effect hstep
  have hmem := List.mem_of_find?_eq_some hold
  have hselect := List.find?_some hold
  simp only [Bool.and_eq_true, decide_eq_true_eq, and_assoc] at hselect
  obtain ⟨htable, hsameId, hversion, hconcurrency⟩ := hselect
  obtain ⟨new, _, _, hntable, hnid, hbump, hnversion, hfields, hadmits, hkind, _, rfl⟩ :=
    updateMeta_effect hmeta
  have htarget : new.schemaVersion = plan.target.version := by simpa using hnversion.symm
  rcases onRow_effect hblob with ⟨b, _, hb, hbid, hupdate⟩ | ⟨hnone, _⟩
  swap
  · exact absurd (decide_eq_true hknownId) (List.find?_eq_none.mp hnone known hknown)
  have hbid := of_decide_eq_true hbid
  obtain ⟨moved, hcells, _, _, _, _, _, _, hschema, hparent, rfl⟩ := updateBlob_effect hupdate
  have hmoved : moved = { b with schemaVersion := plan.target.version } := by
    refine (BlobRow.cells_injective _ _ ?_).symm
    simpa [BlobRow.cells] using hcells
  subst hmoved
  have hsteps := filter_step_append db.steps
    { blobId := id, migrationName := plan.name, expectedVersion := row.version } hfresh
  have hjob : db.evolved old.table = true ∧ ∃ j ∈ db.migrations, j.name = plan.name ∧
      j.state = .running ∧ j.schemaName = old.table ∧ j.sourceVersion = old.schemaVersion ∧
      j.targetVersion = plan.target.version := by
    rcases hkind with ⟨hsame, _⟩ | ⟨hevolved, _, s, hs, j, hj, hname, hsid, _, hrun, hjtable, hjsource,
      hjtarget⟩
    · have := plan.nextVersion
      omega
    · refine ⟨hevolved, j, hj, ?_, hrun, hjtable, hjsource, hjtarget.trans htarget⟩
      rcases List.mem_append.mp hs with hs | hs
      · have : s.blobId = id := by
          simpa [hsameId, hrowId] using hsid
        exact absurd this (hfresh s hs)
      · rw [hname, List.mem_singleton.mp hs]
  refine ⟨values, b, old, new, hvalues, hmem, htable, hsameId, hversion, hconcurrency, hb,
    hrowId.trans (by rw [hbid]), ?_, ⟨hntable, hnid, htarget, hbump⟩, hjob.2, ?_, ?_⟩
  · rw [hfields, htable]
    rfl
  · simp only [deleteStep, hsteps]
  · simp only [deleteStep, hsteps]
    refine .moved plan b old new hmem hb (hsameId.trans (hrowId.trans (by rw [hbid]))) htable hversion
      ⟨hntable, hnid, htarget, hbump⟩ hadmits hjob.1 hjob.2 ?_ hschema (narrow_of_restrictTo hntable hfields)
    rcases hparent with hsame | hevolved | hchildless
    · exact Or.inl hsame
    · exact Or.inr (Or.inl hevolved)
    · refine Or.inr (Or.inr fun m hm hother => hchildless m ?_)
      exact (mem_rewrite _ _ _ _).mpr (Or.inl ⟨hm, by simpa using hother⟩)

theorem batch_effects {db after : Catalog} {plan : MetadataMigration} {batchSize : Nat}
    {job : MigrationRow} (h : Migrations.batch plan batchSize db = .ok (job, after)) :
    MigrationChanges db after := by
  simp only [Migrations.batch, bind_eq_ok] at h
  obtain ⟨start, hstatus, h⟩ := h
  split at h
  · simp only [pure_eq_ok, Prod.mk.injEq] at h
    obtain ⟨_, rfl⟩ := h
    exact .refl
  rename_i hrunning
  simp only [bind_eq_ok, require_eq_ok, pure_eq_ok, Prod.mk.injEq] at h
  obtain ⟨_, _, mid, hloop, _, _, _, _, _, rfl⟩ := h
  have hkept : MigrationChanges db mid ∧ mid.migrations = db.migrations := by
    refine foldlM_relates (fun a b : Catalog => MigrationChanges a b ∧ b.migrations = a.migrations) _ _ db mid
      hloop (fun _ => ⟨.refl, rfl⟩)
      (fun _ _ _ hab hbc => ⟨hab.1.trans hbc.1, hbc.2.trans hab.2⟩) ?_
    intro row _ before next hstep
    obtain ⟨_, _, _, _, _, _, _, _, _, _, _, _, _, _, _, rfl, heffect⟩ := migrateRow_effect hstep
    exact ⟨.single heffect, rfl⟩
  refine hkept.1.trans (.single (.progressed plan.name _ _ _ ?_))
  simp only [Migrations.status, fromOption_eq_ok] at hstatus
  refine ⟨start, hkept.2 ▸ List.mem_of_find?_eq_some hstatus, by simpa using List.find?_some hstatus, ?_⟩
  cases hs : start.state with
  | running => rfl
  | complete => exact absurd hs hrunning

end MeldStore
