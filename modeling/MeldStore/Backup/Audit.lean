import MeldStore.Installation.Idempotence

namespace MeldStore

open Library Library.Checked Library.Keyed Rebuild Rebuild.SqlObject

namespace Backup

-- A foreign key that the text of a table declares.
structure ForeignKey where
  table : String
  columns : List String
  parent : String
  parentKey : List String
deriving DecidableEq, Repr

-- What SQLite finds in the tables of applications: what integrity_check says of them, the
-- foreign keys in their texts, whether the columns that a key names are the primary key or
-- a unique index of its parent, and whether a row is without its parent.
structure Pragmas where
  integrity : SqlCatalog → Except Error Bool
  foreignKeys : SqlObject → List ForeignKey
  keyed : List SqlObject → ForeignKey → Bool
  orphaned : SqlCatalog → ForeignKey → Bool

namespace Pragmas

def keys (sqlite : Pragmas) (objects : List SqlObject) : List ForeignKey :=
  (objects.filter fun o => o.type = .table && !reserved o.name).flatMap sqlite.foreignKeys

-- A parent that is not there at all is no mismatch.
def Mismatched (sqlite : Pragmas) (objects : List SqlObject) (key : ForeignKey) : Prop :=
  (∃ o ∈ objects, (o.type = .table ∨ o.type = .view) ∧ sameName o.name key.parent) ∧
    sqlite.keyed objects key = false

instance (sqlite : Pragmas) (objects : List SqlObject) (key : ForeignKey) :
    Decidable (sqlite.Mismatched objects key) := by
  unfold Mismatched
  infer_instance

structure Accepts (sqlite : Pragmas) (s : SqlCatalog) : Prop where
  intact : sqlite.integrity s = .ok true
  matched : ∀ key ∈ sqlite.keys s.database.objects, ¬sqlite.Mismatched s.database.objects key
  bound : ∀ key ∈ sqlite.keys s.database.objects, sqlite.orphaned s key = false

end Pragmas

-- The tables of MeldStore are the rows of the catalog.

def integrityCheck (sqlite : Pragmas) (s : SqlCatalog) : Except Error Unit := do
  let intact ← sqlite.integrity s
  require (s.rows.Checked ∧ intact = true) (.IntegrityError "SQLite integrity check failed")

def foreignKeyCheck (sqlite : Pragmas) (s : SqlCatalog) : Except Error Unit := do
  require (∀ key ∈ sqlite.keys s.database.objects, ¬sqlite.Mismatched s.database.objects key)
    (.PythonError "OperationalError")
  require (s.rows.References ∧ ∀ key ∈ sqlite.keys s.database.objects, sqlite.orphaned s key = false)
    (.IntegrityError "Catalog has invalid SQL references")

def verifyEncodings (s : SqlCatalog) : Except Error Unit :=
  if s.objects "ms_encoding_format" ≠ none then SqlCatalog.Encodings.verify s
  else require (∀ entry ∈ Encodings.DDL, s.objects entry.1 = none)
    (.IntegrityError "Partial encoding extension")

-- The objects that every catalog has, and the versions of its format.
def verifyFixed (s : SqlCatalog) : Except Error Unit := do
  verifyObjects s.objects Installation.CORE
  verifyObjects s.objects PayloadCatalog.DDL
  SqlCatalog.Lifecycle.verify s
  verifyEncodings s
  require (s.select "ms_format" ["singleton", "version"] = [[.int 1, .int 1]] ∧
      s.select "ms_payload_format" ["version"] = [[.int 1]])
    (.IntegrityError "Unsupported catalog format")

-- What is under way, whose it is, and what the tokens are bound to.
def auditRows (s : SqlCatalog) (storageId : String) : Except Error Unit := do
  require (¬unfinished s.rows)
    (.ConflictError "Resolve prepared/publication operations and finish cleanup before backup")
  require (s.objects "ms_migrations" ≠ none → ∀ j ∈ s.rows.migrations, j.state = .complete)
    (.ConflictError "Finish metadata migrations before backup")
  require ((∀ p ∈ s.rows.prepared, p.storageId = .text storageId) ∧
      ∀ g ∈ s.rows.gc, g.storageId = .text storageId)
    (.ValidationError "S06 backup supports exactly one logical storage root")
  require (∀ o ∈ s.rows.objects, ∀ g ∈ s.rows.gc, g.token ≠ some o.token)
    (.IntegrityError "Live object is also queued for cleanup")
  require (∀ b ∈ s.rows.blobs, ∀ o ∈ s.rows.objects, o.blobId = b.id → ∀ p ∈ s.rows.prepared,
      p.token = o.token → p.schemaName = b.schemaName ∧ p.schemaVersion ≤ b.schemaVersion)
    (.IntegrityError "Prepared object belongs to a different schema")

def auditSchema (s : SqlCatalog) (row : SchemaRow) : Except Error Unit := do
  let schema ← Migrations.decode row.definition.definition
  require (schema.name = row.name ∧ schema.version = row.version ∧
      tableName schema = tableName row.definition ∧ schema.definition = row.definition.definition)
    (.IntegrityError "Invalid schema registry definition")
  require ((schema.name, schema.version) ∈ s.rows.payloadSchemas ∧ schema.name ∈ s.rows.lifecycleSchemas)
    (.IntegrityError "Schema is not fully enrolled for payload/lifecycle operations")
  (if s.evolved schema.name then SqlCatalog.Migrations.verify schema.name s
    else do
      let expected ← Installation.schemaObjects schema
      verifyObjects s.objects expected)
  let entry ← PayloadCatalog.guard schema (s.evolved schema.name)
  verifyObjects s.objects [entry]
  require (∀ b ∈ s.rows.blobs, b.schemaName = schema.name → consistent s.rows b)
    (.IntegrityError "Blob metadata is missing or inconsistent")

-- ORDER BY b.id
def rows (db : Catalog) : List (BlobRow × Option PreparedRow) :=
  (db.blobs.insertionSort fun a b => a.id ≤ b.id).map fun b => (b, Store.association db b.id)

-- _entries
def entries (sqlite : Pragmas) (s : SqlCatalog) (storageId : String) (maxEntries : ℕ) :
    Except Error (List Entry) := do
  integrityCheck sqlite s
  foreignKeyCheck sqlite s
  verifyFixed s
  auditRows s storageId
  require (s.rows.schemas.length ≤ maxEntries) (.ValidationError "Schema count exceeds max_entries")
  s.rows.schemas.forM (auditSchema s)
  let found := (rows s.rows).take (maxEntries + 1)
  require (found.length ≤ maxEntries) (.ValidationError "Object count exceeds max_entries")
  found.mapM (entry storageId)

-- What makes a catalog fit for a backup.
structure Stable (db : Catalog) (storageId : String) (maxEntries : ℕ) : Prop where
  published : ∀ b ∈ db.blobs, b.state ≠ .publishing
  resolved : ∀ p ∈ db.prepared, (∃ o ∈ db.objects, o.token = p.token) ∨
    ∃ g ∈ db.gc, g.token = some p.token ∧ g.state = .done
  cleaned : ∀ g ∈ db.gc, g.state ≠ .pending
  migrated : ∀ j ∈ db.migrations, j.state ≠ .running
  owned : (∀ p ∈ db.prepared, p.storageId = .text storageId) ∧ ∀ g ∈ db.gc, g.storageId = .text storageId
  schemas : db.schemas.length ≤ maxEntries
  blobs : db.blobs.length ≤ maxEntries

-- A schema has been installed, and SQLite has nothing against the tables of applications.
structure Auditable (sqlite : Pragmas) (s : SqlCatalog) (storageId : String) (maxEntries : ℕ) : Prop where
  opened : s.objects "ms_format" ≠ none
  accepted : sqlite.Accepts s
  stable : Stable s.rows storageId maxEntries

-- One entry a blob, with its journal row.
structure Lists (db : Catalog) (found : List Entry) : Prop where
  ids : (found.map Entry.id).Perm (db.blobs.map BlobRow.id)
  journaled : ∀ e ∈ found, ∃ b ∈ db.blobs, ∃ o ∈ db.objects, ∃ p ∈ db.prepared,
    o.blobId = b.id ∧ p.token = o.token ∧ e = listed b p

section

variable {db : Catalog} {storageId : String} {maxEntries : ℕ} {found : List Entry}

-- A sound catalog under its foreign keys

theorem Sound.references (hs : Sound db) : db.References := by
  have hw := hs.settled.wf
  refine ⟨hs.registered.declared, hw.blobDeclared, hs.registered.prepared,
    fun o ho => ⟨hw.objectHasBlob o ho, hw.objectHasPrepared o ho⟩, hs.settled.keys.2,
    fun r hr => ⟨hw.retiredHasPrepared r hr, hs.registered.retired r hr⟩, hs.registered.gc, fun m hm => ?_,
    hs.registered.jobs, by simp [hw.noSteps]⟩
  rcases hw.metaHasParent m hm with hevolved | hparent
  · exact hs.settled.keys.1 m hm hevolved
  · exact hparent

theorem Sound.consistent (hs : Sound db) {b : BlobRow} (hb : b ∈ db.blobs) : consistent db b := by
  obtain ⟨o, p, m, hc⟩ := hs.settled.complete hb
  refine ⟨⟨m, ?_, hc.metaId⟩, fun n hn hid => ?_⟩
  · exact List.mem_filter.mpr ⟨hc.metadata, decide_eq_true hc.metaTable⟩
  · obtain ⟨hn, htable⟩ := List.mem_filter.mp hn
    rw [hs.settled.wf.meta_eq hn hc.metadata ((of_decide_eq_true htable).trans hc.metaTable.symm)
      (hid.trans hc.metaId.symm)]
    exact hc.sameVersion

theorem Sound.unqueued (hs : Sound db) : ∀ o ∈ db.objects, ∀ g ∈ db.gc, g.token ≠ some o.token :=
  fun o ho g hg => hs.settled.wf.revoked g hg o ho

-- The journal row of a blob is of its schema, and of no later version.
theorem Sound.journaled (hs : Sound db) : ∀ b ∈ db.blobs, ∀ o ∈ db.objects, o.blobId = b.id → ∀ p ∈ db.prepared,
    p.token = o.token → p.schemaName = b.schemaName ∧ p.schemaVersion ≤ b.schemaVersion := by
  intro b hb o ho hid p hp htoken
  obtain ⟨o', p', m, hc⟩ := hs.settled.complete hb
  obtain rfl := hs.settled.wf.object_eq ho hc.object (hid.trans hc.objectBlob.symm)
  obtain rfl := hs.settled.wf.prepared_eq hp hc.prepared (htoken.trans hc.preparedToken.symm)
  exact ⟨hc.sameSchema, hc.notAbove⟩

-- What a backup waits for

theorem Sound.finished (hs : Sound db) (h : Stable db storageId maxEntries) : ¬unfinished db := by
  rintro (⟨b, hb, hstate⟩ | ⟨g, hg, hstate⟩ | ⟨p, hp, hunbound, hundone⟩)
  · exact hstate ((hs.settled.ledger.live b hb).resolve_left (h.published b hb))
  · cases hdone : g.state with
    | pending => exact h.cleaned g hg hdone
    | done => exact hstate hdone
  · rcases h.resolved p hp with ⟨o, ho, htoken⟩ | ⟨g, hg, hdone⟩
    · exact hunbound o ho htoken
    · exact hundone g hg hdone

theorem Stable.complete (h : Stable db storageId maxEntries) : ∀ j ∈ db.migrations, j.state = .complete := by
  intro j hj
  cases hstate : j.state with
  | running => exact absurd hstate (h.migrated j hj)
  | complete => rfl

theorem stable_of_finished (hfinished : ¬unfinished db) (hcomplete : ∀ j ∈ db.migrations, j.state = .complete)
    (howned : (∀ p ∈ db.prepared, p.storageId = .text storageId) ∧ ∀ g ∈ db.gc, g.storageId = .text storageId)
    (hschemas : db.schemas.length ≤ maxEntries) (hblobs : db.blobs.length ≤ maxEntries) :
    Stable db storageId maxEntries := by
  simp only [unfinished, not_or, not_exists, not_and, ne_eq, not_not, not_forall] at hfinished
  obtain ⟨hready, hdone, hresolved⟩ := hfinished
  refine ⟨fun b hb hstate => ?_, fun p hp => ?_, fun g hg hstate => ?_, fun j hj hstate => ?_, howned,
    hschemas, hblobs⟩
  · rw [hready b hb] at hstate
    cases hstate
  · by_contra hunresolved
    push Not at hunresolved
    obtain ⟨g, hg, htoken, hstate⟩ := hresolved p hp hunresolved.1
    exact hunresolved.2 g hg htoken hstate
  · rw [hdone g hg] at hstate
    cases hstate
  · rw [hcomplete j hj] at hstate
    cases hstate

-- The list of entries

theorem rows_length (db : Catalog) : (rows db).length = db.blobs.length := by
  rw [rows, List.length_map, List.length_insertionSort]

theorem entry_id {row : BlobRow × Option PreparedRow} {e : Entry} (h : entry storageId row = .ok e) :
    e.id = row.1.id := by
  unfold entry at h
  split at h
  · simp only [bind_eq_ok, pure_eq_ok] at h
    obtain ⟨_, _, rfl⟩ := h
    rfl
  · cases h

-- Each blob gives one entry, when its journal row is of this storage.
theorem Sound.entry (hs : Sound db) (howned : ∀ p ∈ db.prepared, p.storageId = .text storageId)
    {b : BlobRow} (hb : b ∈ db.blobs) :
    ∃ o ∈ db.objects, ∃ p ∈ db.prepared, o.blobId = b.id ∧ p.token = o.token ∧
      entry storageId (b, Store.association db b.id) = .ok (listed b p) := by
  obtain ⟨o, p, m, hc⟩ := hs.settled.complete hb
  have hkey := (hs.drawn p hc.prepared).key
  refine ⟨o, hc.object, p, hc.prepared, hc.objectBlob, hc.preparedToken, ?_⟩
  simp [Backup.entry, hc.find_association hs.settled.wf, howned p hc.prepared, hkey, require, bind, Except.bind,
    pure, Except.pure]

theorem Sound.rows (hs : Sound db) (howned : ∀ p ∈ db.prepared, p.storageId = .text storageId) :
    ∃ found, (rows db).mapM (Backup.entry storageId) = .ok found ∧ Lists db found := by
  have hmem : ∀ row ∈ Backup.rows db, ∃ b ∈ db.blobs, row = (b, Store.association db b.id) := by
    intro row hrow
    obtain ⟨b, hb, rfl⟩ := List.mem_map.mp hrow
    exact ⟨b, (List.mem_insertionSort _).mp hb, rfl⟩
  have heach : ∀ row ∈ Backup.rows db, ∃ e, Backup.entry storageId row = .ok e := by
    intro row hrow
    obtain ⟨b, hb, rfl⟩ := hmem row hrow
    obtain ⟨_, _, p, _, _, _, hentry⟩ := hs.entry howned hb
    exact ⟨_, hentry⟩
  obtain ⟨found, hfound⟩ := exists_mapM heach
  refine ⟨found, hfound, ?_, fun e he => ?_⟩
  · rw [mapM_observed (fun row : BlobRow × Option PreparedRow => row.1.id) Entry.id hfound
      fun row _ e he => entry_id he, Backup.rows, List.map_map]
    exact (List.perm_insertionSort _ _).map _
  · obtain ⟨row, hrow, hentry⟩ := mapM_mem_result _ _ _ hfound e he
    obtain ⟨b, hb, rfl⟩ := hmem row hrow
    obtain ⟨o, ho, p, hp, hid, htoken, hok⟩ := hs.entry howned hb
    exact ⟨b, hb, o, ho, p, hp, hid, htoken, Except.ok.inj (hentry.symm.trans hok)⟩

end

section

variable {sqlite : Pragmas} {s : SqlCatalog} {storageId : String} {maxEntries : ℕ} {found : List Entry}
  {extended indexed : Bool}

-- The objects of a standing catalog are verified

theorem verifyFixed_standing (h : Standing extended indexed s) : verifyFixed s = .ok () := by
  have hpresent {ddl : Ddl} (hddl : ∀ entry ∈ ddl, entry ∈ fixedObjects) :
      Present (owned s.rows extended indexed) ddl :=
    owned_presents fun entry hentry => mem_fixedDdl (hddl entry hentry)
  have hencodings : verifyEncodings s = .ok () := by
    obtain ⟨hverified, hfound⟩ := h.holds.finds (hpresent fixedDdl_of_encodings)
    have hsome : s.objects "ms_encoding_format" ≠ none := by
      rw [hfound _ List.mem_cons_self]
      exact Option.some_ne_none _
    rw [verifyEncodings, if_pos hsome, SqlCatalog.Encodings.verify, hverified]
    simp only [bind_eq_ok, require_eq_ok]
    exact ⟨(), trivial, h.formats encodingFormat (by simp [formats])⟩
  simp only [verifyFixed, bind_eq_ok, require_eq_ok]
  exact ⟨(), (h.holds.finds (hpresent fixedDdl_of_core)).1, (),
    (h.holds.finds (hpresent fixedDdl_of_payload)).1,
    (), lifecycleVerify h.holds (hpresent fixedDdl_of_lifecycle) (h.formats lifecycleFormat (by simp [formats]))
      h.retiring,
    (), hencodings, h.formats coreFormat (by simp [formats]), h.formats payloadFormat (by simp [formats])⟩

theorem auditSchema_standing (h : Standing extended indexed s) {row : SchemaRow} (hrow : row ∈ s.rows.schemas) :
    auditSchema s row = .ok () := by
  obtain ⟨hname, hversion⟩ := h.wf.schemaRow row hrow
  have hmem : row.definition ∈ s.rows.declarations row.name := mem_declarations.mpr ⟨row, hrow, rfl, rfl⟩
  have hdeclared : s.rows.declared row.definition.name := ⟨row, hrow, hname.symm⟩
  have hpayload : (row.definition.name, row.definition.version) ∈ s.rows.payloadSchemas := by
    rw [hname, hversion]
    exact h.sound.registered.payload row hrow
  obtain ⟨expected, hexpected, hverified⟩ := h.exists_schemaObjects hmem
  obtain ⟨ready, hready, hstands⟩ := h.verifies_ready hdeclared
  simp only [auditSchema, bind_eq_ok, require_eq_ok, h.evolved_eq]
  refine ⟨_, Migrations.decode_definition row.definition, (), ⟨hname, hversion, rfl, rfl⟩, (),
    ⟨hpayload, hname ▸ h.sound.enrolled row hrow⟩, (), ?_, ready, hready, (), hstands,
    fun b hb _ => h.sound.consistent hb⟩
  cases hevolved : s.rows.evolved row.definition.name with
  | true => exact h.migrationsVerify hevolved hdeclared
  | false =>
      rw [if_neg Bool.false_ne_true, bind_eq_ok]
      exact ⟨expected, hexpected, hverified (hname ▸ hevolved)⟩

-- A migration is found only where its tables are.
theorem migrations_present (h : Standing extended indexed s) (hjobs : s.rows.migrations ≠ []) :
    s.objects "ms_migrations" ≠ none := by
  obtain ⟨j, hj⟩ := List.exists_mem_of_ne_nil _ hjobs
  have hextended : extended = true :=
    h.layouts fun hnone => List.not_mem_nil (hnone ▸ h.sound.registered.rebuilt j hj)
  obtain ⟨entry, hentry, hname⟩ : ∃ entry ∈ Migrations.DDL, entry.1 = "ms_migrations" := by decide
  have hfixed : entry ∈ fixedDdl extended indexed := by
    rw [hextended]
    exact List.mem_append_left _ (List.mem_append_right _ hentry)
  rw [← hname, h.found hfixed]
  exact Option.some_ne_none _

theorem entries_of_auditable (h : Standing extended indexed s) (ha : Auditable sqlite s storageId maxEntries) :
    ∃ found, entries sqlite s storageId maxEntries = .ok found ∧ Lists s.rows found := by
  have hs := h.sound
  obtain ⟨_, haccepted, hstable⟩ := ha
  obtain ⟨found, hfound, hlists⟩ := hs.rows hstable.owned.1
  have hcount : (rows s.rows).length ≤ maxEntries := rows_length s.rows ▸ hstable.blobs
  have htake : (rows s.rows).take (maxEntries + 1) = rows s.rows := List.take_of_length_le (by omega)
  have hintact : integrityCheck sqlite s = .ok () := by
    simp only [integrityCheck, bind_eq_ok, require_eq_ok]
    exact ⟨true, haccepted.intact, fun m hm => (hs.registered.conforming.rows m hm).1, rfl⟩
  have hreferences : foreignKeyCheck sqlite s = .ok () := by
    simp only [foreignKeyCheck, bind_eq_ok, require_eq_ok]
    exact ⟨(), haccepted.matched, hs.references, haccepted.bound⟩
  have hrows : auditRows s storageId = .ok () := by
    simp only [auditRows, bind_eq_ok, require_eq_ok]
    exact ⟨(), hs.finished hstable, (), fun _ => hstable.complete, (), hstable.owned,
      (), hs.unqueued, hs.journaled⟩
  have hschemas : s.rows.schemas.forM (auditSchema s) = .ok () :=
    forM_eq_ok fun row hrow => auditSchema_standing h hrow
  refine ⟨found, ?_, hlists⟩
  simp only [entries, bind_eq_ok, require_eq_ok]
  refine ⟨(), hintact, (), hreferences, (), verifyFixed_standing h, (), hrows, (), hstable.schemas,
    (), hschemas, (), ?_, ?_⟩
  · rw [htake]
    exact hcount
  · rw [htake]
    exact hfound

-- What an audit that returns has seen.
theorem entries_eq_ok (h : entries sqlite s storageId maxEntries = .ok found) :
    s.objects "ms_format" ≠ none ∧ sqlite.Accepts s ∧ auditRows s storageId = .ok () ∧
      s.rows.schemas.length ≤ maxEntries ∧ s.rows.blobs.length ≤ maxEntries ∧
      (rows s.rows).mapM (entry storageId) = .ok found := by
  simp only [entries, bind_eq_ok, require_eq_ok] at h
  obtain ⟨_, hintact, _, hreferences, _, hfixed, _, hrows, _, hschemas, _, _, _, hcount, hfound⟩ := h
  simp only [integrityCheck, bind_eq_ok, require_eq_ok] at hintact
  simp only [foreignKeyCheck, bind_eq_ok, require_eq_ok] at hreferences
  simp only [verifyFixed, bind_eq_ok] at hfixed
  obtain ⟨_, hverdict, _, rfl⟩ := hintact
  obtain ⟨_, hmatched, _, hbound⟩ := hreferences
  obtain ⟨_, hcore, _⟩ := hfixed
  have hblobs : s.rows.blobs.length ≤ maxEntries := by
    rw [List.length_take, rows_length] at hcount
    omega
  refine ⟨?_, ⟨hverdict, hmatched, hbound⟩, hrows, hschemas, hblobs, ?_⟩
  · rw [verifyObjects_eq_ok.mp hcore _ List.mem_cons_self]
    exact Option.some_ne_none _
  · rwa [List.take_of_length_le (by rw [rows_length]; omega)] at hfound

theorem auditable_of_entries (hs : Settled s) (h : entries sqlite s storageId maxEntries = .ok found) :
    Auditable sqlite s storageId maxEntries := by
  obtain ⟨hopened, haccepted, hrows, hschemas, hblobs, _⟩ := entries_eq_ok h
  obtain ⟨extended, indexed, hstanding⟩ := hs.resolve_left fun hopen => hopened hopen.format
  simp only [auditRows, bind_eq_ok, require_eq_ok] at hrows
  obtain ⟨_, hfinished, _, hmigrated, _, howned, _⟩ := hrows
  refine ⟨hopened, haccepted, stable_of_finished hfinished (fun j hj => ?_) howned hschemas hblobs⟩
  exact hmigrated (migrations_present hstanding (List.ne_nil_of_mem hj)) j hj

end

-- The backup audit refuses exactly the catalogs that are unstable or that SQLite refuses.
theorem audit_refuses_unstable (sqlite : Pragmas) (s : SqlCatalog) (h : s.Reached) (storageId : String)
    (maxEntries : ℕ) :
    (Auditable sqlite s storageId maxEntries →
      ∃ found, entries sqlite s storageId maxEntries = .ok found ∧ Lists s.rows found) ∧
    (¬Auditable sqlite s storageId maxEntries → ∃ raised, entries sqlite s storageId maxEntries =
      .error raised) := by
  refine ⟨fun ha => ?_, fun hrefused => ?_⟩
  · obtain ⟨extended, indexed, hstanding⟩ := h.settled.resolve_left fun hopen => ha.opened hopen.format
    exact entries_of_auditable hstanding ha
  · cases hentries : entries sqlite s storageId maxEntries with
    | error raised => exact ⟨raised, rfl⟩
    | ok found => exact absurd (auditable_of_entries h.settled hentries) hrefused

-- A published blob beside a table of an application that refers to it. Its storage, token and key
-- are as _prepare_snapshot and LocalStorage draw them.

def drawnName : String := "0123456789abcdef0123456789abcdef"

def marks : SqlObject :=
  ⟨.table, "marks", "marks", "CREATE TABLE marks (blob_id TEXT NOT NULL REFERENCES ms_blobs(id), mark TEXT)"⟩

def marked : Rebuild.Row := fun name =>
  if name = "blob_id" then .text "b1" else if name = "mark" then .text "read" else .null

def markKey : ForeignKey := ⟨"marks", ["blob_id"], "ms_blobs", ["id"]⟩

def shelf : SqlCatalog :=
  { database := { objects := [marks], rows := fun _ => [], temp := [], distinct := by decide,
                  attached := by decide }
    rows := Catalog.empty
    writes := 0 }

def scan : PreparedFile := Store.prepareSnapshot drawnName drawnName drawnName note 3 drawnName none

def scanned : Catalog := orElse (Store.journal (enrolledRows Catalog.empty note) note scan) Catalog.empty

def filed : Catalog :=
  orElse (transact [.finalize drawnName scan note [("title", .str "a")] "b1",
    .publish drawnName "b1"] scanned) scanned

theorem opened_note {s : SqlCatalog} (hopen : Unopened s)
    (hplain : ∀ o ∈ s.database.objects, reserved o.name = false) :
    (∃ extended indexed, Standing extended indexed (opened note s)) ∧
      (opened note s).rows = enrolledRows Catalog.empty note ∧
      ∀ o ∈ s.database.objects, o ∈ (opened note s).database.objects := by
  have haddable : Addable s note := by
    refine ⟨?_, rfl, exists_schemaObjects_of_few (by decide), fun _ => hplain⟩
    rintro ⟨row, hrow, _⟩
    rw [hopen.rows] at hrow
    exact absurd hrow List.not_mem_nil
  obtain ⟨hstanding, hrows, hobjects⟩ := opened_added (.inl hopen) haddable
  exact ⟨hstanding, hopen.rows ▸ hrows, fun o ho => (hobjects o).mpr (.inl ho)⟩

theorem opened_note_format {s : SqlCatalog} (hopen : Unopened s)
    (hplain : ∀ o ∈ s.database.objects, reserved o.name = false) :
    (opened note s).objects "ms_format" ≠ none := by
  obtain ⟨⟨extended, indexed, hstanding⟩, _⟩ := opened_note hopen hplain
  rw [hstanding.found (mem_fixedDdl (fixedDdl_of_core _ List.mem_cons_self))]
  exact Option.some_ne_none _

theorem shelf_unopened : Unopened shelf := ⟨rfl, by decide⟩

theorem shelf_plain : ∀ o ∈ shelf.database.objects, reserved o.name = false := by decide

-- A catalog with other rows of its own, and of the table.
def holding (s : SqlCatalog) (rows : Catalog) (marks : List Rebuild.Row) : SqlCatalog :=
  { s with
    database := { s.database with rows := Function.update s.database.rows "marks" marks }
    rows := rows }

theorem untouched_of_marks {before after : Rebuild.Database} (hobjects : after.objects = before.objects)
    (hrows : ∀ table, table ≠ "marks" → after.rows table = before.rows table) : Untouched before after := by
  refine ⟨fun o _ => hobjects ▸ Iff.rfl, fun format hformat => hrows format.table ?_⟩
  simp only [formats, List.mem_cons, List.not_mem_nil, or_false] at hformat
  rcases hformat with rfl | rfl | rfl | rfl <;> decide

theorem holding_untouched (s : SqlCatalog) (rows : Catalog) (marks : List Rebuild.Row) :
    Untouched s.database (holding s rows marks).database :=
  untouched_of_marks rfl fun _ hne => Function.update_of_ne hne _ _

theorem holding_objects (s : SqlCatalog) (rows : Catalog) (marks : List Rebuild.Row) :
    (holding s rows marks).objects = s.objects := rfl

theorem holding_marks (s : SqlCatalog) (rows : Catalog) (marks : List Rebuild.Row) :
    (holding s rows marks).database.rows "marks" = marks := by
  show Function.update s.database.rows "marks" marks "marks" = marks
  exact Function.update_self ..

theorem holding_rows (s : SqlCatalog) (rows : Catalog) (marks : List Rebuild.Row) :
    (holding s rows marks).rows = rows := rfl

def scannedShelf : SqlCatalog := holding (opened note shelf) scanned []

def filedShelf : SqlCatalog := holding scannedShelf filed []

def markedShelf : SqlCatalog := holding filedShelf filed [marked]

theorem markedShelf_reached : markedShelf.Reached := by
  have hinstalled := opened_note_format shelf_unopened shelf_plain
  have hrows := (opened_note shelf_unopened shelf_plain).2.1
  have hscanned : Works (opened note shelf).rows scanned := by
    rw [hrows]
    exact .journaling note drawnName drawnName drawnName 3 drawnName none _ (by decide) (by decide) (by decide)
      (orElse_of_isOk (by decide) _) (by decide)
  have hfiled : Works scanned filed :=
    .writes [.finalize drawnName scan note [("title", .str "a")] "b1", .publish drawnName "b1"] _ (by decide)
      (orElse_of_isOk (by decide) _)
  have hjournal : SqlCatalog.Step (opened note shelf) scannedShelf :=
    .works _ hinstalled hscanned (holding_untouched _ _ _)
  have hpublish : SqlCatalog.Step scannedShelf filedShelf := by
    refine .works _ ?_ hfiled (holding_untouched _ _ _)
    rw [scannedShelf, holding_objects]
    exact hinstalled
  have hmark : SqlCatalog.Step filedShelf markedShelf := by
    refine .application _ ?_ (holding_untouched _ _ _)
    rw [markedShelf, holding_rows, filedShelf, holding_rows]
  exact ⟨shelf, shelf_unopened, .tail (.tail (.tail (.single (.installs note)) hjournal) hpublish) hmark⟩

-- What SQLite reads when only one table declares a foreign key, and its rows name blobs.
def reading (table : SqlObject) (key : ForeignKey) (keyed : Bool) : Pragmas where
  integrity := fun _ => .ok true
  foreignKeys := fun o => if o.sql = table.sql then [key] else []
  keyed := fun _ _ => keyed
  orphaned := fun s key => (s.database.rows key.table).any fun row =>
    s.rows.blobs.all fun b => row "blob_id" ≠ .text b.id

theorem reading_keys {table : SqlObject} {key other : ForeignKey} {keyed : Bool} {objects : List SqlObject}
    (h : other ∈ (reading table key keyed).keys objects) : other = key := by
  obtain ⟨o, _, hmem⟩ := List.mem_flatMap.mp h
  have hread : other ∈ if o.sql = table.sql then [key] else [] := hmem
  split_ifs at hread
  · exact List.mem_singleton.mp hread
  · exact absurd hread List.not_mem_nil

theorem markedShelf_auditable : Auditable (reading marks markKey true) markedShelf drawnName 1 := by
  refine ⟨?_, ⟨rfl, fun key hkey => ?_, fun key hkey => ?_⟩, ?_⟩
  · rw [markedShelf, holding_objects, filedShelf, holding_objects, scannedShelf, holding_objects]
    exact opened_note_format shelf_unopened shelf_plain
  · rintro ⟨_, hkeyed⟩
    have hfalse : true = false := hkeyed
    cases hfalse
  · rw [reading_keys hkey]
    show ((markedShelf.database.rows "marks").any fun row => markedShelf.rows.blobs.all fun b =>
      row "blob_id" ≠ .text b.id) = false
    rw [markedShelf, holding_marks, holding_rows]
    decide
  · rw [markedShelf, holding_rows]
    exact { published := by decide, resolved := by decide, cleaned := by decide, migrated := by decide,
            owned := by decide, schemas := by decide, blobs := by decide }

-- The blob is listed, and a backup of another storage is refused.
theorem marked_blob_is_listed :
    (∃ found, entries (reading marks markKey true) markedShelf drawnName 1 = .ok found ∧
      Lists markedShelf.rows found) ∧
    ∃ raised, entries (reading marks markKey true) markedShelf "" 1 = .error raised := by
  refine ⟨(audit_refuses_unstable _ _ markedShelf_reached _ _).1 markedShelf_auditable,
    (audit_refuses_unstable _ _ markedShelf_reached _ _).2 fun ha => ?_⟩
  have howned := ha.stable.owned.1
  rw [markedShelf, holding_rows] at howned
  exact absurd howned (by decide)

-- A table that refers to a column without a unique index: the catalog is as good as before, but
-- foreign_key_check raises.

def labels : SqlObject := ⟨.table, "labels", "labels", "CREATE TABLE labels (name TEXT)"⟩

def tags : SqlObject := ⟨.table, "tags", "tags", "CREATE TABLE tags (label TEXT REFERENCES labels(name))"⟩

def tagKey : ForeignKey := ⟨"tags", ["label"], "labels", ["name"]⟩

def tagged : SqlCatalog :=
  { database := { objects := [labels, tags], rows := fun _ => [], temp := [], distinct := by decide,
                  attached := by decide }
    rows := Catalog.empty
    writes := 0 }

theorem unkeyed_parent_stops_the_audit :
    (opened note tagged).Reached ∧ (opened note tagged).objects "ms_format" ≠ none ∧
      Stable (opened note tagged).rows drawnName 1 ∧
      entries (reading tags tagKey false) (opened note tagged) drawnName 1 =
        .error (.PythonError "OperationalError") := by
  have hopen : Unopened tagged := ⟨rfl, by decide⟩
  have hplain : ∀ o ∈ tagged.database.objects, reserved o.name = false := by decide
  obtain ⟨_, hrows, hobjects⟩ := opened_note hopen hplain
  have hintact : integrityCheck (reading tags tagKey false) (opened note tagged) = .ok () := by
    simp only [integrityCheck, bind_eq_ok, require_eq_ok, hrows]
    exact ⟨true, rfl, by decide, rfl⟩
  have hkey : tagKey ∈ (reading tags tagKey false).keys (opened note tagged).database.objects := by
    refine List.mem_flatMap.mpr ⟨tags, List.mem_filter.mpr ⟨hobjects tags (by decide), by decide⟩, ?_⟩
    exact List.mem_singleton_self tagKey
  have hmismatched : (reading tags tagKey false).Mismatched (opened note tagged).database.objects tagKey :=
    ⟨⟨labels, hobjects labels (by decide), by decide⟩, rfl⟩
  have hfails : foreignKeyCheck (reading tags tagKey false) (opened note tagged) =
      .error (.PythonError "OperationalError") := by
    rw [foreignKeyCheck, require_false fun hall => hall tagKey hkey hmismatched]
    rfl
  refine ⟨⟨tagged, hopen, .single (.installs note)⟩, opened_note_format hopen hplain, ?_, ?_⟩
  · rw [hrows]
    exact { published := by decide, resolved := by decide, cleaned := by decide, migrated := by decide,
            owned := by decide, schemas := by decide, blobs := by decide }
  · rw [entries, hintact, except_ok_bind, hfails]
    rfl

end Backup

end MeldStore
