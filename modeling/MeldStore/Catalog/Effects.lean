import MeldStore.Catalog.Statements

namespace MeldStore

open Library.Checked Library.Keyed

-- What each accepted statement says about the catalog before it, and the catalog
-- it leaves. Later proofs use these and never the triggers themselves.

theorem isRetired_holds (db : Catalog) (id : String) :
    (db.isRetired (.text id)).holds = true ↔ ∃ r ∈ db.retired, r.blobId = id := by
  simp only [Catalog.isRetired, Truth.holds_some, List.any_eq_true, Value.holds_eq,
    Value.text.injEq, ne_eq, reduceCtorEq, not_false_eq_true, and_true]

theorem stateOfText_eq_some (s : String) (state : BlobState) :
    stateOfText s = some state ↔ s = state.text := by
  unfold stateOfText
  split
  · subst s
    cases state <;> simp [BlobState.text]
  split
  · subst s
    cases state <;> simp [BlobState.text]
  split
  · subst s
    cases state <;> simp [BlobState.text]
  · cases state <;> simp_all [BlobState.text]

theorem blobCells_row (new : BlobCells) (row : BlobRow) (h : new.row = some row) :
    new = row.cells := by
  obtain ⟨id, name, version, state⟩ := new
  unfold BlobCells.row at h
  split at h
  · rename_i hid hname hversion hstate
    simp only at hid hname hversion hstate
    subst hid hname hversion hstate
    split at h
    · obtain ⟨s, hs, rfl⟩ := Option.map_eq_some_iff.mp h
      rw [(stateOfText_eq_some _ _).mp hs]
      rfl
    · cases h
  · cases h

theorem insertBlob_effect {db after : Catalog} {new : BlobCells} (h : insertBlob db new = .ok after) :
    ∃ row : BlobRow, new = row.cells ∧ row.state = .publishing ∧
      (∀ r ∈ db.retired, r.blobId ≠ row.id) ∧ (∀ b ∈ db.blobs, b.id ≠ row.id) ∧
      db.hasSchema row.schemaName row.schemaVersion ∧
      after = { db with blobs := db.blobs ++ [row] } := by
  simp only [insertBlob, bind_eq_ok, require_eq_ok, fromOption_eq_ok, pure_eq_ok,
    exists_const_iff] at h
  obtain ⟨_, hpublishing, _, hretired, row, hrow, _, hfresh, _, hschema, rfl⟩ := h
  have hcells := blobCells_row new row hrow
  subst hcells
  refine ⟨row, rfl, ?_, ?_, hfresh, hschema, rfl⟩
  · by_contra hne
    apply hpublishing
    have htext : row.state.text ≠ "publishing" := fun he =>
      hne ((BlobState.text_inj _ .publishing).mp he)
    simpa [msInsertPublishing, BlobRow.cells] using htext
  · intro r hr he
    exact hretired ((isRetired_holds db row.id).mpr ⟨r, hr, he⟩)

-- A publication guard as a statement about rows.
def Publishable (db : Catalog) (guard : Guard) (row : BlobRow) : Prop :=
  (∃ m ∈ db.metadata, m.table = guard.schemaName ∧ m.id = .text row.id ∧
    m.schemaVersion = row.schemaVersion) ∧
  ∃ o ∈ db.objects, ∃ p ∈ db.prepared, o.token = p.token ∧ o.blobId = row.id ∧
    p.schemaName = row.schemaName ∧
    if guard.evolved then p.schemaVersion ≤ row.schemaVersion
    else p.schemaVersion = row.schemaVersion

theorem textCell_value_eq_text (cell : TextCell) (s : String) :
    cell.value = .text s ↔ cell = .text s := by
  cases cell <;> simp [TextCell.value]

theorem readyGuard_holds (db : Catalog) (guard : Guard) (row : BlobRow)
    (h : ¬(readyGuard db guard row.cells).holds = true) (hname : row.schemaName = guard.schemaName)
    (hready : row.state = .ready) : Publishable db guard row := by
  have hcond : hasMetadata db guard.schemaName row.cells = true ∧
      hasObject db guard.evolved row.cells = true := by
    simpa [readyGuard, BlobRow.cells, hname, hready, BlobState.text, Value.holds_eq] using h
  obtain ⟨hmeta, hobject⟩ := hcond
  constructor
  · simp only [hasMetadata, Catalog.tableRows, List.any_eq_true, List.mem_filter,
      decide_eq_true_eq, Truth.holds_and, Bool.and_eq_true, Value.holds_eq, BlobRow.cells] at hmeta
    obtain ⟨m, ⟨hm, htable⟩, ⟨hid, _⟩, hversion, _⟩ := hmeta
    exact ⟨m, hm, htable, (textCell_value_eq_text _ _).mp hid, by simpa using hversion⟩
  · simp only [hasObject, List.any_eq_true, Bool.and_eq_true, decide_eq_true_eq,
      Truth.holds_and, Value.holds_eq, BlobRow.cells] at hobject
    obtain ⟨o, ho, p, hp, htoken, ⟨hid, _⟩, ⟨hpname, _⟩, hversion⟩ := hobject
    refine ⟨o, ho, p, hp, htoken, by simpa using hid, by simpa using hpname, ?_⟩
    split
    · rename_i he
      rw [if_pos he, Value.holds_le] at hversion
      exact (Value.int_le_int _ _).mp hversion.1
    · rename_i he
      rw [if_neg he, Value.holds_eq] at hversion
      simpa using hversion.1

theorem stateTransition_holds (db : Catalog) (old row : BlobRow)
    (h : ¬(msStateTransition db old row.cells).holds = true) :
    row.state = old.state ∨ (old.state = .publishing ∧ row.state = .ready) ∨
      (row.state = .pendingDelete ∧ ∃ r ∈ db.retired, r.blobId = old.id) := by
  by_cases hretired : ∃ r ∈ db.retired, r.blobId = old.id
  · cases ho : old.state <;> cases hn : row.state <;>
      simp_all [msStateTransition, BlobRow.cells, BlobState.text, Catalog.isRetired]
  · cases ho : old.state <;> cases hn : row.state <;>
      simp_all [msStateTransition, BlobRow.cells, BlobState.text, Catalog.isRetired]

theorem updateBlob_effect {db after : Catalog} {old : BlobRow} {new : BlobCells} {ofState : Bool}
    (h : updateBlob db old new ofState = .ok after) :
    ∃ row : BlobRow, (if ofState then new else { new with state := .text old.state.text }) = row.cells ∧
      row.id = old.id ∧ row.schemaName = old.schemaName ∧
      (ofState = false → row.state = old.state) ∧
      (row.state = old.state ∨ (old.state = .publishing ∧ row.state = .ready) ∨
        (row.state = .pendingDelete ∧ ∃ r ∈ db.retired, r.blobId = old.id)) ∧
      (row.state = .ready → row.state = old.state ∨ ofState = true) ∧
      (ofState = true → row.state = .ready → ∀ guard ∈ db.guards,
        guard.schemaName = row.schemaName → Publishable db guard row) ∧
      db.hasSchema row.schemaName row.schemaVersion ∧
      (row.schemaVersion = old.schemaVersion ∨ db.evolved old.schemaName ∨
        ∀ m ∈ db.metadata, ¬m.childOf old) ∧
      after = { db with blobs := rewrite (fun b => b.id = old.id) (fun _ => row) db.blobs } := by
  simp only [updateBlob, bind_eq_ok, require_eq_ok, fromOption_eq_ok, pure_eq_ok] at h
  obtain ⟨_, hidentity, _, htransition, _, hguards, row, hrow, _, _, _, hschema, _, hparent, rfl⟩ := h
  set cells := if ofState = true then new else { new with state := .text old.state.text } with hcells
  have hnew := blobCells_row cells row hrow
  have hid : row.id = old.id ∧ row.schemaName = old.schemaName := by
    simpa [msBlobIdentity, hnew, BlobRow.cells, Value.isNot] using hidentity
  have hkeep : ofState = false → row.state = old.state := by
    intro hs
    have hstate : cells.state = .text old.state.text := by simp [hcells, hs]
    rw [hnew] at hstate
    exact (BlobState.text_inj _ _).mp (by simpa [BlobRow.cells] using hstate)
  refine ⟨row, hnew, hid.1, hid.2, hkeep, ?_, ?_, ?_, hschema, hparent, rfl⟩
  · cases hs : ofState with
    | false => exact Or.inl (hkeep hs)
    | true =>
        have ht := htransition hs
        rw [hnew] at ht
        exact stateTransition_holds db old row ht
  · intro hready
    cases hs : ofState with
    | false => exact Or.inl (hkeep hs)
    | true => exact Or.inr rfl
  · intro hs hready guard hguard hname
    have hg := hguards hs guard hguard
    rw [hnew] at hg
    exact readyGuard_holds db guard row hg hname.symm hready

theorem deleteBlob_effect {db after : Catalog} {old : BlobRow} (h : deleteBlob db old = .ok after) :
    old.state = .pendingDelete ∧ (∃ r ∈ db.retired, r.blobId = old.id) ∧
      (∀ o ∈ db.objects, o.blobId ≠ old.id) ∧ (∀ m ∈ db.metadata, ¬m.childOf old) ∧
      (∀ s ∈ db.steps, s.blobId ≠ old.id) ∧
      after = { db with blobs := db.blobs.filter fun b => b.id ≠ old.id } := by
  simp only [deleteBlob, bind_eq_ok, require_eq_ok, pure_eq_ok] at h
  obtain ⟨_, htrigger, _, hobjects, _, hmeta, _, hsteps, rfl⟩ := h
  refine ⟨?_, ?_, hobjects, hmeta, hsteps, rfl⟩
  · by_contra hne
    apply htrigger
    have htext : old.state.text ≠ "pending_delete" := fun he =>
      hne ((BlobState.text_inj _ .pendingDelete).mp he)
    simp [msRetireIdentity, Catalog.isRetired, htext]
  · by_contra hnone
    push Not at hnone
    apply htrigger
    have hretired : (db.isRetired (.text old.id)).holds = false := by
      rw [Bool.eq_false_iff]
      intro hb
      obtain ⟨r, hr, he⟩ := (isRetired_holds db old.id).mp hb
      exact hnone r hr he
    have hnot : (Truth.not (db.isRetired (.text old.id))).holds = true := by
      simp only [Catalog.isRetired, Truth.holds_some] at hretired
      simp only [Catalog.isRetired, hretired, Truth.not_some, Truth.holds_some, Bool.not_false]
    simp only [msRetireIdentity, Truth.holds_or, hnot, Bool.or_true]

theorem objectCells_row (new : ObjectCells) (row : ObjectRow) (h : new.row = some row) :
    new.blobId = .text row.blobId ∧ new.token = row.token.value := by
  unfold ObjectCells.row at h
  split at h
  · rename_i hid htoken
    cases h
    exact ⟨hid, (TextCell.ofValue_eq_some _ _).mp htoken⟩
  · cases h

theorem insertObject_effect {db after : Catalog} {new : ObjectCells}
    (h : insertObject db new = .ok after) :
    ∃ row : ObjectRow, new.blobId = .text row.blobId ∧ new.token = row.token.value ∧
      (∀ g ∈ db.gc, g.token ≠ some row.token) ∧
      (∀ o ∈ db.objects, o.blobId ≠ row.blobId) ∧ (∀ o ∈ db.objects, o.token ≠ row.token) ∧
      (∃ b ∈ db.blobs, b.id = row.blobId) ∧ (∃ p ∈ db.prepared, p.token = row.token) ∧
      after = { db with objects := db.objects ++ [row] } := by
  simp only [insertObject, bind_eq_ok, require_eq_ok, fromOption_eq_ok, pure_eq_ok] at h
  obtain ⟨_, htrigger, row, hrow, _, hid, _, htoken, _, hblob, _, hprepared, rfl⟩ := h
  have hcells := objectCells_row new row hrow
  refine ⟨row, hcells.1, hcells.2, ?_, hid, htoken, hblob, hprepared, rfl⟩
  intro g hg he
  apply htrigger
  simp only [msUnrevokedObject, Truth.holds_some, List.any_eq_true]
  refine ⟨g, hg, ?_⟩
  simp [he, hcells.2, Value.holds_eq]

theorem deleteObject_effect {db after : Catalog} {old : ObjectRow}
    (h : deleteObject db old = .ok after) :
    (∃ r ∈ db.retired, r.blobId = old.blobId ∧ r.token = old.token) ∧
      after = { db with objects := db.objects.filter fun o => o.blobId ≠ old.blobId } := by
  simp only [deleteObject, bind_eq_ok, require_eq_ok, pure_eq_ok] at h
  obtain ⟨_, htrigger, rfl⟩ := h
  refine ⟨?_, rfl⟩
  simpa [msRetireObject] using htrigger

def PreparedRow.cells (p : PreparedRow) : PreparedCells :=
  { token := p.token.value, storageId := p.storageId.value, objectKey := p.objectKey.value,
    byteSize := .int p.byteSize, digest := p.digest.value, hashAlgorithm := .text p.hashAlgorithm,
    handlerId := .text p.handlerId, handlerVersion := .int p.handlerVersion,
    schemaName := .text p.schemaName, schemaVersion := .int p.schemaVersion }

theorem preparedCells_row (new : PreparedCells) (row : PreparedRow) (h : new.row = some row) :
    new = row.cells := by
  obtain ⟨token, storage, key, size, digest, algorithm, handler, handlerVersion, name, version⟩ := new
  simp only [PreparedCells.row, Option.bind_eq_bind, Option.bind_eq_some_iff] at h
  obtain ⟨token, htoken, storage, hstorage, key, hkey, digest, hdigest, h⟩ := h
  rw [TextCell.ofValue_eq_some] at htoken hstorage hkey hdigest
  subst htoken hstorage hkey hdigest
  split at h
  · split at h
    · rename_i hcheck
      obtain ⟨_, _, rfl, rfl, rfl⟩ := hcheck
      cases h
      rfl
    · cases h
  · cases h

theorem insertPrepared_effect {db after : Catalog} {new : PreparedCells}
    (h : insertPrepared db new = .ok after) :
    ∃ row : PreparedRow, new = row.cells ∧
      (∀ g ∈ db.gc, ¬(g.storageId = row.storageId ∧ g.objectKey = row.objectKey)) ∧
      (∀ p ∈ db.prepared, p.token ≠ row.token) ∧
      (∀ p ∈ db.prepared, ¬(p.storageId = row.storageId ∧ p.objectKey = row.objectKey)) ∧
      db.hasSchema row.schemaName row.schemaVersion ∧
      after = { db with prepared := db.prepared ++ [row] } := by
  simp only [insertPrepared, bind_eq_ok, require_eq_ok, fromOption_eq_ok, pure_eq_ok] at h
  obtain ⟨_, htrigger, row, hrow, _, htoken, _, hkey, _, hschema, rfl⟩ := h
  have hcells := preparedCells_row new row hrow
  refine ⟨row, hcells, ?_, htoken, hkey, hschema, rfl⟩
  rintro g hg ⟨hs, hk⟩
  apply htrigger
  simp only [msFreshObjectKey, Truth.holds_some, List.any_eq_true]
  refine ⟨g, hg, ?_⟩
  simp [hs, hk, hcells, PreparedRow.cells, Value.holds_eq]

theorem deletePrepared_effect {db after : Catalog} {old : PreparedRow}
    (h : deletePrepared db old = .ok after) :
    (∀ o ∈ db.objects, o.token ≠ old.token) ∧ (∀ r ∈ db.retired, r.token ≠ old.token) ∧
      (∀ e ∈ db.encodings, e.token ≠ old.token) ∧
      after = { db with prepared := db.prepared.filter fun p => p.token ≠ old.token } := by
  simp only [deletePrepared, bind_eq_ok, require_eq_ok, pure_eq_ok] at h
  obtain ⟨_, hobjects, _, hretired, _, hencodings, rfl⟩ := h
  exact ⟨hobjects, hretired, hencodings, rfl⟩

def EncodingRow.cells (e : EncodingRow) : EncodingCells :=
  { token := e.token.value, encodingId := e.encodingId.value,
    encodingVersion := .int e.encodingVersion, descriptor := e.descriptor.value }

theorem encodingCells_row (new : EncodingCells) (row : EncodingRow) (h : new.row = some row) :
    new = row.cells ∧ row.encodingId ≠ .text "file" := by
  obtain ⟨token, encoding, version, descriptor⟩ := new
  simp only [EncodingCells.row, Option.bind_eq_bind, Option.bind_eq_some_iff] at h
  obtain ⟨token, htoken, encoding, hencoding, descriptor, hdescriptor, h⟩ := h
  rw [TextCell.ofValue_eq_some] at htoken hencoding hdescriptor
  subst htoken hencoding hdescriptor
  split at h
  · split at h
    · rename_i hcheck
      cases h
      exact ⟨rfl, hcheck.2.1⟩
    · cases h
  · cases h

theorem insertEncoding_effect {db after : Catalog} {new : EncodingCells}
    (h : insertEncoding db new = .ok after) :
    ∃ row : EncodingRow, new = row.cells ∧ (∀ p ∈ db.prepared, p.token ≠ row.token) ∧
      (∀ e ∈ db.encodings, e.token ≠ row.token) ∧
      after = { db with encodings := db.encodings ++ [row] } := by
  simp only [insertEncoding, bind_eq_ok, require_eq_ok, fromOption_eq_ok, pure_eq_ok] at h
  obtain ⟨_, htrigger, row, hrow, _, hfresh, rfl⟩ := h
  have hcells := (encodingCells_row new row hrow).1
  refine ⟨row, hcells, ?_, hfresh, rfl⟩
  intro p hp he
  apply htrigger
  simp only [msEncodingInsert, Truth.holds_some, List.any_eq_true]
  refine ⟨p, hp, ?_⟩
  simp [he, hcells, EncodingRow.cells, Value.holds_eq]

-- A row the metadata CHECKs admit.
def Catalog.Admits (db : Catalog) (row : MetaRow) : Prop :=
  0 < row.version ∧ row.schemaVersion ∈ (db.declarations row.table).map (fun s => s.version) ∧
    (∀ column ∈ db.columns row.table, column.2.kind.admits (row.fields column.1)) ∧
    ∀ s ∈ db.declarations row.table, s.version = row.schemaVersion →
      s.admits (db.columns row.table) row.fields

-- The fields of a row are null outside the columns of its table.
def Catalog.Narrow (db : Catalog) (row : MetaRow) : Prop :=
  ∀ name, name ∉ (db.columns row.table).map Prod.fst → row.fields name = .null

theorem narrow_of_restrictTo {db : Catalog} {table : String} {fields : String → Value} {row : MetaRow}
    (htable : row.table = table) (hfields : row.fields = restrictTo (db.columns table) fields) :
    db.Narrow row := by
  intro name hname
  rw [htable] at hname
  rw [hfields, restrictTo, if_neg hname]

theorem restrictTo_of_mem (columns : List (String × Field)) (fields : String → Value) (name : String)
    (h : name ∈ columns.map Prod.fst) : restrictTo columns fields name = fields name := by
  simp only [restrictTo, if_pos h]

theorem mem_columns {db : Catalog} {table : String} {s : BlobSchema} (hs : s ∈ db.declarations table)
    {field : String × Field} (hf : field ∈ s.fields) : field ∈ db.columns table :=
  List.mem_flatMap.mpr ⟨s, hs, hf⟩

theorem metaCells_row (db : Catalog) (table : String) (new : MetaCells) (row : MetaRow)
    (h : new.row db table = some row) :
    row.table = table ∧ new.id = row.id.value ∧ new.schemaName = .text table ∧
      new.schemaVersion = .int row.schemaVersion ∧ new.version = .int row.version ∧
      row.fields = restrictTo (db.columns table) new.fields ∧ db.Admits row := by
  simp only [MetaCells.row, Option.bind_eq_bind, Option.bind_eq_some_iff] at h
  obtain ⟨id, hid, h⟩ := h
  rw [TextCell.ofValue_eq_some] at hid
  split at h
  · rename_i hschema hversion
    split at h
    · rename_i hcheck
      obtain ⟨hname, hpos, _, hmem, hkinds, hdeclared⟩ := hcheck
      cases h
      refine ⟨rfl, hid, hname, hschema, hversion, rfl, hpos, hmem, ?_, ?_⟩
      · intro column hc
        change column.2.kind.admits (restrictTo (db.columns table) new.fields column.1) = true
        rw [restrictTo_of_mem _ _ _ (List.mem_map_of_mem hc)]
        exact hkinds column hc
      · intro s hs hv
        obtain ⟨hrequired, hother⟩ := hdeclared s hs hv
        constructor
        · intro field hf hr
          change restrictTo (db.columns table) new.fields field.1 ≠ .null
          rw [restrictTo_of_mem _ _ _ (List.mem_map_of_mem (mem_columns hs hf))]
          exact hrequired field hf hr
        · intro column hc hn
          have hkept := restrictTo_of_mem _ new.fields _ (List.mem_map_of_mem hc)
          exact hkept.trans (hother column hc hn)
    · cases h
  · cases h

theorem anyHolds_foldl (tests : List Truth) (start : Truth) :
    (tests.foldl Truth.or start).holds = (start.holds || tests.any Truth.holds) := by
  induction tests generalizing start with
  | nil => simp
  | cons test tests ih => simp [ih, Bool.or_assoc]

@[simp] theorem anyHolds_holds (tests : List Truth) :
    (anyHolds tests).holds = tests.any Truth.holds := by
  simp [anyHolds, anyHolds_foldl]

theorem insertMeta_effect {db after : Catalog} {table : String} {new : MetaCells}
    (h : insertMeta db table new = .ok after) :
    ∃ row : MetaRow, row.table = table ∧ new.id = row.id.value ∧
      new.schemaVersion = .int row.schemaVersion ∧
      row.fields = restrictTo (db.columns table) new.fields ∧ db.Admits row ∧ row.version = 1 ∧
      (∀ latest, db.evolved table → db.latestVersion table = some latest →
        row.schemaVersion = latest) ∧
      (∀ m ∈ db.metadata, ¬(m.table = table ∧ m.id = row.id)) ∧
      (db.evolved table ∨ db.hasParent row) ∧
      after = { db with metadata := db.metadata ++ [row] } := by
  simp only [insertMeta, bind_eq_ok, require_eq_ok, fromOption_eq_ok, pure_eq_ok] at h
  obtain ⟨_, htrigger, row, hrow, _, hkey, _, _, _, hparent, rfl⟩ := h
  obtain ⟨htable, hid, _, hschema, hversion, hfields, hadmits⟩ := metaCells_row db table new row hrow
  refine ⟨row, htable, hid, hschema, hfields, hadmits, ?_, ?_, hkey, hparent, rfl⟩
  · by_contra hne
    apply htrigger
    unfold metaInsertTrigger
    split
    · simp [hversion, hne]
    · simp [hversion, hne]
  · intro latest he hlatest
    by_contra hne
    apply htrigger
    simp [metaInsertTrigger, he, hlatest, hschema, hne]

theorem immutableChanged_holds (schema : BlobSchema) (old : MetaRow) (new : MetaCells)
    (h : (immutableChanged schema old new).any Truth.holds = false) :
    ∀ field ∈ schema.fields, field.2.immutable = true → new.fields field.1 = old.fields field.1 := by
  intro field hf hi
  by_contra hne
  have hany : (immutableChanged schema old new).any Truth.holds = true := by
    refine List.any_eq_true.mpr ⟨Value.isNot (new.fields field.1) (old.fields field.1), ?_, ?_⟩
    · exact List.mem_map_of_mem (List.mem_filter.mpr ⟨hf, hi⟩)
    · simp [Value.isNot, hne]
  simp [h] at hany

theorem hasStep_eq_true (db : Catalog) (old row : MetaRow) (new : MetaCells)
    (hnew : new.schemaVersion = .int row.schemaVersion) :
    hasStep db old new = true ↔ ∃ s ∈ db.steps, ∃ j ∈ db.migrations, j.name = s.migrationName ∧
      .text s.blobId = old.id ∧ s.expectedVersion = old.version ∧ j.state = .running ∧
      j.schemaName = old.table ∧ j.sourceVersion = old.schemaVersion ∧
      j.targetVersion = row.schemaVersion := by
  simp [hasStep, hnew, and_assoc]

-- An accepted metadata update edits mutable fields of a row at the latest version,
-- or is one step of a running migration.
theorem updateMeta_effect {db after : Catalog} {old : MetaRow} {new : MetaCells}
    (h : updateMeta db old new = .ok after) :
    ∃ (row : MetaRow) (latest : BlobSchema), (db.declarations old.table).getLast? = some latest ∧
      row.table = old.table ∧ row.id = old.id ∧ row.version = old.version + 1 ∧
      new.schemaVersion = .int row.schemaVersion ∧
      row.fields = restrictTo (db.columns old.table) new.fields ∧ db.Admits row ∧
      ((row.schemaVersion = old.schemaVersion ∧
          (db.evolved old.table → old.schemaVersion = latest.version) ∧
          ∀ field ∈ latest.fields, field.2.immutable = true →
            new.fields field.1 = old.fields field.1) ∨
        (db.evolved old.table = true ∧ row.schemaVersion ≠ old.schemaVersion ∧
          ∃ s ∈ db.steps, ∃ j ∈ db.migrations, j.name = s.migrationName ∧
            .text s.blobId = old.id ∧ s.expectedVersion = old.version ∧ j.state = .running ∧
            j.schemaName = old.table ∧ j.sourceVersion = old.schemaVersion ∧
            j.targetVersion = row.schemaVersion)) ∧
      (db.evolved old.table ∨ db.hasParent row) ∧
      after = { db with metadata := rewrite (fun m => m.sameKey old) (fun _ => row) db.metadata } := by
  simp only [updateMeta, bind_eq_ok, require_eq_ok, fromOption_eq_ok, pure_eq_ok] at h
  obtain ⟨_, htrigger, row, hrow, _, _, _, _, _, hparent, rfl⟩ := h
  obtain ⟨htable, hid, hname, hschema, hversion, hfields, hadmits⟩ :=
    metaCells_row db old.table new row hrow
  obtain ⟨latest, hlatest⟩ : ∃ latest, (db.declarations old.table).getLast? = some latest := by
    obtain ⟨s, hs, _⟩ := List.mem_map.mp (htable ▸ hadmits.2.1)
    exact Option.isSome_iff_exists.mp (List.getLast?_isSome.mpr (List.ne_nil_of_mem hs))
  cases hevolved : db.evolved old.table with
  | true =>
      simp only [metaUpdateTrigger, hlatest, hevolved, if_true, anyHolds_holds, List.any_cons,
        List.any_nil, Value.isNot, hid, hname, hversion, hschema, Truth.holds_some,
        Truth.holds_and, Value.ne_int, Value.eq_int, Bool.or_eq_true, Bool.and_eq_true,
        decide_eq_true_eq, Bool.or_false, Bool.not_eq_true, not_or, not_and] at htrigger
      obtain ⟨hsameId, _, hbump, hedit, hstep⟩ := htrigger
      refine ⟨row, latest, hlatest, htable, by simpa using hsameId, by simpa using hbump, hschema,
        hfields, hadmits, ?_, Or.inl (by simp), rfl⟩
      by_cases hsame : row.schemaVersion = old.schemaVersion
      · obtain ⟨hfrozen, himmutable⟩ := hedit hsame
        refine Or.inl ⟨hsame, fun _ => by simpa using hfrozen, ?_⟩
        exact immutableChanged_holds latest old new (by simpa using himmutable)
      · have hs := (hasStep_eq_true db old row new hschema).mp (by simpa using hstep hsame)
        exact Or.inr ⟨rfl, hsame, hs⟩
  | false =>
      simp only [metaUpdateTrigger, hlatest, hevolved, Bool.false_eq_true, if_false, anyHolds_holds,
        List.any_cons, Value.isNot, hid, hname, hversion, hschema, Truth.holds_some,
        Truth.holds_or, Value.ne_int, Bool.or_eq_true, decide_eq_true_eq, Bool.not_eq_true,
        not_or] at htrigger
      obtain ⟨⟨hsameId, _, hsame, himmutable⟩, hbump⟩ := htrigger
      refine ⟨row, latest, hlatest, htable, by simpa using hsameId, by simpa using hbump, hschema,
        hfields, hadmits, Or.inl ⟨by simpa using hsame, by simp, ?_⟩, ?_, rfl⟩
      · exact immutableChanged_holds latest old new (by simpa using himmutable)
      · simpa [hevolved] using hparent

theorem deleteMeta_effect {db after : Catalog} {old : MetaRow} (h : deleteMeta db old = .ok after) :
    (old.table ∈ db.lifecycleSchemas → ∃ r ∈ db.retired, .text r.blobId = old.id) ∧
      after = { db with metadata := db.metadata.filter fun m => !m.sameKey old } := by
  simp only [deleteMeta, bind_eq_ok, require_eq_ok, pure_eq_ok] at h
  obtain ⟨_, _, _, htrigger, rfl⟩ := h
  refine ⟨fun henrolled => ?_, rfl⟩
  simp only [metaRetireTrigger, if_pos henrolled, Catalog.isRetired, Truth.not_some,
    Truth.holds_some, Bool.not_eq_true', Bool.not_eq_false, List.any_eq_true, Value.holds_eq,
    ne_eq, reduceCtorEq, not_false_eq_true, and_true] at htrigger
  obtain ⟨r, hr, he⟩ := htrigger
  exact ⟨r, hr, ((textCell_value_eq_text _ _).mp he.symm).symm⟩

theorem insertRetired_effect {db after : Catalog} {row : RetiredRow}
    (h : insertRetired db row = .ok after) :
    (∀ r ∈ db.retired, r.blobId ≠ row.blobId) ∧ (∀ r ∈ db.retired, r.token ≠ row.token) ∧
      (∃ p ∈ db.prepared, p.token = row.token) ∧ db.hasSchema row.schemaName row.schemaVersion ∧
      after = { db with retired := db.retired ++ [row] } := by
  simp only [insertRetired, bind_eq_ok, require_eq_ok, pure_eq_ok] at h
  obtain ⟨_, _, _, hid, _, htoken, _, hprepared, _, hdeclared, rfl⟩ := h
  exact ⟨hid, htoken, hprepared, hdeclared, rfl⟩

theorem insertGc_effect {db after : Catalog} {row : GcRow} (h : insertGc db row = .ok after) :
    (∀ g ∈ db.gc, ¬row.collides g) ∧ (∀ id ∈ row.blobId, ∃ r ∈ db.retired, r.blobId = id) ∧
      after = { db with gc := db.gc ++ [row] } := by
  simp only [insertGc, bind_eq_ok, require_eq_ok, pure_eq_ok] at h
  obtain ⟨_, hfresh, _, hparent, rfl⟩ := h
  exact ⟨hfresh, hparent, rfl⟩

theorem insertOrIgnoreGc_effect {db after : Catalog} {row : GcRow}
    (h : insertOrIgnoreGc db row = .ok after) :
    ((∃ g ∈ db.gc, row.collides g) ∧ after = db) ∨
      ((∀ g ∈ db.gc, ¬row.collides g) ∧ after = { db with gc := db.gc ++ [row] }) := by
  unfold insertOrIgnoreGc at h
  split at h
  · obtain ⟨hfresh, _, rfl⟩ := insertGc_effect h
    exact Or.inr ⟨hfresh, rfl⟩
  · rename_i hcollides
    push Not at hcollides
    cases h
    exact Or.inl ⟨hcollides, rfl⟩

theorem updateGc_effect {db after : Catalog} {old new : GcRow} (h : updateGc db old new = .ok after) :
    new.storageId = old.storageId ∧ new.objectKey = old.objectKey ∧ new.token = old.token ∧
      new.blobId = old.blobId ∧ new.reason = old.reason ∧
      (old.state = .done → new.state = .done) ∧
      after = { db with gc := rewrite (fun g => g.sameKey old) (fun _ => new) db.gc } := by
  simp only [updateGc, bind_eq_ok, require_eq_ok, pure_eq_ok] at h
  obtain ⟨_, htrigger, rfl⟩ := h
  simpa [msGcIdentity, Value.isNot, and_assoc] using htrigger

theorem insertStep_effect {db after : Catalog} {row : StepRow} (h : insertStep db row = .ok after) :
    (∀ s ∈ db.steps, s.blobId ≠ row.blobId) ∧ (∃ b ∈ db.blobs, b.id = row.blobId) ∧
      after = { db with steps := db.steps ++ [row] } := by
  simp only [insertStep, bind_eq_ok, require_eq_ok, pure_eq_ok] at h
  obtain ⟨_, hfresh, _, hblob, _, _, rfl⟩ := h
  exact ⟨hfresh, hblob, rfl⟩

theorem insertSchema_effect {db after : Catalog} {schema : BlobSchema}
    (h : insertSchema db schema = .ok after) :
    ¬db.hasSchema schema.name schema.version ∧
      after = { db with schemas := db.schemas ++
        [{ name := schema.name, version := schema.version, definition := schema }] } := by
  simp only [insertSchema, bind_eq_ok, require_eq_ok, pure_eq_ok] at h
  obtain ⟨_, hfresh, rfl⟩ := h
  exact ⟨hfresh, rfl⟩

theorem insertMigration_effect {db after : Catalog} {row : MigrationRow}
    (h : insertMigration db row = .ok after) :
    (∀ j ∈ db.migrations, ¬row.collides j) ∧
      after = { db with migrations := db.migrations ++ [row] } := by
  simp only [insertMigration, bind_eq_ok, require_eq_ok, pure_eq_ok] at h
  obtain ⟨_, hfresh, _, _, _, _, rfl⟩ := h
  exact ⟨hfresh, rfl⟩

end MeldStore
