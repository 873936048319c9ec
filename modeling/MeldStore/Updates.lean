import MeldStore.Committed
import MeldStore.Migrations.Progress

namespace MeldStore

open Library Library.Checked Library.Keyed

-- The edits of one metadata row, by any number of callers at once.

inductive Edit
  | updated (schema : BlobSchema) (changes : BlobSchema.Metadata) (expectedVersion : Int)
  | migrated (plan : MetadataMigration)

def Edit.expected : Edit → Option Int
  | updated _ _ expectedVersion => some expectedVersion
  | migrated _ => none

structure Updated (schema : BlobSchema) (changes : BlobSchema.Metadata) (expectedVersion : Int)
    (old new : MetaRow) : Prop where
  expected : old.version = expectedVersion
  current : old.table = schema.name ∧ old.schemaVersion = schema.version
  key : new.table = old.table ∧ new.id = old.id ∧ new.schemaVersion = old.schemaVersion
  bump : new.version = old.version + 1
  fields : ∃ values, Store.changeFields schema changes = .ok values ∧
    ∀ field ∈ schema.fields, new.fields field.1 = Store.overwrite values old.fields field.1
  immutable : ∀ field ∈ schema.fields, field.2.immutable = true → new.fields field.1 = old.fields field.1

structure Migrated (plan : MetadataMigration) (old new : MetaRow) : Prop where
  current : old.table = plan.source.name ∧ old.schemaVersion = plan.source.version
  key : new.table = old.table ∧ new.id = old.id ∧ new.schemaVersion = plan.target.version
  bump : new.version = old.version + 1
  fields : ∃ values, Migrations.transformed plan old = .ok values ∧ new.fields = Store.cellsOf values

def Edit.Takes : Edit → MetaRow → MetaRow → Prop
  | updated schema changes expectedVersion => Updated schema changes expectedVersion
  | migrated plan => Migrated plan

-- The edits take a row from one version to the next, each one its successor.
def Chain : List Edit → MetaRow → MetaRow → Prop
  | [], old, new => new = old
  | edit :: rest, old, new => ∃ mid, edit.Takes old mid ∧ Chain rest mid new

-- The edits of the row of a blob that an accepted operation makes.
def Action.edits (table id : String) (db : Catalog) : Action → List Edit
  | updateMetadata given schema changes expectedVersion =>
      if given = id then [.updated schema changes expectedVersion] else []
  | batch plan batchSize =>
      match Migrations.status db plan.name with
      | .ok job =>
          if job.state = .running ∧ ∃ row ∈ Migrations.selected db plan job.lastId batchSize,
              row.table = table ∧ row.id = .text id then [.migrated plan] else []
      | .error _ => []
  | _ => []

def edits (table id : String) : List Action → Catalog → List Edit
  | [], _ => []
  | action :: rest, db => action.edits table id db ++
      match action.exec db with
      | .ok next => edits table id rest next
      | .error _ => []

-- A run makes its batches after _initialize has found or inserted the target.
def Action.Begun (db : Catalog) : Action → Prop
  | batch plan _ => plan.target ∈ db.declarations plan.source.name
  | _ => True

-- Committed transactions in their serial order, and the edits of one row in them. A
-- transaction that fails or is rolled back leaves the catalog as it was.
inductive History (table id : String) (start : Catalog) : List Edit → Catalog → Prop
  | start : History table id start [] start
  | transaction (log : List Edit) (db after : Catalog) (actions : List Action)
      (h : History table id start log db) (hbegun : ∀ action ∈ actions, action.Begun db)
      (hrun : transact actions db = .ok after) :
      History table id start (log ++ edits table id actions db) after
  | journaling (log : List Edit) (db after : Catalog) (schema : BlobSchema) (prepared : PreparedFile)
      (h : History table id start log db) (hsealed : prepared.Sealed)
      (hrun : Store.journal db schema prepared = .ok after) (hkeys : after.DeferredKeys) :
      History table id start log after
  | recording (log : List Edit) (db after : Catalog) (job : GcRow) (error : Option String)
      (h : History table id start log db) (hrun : Maintenance.recordCleanup job error db = .ok after) :
      History table id start log after

-- The row of a blob that stands, and the end of a retired one.

def Catalog.Owns (db : Catalog) (id : String) (m : MetaRow) : Prop :=
  m ∈ db.metadata ∧ m.id = .text id ∧ ∃ b ∈ db.blobs, b.id = id ∧ b.schemaName = m.table

def Catalog.Ended (db : Catalog) (table id : String) : Prop :=
  (∃ r ∈ db.retired, r.blobId = id) ∧ ∀ m ∈ db.metadata, ¬(m.table = table ∧ m.id = .text id)

-- An operation that leaves the rows of every blob there is.
structure Steady (db after : Catalog) : Prop where
  metadata : ∀ m ∈ db.metadata, m ∈ after.metadata
  blobs : ∀ b ∈ db.blobs, ∃ b' ∈ after.blobs, b'.id = b.id ∧ b'.schemaName = b.schemaName

variable {db after : Catalog} {table id : String} {m : MetaRow}

theorem Steady.refl (db : Catalog) : Steady db db := ⟨fun _ hm => hm, fun b hb => ⟨b, hb, rfl, rfl⟩⟩

theorem Steady.trans {mid : Catalog} (h : Steady db mid) (h' : Steady mid after) : Steady db after := by
  refine ⟨fun m hm => h'.metadata m (h.metadata m hm), fun b hb => ?_⟩
  obtain ⟨b', hb', hid, hname⟩ := h.blobs b hb
  obtain ⟨b'', hb'', hid', hname'⟩ := h'.blobs b' hb'
  exact ⟨b'', hb'', hid'.trans hid, hname'.trans hname⟩

theorem Steady.of_eq (hmetadata : after.metadata = db.metadata) (hblobs : after.blobs = db.blobs) :
    Steady db after :=
  ⟨fun _ hm => hmetadata ▸ hm, fun b hb => ⟨b, hblobs ▸ hb, rfl, rfl⟩⟩

theorem Steady.owns (h : Steady db after) (howns : db.Owns id m) : after.Owns id m := by
  obtain ⟨hm, hid, b, hb, hbid, hname⟩ := howns
  obtain ⟨b', hb', hbid', hname'⟩ := h.blobs b hb
  exact ⟨h.metadata m hm, hid, b', hb', hbid'.trans hbid, hname'.trans hname⟩

theorem installs_steady {schema : BlobSchema} (h : Installs db schema after) : Steady db after := by
  obtain ⟨_, _, _, rfl, _⟩ := h.rows
  exact .of_eq rfl rfl

theorem finalize_steady {storage : String} {prepared : PreparedFile} {schema : BlobSchema}
    {metadata : BlobSchema.Metadata} {r : Record}
    (h : Store.finalize storage prepared schema metadata id db = .ok (r, after)) : Steady db after := by
  rcases (finalize_effect h).2 with ⟨rfl, _⟩ | ⟨_, _, _, _, _, _, _, _, _, _, _, rfl, _⟩
  · exact .refl _
  · exact ⟨fun _ hm => List.mem_append_left _ hm, fun b hb => ⟨b, List.mem_append_left _ hb, rfl, rfl⟩⟩

theorem publish_steady {storage : String} {r : Record} (hw : db.Wf)
    (h : Store.publish storage id db = .ok (r, after)) : Steady db after := by
  rcases (publish_effect h).2 with ⟨rfl, _⟩ | ⟨b, hb, hbid, _, rfl, _⟩
  · exact .refl _
  refine ⟨fun _ hm => hm, fun other hother => ?_⟩
  by_cases hsame : other.id = id
  · obtain rfl := hw.blob_eq hother hb (hsame.trans hbid.symm)
    exact ⟨_, (mem_rewrite _ _ _ _).mpr (Or.inr ⟨other, hother, decide_eq_true hsame, rfl⟩), rfl, rfl⟩
  · exact ⟨other, (mem_rewrite _ _ _ _).mpr (Or.inl ⟨hother, by simpa using hsame⟩), rfl, rfl⟩

-- A change that adds a job without a retirement touches no other table.
theorem RowChange.queued_steady {g : GcRow} (h : RowChange db after) (hgc : after.gc = db.gc ++ [g])
    (hreason : g.reason ≠ .retired) : Steady db after := by
  cases h with
  | discarded | orphaned => exact .of_eq rfl rfl
  | retired b o p m r g' _ _ _ _ _ hg =>
      obtain rfl : g' = g := by simpa using hgc
      exact absurd (by rw [hg]) hreason
  | finalized | published | edited => simp at hgc

theorem discard_steady {storage : String} {prepared : PreparedFile} {g : GcRow}
    (h : Lifecycle.discard storage prepared db = .ok (g, after)) : Steady db after := by
  rcases (discard_effect h).2.2 with rfl | ⟨⟨_, hgc, _, hreason⟩, hchange⟩
  · exact .refl _
  · exact hchange.queued_steady hgc (by rw [hreason]; decide)

theorem queueOrphans_steady {storage : String} {keys : List String}
    (h : Maintenance.queueOrphans storage keys db = .ok after) : Steady db after := by
  simp only [Maintenance.queueOrphans, bind_eq_ok] at h
  obtain ⟨_, _, _, _, _, _, hloop⟩ := h
  refine foldlM_relates Steady _ keys db after hloop .refl (fun _ _ _ => .trans) fun _ _ _ _ hstep => ?_
  rcases queueOrphan_effect hstep with rfl | ⟨⟨_, hgc, hreason⟩, hchange⟩
  · exact .refl _
  · exact hchange.queued_steady hgc (by rw [hreason]; decide)

theorem initializeJob_steady {plan : MetadataMigration} {job : MigrationRow}
    (h : Migrations.initializeJob plan db = .ok (job, after)) : Steady db after := by
  obtain ⟨mid, hinstalls, _, _, hstart⟩ := initializeJob_effect h
  refine (installs_steady hinstalls).trans ?_
  rcases hstart with ⟨rfl, _⟩ | ⟨rfl, _⟩
  · exact .refl _
  · exact .of_eq rfl rfl

-- The fields an update names are declared and mutable.
theorem changeFields_mutable {schema : BlobSchema} {changes : BlobSchema.Metadata}
    {values : List (String × Value)} (h : Store.changeFields schema changes = .ok values) :
    ∀ entry ∈ values, ∀ field ∈ schema.fields, field.1 = entry.1 → field.2.immutable = false := by
  intro entry hentry field hfield hname
  obtain ⟨change, _, hstep⟩ := mapM_mem_result _ _ _ h entry hentry
  simp only [bind_eq_ok, fromOption_eq_ok, require_eq_ok, pure_eq_ok] at hstep
  obtain ⟨spec, hspec, _, hmutable, _, _, rfl⟩ := hstep
  have hsame : spec = field.2 :=
    Option.some.inj (hspec.symm.trans (hname ▸ BlobSchema.field?_of_mem hfield))
  simpa [hsame] using hmutable

theorem overwrite_of_not_mem {values : List (String × Value)} {fields : String → Value} {name : String}
    (h : ∀ entry ∈ values, entry.1 ≠ name) : Store.overwrite values fields name = fields name := by
  have hnone : (values.find? fun entry => entry.1 = name) = none :=
    List.find?_eq_none.mpr fun entry hentry he => h entry hentry (of_decide_eq_true he)
  simp [Store.overwrite, hnone]

theorem Catalog.Owns.unique {other : MetaRow} (hw : db.Wf) (h : db.Owns id m) (h' : db.Owns id other) :
    other = m := by
  obtain ⟨hm, hid, b, hb, hbid, hname⟩ := h
  obtain ⟨hm', hid', b', hb', hbid', hname'⟩ := h'
  obtain rfl := hw.blob_eq hb' hb (hbid'.trans hbid.symm)
  exact hw.meta_eq hm' hm (hname'.symm.trans hname) (hid'.trans hid.symm)

-- What an accepted update says of its row.
theorem updateMetadata_updated {schema : BlobSchema} {changes : BlobSchema.Metadata} {expectedVersion : Int}
    {r : Record} (h : Store.updateMetadata id schema changes expectedVersion db = .ok (r, after)) :
    ∃ old new, db.Owns id old ∧ Updated schema changes expectedVersion old new ∧ after.Owns id new := by
  simp only [Store.updateMetadata, bind_eq_ok, require_eq_ok, fromOption_eq_ok, pure_eq_ok,
    Prod.mk.injEq] at h
  obtain ⟨_, _, _, hschema, _, _, _, _, values, hvalues, current, hrecord, _, ⟨hname, _⟩, old, hold, mid,
    hupdate, _, _, rfl, rfl⟩ := h
  have hselect := List.find?_some hold
  simp only [Bool.and_eq_true, decide_eq_true_eq, and_assoc] at hselect
  obtain ⟨htable, hid, hversion, hexpected⟩ := hselect
  have hm := List.mem_of_find?_eq_some hold
  obtain ⟨b, _, _, _, hc, hshows, _⟩ := record_shows hrecord
  have hblob : ∃ b ∈ db.blobs, b.id = id ∧ b.schemaName = old.table :=
    ⟨b, hc.blob, hc.blobId, hshows.schemaName.symm.trans (hname.trans htable.symm)⟩
  obtain ⟨new, latest, hlatest, hntable, hnid, hbump, hnversion, hfields, _, hkind, _, rfl⟩ :=
    updateMeta_effect hupdate
  have hsame : new.schemaVersion = old.schemaVersion := by simpa [MetaRow.cells] using hnversion.symm
  have hdeclares : schema ∈ db.declarations old.table := htable ▸ (schema_effect hschema).1.mem_declarations
  have hrestricted : ∀ field ∈ schema.fields,
      new.fields field.1 = Store.overwrite values old.fields field.1 := by
    intro field hfield
    rw [hfields]
    exact restrictTo_of_mem _ _ _ (List.mem_map_of_mem (mem_columns hdeclares hfield))
  refine ⟨old, new, ⟨hm, hid, hblob⟩, ⟨hexpected, ⟨htable, hversion⟩, ⟨hntable, hnid, hsame⟩, hbump,
    ⟨values, hvalues, hrestricted⟩, ?_⟩, ?_, hnid.trans hid, hntable ▸ hblob⟩
  · intro field hfield himmutable
    rw [hrestricted field hfield]
    refine overwrite_of_not_mem fun entry hentry hname => ?_
    rw [changeFields_mutable hvalues entry hentry field hfield hname.symm] at himmutable
    cases himmutable
  · exact (mem_rewrite _ _ _ _).mpr (Or.inr ⟨old, hm, by simp [sameKey_iff], rfl⟩)

-- A deletion ends the row of its own blob and leaves the others.
theorem delete_row {storage given : String} {expectedVersion : Int} {result : Option (RetiredRow × GcRow)}
    (hw : db.Wf) (howns : db.Owns id m)
    (h : Lifecycle.delete storage given expectedVersion db = .ok (result, after)) :
    after.Owns id m ∨ after.Ended m.table id := by
  rcases delete_effect hw h with rfl | ⟨_, ⟨g, hgc, hreason⟩, hchange⟩
  · exact Or.inl howns
  obtain ⟨hm, hmid, b, hb, hbid, hbname⟩ := howns
  cases hchange with
  | retired b' o p m' r g' hc _ _ _ hr _ _ =>
      by_cases hsame : b'.id = id
      · obtain rfl := hw.blob_eq hc.blob hb (hsame.trans hbid.symm)
        obtain rfl := hw.meta_eq hc.metadata hm (hc.metaTable.trans hbname)
          (hc.metaId.trans ((congrArg TextCell.text hsame).trans hmid.symm))
        refine Or.inr ⟨⟨r, List.mem_append_right _ (List.mem_singleton.mpr rfl), hr.1.trans hsame⟩, ?_⟩
        rintro n hn ⟨htable, hid⟩
        have hkept := (List.mem_filter.mp hn).2
        simp [(sameKey_iff n m').mpr ⟨htable, hid.trans hmid.symm⟩] at hkept
      · refine Or.inl ⟨List.mem_filter.mpr ⟨hm, ?_⟩, hmid, b, List.mem_filter.mpr ⟨hb, ?_⟩, hbid, hbname⟩
        · rw [Bool.not_eq_true', Bool.eq_false_iff, ne_eq, sameKey_iff]
          rintro ⟨_, hid⟩
          rw [hmid, hc.metaId] at hid
          exact hsame (TextCell.text.inj hid).symm
        · simpa [hbid] using Ne.symm hsame
  | discarded p g' _ hg => 
      obtain rfl : g' = g := by simpa using hgc
      rw [hg] at hreason
      cases hreason
  | orphaned g' _ _ horphan =>
      obtain rfl : g' = g := by simpa using hgc
      rw [horphan] at hreason
      cases hreason
  | finalized | published | edited => simp at hgc

theorem MigrationChange.named (hw : db.Wf) (h : MigrationChange db after) :
    ∀ b ∈ db.blobs, ∃ b' ∈ after.blobs, b'.id = b.id ∧ b'.schemaName = b.schemaName := by
  intro b hb
  cases h with
  | initialized | progressed => exact ⟨b, hb, rfl, rfl⟩
  | moved plan c old new hold hc =>
      by_cases hsame : b.id = c.id
      · obtain rfl := hw.blob_eq hb hc hsame
        exact ⟨_, (mem_rewrite _ _ _ _).mpr (Or.inr ⟨b, hb, decide_eq_true rfl, rfl⟩), rfl, rfl⟩
      · exact ⟨b, (mem_rewrite _ _ _ _).mpr (Or.inl ⟨hb, by simpa using hsame⟩), rfl, rfl⟩

theorem MigrationChanges.named (hw : db.Wf) (h : MigrationChanges db after) :
    ∀ b ∈ db.blobs, ∃ b' ∈ after.blobs, b'.id = b.id ∧ b'.schemaName = b.schemaName :=
  Runs.relates Catalog.Wf
    (fun db after => ∀ b ∈ db.blobs, ∃ b' ∈ after.blobs, b'.id = b.id ∧ b'.schemaName = b.schemaName)
    (fun _ _ hw h => (Effect.migration _ h).wf hw) (fun _ b hb => ⟨b, hb, rfl, rfl⟩)
    (fun _ _ _ hab hbc b hb => by
      obtain ⟨b', hb', hid, hname⟩ := hab b hb
      obtain ⟨b'', hb'', hid', hname'⟩ := hbc b' hb'
      exact ⟨b'', hb'', hid'.trans hid, hname'.trans hname⟩)
    (fun _ _ hw h => h.named hw) h hw

-- A batch moves the row once, if it selects it.
theorem batch_row {plan : MetadataMigration} {batchSize : Nat} {job : MigrationRow} (hw : db.Wf)
    (howns : db.Owns id m) (hdeclared : plan.target ∈ db.declarations plan.source.name)
    (h : Migrations.batch plan batchSize db = .ok (job, after)) :
    ((Action.batch plan batchSize).edits m.table id db = [] ∧ after.Owns id m) ∨
      ∃ new, (Action.batch plan batchSize).edits m.table id db = [.migrated plan] ∧ Migrated plan m new ∧
        after.Owns id new := by
  obtain ⟨hm, hmid, b, hb, hbid, hbname⟩ := howns
  obtain ⟨start, hstart, hname, heffect, _⟩ := Migrations.batch_effect h
  have hstatus := status_of_mem hw hstart
  rw [hname] at hstatus
  cases heffect with
  | complete hcomplete =>
      exact Or.inl ⟨by simp [Action.edits, hstatus, hcomplete], hm, hmid, b, hb, hbid, hbname⟩
  | moved mid hrunning hmoved _ =>
      have hrows := Migrations.migrateRows_moves _ hw hdeclared
        (fun row hrow => (Migrations.mem_selected batchSize hrow).1)
        (Migrations.selected_distinct hw batchSize) hmoved
      obtain ⟨b', hb', hbid', hbname'⟩ := hrows.changes.named hw b hb
      by_cases hselected : ∃ row ∈ Migrations.selected db plan start.lastId batchSize,
          row.table = m.table ∧ row.id = .text id
      · obtain ⟨row, hrow, htable, hid⟩ := hselected
        have hpending := (Migrations.mem_pending row).mp (Migrations.mem_selected batchSize hrow).1
        obtain rfl := hw.meta_eq hpending.1 hm htable (hid.trans hmid.symm)
        obtain ⟨_, values, hvalues, ⟨new, hnew, hntable, hnid, hfields, _, hnversion, hbump⟩, _⟩ :=
          hrows.moves row hrow
        refine Or.inr ⟨new, ?_, ⟨hpending.2, ⟨hntable, hnid, hnversion⟩, hbump, values, hvalues, hfields⟩,
          hnew, hnid.trans hid, b', hb', hbid'.trans hbid, hbname'.trans (hbname.trans hntable.symm)⟩
        simp only [Action.edits, hstatus]
        rw [if_pos ⟨hrunning, row, hrow, rfl, hid⟩]
      · refine Or.inl ⟨?_, hrows.metadata m hm fun row hrow => ?_, hmid, b', hb', hbid'.trans hbid,
          hbname'.trans hbname⟩
        · simp only [Action.edits, hstatus]
          rw [if_neg fun h => hselected h.2]
        · rw [Bool.eq_false_iff, ne_eq, sameKey_iff]
          rintro ⟨htable, hid⟩
          exact hselected ⟨row, hrow, htable.symm, hid.symm.trans hmid⟩

-- A retired id gets no row again.

theorem Effect.ended (h : Effect db after) (hended : db.Ended table id) : after.Ended table id := by
  obtain ⟨⟨r, hr, hrid⟩, hnone⟩ := hended
  refine ⟨⟨r, h.retired_mono hr, hrid⟩, ?_⟩
  -- A row written over another has its key.
  have hrewritten : ∀ old ∈ db.metadata, ∀ new : MetaRow, new.table = old.table ∧ new.id = old.id →
      ∀ n ∈ rewrite (fun m => m.sameKey old) (fun _ => new) db.metadata,
        ¬(n.table = table ∧ n.id = .text id) := by
    intro old hold new hnew n hn
    rcases (mem_rewrite _ _ _ _).mp hn with ⟨hn, _⟩ | ⟨_, _, _, rfl⟩
    · exact hnone n hn
    · rw [hnew.1, hnew.2]
      exact hnone old hold
  cases h with
  | installed schema _ h =>
      obtain ⟨_, _, _, rfl, _⟩ := h.rows
      exact hnone
  | enrolled => exact hnone
  | rows _ h =>
      cases h with
      | finalized schema b new o p _ _ _ _ hretired hmeta =>
          intro n hn
          rcases List.mem_append.mp hn with hn | hn
          · exact hnone n hn
          · rw [List.mem_singleton.mp hn]
            rintro ⟨_, hid⟩
            rw [hmeta.2.1] at hid
            exact hretired r hr (hrid.trans (TextCell.text.inj hid).symm)
      | edited schema old new _ hold _ _ hnew => exact hrewritten old hold new ⟨hnew.1, hnew.2.1⟩
      | retired => exact fun n hn => hnone n (List.mem_filter.mp hn).1
      | published | discarded | orphaned => exact hnone
  | migration _ h =>
      cases h with
      | moved plan b old new hold _ _ _ _ hnew => exact hrewritten old hold new ⟨hnew.1, hnew.2.1⟩
      | initialized | progressed => exact hnone

theorem exec_ended {action : Action} (hw : db.Wf) (hended : db.Ended table id)
    (h : action.exec db = .ok after) : action.edits table id db = [] ∧ after.Ended table id := by
  refine ⟨?_, Runs.invariant (fun db : Catalog => db.Ended table id) (fun _ _ he h => h.ended he)
    (exec_effects hw h) hended⟩
  obtain ⟨⟨r, hr, hrid⟩, hnone⟩ := hended
  cases action with
  | updateMetadata given schema changes expectedVersion =>
      obtain ⟨_, h⟩ := map_snd_eq_ok h
      simp only [Store.updateMetadata, bind_eq_ok] at h
      obtain ⟨_, _, _, _, _, _, _, _, _, _, current, hrecord, _⟩ := h
      obtain ⟨b, _, _, _, hc, _⟩ := record_shows hrecord
      have hgiven : given ≠ id := fun he =>
        hw.retiredGone r hr b hc.blob (hc.blobId.trans (he.trans hrid.symm))
      simp [Action.edits, hgiven]
  | batch plan batchSize =>
      simp only [Action.edits]
      split
      · rename_i job _
        rw [if_neg]
        rintro ⟨_, row, hrow, hkey⟩
        exact hnone row ((Migrations.mem_pending row).mp (Migrations.mem_selected batchSize hrow).1).1 hkey
      · rfl
  | _ => rfl

-- What one operation does to the row of a blob.
theorem exec_row {action : Action} (hw : db.Wf) (hbegun : action.Begun db) (howns : db.Owns id m)
    (h : action.exec db = .ok after) :
    (action.edits m.table id db = [] ∧ (after.Owns id m ∨ after.Ended m.table id)) ∨
      ∃ edit new, action.edits m.table id db = [edit] ∧ edit.Takes m new ∧ after.Owns id new := by
  have hsteady : Steady db after → action.edits m.table id db = [] →
      action.edits m.table id db = [] ∧ (after.Owns id m ∨ after.Ended m.table id) :=
    fun hsteady hedits => ⟨hedits, Or.inl (hsteady.owns howns)⟩
  cases action with
  | installSchema schema =>
      obtain ⟨mid, hinstalls, rfl⟩ := installSchema_effects h
      refine Or.inl (hsteady ((installs_steady hinstalls).trans ?_) rfl)
      unfold Lifecycle.installSchema
      split
      · exact .refl _
      · exact .of_eq rfl rfl
  | finalize =>
      obtain ⟨_, h⟩ := map_snd_eq_ok h
      exact Or.inl (hsteady (finalize_steady h) rfl)
  | publish =>
      obtain ⟨_, h⟩ := map_snd_eq_ok h
      exact Or.inl (hsteady (publish_steady hw h) rfl)
  | create =>
      obtain ⟨_, h⟩ := map_snd_eq_ok h
      refine Or.inl (hsteady ?_ rfl)
      rcases create_effect h with ⟨_, rfl⟩ | ⟨_, _, _, hfinalize, hpublish⟩
      · exact .refl _
      · have hmid := Runs.invariant Catalog.Wf (fun _ _ hw h => (Effect.rows _ h).wf hw)
          (finalize_effects hfinalize) hw
        exact (finalize_steady hfinalize).trans (publish_steady hmid hpublish)
  | updateMetadata given schema changes expectedVersion =>
      obtain ⟨_, h⟩ := map_snd_eq_ok h
      by_cases hgiven : given = id
      · subst hgiven
        obtain ⟨old, new, hold, hupdated, hnew⟩ := updateMetadata_updated h
        obtain rfl := howns.unique hw hold
        exact Or.inr ⟨.updated schema changes expectedVersion, new, by simp [Action.edits], hupdated, hnew⟩
      · refine Or.inl ⟨by simp [Action.edits, hgiven], Or.inl ?_⟩
        obtain ⟨hm, hmid, hblob⟩ := howns
        obtain ⟨old, new, hold, _, hoid, _, _, rfl, _⟩ := updateMetadata_effect h
        refine ⟨(mem_rewrite _ _ _ _).mpr (Or.inl ⟨hm, ?_⟩), hmid, hblob⟩
        rw [Bool.eq_false_iff, ne_eq, sameKey_iff]
        rintro ⟨_, hid⟩
        rw [hmid, hoid] at hid
        exact hgiven (TextCell.text.inj hid).symm
  | delete =>
      obtain ⟨_, h⟩ := map_snd_eq_ok h
      exact Or.inl ⟨rfl, delete_row hw howns h⟩
  | discardPrepared =>
      obtain ⟨_, h⟩ := map_snd_eq_ok h
      exact Or.inl (hsteady (discard_steady h) rfl)
  | initializeJob =>
      obtain ⟨_, h⟩ := map_snd_eq_ok h
      exact Or.inl (hsteady (initializeJob_steady h) rfl)
  | batch plan batchSize =>
      obtain ⟨_, h⟩ := map_snd_eq_ok h
      rcases batch_row hw howns hbegun h with ⟨hedits, hsame⟩ | ⟨new, hedits, hmigrated, hnew⟩
      · exact Or.inl ⟨hedits, Or.inl hsame⟩
      · exact Or.inr ⟨_, new, hedits, hmigrated, hnew⟩
  | queueOrphans => exact Or.inl (hsteady (queueOrphans_steady h) rfl)

theorem Chain.append {log log' : List Edit} {mid new : MetaRow} (h : Chain log m mid)
    (h' : Chain log' mid new) : Chain (log ++ log') m new := by
  induction log generalizing m with
  | nil =>
      rw [show mid = m from h] at h'
      exact h'
  | cons edit rest ih =>
      obtain ⟨next, htakes, hrest⟩ := h
      exact ⟨next, htakes, ih hrest⟩

theorem Edit.Takes.key {edit : Edit} {new : MetaRow} (h : edit.Takes m new) :
    new.table = m.table ∧ new.id = m.id ∧ new.version = m.version + 1 := by
  cases edit with
  | updated schema changes expectedVersion =>
      have h : Updated schema changes expectedVersion m new := h
      exact ⟨(Updated.key h).1, (Updated.key h).2.1, h.bump⟩
  | migrated plan =>
      have h : Migrated plan m new := h
      exact ⟨(Migrated.key h).1, (Migrated.key h).2.1, h.bump⟩

theorem Chain.key {log : List Edit} {new : MetaRow} (h : Chain log m new) :
    new.table = m.table ∧ new.id = m.id ∧ new.version = m.version + log.length := by
  induction log generalizing m with
  | nil =>
      obtain rfl : new = m := h
      simp
  | cons edit rest ih =>
      obtain ⟨mid, htakes, hrest⟩ := h
      obtain ⟨htable, hid, hbump⟩ := htakes.key
      obtain ⟨htable', hid', hversion⟩ := ih hrest
      refine ⟨htable'.trans htable, hid'.trans hid, ?_⟩
      rw [hversion, hbump, List.length_cons]
      push_cast
      omega

-- The state of the row after some edits: it stands at the end of their chain, or the
-- blob has been retired there.
def Follows (db : Catalog) (id : String) (m : MetaRow) (log : List Edit) : Prop :=
  ∃ new, Chain log m new ∧ (db.Owns id new ∨ db.Ended m.table id)

theorem exec_follows {action : Action} {log : List Edit} (hw : db.Wf) (hbegun : action.Begun db)
    (hfollows : Follows db id m log) (h : action.exec db = .ok after) :
    Follows after id m (log ++ action.edits m.table id db) := by
  obtain ⟨new, hchain, howns | hended⟩ := hfollows
  · have htable := hchain.key.1
    rcases exec_row hw hbegun howns h with ⟨hedits, hrow⟩ | ⟨edit, next, hedits, htakes, hnext⟩
    · rw [htable] at hedits hrow
      exact ⟨new, by rwa [hedits, List.append_nil], hrow⟩
    · rw [htable] at hedits
      exact ⟨next, hedits ▸ hchain.append ⟨next, htakes, rfl⟩, Or.inl hnext⟩
  · obtain ⟨hedits, hafter⟩ := exec_ended hw hended h
    exact ⟨new, by rwa [hedits, List.append_nil], Or.inr hafter⟩

theorem Effects.declarations_mono {name : String} {schema : BlobSchema} (h : Effects db after)
    (hdeclared : schema ∈ db.declarations name) : schema ∈ after.declarations name := by
  obtain ⟨s, hs, hname, hdefinition⟩ := mem_declarations.mp hdeclared
  exact mem_declarations.mpr ⟨s, h.changes.schemas_mono hs, hname, hdefinition⟩

theorem Action.Begun.later {action : Action} (hbegun : action.Begun db) (h : Effects db after) :
    action.Begun after := by
  cases action with
  | batch plan _ => exact h.declarations_mono hbegun
  | _ => trivial

theorem actions_follow {actions : List Action} {log : List Edit} (hw : db.Wf)
    (hbegun : ∀ action ∈ actions, action.Begun db) (hfollows : Follows db id m log)
    (h : actions.foldlM Action.exec db = .ok after) :
    Follows after id m (log ++ edits m.table id actions db) := by
  induction actions generalizing db log with
  | nil =>
      simp only [List.foldlM_nil, pure_eq_ok] at h
      subst h
      simpa [edits] using hfollows
  | cons action rest ih =>
      simp only [List.foldlM_cons, bind_eq_ok] at h
      obtain ⟨next, hexec, hrest⟩ := h
      have heffects := exec_effects hw hexec
      have hnext := exec_follows hw (hbegun action List.mem_cons_self) hfollows hexec
      have hlater := ih (heffects.wf hw)
        (fun other hother => (hbegun other (List.mem_cons_of_mem _ hother)).later heffects) hnext hrest
      simpa only [edits, hexec, List.append_assoc] using hlater

theorem History.settled {start : Catalog} {log : List Edit} (hs : start.Settled)
    (h : History table id start log db) : db.Settled := by
  induction h with
  | start => exact hs
  | transaction _ _ _ actions _ _ hrun ih => exact (Commit.transaction actions _ hrun).settled ih
  | journaling _ _ _ schema prepared _ hsealed hrun hkeys ih =>
      exact (Commit.journaling schema prepared _ hsealed hrun hkeys).settled ih
  | recording _ _ _ job error _ hrun ih => exact (Commit.recording job error _ hrun).settled ih

theorem Catalog.Ended.changes (hended : db.Ended table id) (hretired : ∀ r ∈ db.retired, r ∈ after.retired)
    (hmetadata : after.metadata = db.metadata) : after.Ended table id := by
  obtain ⟨⟨r, hr, hid⟩, hnone⟩ := hended
  exact ⟨⟨r, hretired r hr, hid⟩, hmetadata ▸ hnone⟩

theorem History.follows {start : Catalog} {log : List Edit} (hs : start.Settled) (howns : start.Owns id m)
    (h : History m.table id start log db) : Follows db id m log := by
  induction h with
  | start => exact ⟨m, rfl, Or.inl howns⟩
  | transaction log mid after actions h hbegun hrun ih =>
      have hmid := History.settled hs h
      simp only [transact, bind_eq_ok, require_eq_ok, pure_eq_ok] at hrun
      obtain ⟨_, hactions, _, _, rfl⟩ := hrun
      exact actions_follow hmid.wf hbegun ih hactions
  | journaling log mid after schema prepared h hsealed hrun hkeys ih =>
      obtain ⟨_, _, _, _, _, _, _⟩ := journal_effect hrun
      obtain ⟨new, hchain, howns | hended⟩ := ih
      · exact ⟨new, hchain, Or.inl howns⟩
      · exact ⟨new, hchain, Or.inr (hended.changes (fun _ hr => hr) rfl)⟩
  | recording log mid after job error h hrun ih =>
      obtain ⟨new, hchain, hstands⟩ := ih
      rcases recordCleanup_effect hrun with rfl | ⟨_, _, _, _, rfl, _⟩
      · exact ⟨new, hchain, hstands⟩
      · exact ⟨new, hchain, hstands⟩

-- Each edit of a chain expects the version it finds.
theorem Chain.expected {log : List Edit} {new : MetaRow} (h : Chain log m new) (i : Nat) (edit : Edit)
    (hedit : log[i]? = some edit) : ∀ v ∈ edit.expected, v = m.version + i := by
  induction log generalizing m i with
  | nil => simp at hedit
  | cons first rest ih =>
      obtain ⟨mid, htakes, hrest⟩ := h
      cases i with
      | zero =>
          obtain rfl : first = edit := by simpa using hedit
          intro v hv
          cases first with
          | migrated => cases hv
          | updated schema changes expectedVersion =>
              obtain rfl : expectedVersion = v := by simpa [Edit.expected] using hv
              have htakes : Updated schema changes expectedVersion m mid := htakes
              simp [htakes.expected]
      | succ i =>
          intro v hv
          have hlater := ih hrest i (by simpa using hedit) v hv
          rw [hlater, htakes.key.2.2]
          push_cast
          omega

theorem Chain.expected_once {log : List Edit} {new : MetaRow} (h : Chain log m new) (v : Int) :
    (log.filter fun edit => edit.expected = some v).length ≤ 1 := by
  induction log generalizing m with
  | nil => simp
  | cons first rest ih =>
      have hall := Chain.expected h
      obtain ⟨mid, htakes, hrest⟩ := h
      by_cases hfirst : first.expected = some v
      · have hv := hall 0 first rfl v hfirst
        have hnone : (rest.filter fun edit => edit.expected = some v) = [] := by
          refine List.filter_eq_nil_iff.mpr fun edit hedit hexpected => ?_
          obtain ⟨i, hi⟩ := List.mem_iff_getElem?.mp hedit
          have := hall (i + 1) edit (by simpa using hi) v (of_decide_eq_true hexpected)
          push_cast at this
          omega
        simp [hfirst, hnone]
      · simpa [hfirst] using ih hrest

-- Why an update cannot be.
inductive Wrong (db : Catalog) (id : String) (schema : BlobSchema) (changes : BlobSchema.Metadata)
    (expectedVersion : Int) : Prop
  | stale (h : ∀ m, db.Owns id m → m.version ≠ expectedVersion)
  | readOnly (h : db.latestVersion schema.name ≠ some schema.version)
  | uninstalled (h : schema ∉ db.declarations schema.name)
  | schema (h : ∀ m, db.Owns id m → m.table ≠ schema.name ∨ m.schemaVersion ≠ schema.version)
  | unready (h : ∀ b ∈ db.blobs, b.id = id → b.state ≠ .ready)
  | unknown (change : String × PyValue) (hchange : change ∈ changes)
      (h : change.1 ∉ schema.fields.map Prod.fst)
  | immutable (change : String × PyValue) (hchange : change ∈ changes) (field : String × Field)
      (hfield : field ∈ schema.fields) (hname : field.1 = change.1) (h : field.2.immutable = true)
  | invalid (change : String × PyValue) (hchange : change ∈ changes) (field : String × Field)
      (hfield : field ∈ schema.fields) (hname : field.1 = change.1) (e : Error)
      (h : field.2.normalize change.2 = .error e)

theorem updateMetadata_not_wrong {schema : BlobSchema} {changes : BlobSchema.Metadata} {expectedVersion : Int}
    {r : Record} (h : Store.updateMetadata id schema changes expectedVersion db = .ok (r, after)) :
    ¬Wrong db id schema changes expectedVersion := by
  obtain ⟨old, new, hold, hupdated, _⟩ := updateMetadata_updated h
  simp only [Store.updateMetadata, bind_eq_ok, require_eq_ok] at h
  obtain ⟨_, _, _, hschema, _, _, _, ⟨_, hdeclared⟩, values, hvalues, current, hrecord, _⟩ := h
  obtain ⟨hinstalled, hlatest⟩ := schema_effect hschema
  -- Every change has been looked up and normalized.
  have hchanged : ∀ change ∈ changes, ∃ spec, schema.field? change.1 = some spec ∧
      spec.immutable = false ∧ ∃ value, spec.normalize change.2 = .ok value := by
    intro change hchange
    obtain ⟨_, _, hstep⟩ := mapM_mem _ _ _ hvalues change hchange
    simp only [bind_eq_ok, fromOption_eq_ok, require_eq_ok] at hstep
    obtain ⟨spec, hspec, _, hmutable, value, hvalue, _⟩ := hstep
    exact ⟨spec, hspec, by simpa using hmutable, value, hvalue⟩
  intro hwrong
  cases hwrong with
  | stale h => exact h old hold hupdated.expected
  | readOnly h => exact h (hlatest rfl)
  | uninstalled h => exact h hinstalled.mem_declarations
  | schema h =>
      rcases h old hold with h | h
      · exact h hupdated.current.1
      · exact h hupdated.current.2
  | unready h =>
      obtain ⟨b, _, _, _, hc, _, hready⟩ := record_shows hrecord
      exact h b hc.blob hc.blobId (hready rfl)
  | unknown change hchange h => exact h (hdeclared change hchange)
  | immutable change hchange field hfield hname h =>
      obtain ⟨spec, hspec, hmutable, _⟩ := hchanged change hchange
      rw [← hname, BlobSchema.field?_of_mem hfield, Option.some.injEq] at hspec
      rw [hspec, hmutable] at h
      cases h
  | invalid change hchange field hfield hname e h =>
      obtain ⟨spec, hspec, _, value, hvalue⟩ := hchanged change hchange
      rw [← hname, BlobSchema.field?_of_mem hfield, Option.some.injEq] at hspec
      rw [hspec, hvalue] at h
      cases h

-- A failing call takes its whole transaction back.
theorem transact_fails {before rest : List Action} {action : Action} {mid : Catalog} {e : Error}
    (hbefore : before.foldlM Action.exec db = .ok mid) (h : action.exec mid = .error e) :
    transact (before ++ action :: rest) db = .error e := by
  have hrun : (before ++ action :: rest).foldlM Action.exec db = .error e := by
    rw [List.foldlM_append, hbefore]
    show (action :: rest).foldlM Action.exec mid = .error e
    rw [List.foldlM_cons, h]
    rfl
  rw [transact, hrun]
  rfl

-- No metadata update is lost.
theorem no_update_is_lost (start : Catalog) (id : String) (m : MetaRow) (log : List Edit) (db : Catalog)
    (hstart : Reachable start) (howns : start.Owns id m) (h : History m.table id start log db) :
    (∃ new, Chain log m new ∧ new.version = m.version + log.length ∧
      (db.Owns id new ∨ db.Ended m.table id)) ∧
    (∀ (i : Nat) (edit : Edit), log[i]? = some edit → ∀ v ∈ edit.expected, v = m.version + i) ∧
    (∀ v, (log.filter fun edit => edit.expected = some v).length ≤ 1) ∧
    ∀ before mid schema changes expectedVersion, before.foldlM Action.exec db = .ok mid →
      Wrong mid id schema changes expectedVersion →
        ∃ e, Store.updateMetadata id schema changes expectedVersion mid = .error e ∧ ∀ rest,
          transact (before ++ .updateMetadata id schema changes expectedVersion :: rest) db = .error e := by
  have hs := Reachable.settled hstart
  obtain ⟨new, hchain, hstands⟩ := h.follows hs howns
  refine ⟨⟨new, hchain, hchain.key.2.2, hstands⟩, hchain.expected, hchain.expected_once, ?_⟩
  intro before mid schema changes expectedVersion hbefore hwrong
  cases hresult : Store.updateMetadata id schema changes expectedVersion mid with
  | ok result => exact absurd hwrong (updateMetadata_not_wrong hresult)
  | error e =>
      refine ⟨e, rfl, fun rest => transact_fails hbefore ?_⟩
      simp [Action.exec, hresult, Except.map]

-- The title of the published note is edited once.
def retitled : Edit := .updated note [("title", .str "b")] 1

theorem note_is_retitled_once : ∃ m db, History m.table "b1" published [retitled] db ∧
    ∃ new, Chain [retitled] m new ∧ new.version = m.version + 1 ∧
      (db.Owns "b1" new ∨ db.Ended m.table "b1") := by
  have hrow : published.metadata.any (fun m => m.table = "note" && m.id = .text "b1") = true := by decide
  simp only [List.any_eq_true, Bool.and_eq_true, decide_eq_true_eq] at hrow
  obtain ⟨m, hm, htable, hid⟩ := hrow
  have howns : published.Owns "b1" m :=
    ⟨hm, hid, ⟨"b1", "note", 1, .ready⟩, by decide, rfl, htable.symm⟩
  have hedited : (transact [.updateMetadata "b1" note [("title", .str "b")] 1] published).isOk := by decide
  obtain ⟨db, hdb⟩ := exists_of_isOk hedited
  have hhistory := History.transaction _ _ db _ (History.start : History m.table "b1" published [] published)
    (by simp [Action.Begun]) hdb
  have hlog : edits m.table "b1" [.updateMetadata "b1" note [("title", .str "b")] 1] published =
    [retitled] := by
    simp only [edits, Action.edits, if_pos]
    split <;> rfl
  rw [hlog, List.nil_append] at hhistory
  obtain ⟨new, hchain, hversion, hstands⟩ :=
    (no_update_is_lost published "b1" m [retitled] db published_reachable howns hhistory).1
  exact ⟨m, db, hhistory, new, hchain, hversion, hstands⟩

end MeldStore
