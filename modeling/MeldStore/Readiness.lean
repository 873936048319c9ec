import MeldStore.Direct
import MeldStore.Transactions
import MeldStore.Query.Compile

namespace MeldStore

open Library Library.Checked Library.Keyed

-- Direct statements of an application mixed with store operations.

-- One statement or operation inside a transaction. Schemas are enrolled by
-- Store.install_schema before they migrate.
inductive Executes (db after : Catalog) : Prop
  | direct (statement : Direct) (h : statement.exec db = .ok after)
  | store (action : Action) (h : action.exec db = .ok after)
      (henrolled : ∀ plan, action = .initializeJob plan → plan.source.name ∈ db.lifecycleSchemas)

-- One committed transaction.
inductive Serves (db after : Catalog) : Prop
  | transaction (h : Runs.Run Executes db after) (hkeys : after.DeferredKeys)
  | journaling (schema : BlobSchema) (prepared : PreparedFile)
      (h : Store.journal db schema prepared = .ok after) (hkeys : after.DeferredKeys)
  | recording (job : GcRow) (error : Option String)
      (h : Maintenance.recordCleanup job error db = .ok after)

def Served (db : Catalog) : Prop := Runs.Run Serves Catalog.empty db

namespace Catalog

-- The metadata, the association and the journal row behind a blob. Inside a
-- transaction its own version may differ from that of its metadata.
def Backed (db : Catalog) (b : BlobRow) : Prop :=
  ∃ m ∈ db.metadata, ∃ o ∈ db.objects, ∃ p ∈ db.prepared,
    (m.table = b.schemaName ∧ m.id = .text b.id) ∧ o.blobId = b.id ∧ p.token = o.token ∧
      p.schemaName = b.schemaName ∧ p.schemaVersion ≤ m.schemaVersion

def Enrolled (db : Catalog) : Prop := ∀ s ∈ db.schemas, s.name ∈ db.lifecycleSchemas

-- What holds after every statement, not only at commits.
structure Guarded (db : Catalog) : Prop where
  wf : db.Wf
  guarded : ∀ s ∈ db.schemas, (⟨s.name, db.evolved s.name⟩ : Guard) ∈ db.guards
  backed : ∀ b ∈ db.blobs, b.state = .ready → db.Backed b

theorem empty_guarded : Catalog.empty.Guarded :=
  ⟨empty_wf, by simp [Catalog.empty], by simp [Catalog.empty]⟩

theorem Backed.mono {db after : Catalog} {b b' : BlobRow} (h : db.Backed b)
    (hid : b'.id = b.id) (hname : b'.schemaName = b.schemaName)
    (hmeta : ∀ m ∈ db.metadata, m.table = b.schemaName → m.id = .text b.id →
      ∃ m' ∈ after.metadata, m'.table = m.table ∧ m'.id = m.id ∧ m.schemaVersion ≤ m'.schemaVersion)
    (hobject : ∀ o ∈ db.objects, o.blobId = b.id → o ∈ after.objects)
    (hprepared : ∀ p ∈ db.prepared, (∃ o ∈ db.objects, o.token = p.token) → p ∈ after.prepared) :
    after.Backed b' := by
  obtain ⟨m, hm, o, ho, p, hp, ⟨htable, hmid⟩, hoid, htoken, hpname, hversion⟩ := h
  obtain ⟨m', hm', htable', hmid', hversion'⟩ := hmeta m hm htable hmid
  refine ⟨m', hm', o, hobject o ho hoid, p, hprepared p hp ⟨o, ho, htoken.symm⟩, ⟨?_, ?_⟩, ?_, htoken, ?_, ?_⟩
  · rw [htable', htable, hname]
  · rw [hmid', hmid, hid]
  · rw [hoid, hid]
  · rw [hpname, hname]
  · exact hversion.trans hversion'

-- A guard that accepts a ready row has seen the rows behind it.
theorem backed_of_publishable {db : Catalog} {guard : Guard} {b : BlobRow}
    (h : Publishable db guard b) (hname : guard.schemaName = b.schemaName) : db.Backed b := by
  obtain ⟨⟨m, hm, htable, hid, hversion⟩, o, ho, p, hp, htoken, hoid, hpname, hcompare⟩ := h
  refine ⟨m, hm, o, ho, p, hp, ⟨htable.trans hname, hid⟩, hoid, htoken.symm, hpname, ?_⟩
  rw [hversion]
  split at hcompare
  · exact hcompare
  · exact le_of_eq hcompare

theorem Guarded.publishable {db : Catalog} (hg : db.Guarded) {b : BlobRow}
    (hdeclared : db.hasSchema b.schemaName b.schemaVersion)
    (hguards : ∀ guard ∈ db.guards, guard.schemaName = b.schemaName → Publishable db guard b) :
    db.Backed b := by
  obtain ⟨s, hs, hname, _⟩ := hdeclared
  exact backed_of_publishable (hguards _ (hg.guarded s hs) hname) hname

end Catalog

open Catalog

section Rewritten

variable {db : Catalog} {old new : MetaRow}

-- A rewritten metadata row stays under its key.
theorem rewritten_meta (hold : old ∈ db.metadata) (htable : new.table = old.table) (hid : new.id = old.id)
    (hw : db.Wf) (hversion : old.schemaVersion ≤ new.schemaVersion) {m : MetaRow} (hm : m ∈ db.metadata) :
    ∃ m' ∈ rewrite (fun m => m.sameKey old) (fun _ => new) db.metadata,
      m'.table = m.table ∧ m'.id = m.id ∧ m.schemaVersion ≤ m'.schemaVersion := by
  by_cases hkey : m.sameKey old = true
  · obtain ⟨htable', hid'⟩ := (sameKey_iff m old).mp hkey
    obtain rfl := hw.meta_eq hm hold htable' hid'
    exact ⟨new, (mem_rewrite _ _ _ _).mpr (Or.inr ⟨m, hm, hkey, rfl⟩), htable, hid, hversion⟩
  · exact ⟨m, (mem_rewrite _ _ _ _).mpr (Or.inl ⟨hm, by simpa using hkey⟩), rfl, rfl, le_refl _⟩

end Rewritten

theorem Installs.guarded {db after : Catalog} {schema : BlobSchema} (hg : db.Guarded)
    (h : Installs db schema after) : after.Guarded := by
  have hwf := h.wf hg.wf
  obtain ⟨schemas, guards, payload, rfl, hschemas, hguards⟩ := h
  refine ⟨hwf, fun s hs => ?_, hg.backed⟩
  rcases List.mem_append.mp hs with hs | hs
  · exact List.mem_append_left _ (hg.guarded s hs)
  · have hs : s.name = schema.name := by
      rcases hschemas with ⟨rfl, _⟩ | ⟨rfl, _⟩
      · cases hs
      · rw [List.mem_singleton.mp hs]
    rw [hs]
    rcases hguards with ⟨rfl, _, hguard, _⟩ | ⟨rfl, _, _⟩
    · exact List.mem_append_left _ hguard
    · exact List.mem_append_right _ (List.mem_singleton.mpr rfl)

-- Every blob after a change is backed if the one before it was, and a blob becomes
-- ready only when it is backed.
def Catalog.Carries (db after : Catalog) (b' : BlobRow) : Prop :=
  after.Backed b' ∨ ∃ b ∈ db.blobs, (db.Backed b → after.Backed b') ∧
    (b'.state = .ready → b.state = .ready ∨ db.Backed b)

theorem carries_of_mono {db after : Catalog} {b b' : BlobRow} (hb : b ∈ db.blobs)
    (h : db.Backed b → after.Backed b') (hstate : b'.state = .ready → b.state = .ready ∨ db.Backed b) :
    db.Carries after b' :=
  Or.inr ⟨b, hb, h, hstate⟩

theorem RowChange.carries {db after : Catalog} (hg : db.Guarded) (h : RowChange db after) :
    ∀ b' ∈ after.blobs, db.Carries after b' := by
  have hsame : ∀ m ∈ db.metadata, ∃ m' ∈ db.metadata, m'.table = m.table ∧ m'.id = m.id ∧
      m.schemaVersion ≤ m'.schemaVersion := fun m hm => ⟨m, hm, rfl, rfl, le_refl _⟩
  cases h with
  | finalized schema b m o p _ _ hblob _ _ hmeta _ _ hobject _ _ hprepared hsameSchema =>
      intro b' hb'
      rcases List.mem_append.mp hb' with hb' | hb'
      · refine carries_of_mono hb' (fun hbacked => ?_) Or.inl
        refine hbacked.mono rfl rfl (fun m hm _ _ => ?_) (fun o ho _ => List.mem_append_left _ ho)
          fun p hp _ => hp
        exact ⟨m, List.mem_append_left _ hm, rfl, rfl, le_refl _⟩
      · rw [List.mem_singleton.mp hb']
        refine Or.inl ⟨m, List.mem_append_right _ (List.mem_singleton.mpr rfl), o,
          List.mem_append_right _ (List.mem_singleton.mpr rfl), p, hprepared, ⟨?_, hmeta.2.1⟩, hobject.1,
          hobject.2.symm, ?_, ?_⟩
        · rw [hmeta.1, hblob.1]
        · rw [hsameSchema.1, hblob.1]
        · rw [hsameSchema.2, hmeta.2.2.1]
  | published b hb _ hguards =>
      intro b' hb'
      have hcopy : ∀ x : BlobRow, db.Backed x → ∀ y : BlobRow, y.id = x.id → y.schemaName = x.schemaName →
          Catalog.Backed { db with blobs := rewrite (fun other => other.id = b.id)
                                              (fun _ => { b with state := .ready }) db.blobs } y := by
        intro x hx y hid hname
        exact hx.mono hid hname (fun m hm _ _ => hsame m hm) (fun _ ho _ => ho) fun _ hp _ => hp
      rcases (mem_rewrite _ _ _ _).mp hb' with ⟨hb', _⟩ | ⟨_, _, _, rfl⟩
      · exact carries_of_mono hb' (fun hbacked => hcopy b' hbacked b' rfl rfl) Or.inl
      · refine carries_of_mono hb (fun hbacked => hcopy b hbacked _ rfl rfl) fun _ => Or.inr ?_
        exact hg.publishable (hg.wf.blobDeclared b hb) hguards
  | edited schema old new _ hold _ _ hnew _ =>
      intro b' hb'
      refine carries_of_mono hb' (fun hbacked => ?_) Or.inl
      exact hbacked.mono rfl rfl
        (fun m hm _ _ => rewritten_meta hold hnew.1 hnew.2.1 hg.wf (le_of_eq hnew.2.2.1.symm) hm)
        (fun _ ho _ => ho) fun _ hp _ => hp
  | retired b o p m r g hcomplete =>
      intro b' hb'
      obtain ⟨hb', hne⟩ := List.mem_filter.mp hb'
      have hne : b'.id ≠ b.id := by simpa using hne
      refine carries_of_mono hb' (fun hbacked => ?_) Or.inl
      refine hbacked.mono rfl rfl (fun m' hm' _ hid => ?_) (fun o' ho' hid => ?_) fun p hp _ => hp
      · refine ⟨m', List.mem_filter.mpr ⟨hm', ?_⟩, rfl, rfl, le_refl _⟩
        rw [Bool.not_eq_true', Bool.eq_false_iff]
        intro hkey
        have := ((sameKey_iff m' m).mp hkey).2
        rw [hid, hcomplete.metaId] at this
        exact hne (by simpa using this)
      · exact List.mem_filter.mpr ⟨ho', by simpa [hid] using hne⟩
  | discarded => exact fun b' hb' => carries_of_mono hb' (fun h => h) Or.inl
  | orphaned => exact fun b' hb' => carries_of_mono hb' (fun h => h) Or.inl

theorem Catalog.Carries.backed {db after : Catalog} {b' : BlobRow} (hg : db.Guarded)
    (h : db.Carries after b') (hready : b'.state = .ready) : after.Backed b' := by
  rcases h with hbacked | ⟨b, hb, hmono, hstate⟩
  · exact hbacked
  · rcases hstate hready with hready | hbacked
    · exact hmono (hg.backed b hb hready)
    · exact hmono hbacked

theorem RowChange.guarded {db after : Catalog} (hg : db.Guarded) (h : RowChange db after) :
    after.Guarded := by
  have hwf := (Effect.rows _ h).wf hg.wf
  have hbacked := fun b' hb' hready => (h.carries hg b' hb').backed hg hready
  refine ⟨hwf, ?_, hbacked⟩
  cases h <;> exact hg.guarded

theorem MigrationChange.carries {db after : Catalog} (hg : db.Guarded) (h : MigrationChange db after) :
    ∀ b' ∈ after.blobs, db.Carries after b' := by
  cases h with
  | initialized => exact fun b' hb' => carries_of_mono hb' (fun h => h) Or.inl
  | moved plan b old new hold hb _ _ hversion hnew =>
      intro b' hb'
      have hbump : old.schemaVersion ≤ new.schemaVersion := by
        rw [hnew.2.2.1, hversion, plan.nextVersion]
        omega
      have hmeta := fun (m : MetaRow) (hm : m ∈ db.metadata) =>
        rewritten_meta hold hnew.1 hnew.2.1 hg.wf hbump hm
      rcases (mem_rewrite _ _ _ _).mp hb' with ⟨hb', _⟩ | ⟨_, _, _, rfl⟩
      · exact carries_of_mono hb' (fun hbacked => hbacked.mono rfl rfl (fun m hm _ _ => hmeta m hm)
          (fun _ ho _ => ho) fun _ hp _ => hp) Or.inl
      · exact carries_of_mono hb (fun hbacked => hbacked.mono rfl rfl (fun m hm _ _ => hmeta m hm)
          (fun _ ho _ => ho) fun _ hp _ => hp) Or.inl
  | progressed => exact fun b' hb' => carries_of_mono hb' (fun h => h) Or.inl

theorem MigrationChange.guarded {db after : Catalog} (hg : db.Guarded) (h : MigrationChange db after) :
    after.Guarded := by
  have hwf := (Effect.migration _ h).wf hg.wf
  have hbacked := fun b' hb' hready => (h.carries hg b' hb').backed hg hready
  cases h with
  | initialized plan =>
      refine ⟨hwf, fun s hs => ?_, hg.backed⟩
      by_cases hname : s.name = plan.source.name
      · have hevolved : (Migrations.started plan db).evolved s.name = true := by
          rw [evolved_iff, hname]
          simp only [Migrations.started, Migrations.rebuilt]
          split
          · rename_i he
            exact (evolved_iff _ _).mp he
          · exact List.mem_append_right _ (List.mem_singleton.mpr rfl)
        rw [hevolved, hname, plan.sameSchema]
        exact List.mem_append_right _ (List.mem_singleton.mpr rfl)
      · have hs' : s ∈ db.schemas := by
          rcases List.mem_append.mp hs with hs | hs
          · exact hs
          · rw [List.mem_singleton.mp hs] at hname
            exact absurd plan.sameSchema.symm hname
        have hevolved : (Migrations.started plan db).evolved s.name = db.evolved s.name := by
          rw [Bool.eq_iff_iff, evolved_iff, evolved_iff]
          simp only [Migrations.started, Migrations.rebuilt]
          split
          · exact Iff.rfl
          · simp [hname]
        rw [hevolved]
        refine List.mem_append_left _ (List.mem_filter.mpr ⟨hg.guarded s hs', ?_⟩)
        simpa [plan.sameSchema] using hname
  | moved => exact ⟨hwf, hg.guarded, hbacked⟩
  | progressed => exact ⟨hwf, hg.guarded, hg.backed⟩

theorem Effect.guarded {db after : Catalog} (hg : db.Guarded) (h : Effect db after) : after.Guarded := by
  cases h with
  | installed schema _ h => exact h.guarded hg
  | enrolled name _ => exact ⟨{ hg.wf with }, hg.guarded, hg.backed⟩
  | rows _ h => exact h.guarded hg
  | migration _ h => exact h.guarded hg

theorem Effects.guarded {db after : Catalog} (hg : db.Guarded) (h : Effects db after) : after.Guarded :=
  Runs.invariant Guarded (fun _ _ hg h => h.guarded hg) h hg

theorem Journaled.guarded {db after : Catalog} {prepared : PreparedFile} (hg : db.Guarded)
    (h : Journaled db prepared after) : after.Guarded := by
  have hwf := h.wf hg.wf
  obtain ⟨_, _, _, _, _, _, _⟩ := h
  refine ⟨hwf, hg.guarded, fun b hb hready => ?_⟩
  exact (hg.backed b hb hready).mono rfl rfl (fun m hm _ _ => ⟨m, hm, rfl, rfl, le_refl _⟩)
    (fun _ ho _ => ho) fun _ hp _ => List.mem_append_left _ hp

theorem Change.guarded {db after : Catalog} (hg : db.Guarded) (h : Change db after) : after.Guarded := by
  have hwf := h.wf hg.wf
  rcases h with h | ⟨_, h⟩ | h
  · exact h.guarded hg
  · exact h.guarded hg
  · obtain ⟨_, _, _, _, _⟩ := h
    exact ⟨hwf, hg.guarded, hg.backed⟩

theorem Reachable.guarded {db : Catalog} (h : Reachable db) : db.Guarded :=
  Runs.invariant Guarded (fun _ _ hg h => h.guarded hg) h.changes empty_guarded

-- The metadata row of a live blob is removed only with its retirement.
theorem Catalog.Guarded.metadata_live {db : Catalog} (hg : db.Guarded) (henrolled : db.Enrolled)
    {b : BlobRow} (hb : b ∈ db.blobs) {m old : MetaRow} (htable : m.table = b.schemaName)
    (hid : m.id = .text b.id)
    (hretired : old.table ∈ db.lifecycleSchemas → ∃ r ∈ db.retired, .text r.blobId = old.id) :
    ¬m.sameKey old = true := by
  intro hkey
  obtain ⟨htable', hid'⟩ := (sameKey_iff m old).mp hkey
  obtain ⟨s, hs, hname, _⟩ := hg.wf.blobDeclared b hb
  obtain ⟨r, hr, he⟩ := hretired (by
    rw [← htable', htable, ← hname]
    exact henrolled s hs)
  rw [← hid', hid] at he
  exact hg.wf.retiredGone r hr b hb (by simpa using he.symm)

-- A direct statement keeps the rows behind every ready blob.
theorem DirectEffect.guarded {db after : Catalog} (hg : db.Guarded) (henrolled : db.Enrolled)
    (h : DirectEffect db after) : after.Guarded := by
  have hwf := h.wf hg.wf
  have hsame : ∀ m ∈ db.metadata, ∃ m' ∈ db.metadata, m'.table = m.table ∧ m'.id = m.id ∧
      m.schemaVersion ≤ m'.schemaVersion := fun m hm => ⟨m, hm, rfl, rfl, le_refl _⟩
  cases h with
  | nothing => exact hg
  | blobInserted b hstate =>
      refine ⟨hwf, hg.guarded, fun b' hb' hready => ?_⟩
      rcases List.mem_append.mp hb' with hb' | hb'
      · exact (hg.backed b' hb' hready).mono rfl rfl (fun m hm _ _ => hsame m hm) (fun _ ho _ => ho)
          fun _ hp _ => hp
      · rw [List.mem_singleton.mp hb', hstate] at hready
        cases hready
  | blobUpdated old new hold hid hname _ hguards hdeclared _ =>
      refine ⟨hwf, hg.guarded, fun b' hb' hready => ?_⟩
      rcases (mem_rewrite _ _ _ _).mp hb' with ⟨hb', _⟩ | ⟨_, _, _, rfl⟩
      · exact (hg.backed b' hb' hready).mono rfl rfl (fun m hm _ _ => hsame m hm) (fun _ ho _ => ho)
          fun _ hp _ => hp
      by_cases ho : old.state = .ready
      · exact (hg.backed old hold ho).mono hid hname (fun m hm _ _ => hsame m hm) (fun _ ho _ => ho)
          fun _ hp _ => hp
      · exact (hg.publishable hdeclared (hguards ho hready)).mono rfl rfl (fun m hm _ _ => hsame m hm)
          (fun _ ho _ => ho) fun _ hp _ => hp
  | objectInserted o =>
      refine ⟨hwf, hg.guarded, fun b hb hready => ?_⟩
      exact (hg.backed b hb hready).mono rfl rfl (fun m hm _ _ => hsame m hm)
        (fun _ ho _ => List.mem_append_left _ ho) fun _ hp _ => hp
  | preparedInserted p =>
      refine ⟨hwf, hg.guarded, fun b hb hready => ?_⟩
      exact (hg.backed b hb hready).mono rfl rfl (fun m hm _ _ => hsame m hm) (fun _ ho _ => ho)
        fun _ hp _ => List.mem_append_left _ hp
  | preparedDeleted p hobjects =>
      refine ⟨hwf, hg.guarded, fun b hb hready => ?_⟩
      refine (hg.backed b hb hready).mono rfl rfl (fun m hm _ _ => hsame m hm) (fun _ ho _ => ho)
        fun q hq hbound => ?_
      obtain ⟨o, ho, htoken⟩ := hbound
      exact List.mem_filter.mpr ⟨hq, by simpa [htoken] using hobjects o ho⟩
  | encodingInserted => exact ⟨hwf, hg.guarded, hg.backed⟩
  | metaInserted m =>
      refine ⟨hwf, hg.guarded, fun b hb hready => ?_⟩
      exact (hg.backed b hb hready).mono rfl rfl
        (fun m hm _ _ => ⟨m, List.mem_append_left _ hm, rfl, rfl, le_refl _⟩) (fun _ ho _ => ho)
        fun _ hp _ => hp
  | metaUpdated old new hold hnew =>
      refine ⟨hwf, hg.guarded, fun b hb hready => ?_⟩
      exact (hg.backed b hb hready).mono rfl rfl
        (fun m hm _ _ => rewritten_meta hold hnew.1 hnew.2.1 hg.wf (le_of_eq hnew.2.2.symm) hm)
        (fun _ ho _ => ho) fun _ hp _ => hp
  | metaDeleted m hretired =>
      refine ⟨hwf, hg.guarded, fun b hb hready => ?_⟩
      refine (hg.backed b hb hready).mono rfl rfl (fun m' hm' htable hid => ?_) (fun _ ho _ => ho)
        fun _ hp _ => hp
      refine ⟨m', List.mem_filter.mpr ⟨hm', ?_⟩, rfl, rfl, le_refl _⟩
      rw [Bool.not_eq_true', Bool.eq_false_iff]
      intro hkey
      exact hg.metadata_live henrolled hb htable hid hretired hkey

-- Enrollment

theorem RowChange.schemas_kept {db after : Catalog} (h : RowChange db after) :
    after.schemas = db.schemas ∧ after.lifecycleSchemas = db.lifecycleSchemas := by
  cases h <;> exact ⟨rfl, rfl⟩

theorem RowChanges.enrolled {db after : Catalog} (he : db.Enrolled) (h : RowChanges db after) :
    after.Enrolled := by
  refine Runs.invariant Enrolled (fun before next he h => ?_) h he
  obtain ⟨hschemas, hlifecycle⟩ := h.schemas_kept
  rw [Enrolled, hschemas, hlifecycle]
  exact he

theorem enrolled_append {db : Catalog} (he : db.Enrolled) (schema : BlobSchema)
    (hname : schema.name ∈ db.lifecycleSchemas) :
    ∀ s ∈ db.schemas ++ [{ name := schema.name, version := schema.version, definition := schema }],
      s.name ∈ db.lifecycleSchemas := by
  intro s hs
  rcases List.mem_append.mp hs with hs | hs
  · exact he s hs
  · rw [List.mem_singleton.mp hs]
    exact hname

theorem Installs.enrolled {db after : Catalog} {schema : BlobSchema} (he : db.Enrolled)
    (h : Installs db schema after) (hname : schema.name ∈ db.lifecycleSchemas) : after.Enrolled := by
  obtain ⟨_, _, _, rfl, hschemas, _⟩ := h
  rcases hschemas with ⟨rfl, _⟩ | ⟨rfl, _⟩
  · simpa [Enrolled] using he
  · exact enrolled_append he schema hname

theorem MigrationChange.enrolled {db after : Catalog} (he : db.Enrolled) (h : MigrationChange db after) :
    after.Enrolled := by
  cases h with
  | initialized plan hinstalled =>
      refine enrolled_append he plan.target ?_
      obtain ⟨row, hrow, _⟩ := Option.map_eq_some_iff.mp hinstalled.declared
      obtain ⟨hmem, hname, _⟩ := mem_of_schema? hrow
      rw [← plan.sameSchema, ← hname]
      exact he row hmem
  | moved => exact he
  | progressed => exact he

theorem MigrationChanges.enrolled {db after : Catalog} (he : db.Enrolled)
    (h : MigrationChanges db after) : after.Enrolled :=
  Runs.invariant Enrolled (fun _ _ he h => h.enrolled he) h he

-- A schema is declared, guarded and enrolled by one operation.
theorem installSchema_enrolled {db after : Catalog} {schema : BlobSchema} (he : db.Enrolled)
    (h : Store.installSchema schema db = .ok after) : after.Enrolled := by
  obtain ⟨mid, hinstalls, rfl⟩ := installSchema_effects h
  obtain ⟨schemas, _, _, rfl, hschemas, _⟩ := hinstalls
  have hdeclared : ∀ s ∈ db.schemas ++ schemas, s.name = schema.name ∨ s.name ∈ db.lifecycleSchemas := by
    intro s hs
    rcases List.mem_append.mp hs with hs | hs
    · exact Or.inr (he s hs)
    · rcases hschemas with ⟨rfl, _⟩ | ⟨rfl, _⟩
      · cases hs
      · rw [List.mem_singleton.mp hs]
        exact Or.inl rfl
  unfold Lifecycle.installSchema
  split
  · rename_i hold
    intro s hs
    rcases hdeclared s hs with hname | hname
    · rw [hname]
      exact hold
    · exact hname
  · intro s hs
    rcases hdeclared s hs with hname | hname
    · exact List.mem_append_right _ (by simp [hname])
    · exact List.mem_append_left _ hname

theorem exec_enrolled {db after : Catalog} {action : Action} (hw : db.Wf) (he : db.Enrolled)
    (h : action.exec db = .ok after)
    (henrolled : ∀ plan, action = .initializeJob plan → plan.source.name ∈ db.lifecycleSchemas) :
    after.Enrolled := by
  cases action with
  | installSchema schema => exact installSchema_enrolled he h
  | finalize storage prepared schema metadata id =>
      obtain ⟨_, h⟩ := map_snd_eq_ok h
      exact (finalize_effects h).enrolled he
  | publish storage id =>
      obtain ⟨_, h⟩ := map_snd_eq_ok h
      exact (publish_effects h).enrolled he
  | create storage call prepared =>
      obtain ⟨_, h⟩ := map_snd_eq_ok h
      exact (create_effects h).enrolled he
  | updateMetadata id schema changes expectedVersion =>
      obtain ⟨_, h⟩ := map_snd_eq_ok h
      obtain ⟨_, _, _, _, _, _, _, _, hchange⟩ := updateMetadata_effect h
      exact RowChanges.enrolled he (.single hchange)
  | delete storage id expectedVersion =>
      obtain ⟨_, h⟩ := map_snd_eq_ok h
      exact (RowChanges.of_or ((delete_effect hw h).imp_right fun h => h.2.2)).enrolled he
  | discardPrepared storage prepared =>
      obtain ⟨_, h⟩ := map_snd_eq_ok h
      exact (RowChanges.of_or ((discard_effect h).2.2.imp_right And.right)).enrolled he
  | initializeJob plan =>
      obtain ⟨_, h⟩ := map_snd_eq_ok h
      obtain ⟨mid, hinstalls, _, _, hstart⟩ := initializeJob_effect h
      have hmid := hinstalls.enrolled he (henrolled plan rfl)
      rcases hstart with ⟨rfl, _⟩ | ⟨_, _, hstart⟩
      · exact hmid
      · exact hstart.enrolled hmid
  | batch plan batchSize =>
      obtain ⟨_, h⟩ := map_snd_eq_ok h
      exact (batch_effects h).enrolled he
  | queueOrphans storage keys => exact (queueOrphans_effects h).enrolled he

theorem DirectEffect.enrolled {db after : Catalog} (he : db.Enrolled) (h : DirectEffect db after) :
    after.Enrolled := by
  cases h <;> exact he

-- Runs

structure Catalog.Held (db : Catalog) : Prop where
  guarded : db.Guarded
  enrolled : db.Enrolled

theorem Executes.held {db after : Catalog} (hh : db.Held) (h : Executes db after) : after.Held := by
  cases h with
  | direct statement h =>
      have heffect := direct_effect hh.guarded.wf h
      exact ⟨heffect.guarded hh.guarded hh.enrolled, heffect.enrolled hh.enrolled⟩
  | store action h henrolled =>
      exact ⟨(exec_effects hh.guarded.wf h).guarded hh.guarded,
        exec_enrolled hh.guarded.wf hh.enrolled h henrolled⟩

theorem executes_held {db mid : Catalog} (hh : db.Held) (h : Runs.Run Executes db mid) : mid.Held :=
  Runs.invariant Catalog.Held (fun _ _ hh h => h.held hh) h hh

theorem Serves.held {db after : Catalog} (hh : db.Held ∧ db.DeferredKeys) (h : Serves db after) :
    after.Held ∧ after.DeferredKeys := by
  obtain ⟨⟨hg, he⟩, hkeys⟩ := hh
  cases h with
  | transaction h hkeys => exact ⟨executes_held ⟨hg, he⟩ h, hkeys⟩
  | journaling schema prepared h hkeys =>
      have hjournaled := journal_effect h
      refine ⟨⟨hjournaled.guarded hg, ?_⟩, hkeys⟩
      obtain ⟨_, _, _, _, _, _, _⟩ := hjournaled
      exact he
  | recording job error h =>
      rcases recordCleanup_effect h with rfl | ⟨_, _, _, _, rfl, hrecorded⟩
      · exact ⟨⟨hg, he⟩, hkeys⟩
      · exact ⟨⟨⟨hrecorded.wf hg.wf, hg.guarded, hg.backed⟩, he⟩, hkeys⟩

theorem Served.held {db : Catalog} (h : Served db) : db.Held ∧ db.DeferredKeys :=
  Runs.invariant (fun db : Catalog => db.Held ∧ db.DeferredKeys) (fun _ _ hh h => h.held hh) h
    ⟨⟨empty_guarded, by simp [Enrolled, Catalog.empty]⟩, by simp [Catalog.DeferredKeys, Catalog.empty]⟩

-- At a commit the versions agree as well.
theorem Catalog.Backed.complete {db : Catalog} (hw : db.Wf) (hkeys : db.DeferredKeys) {b : BlobRow}
    (hb : b ∈ db.blobs) (hbacked : db.Backed b) : ∃ o p m, db.Complete b.id b o p m := by
  obtain ⟨m, hm, o, ho, p, hp, ⟨htable, hid⟩, hoid, htoken, hname, hversion⟩ := hbacked
  have hparent : db.hasParent m := by
    rcases hw.metaHasParent m hm with hevolved | hparent
    · exact hkeys.1 m hm hevolved
    · exact hparent
  obtain ⟨b', hb', htable', hid', hversion'⟩ := hparent
  have hbid : b'.id = b.id := by
    rw [hid] at hid'
    simpa using hid'.symm
  obtain rfl := hw.blob_eq hb' hb hbid
  exact ⟨o, p, m, hb, rfl, ho, hoid, hp, htoken, hname, by rw [← hversion']; exact hversion, hm, htable,
    hid, hversion'⟩

theorem Catalog.Guarded.complete {db : Catalog} (hg : db.Guarded) (hkeys : db.DeferredKeys) {b : BlobRow}
    (hb : b ∈ db.blobs) (hready : b.state = .ready) : ∃ o p m, db.Complete b.id b o p m :=
  (hg.backed b hb hready).complete hg.wf hkeys hb

-- Reading a complete blob

section Reading

variable {db : Catalog} {b : BlobRow} {o : ObjectRow} {p : PreparedRow} {m : MetaRow}

theorem Catalog.Complete.meta_filter (hw : db.Wf) (hc : db.Complete b.id b o p m) :
    (db.metadata.filter fun m => m.table = b.schemaName && m.id = .text b.id) = [m] := by
  refine hw.metaKey.filter_eq_singleton hc.metadata (k := (b.schemaName, .text b.id)) ?_ _ ?_ ?_
  · rw [hc.metaTable, hc.metaId]
  · simp [hc.metaTable, hc.metaId]
  · intro other _ hselect
    simp only [Bool.and_eq_true, decide_eq_true_eq] at hselect
    rw [hselect.1, hselect.2]

theorem Catalog.Complete.object_filter (hw : db.Wf) (hc : db.Complete b.id b o p m) :
    (db.objects.filter fun o => o.blobId = b.id) = [o] :=
  hw.objectBlob.filter_eq_singleton hc.object (congrArg some hc.objectBlob) _
    (decide_eq_true hc.objectBlob) fun _ _ hselect => congrArg some (of_decide_eq_true hselect)

theorem Catalog.Complete.find_blob (hw : db.Wf) (hc : db.Complete b.id b o p m) {readyOnly : Bool}
    (hready : readyOnly = true → b.state = .ready) :
    (db.blobs.find? fun b' => b'.id = b.id && (!readyOnly || b'.state = .ready)) = some b := by
  refine hw.blobId.find?_eq_some hc.blob rfl _ ?_ fun other _ hselect => ?_
  · cases readyOnly
    · simp
    · simp [hready rfl]
  · simp only [Bool.and_eq_true, decide_eq_true_eq] at hselect
    rw [hselect.1]

theorem Catalog.Complete.find_association (hw : db.Wf) (hc : db.Complete b.id b o p m) :
    Store.association db b.id = some p := by
  have ho : (db.objects.find? fun o => o.blobId = b.id) = some o :=
    hw.objectBlob.find?_eq_some hc.object rfl _ (decide_eq_true hc.objectBlob) fun other _ hselect => by
      rw [of_decide_eq_true hselect, hc.objectBlob]
  have hp : (db.prepared.find? fun p => p.token = o.token) = some p :=
    hw.preparedToken.find?_eq_some hc.prepared rfl _ (decide_eq_true hc.preparedToken)
      fun other _ hselect => by rw [of_decide_eq_true hselect, hc.preparedToken]
  simp [Store.association, ho, hp]

theorem Catalog.Complete.find_meta (hw : db.Wf) (hc : db.Complete b.id b o p m) :
    (db.metadata.find? fun m => m.table = b.schemaName && m.id = .text b.id) = some m := by
  rw [← List.head?_filter, hc.meta_filter hw]
  rfl

end Reading

def notIntegrity (error : Error) : Prop := error.isIntegrityError = false

theorem require_fails {allowed : Error → Prop} {condition : Prop} [Decidable condition] {error : Error}
    (h : allowed error) : FailsOnly allowed (require condition error : Except Error Unit) :=
  FailsOnly.require h

theorem require_bind_fails {allowed : Error → Prop} {α : Type} {condition : Prop} [Decidable condition]
    {error : Error} {next : Except Error α} (h : allowed error) (hnext : FailsOnly allowed next) :
    FailsOnly allowed (do
      require condition error
      next) :=
  (require_fails h).bind fun _ _ => hnext

theorem loadsDescriptor_fails (descriptor : TextCell) :
    FailsOnly notIntegrity (loadsDescriptor descriptor) := by
  simp only [loadsDescriptor]
  generalize Option.bind _ _ = tree
  cases tree with
  | some tree => exact .ok _
  | none => exact .error rfl

-- Reading a ready blob never finds its rows inconsistent.
theorem record_fails {db : Catalog} (hg : db.Guarded) (hkeys : db.DeferredKeys) {b : BlobRow}
    (hb : b ∈ db.blobs) (hready : b.state = .ready) (readyOnly : Bool) :
    FailsOnly notIntegrity (Store.record db b.id readyOnly) := by
  obtain ⟨o, p, m, hc⟩ := hg.complete hkeys hb hready
  simp only [Store.record, hc.find_blob hg.wf fun _ => hready, hc.find_association hg.wf, fromOption]
  refine FailsOnly.bind (.ok _) fun b' hb' => ?_
  obtain rfl := Except.ok.inj hb'
  refine FailsOnly.bind (.ok _) fun p' hp' => ?_
  obtain rfl := Except.ok.inj hp'
  simp only [hc.find_meta hg.wf, require, if_pos (And.intro hc.sameSchema hc.notAbove)]
  refine FailsOnly.bind (.ok _) fun _ _ => FailsOnly.bind (.ok _) fun m' hm' => ?_
  obtain rfl := Except.ok.inj hm'
  rw [if_pos hc.sameVersion]
  refine FailsOnly.bind (.ok _) fun _ _ => FailsOnly.bind ?_ fun _ _ => ?_
  · exact FailsOnly.fromOption rfl
  · split
    · exact .pure _
    · exact (loadsDescriptor_fails _).bind fun _ _ => .pure _

-- The query itself raises no integrity error either.

theorem Codecs.normalize_fails (spec : Field) (value : Codecs.Argument) :
    FailsOnly notIntegrity (Codecs.normalize spec value) := by
  intro raised h
  unfold Codecs.normalize Field.unexpected at h
  repeat' split at h
  all_goals first | (cases h; rfl) | cases h

theorem Codecs.fromSql_fails (spec : Field) (value : Codecs.Cell) :
    FailsOnly notIntegrity (Codecs.fromSql spec value) := by
  unfold Codecs.fromSql
  split
  · exact (Codecs.normalize_fails spec _).bind fun _ _ => .pure _
  · split
    · split
      · exact .ok _
      · split
        · exact .ok _
        · exact .error rfl
    · split
      · split
        · exact require_bind_fails rfl (.pure _)
        · exact .error rfl
      · exact .error rfl
    · exact (Codecs.normalize_fails spec _).bind fun _ _ => .pure _

namespace Query

theorem field_fails (schema : BlobSchema) (name : String) : FailsOnly notIntegrity (field schema name) := by
  unfold field
  split
  · exact .ok _
  · exact FailsOnly.fromOption rfl

theorem ordering_fails (schema : BlobSchema) (orderBy : List Order) :
    FailsOnly notIntegrity (ordering schema orderBy) := by
  refine require_bind_fails rfl (FailsOnly.bind ?_ fun _ _ => .pure _)
  refine FailsOnly.mapM fun entry _ => (field_fails _ _).bind fun _ _ => ?_
  exact require_bind_fails rfl (.pure _)

theorem compileTerm_fails (schema : BlobSchema) (term : Predicate) :
    FailsOnly notIntegrity (compileTerm schema term) := by
  refine (field_fails _ _).bind fun spec _ => ?_
  split
  · exact require_bind_fails rfl (.pure _)
  · split
    · split
      · exact .error rfl
      · refine require_bind_fails rfl (require_bind_fails rfl ?_)
        exact (FailsOnly.mapM fun _ _ => Codecs.normalize_fails _ _).bind fun _ _ => .pure _
    · split
      · exact .error rfl
      · split
        · exact require_bind_fails rfl (.pure _)
        · exact (Codecs.normalize_fails _ _).bind fun _ _ => .pure _
        · exact .error rfl

theorem cursorValue_fails (schema : BlobSchema) (item : Order) (value : Codecs.Cell) :
    FailsOnly notIntegrity (cursorValue schema item value) := by
  refine (field_fails _ _).bind fun spec _ => ?_
  split
  · exact require_bind_fails rfl (.pure _)
  · exact (Codecs.fromSql_fails _ _).bind fun _ _ => Codecs.normalize_fails _ _

theorem compileAfter_fails (schema : BlobSchema) (order : List Order) (after : After) :
    FailsOnly notIntegrity (compileAfter schema order after) := by
  have hcursor (cursor : FindCursor) : FailsOnly notIntegrity (compileAfter schema order (.cursor cursor)) :=
    require_bind_fails rfl
      ((FailsOnly.mapM fun _ _ => cursorValue_fails _ _ _).bind fun _ _ => .pure _)
  cases after with
  | none => exact .ok _
  | id value => exact hcursor _
  | cursor cursor => exact hcursor cursor

theorem compileQuery_fails (schema : BlobSchema) (conditions : List (String × Codecs.Argument))
    (predicates : List Predicate) (orderBy : List Order) (after : After) (limit : Int) :
    FailsOnly notIntegrity (compileQuery schema conditions predicates orderBy after limit) := by
  refine require_bind_fails rfl (require_bind_fails rfl ?_)
  refine (FailsOnly.mapM fun _ _ => compileTerm_fails _ _).bind fun _ _ => ?_
  refine (ordering_fails _ _).bind fun _ _ => (compileAfter_fails _ _ _).bind fun _ _ => .pure _

theorem bindParameter_fails (param : Codecs.Cell) : FailsOnly notIntegrity (bindParameter param) := by
  cases param with
  | text s => exact FailsOnly.fromOption rfl
  | _ => exact .ok _

end Query

theorem schema_fails (db : Catalog) (schema : BlobSchema) (write : Bool) :
    FailsOnly notIntegrity (Store.schema db schema write) := by
  refine require_bind_fails rfl (FailsOnly.bind ?_ fun _ _ => require_fails rfl)
  cases write
  · exact .pure _
  · exact require_fails rfl

-- Every id the query returns is that of a ready blob.
theorem find_fails {db : Catalog} (hg : db.Guarded) (hkeys : db.DeferredKeys) (schema : BlobSchema)
    (conditions : List (String × Codecs.Argument)) (predicates : List Query.Predicate)
    (orderBy : List Query.Order) (after : Query.After) (limit : Int) :
    FailsOnly notIntegrity (Store.find db schema conditions predicates orderBy after limit) := by
  refine (schema_fails _ _ _).bind fun _ _ => ?_
  refine (Query.compileQuery_fails _ _ _ _ _ _).bind fun compiled hcompiled => ?_
  have hbind := FailsOnly.mapM fun param (_ : param ∈ compiled.2) => Query.bindParameter_fails param
  refine FailsOnly.bind (require_bind_fails rfl (hbind.bind fun _ _ => .pure _)) fun ids hids => ?_
  obtain ⟨_, _, _, _, _, _, hcond⟩ := Query.compileQuery_effect _ _ _ _ _ _ _ _ hcompiled
  refine FailsOnly.mapM fun id hid => ?_
  simp only [Query.Select.run, bind_eq_ok, require_eq_ok, pure_eq_ok] at hids
  obtain ⟨_, _, params, hparams, rfl⟩ := hids
  obtain ⟨hbindable, rfl⟩ := Query.mapM_bindParameter_eq_ok hparams
  have hcond := hcond hbindable
  obtain ⟨row, hrow, rfl⟩ := List.mem_map.mp hid
  have hrow := List.mem_of_mem_take hrow
  rw [Query.orderBy, List.mem_insertionSort, List.mem_filter] at hrow
  obtain ⟨hjoined, hholds⟩ := hrow
  have hblob : row.1 ∈ db.blobs := by
    simp only [Query.joined, List.mem_flatMap, List.mem_map] at hjoined
    obtain ⟨b, hb, m, _, rfl⟩ := hjoined
    exact hb
  exact record_fails hg hkeys hblob ((hcond row).mp hholds).1 true

theorem stat_fails {db : Catalog} (hg : db.Guarded) (hkeys : db.DeferredKeys) {b : BlobRow}
    (hb : b ∈ db.blobs) (hready : b.state = .ready) : FailsOnly notIntegrity (Store.stat db b.id) := by
  refine FailsOnly.bind ?_ fun _ _ => record_fails hg hkeys hb hready true
  exact require_bind_fails rfl (require_bind_fails rfl (.pure _))

-- What an accepted direct statement leaves as it was.
structure Preserves (db after : Catalog) : Prop where
  ready : ∀ b ∈ db.blobs, b.state = .ready →
    ∃ b' ∈ after.blobs, b'.id = b.id ∧ b'.schemaName = b.schemaName ∧ b'.state = .ready
  metadata : ∀ b ∈ db.blobs, b.state = .ready → ∀ m ∈ db.metadata, m.table = b.schemaName →
    m.id = .text b.id → ∃ m' ∈ after.metadata, m'.table = m.table ∧ m'.id = m.id ∧
      m'.schemaVersion = m.schemaVersion
  objects : ∀ o ∈ db.objects, o ∈ after.objects
  prepared : ∀ p ∈ db.prepared, ∀ q ∈ after.prepared, q.token = p.token → q = p
  encodings : ∀ e ∈ db.encodings, e ∈ after.encodings
  newEncodings : ∀ e ∈ after.encodings, e ∈ db.encodings ∨ ∀ other ∈ db.encodings, other.token ≠ e.token

theorem preserves_refl {db : Catalog} (hw : db.Wf) : Preserves db db :=
  ⟨fun b hb hr => ⟨b, hb, rfl, rfl, hr⟩, fun _ _ _ m hm _ _ => ⟨m, hm, rfl, rfl, rfl⟩, fun _ ho => ho,
    fun _ hp _ hq he => hw.prepared_eq hq hp he, fun _ he => he, fun _ he => Or.inl he⟩

theorem DirectEffect.preserves {db after : Catalog} (hg : db.Guarded) (henrolled : db.Enrolled)
    (h : DirectEffect db after) : Preserves db after := by
  have hsame := preserves_refl hg.wf
  cases h with
  | nothing => exact hsame
  | blobInserted b =>
      exact { hsame with
        ready := fun b' hb' hr => ⟨b', List.mem_append_left _ hb', rfl, rfl, hr⟩ }
  | blobUpdated old new hold hid hname hkept =>
      exact { hsame with
        ready := fun b hb hr => by
          by_cases he : b.id = old.id
          · obtain rfl := hg.wf.blob_eq hb hold he
            exact ⟨new, (mem_rewrite _ _ _ _).mpr (Or.inr ⟨b, hb, by simp, rfl⟩), hid, hname, hkept hr⟩
          · exact ⟨b, (mem_rewrite _ _ _ _).mpr (Or.inl ⟨hb, by simpa using he⟩), rfl, rfl, hr⟩ }
  | objectInserted o => exact { hsame with objects := fun _ ho => List.mem_append_left _ ho }
  | preparedInserted p htoken =>
      exact { hsame with
        prepared := fun q hq q' hq' he => by
          rcases List.mem_append.mp hq' with hq' | hq'
          · exact hg.wf.prepared_eq hq' hq he
          · rw [List.mem_singleton.mp hq'] at he
            exact absurd he.symm (htoken q hq) }
  | preparedDeleted p =>
      exact { hsame with
        prepared := fun q hq q' hq' he => hg.wf.prepared_eq (List.mem_of_mem_filter hq') hq he }
  | encodingInserted e hfresh =>
      exact { hsame with
        encodings := fun _ he => List.mem_append_left _ he
        newEncodings := fun e' he' => by
          rcases List.mem_append.mp he' with he' | he'
          · exact Or.inl he'
          · rw [List.mem_singleton.mp he']
            exact Or.inr hfresh }
  | metaInserted m =>
      exact { hsame with
        metadata := fun _ _ _ m' hm' _ _ => ⟨m', List.mem_append_left _ hm', rfl, rfl, rfl⟩ }
  | metaUpdated old new hold hnew =>
      exact { hsame with
        metadata := fun _ _ _ m hm _ _ => by
          by_cases hkey : m.sameKey old = true
          · obtain ⟨htable, hid⟩ := (sameKey_iff m old).mp hkey
            obtain rfl := hg.wf.meta_eq hm hold htable hid
            exact ⟨new, (mem_rewrite _ _ _ _).mpr (Or.inr ⟨m, hm, hkey, rfl⟩), hnew⟩
          · exact ⟨m, (mem_rewrite _ _ _ _).mpr (Or.inl ⟨hm, by simpa using hkey⟩), rfl, rfl, rfl⟩ }
  | metaDeleted m hretired =>
      exact { hsame with
        metadata := fun b hb _ m' hm' htable hid => by
          refine ⟨m', List.mem_filter.mpr ⟨hm', ?_⟩, rfl, rfl, rfl⟩
          rw [Bool.not_eq_true', Bool.eq_false_iff]
          intro hkey
          exact hg.metadata_live henrolled hb htable hid hretired hkey }

-- Readiness cannot be broken from SQL.
theorem readiness_cannot_be_broken (db : Catalog) (h : Served db) :
    (∀ b ∈ db.blobs, b.state = .ready →
      (∃ m, (db.metadata.filter fun m => m.table = b.schemaName && m.id = .text b.id) = [m] ∧
        m.schemaVersion = b.schemaVersion) ∧
      (∃ o, (db.objects.filter fun o => o.blobId = b.id) = [o] ∧
        ∃ p ∈ db.prepared, p.token = o.token ∧ p.schemaName = b.schemaName ∧
          p.schemaVersion ≤ b.schemaVersion) ∧
      (∀ readyOnly, FailsOnly notIntegrity (Store.record db b.id readyOnly)) ∧
      FailsOnly notIntegrity (Store.stat db b.id)) ∧
    (∀ schema conditions predicates orderBy after limit,
      FailsOnly notIntegrity (Store.find db schema conditions predicates orderBy after limit)) ∧
    ∀ mid, Runs.Run Executes db mid → ∀ statement after, Direct.exec mid statement = .ok after →
      Preserves mid after := by
  obtain ⟨hheld, hkeys⟩ := h.held
  refine ⟨fun b hb hready => ?_, ?_, ?_⟩
  · obtain ⟨o, p, m, hc⟩ := hheld.guarded.complete hkeys hb hready
    exact ⟨⟨m, hc.meta_filter hheld.guarded.wf, hc.sameVersion⟩,
      ⟨o, hc.object_filter hheld.guarded.wf, p, hc.prepared, hc.preparedToken, hc.sameSchema, hc.notAbove⟩,
      fun readyOnly => record_fails hheld.guarded hkeys hb hready readyOnly,
      stat_fails hheld.guarded hkeys hb hready⟩
  · exact fun schema conditions predicates orderBy after limit =>
      find_fails hheld.guarded hkeys schema conditions predicates orderBy after limit
  · intro mid hrun statement after hstatement
    have hmid := executes_held hheld hrun
    exact (direct_effect hmid.guarded.wf hstatement).preserves hmid.guarded hmid.enrolled

theorem published_served : Served published := by
  have hinstalled : Serves Catalog.empty installed :=
    .transaction (.single (.store (.installSchema note) (orElse_of_isOk (by decide) _) (by simp))) (by decide)
  have hjournaled : Serves installed journaled :=
    .journaling note draft (orElse_of_isOk (by decide) _) (by decide)
  have hpublished : Serves journaled published := by
    refine .transaction (.tail (.single (.store (.finalize "s" draft note [("title", .str "a")] "b1")
      (orElse_of_isOk (by decide) journaled) (by simp))) (.store (.publish "s" "b1") ?_ (by simp)))
      (by decide)
    rfl
  exact .tail (.tail (.single hinstalled) hjournaled) hpublished

-- An application gives the note other titles, with statements of its own.
def retitling (version : Int) (title : String) : Direct :=
  .updateMeta "note" (.text "b1")
    { id := .text "b1", schemaName := .text "note", schemaVersion := .int 1, version := .int version,
      fields := fun name => if name = "title" then .text title else .null }

def directlyEdited : Catalog := orElse (Direct.exec published (retitling 2 "b")) published

theorem directlyEdited_served : Served directlyEdited := by
  have hexec : Executes published directlyEdited := .direct (retitling 2 "b") (orElse_of_isOk (by decide) _)
  exact published_served.tail (.transaction (.single hexec) (by decide))

theorem edited_blob_has_a_stat : (directlyEdited.metadata.map fun m => m.fields "title") = [.text "b"] ∧
    FailsOnly notIntegrity (Store.stat directlyEdited "b1") ∧
    ∃ after, Direct.exec directlyEdited (retitling 3 "c") = .ok after ∧ Preserves directlyEdited after := by
  obtain ⟨hready, -, hpreserves⟩ := readiness_cannot_be_broken directlyEdited directlyEdited_served
  obtain ⟨after, hafter⟩ :=
    exists_of_isOk (show (Direct.exec directlyEdited (retitling 3 "c")).isOk = true by decide)
  exact ⟨by decide, (hready ⟨"b1", "note", 1, .ready⟩ (by decide) rfl).2.2.2, after, hafter,
    hpreserves directlyEdited .refl _ after hafter⟩

end MeldStore
