import MeldStore.Installation.Outcome

namespace MeldStore

open Library Library.Checked Rebuild Rebuild.SqlObject

-- The steps that leave the registries alone

structure KeepsRegistries (db after : Catalog) : Prop where
  schemas : after.schemas = db.schemas
  payload : after.payloadSchemas = db.payloadSchemas
  lifecycle : after.lifecycleSchemas = db.lifecycleSchemas
  guards : after.guards = db.guards
  layouts : after.layouts = db.layouts

theorem KeepsRegistries.refl (db : Catalog) : KeepsRegistries db db := ⟨rfl, rfl, rfl, rfl, rfl⟩

theorem KeepsRegistries.trans {first second third : Catalog} (h : KeepsRegistries first second)
    (h' : KeepsRegistries second third) : KeepsRegistries first third :=
  ⟨h'.schemas.trans h.schemas, h'.payload.trans h.payload, h'.lifecycle.trans h.lifecycle,
    h'.guards.trans h.guards, h'.layouts.trans h.layouts⟩

-- One committed transaction of a store that neither installs a schema nor starts a migration.
inductive Works (db : Catalog) : Catalog → Prop
  | writes (actions : List Action) (after : Catalog)
      (hwrites : ∀ action ∈ actions, action.migrates = false ∧ action.installs = false)
      (h : transact actions db = .ok after) : Works db after
  | moves (plan : MetadataMigration) (batchSize : ℕ) (after : Catalog)
      (h : transact [.batch plan batchSize] db = .ok after) : Works db after
  | journaling (schema : BlobSchema) (storage token key : String) (byteSize : ℤ) (digest : String)
      (encoding : Option Encoding) (after : Catalog)
      (hdrawn : Backup.hexadecimal token.toList = true ∧ Backup.hexadecimal key.toList = true)
      (hfile : 0 ≤ byteSize ∧ byteSize < 2 ^ 63 ∧ Backup.hexadecimal digest.toList = true)
      (hsealed : (Store.prepareSnapshot storage token key schema byteSize digest encoding).Sealed)
      (h : Store.journal db schema (Store.prepareSnapshot storage token key schema byteSize digest encoding) =
        .ok after)
      (hkeys : after.DeferredKeys) : Works db after
  | recording (job : GcRow) (error : Option String) (after : Catalog)
      (h : Maintenance.recordCleanup job error db = .ok after) : Works db after

section

variable {db after : Catalog}

theorem Works.operates (h : Works db after) : Backup.Operates db after := by
  cases h with
  | writes actions _ hwrites h => exact .writes actions _ (fun action haction => (hwrites action haction).1) h
  | moves plan batchSize _ h => exact .moves plan batchSize _ h
  | journaling schema storage token key byteSize digest encoding _ hdrawn hfile hsealed h hkeys =>
      exact .journaling schema storage token key byteSize digest encoding _ hdrawn hfile hsealed h hkeys
  | recording job error _ h => exact .recording job error _ h

theorem RowChange.keepsRegistries (h : RowChange db after) : KeepsRegistries db after := by
  cases h <;> exact ⟨rfl, rfl, rfl, rfl, rfl⟩

theorem RowChanges.keepsRegistries (h : RowChanges db after) : KeepsRegistries db after := by
  induction h with
  | refl => exact KeepsRegistries.refl db
  | tail _ hlast ih => exact ih.trans hlast.keepsRegistries

theorem batch_keepsRegistries {plan : MetadataMigration} {batchSize : ℕ} {job : MigrationRow}
    (h : Migrations.batch plan batchSize db = .ok (job, after)) : KeepsRegistries db after := by
  simp only [Migrations.batch, bind_eq_ok] at h
  obtain ⟨start, _, h⟩ := h
  split at h
  · simp only [pure_eq_ok, Prod.mk.injEq] at h
    obtain ⟨_, rfl⟩ := h
    exact KeepsRegistries.refl db
  · simp only [bind_eq_ok, require_eq_ok, pure_eq_ok, Prod.mk.injEq] at h
    obtain ⟨_, _, mid, hloop, _, _, _, _, _, rfl⟩ := h
    have hmoved : KeepsRegistries db mid := by
      refine foldlM_relates KeepsRegistries _ _ db mid hloop KeepsRegistries.refl
        (fun _ _ _ hab hbc => hab.trans hbc) fun row _ before next hstep => ?_
      obtain ⟨_, _, _, _, _, _, _, _, _, _, _, _, _, _, _, rfl, _⟩ := migrateRow_effect hstep
      exact ⟨rfl, rfl, rfl, rfl, rfl⟩
    exact hmoved.trans ⟨rfl, rfl, rfl, rfl, rfl⟩

theorem Works.keepsRegistries (hw : db.Wf) (h : Works db after) : KeepsRegistries db after := by
  cases h with
  | writes actions _ hwrites h =>
      refine (foldlM_invariant (fun mid : Catalog => KeepsRegistries db mid ∧ mid.Wf) _ actions db _
        (Migrations.transact_eq_ok h).1 ⟨KeepsRegistries.refl db, hw⟩
          fun action haction before next hbefore hstep => ?_).1
      have hchanges := exec_rowChanges hbefore.2 (hwrites action haction) hstep
      exact ⟨hbefore.1.trans hchanges.keepsRegistries, exec_wf hbefore.2 hstep⟩
  | moves plan batchSize _ h =>
      obtain ⟨_, hbatch⟩ := map_snd_eq_ok (Migrations.transact_single h).1
      exact batch_keepsRegistries hbatch
  | journaling schema storage token key byteSize digest encoding _ hdrawn hfile hsealed h hkeys =>
      obtain ⟨_, _, _, _, _, _, _⟩ := journal_effect h
      exact ⟨rfl, rfl, rfl, rfl, rfl⟩
  | recording job error _ h =>
      rcases recordCleanup_effect h with rfl | ⟨_, _, _, _, rfl, _⟩
      · exact KeepsRegistries.refl _
      · exact ⟨rfl, rfl, rfl, rfl, rfl⟩

theorem declarations_congr (h : KeepsRegistries db after) (name : String) :
    after.declarations name = db.declarations name := by
  rw [Catalog.declarations, Catalog.declarations, h.schemas]

theorem evolved_congr (h : KeepsRegistries db after) (name : String) :
    after.evolved name = db.evolved name := by
  rw [Catalog.evolved, Catalog.evolved, h.layouts]

theorem declared_congr (h : KeepsRegistries db after) (name : String) :
    after.declared name ↔ db.declared name := by
  rw [Catalog.declared, Catalog.declared, h.schemas]

theorem owned_congr (h : KeepsRegistries db after) {extended indexed : Bool} {o : SqlObject} :
    Owned after extended indexed o ↔ Owned db extended indexed o := by
  constructor
  · intro ho
    cases ho with
    | fixed entry hentry ho => exact .fixed entry hentry ho
    | own name own hdeclared hown ho =>
        rw [evolved_congr h, declarations_congr h] at hown
        exact .own name own ((declared_congr h name).mp hdeclared) hown ho
  · intro ho
    cases ho with
    | fixed entry hentry ho => exact .fixed entry hentry ho
    | own name own hdeclared hown ho =>
        rw [← evolved_congr h, ← declarations_congr h] at hown
        exact .own name own ((declared_congr h name).mpr hdeclared) hown ho

end

-- What applications may do to sqlite_master: the reserved names and the format rows are not theirs.
structure Untouched (before after : Rebuild.Database) : Prop where
  objects : ∀ o, reserved o.name = true → (o ∈ after.objects ↔ o ∈ before.objects)
  formats : ∀ format ∈ formats, after.rows format.table = before.rows format.table

theorem Untouched.refl (database : Rebuild.Database) : Untouched database database :=
    ⟨fun _ _ => Iff.rfl, fun _ _ => rfl⟩

theorem Untouched.missing {before after : Rebuild.Database} (h : Untouched before after) {name : String}
    (hname : reserved name = true) : objectsOf after name = none ↔ objectsOf before name = none := by
  have hnone (database : Rebuild.Database) : objectsOf database name = none ↔
      ∀ o ∈ database.objects, o.name ≠ name := by
    rw [objectsOf, Option.map_eq_none_iff, List.getLast?_eq_none_iff, List.filter_eq_nil_iff]
    refine forall₂_congr fun o _ => ?_
    by_cases hsame : o.name = name
    · simp [hsame, reserved_not_internal hname]
    · simp [hsame]
  rw [hnone, hnone]
  constructor
  · exact fun hall o ho hsame => hall o ((h.objects o (hsame ▸ hname)).mpr ho) hsame
  · exact fun hall o ho hsame => hall o ((h.objects o (hsame ▸ hname)).mp ho) hsame

theorem Standing.kept {extended indexed : Bool} {s after : SqlCatalog} (h : Standing extended indexed s)
    (hsound : Backup.Sound after.rows) (hkeeps : KeepsRegistries s.rows after.rows)
    (huntouched : Untouched s.database after.database) : Standing extended indexed after := by
  refine
    { sound := hsound, guards := fun g hg => ?_, enrolled := fun name hname => ?_,
      formats := fun format hformat => ?_,
      own := fun name hname => ?_, objects := fun o ho => ?_, layouts := ?_ }
  · exact (declared_congr hkeeps _).mpr (h.guards g (hkeeps.guards ▸ hg))
  · exact (declared_congr hkeeps _).mpr (h.enrolled name (hkeeps.lifecycle ▸ hname))
  · rw [Format.Read, SqlCatalog.select, huntouched.formats format hformat]
    exact h.formats format hformat
  · rw [evolved_congr hkeeps, declarations_congr hkeeps]
    exact h.own name ((declared_congr hkeeps name).mp hname)
  · rw [huntouched.objects o ho, owned_congr hkeeps]
    exact h.objects o ho
  · rw [hkeeps.layouts]
    exact h.layouts

theorem Unopened.kept {s after : SqlCatalog} (h : Unopened s) (hrows : after.rows = s.rows)
    (huntouched : Untouched s.database after.database) : Unopened after :=
  ⟨hrows.trans h.rows, (huntouched.missing (by decide)).mpr h.format⟩

-- install_lifecycle and install_query_indexes

theorem foldlM_same {α : Type} {step : SqlCatalog → α → Except Error SqlCatalog}
    {items : List α} {s : SqlCatalog}
    (h : ∀ item ∈ items, step s item = .ok s) : items.foldlM step s = .ok s := by
  induction items with
  | nil => rfl
  | cons item items ih =>
      obtain ⟨hfirst, hrest⟩ := List.forall_mem_cons.mp h
      rw [List.foldlM_cons, hfirst]
      exact ih hrest

theorem Standing.installLifecycle {extended indexed : Bool} {s : SqlCatalog} (h : Standing extended indexed s) :
    SqlCatalog.Store.installLifecycle s = .ok s := by
  rw [SqlCatalog.Store.installLifecycle, h.lifecycle, except_ok_bind]
  refine foldlM_same fun row hrow => ?_
  have hmem : row ∈ s.rows.schemas := (List.mem_insertionSort _).mp hrow
  rw [Migrations.decode_definition, except_ok_bind]
  exact h.retirement ⟨row, hmem, ((h.wf.schemaRow row hmem).1).symm⟩

-- Statements that create other objects keep a catalog unopened.
theorem Unopened.executed {s after : SqlCatalog} {object : String × String → SqlObject}
    {ddl : Ddl} (h : Unopened s)
    (hother : ∀ entry ∈ ddl, (object entry).name ≠ "ms_format") (hrun : s.execute object ddl = .ok after) :
    Unopened after := by
  refine foldlM_invariant Unopened _ ddl s after hrun h fun entry hentry before next hbefore hstep => ?_
  simp only [SqlCatalog.statement, bind_eq_ok, pure_eq_ok] at hstep
  obtain ⟨database, hcreate, rfl⟩ := hstep
  obtain ⟨_, hobjects, _⟩ := create_spec hcreate
  refine ⟨hbefore.rows, ?_⟩
  have hfilter : [object entry].filter (fun o => o.name = "ms_format" && !isInternal o.name) = [] := by
    simp [hother entry hentry]
  show objectsOf database "ms_format" = none
  rw [objectsOf, hobjects, List.filter_append, hfilter, List.append_nil]
  exact hbefore.format

theorem Unopened.installLifecycle {s after : SqlCatalog} (h : Unopened s)
    (hrun : SqlCatalog.Store.installLifecycle s = .ok after) : Unopened after := by
  simp only [SqlCatalog.Store.installLifecycle, bind_eq_ok] at hrun
  obtain ⟨mid, hinstall, hloop⟩ := hrun
  have hmid : Unopened mid := by
    unfold SqlCatalog.Lifecycle.install at hinstall
    split_ifs at hinstall with hnone
    · simp only [bind_eq_ok, pure_eq_ok] at hinstall
      obtain ⟨_, _, _, _, _, _, created, hcreated, rfl⟩ := hinstall
      have hopen := h.executed (fun entry hentry =>
        (by decide : ∀ entry ∈ Lifecycle.DDL, entry.1 ≠ "ms_format") entry hentry) hcreated
      exact ⟨hopen.rows, hopen.format⟩
    · simp only [bind_eq_ok, pure_eq_ok] at hinstall
      obtain ⟨_, _, rfl⟩ := hinstall
      exact h
  rw [hmid.rows] at hloop
  cases hloop
  exact hmid

theorem Unopened.installQueryIndexes {s after : SqlCatalog} {added : List String} (h : Unopened s)
    (hrun : SqlCatalog.Store.installQueryIndexes s = .ok (added, after)) : Unopened after := by
  simp only [SqlCatalog.Store.installQueryIndexes, bind_eq_ok] at hrun
  obtain ⟨_, _, hloop⟩ := hrun
  refine foldlM_invariant (fun state : List String × SqlCatalog => Unopened state.2) _ _ ([], s)
    (added, after) hloop h
    fun entry hentry before next hbefore hstep => ?_
  obtain ⟨names, before⟩ := before
  dsimp only at hstep
  split_ifs at hstep with hnone
  · simp only [bind_eq_ok, pure_eq_ok] at hstep
    obtain ⟨created, hcreated, rfl⟩ := hstep
    refine @Unopened.executed _ _ fixedObject [entry] hbefore
      (List.forall_mem_singleton.mpr ((by decide : ∀ entry ∈ Store.queryIndexes, entry.1 ≠ "ms_format")
        entry hentry)) ?_
    rw [SqlCatalog.execute, List.foldlM_cons, hcreated]
    rfl
  · simp only [bind_eq_ok, pure_eq_ok] at hstep
    obtain ⟨_, _, rfl⟩ := hstep
    exact hbefore

end MeldStore
