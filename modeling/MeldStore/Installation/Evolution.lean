import MeldStore.Installation.Work

namespace MeldStore

open Library Library.Checked Rebuild Rebuild.SqlObject

-- The parts that are created once they are asked for

theorem owned_more {db : Catalog} {extended indexed more moreIndexed : Bool} {ddl : Ddl}
    (h : ∀ entry, entry ∈ fixedDdl more moreIndexed ↔ entry ∈ fixedDdl extended indexed ∨ entry ∈ ddl) :
    owned db more moreIndexed = owned db extended indexed ∪ listed (ddl.map fixedObject) := by
  ext o
  constructor
  · intro ho
    cases ho with
    | own name own hdeclared hown ho => exact .inl (.own name own hdeclared hown ho)
    | fixed entry hentry ho =>
        rcases (h entry).mp hentry with hold | hnew
        · exact .inl (.fixed entry hold ho)
        · exact .inr (ho ▸ List.mem_map_of_mem hnew)
  · rintro (ho | ho)
    · cases ho with
      | own name own hdeclared hown ho => exact .own name own hdeclared hown ho
      | fixed entry hentry ho => exact .fixed entry ((h entry).mpr (.inl hentry)) ho
    · obtain ⟨entry, hentry, rfl⟩ := List.mem_map.mp ho
      exact .fixed entry ((h entry).mpr (.inr hentry)) rfl

theorem mem_extended (indexed : Bool) (entry : String × String) :
    entry ∈ fixedDdl true indexed ↔ entry ∈ fixedDdl false indexed ∨ entry ∈ Migrations.DDL := by
  simp only [fixedDdl, if_true, Bool.false_eq_true, if_false, List.append_nil, List.mem_append]
  tauto

theorem mem_indexed (extended : Bool) (entry : String × String) :
    entry ∈ fixedDdl extended true ↔ entry ∈ fixedDdl extended false ∨ entry ∈ Store.queryIndexes := by
  simp only [fixedDdl, if_true, Bool.false_eq_true, if_false, List.append_nil, List.mem_append]

-- Fixed objects are told apart by their names.
theorem fixedObject_not_owned {db : Catalog} (hw : db.Wf) {extended indexed : Bool} {entry : String × String}
    (hentry : entry ∈ fixedDdl true true) (hnew : entry ∉ fixedDdl extended indexed) :
    fixedObject entry ∉ owned db extended indexed := by
  intro ho
  cases ho with
  | fixed other hother hsame =>
      have hnames : asciiLower entry.1 = asciiLower other.1 :=
        congrArg (fun o : SqlObject => asciiLower o.name) hsame
      obtain rfl := List.inj_on_of_nodup_map fixedDdl_names_nodup hentry (fixedDdl_mono _ _ hother) hnames
      exact hnew hother
  | own name own _ hown ho =>
      obtain ⟨latest, _, _, role, _, hname⟩ := mem_own_declared hw hown ho
      refine (fixedDdl_not_data entry hentry).1 ?_
      rw [show entry.1 = objectName latest role from hname]
      exact objectName_data latest role

namespace Standing

variable {extended indexed more moreIndexed : Bool} {s : SqlCatalog} {ddl : Ddl}

theorem created (h : Standing extended indexed s)
    (hmore : ∀ entry, entry ∈ fixedDdl more moreIndexed ↔ entry ∈ fixedDdl extended indexed ∨ entry ∈ ddl)
    (hnew : ∀ entry ∈ ddl, entry ∉ fixedDdl extended indexed) (hnodup : (ddl.map Prod.fst).Nodup)
    (hcovered : Covered (fixedObjects.map Prod.fst) (ddl.map Prod.fst))
    (hformats : ∀ format ∈ MeldStore.formats, format.table ∉ ddl.map Prod.fst)
      (hextended : extended = true → more = true) :
    ∃ after, s.execute fixedObject ddl = .ok after ∧ Standing more moreIndexed after ∧ after.rows = s.rows := by
  have hset := @owned_more s.rows _ _ _ _ _ hmore
  have hdistinct : Distinct (owned s.rows extended indexed ∪ listed (ddl.map fixedObject)) :=
    hset ▸ owned_distinct h.wf more moreIndexed
  have hall : ∀ entry ∈ ddl, entry ∈ fixedDdl true true := fun entry hentry =>
    fixedDdl_mono _ _ ((hmore entry).mpr (.inr hentry))
  have hfresh : ∀ o ∈ ddl.map fixedObject, o ∉ owned s.rows extended indexed := by
    intro o ho
    obtain ⟨entry, hentry, rfl⟩ := List.mem_map.mp ho
    exact fixedObject_not_owned h.wf (hall entry hentry) (hnew entry hentry)
  have hobjects : (ddl.map fixedObject).Nodup := by
    refine List.Nodup.of_map (fun o : SqlObject => o.name) ?_
    rw [List.map_map]
    exact hnodup
  have hordered := h.holds.ordered (owned_presents fun entry hentry => mem_fixedDdl hentry) hcovered
  obtain ⟨after, hafter, hexecuted⟩ := exists_execute h.holds hdistinct hfresh hobjects hordered
  have hlaid := hexecuted.laid h.holds hdistinct
  have hrows := hexecuted.rows
  refine ⟨after, hafter, ?_, hrows⟩
  refine
    { sound := hrows ▸ h.sound, guards := hrows ▸ h.guards, enrolled := hrows ▸ h.enrolled,
      formats := fun format hformat => ?_, own := hrows ▸ h.own, objects := fun o ho => ?_,
      layouts := fun hlayouts => hextended (h.layouts (hrows ▸ hlayouts)) }
  · refine hlaid.read (fun o ho => ?_) (h.formats format hformat)
    obtain ⟨entry, hentry, rfl⟩ := List.mem_map.mp ho
    exact fun hsame => hformats format hformat (List.mem_map.mpr ⟨entry, hentry, hsame⟩)
  · rw [hlaid.holds.objects o ho, ← hset, hrows]
    rfl

theorem exists_extended (h : Standing false indexed s) :
    ∃ after, s.execute fixedObject Migrations.DDL = .ok after ∧ Standing true indexed after ∧
      after.rows = s.rows := by
  refine h.created (mem_extended indexed) (fun entry hentry hold => ?_) (by decide) (by decide)
    (by decide) nofun
  have hapart : ∀ entry ∈ Migrations.DDL, ∀ other ∈ fixedDdl false true, entry.1 ≠ other.1 := by decide
  refine hapart entry hentry entry ?_ rfl
  cases indexed with
  | true => exact hold
  | false => exact (mem_indexed false entry).mpr (.inl hold)

theorem exists_indexed (h : Standing extended false s) :
    ∃ after, s.execute fixedObject Store.queryIndexes = .ok after ∧ Standing extended true after ∧
      after.rows = s.rows := by
  refine h.created (mem_indexed extended) (fun entry hentry hold => ?_) (by decide) (by decide) (by decide) id
  have hapart : ∀ entry ∈ Store.queryIndexes, ∀ other ∈ fixedDdl true false, entry.1 ≠ other.1 := by decide
  refine hapart entry hentry entry ?_ rfl
  cases extended with
  | true => exact hold
  | false => exact (mem_extended false entry).mpr (.inl hold)

-- An object of a part is missing where the part is not there.
theorem missing_extended (h : Standing extended indexed s) :
    s.objects "ms_metadata_layouts" = none ↔ extended = false := by
  cases extended with
  | true =>
      have hfound := h.found ((mem_extended indexed _).mpr (.inr List.mem_cons_self))
      simp only [hfound, reduceCtorEq]
  | false =>
      refine iff_of_true ((h.holds.missing (by decide)).mpr fun o ho hsame => ?_) rfl
      cases ho with
      | fixed entry hentry ho =>
          subst ho
          have hapart : ∀ entry ∈ fixedDdl false true, entry.1 ≠ "ms_metadata_layouts" := by decide
          refine hapart entry ?_ hsame
          cases indexed with
          | true => exact hentry
          | false => exact (mem_indexed false entry).mpr (.inl hentry)
      | own name own _ hown ho =>
          obtain ⟨latest, _, _, role, _, hname⟩ := mem_own_declared h.wf hown ho
          have hdata := objectName_data latest role
          rw [← hname, hsame] at hdata
          exact absurd hdata (by decide)

theorem installQueryIndexes {after : SqlCatalog} {added : List String} (h : Standing extended indexed s)
    (hrun : SqlCatalog.Store.installQueryIndexes s = .ok (added, after)) :
    ∃ more, Standing extended more after ∧ after.rows = s.rows := by
  simp only [SqlCatalog.Store.installQueryIndexes, Store.queryIndexes, bind_eq_ok,
    List.foldlM_cons, List.foldlM_nil, pure_eq_ok] at hrun
  obtain ⟨_, _, _, hstep, rfl⟩ := hrun
  split_ifs at hstep with hnone
  · cases indexed with
    | true =>
        rw [h.found ((mem_indexed extended _).mpr (.inr List.mem_cons_self))] at hnone
        cases hnone
    | false =>
        obtain ⟨other, hother, hstanding, hrows⟩ := h.exists_indexed
        simp only [bind_eq_ok, pure_eq_ok, Prod.mk.injEq] at hstep
        obtain ⟨created, hcreated, _, rfl⟩ := hstep
        have hsame : s.execute fixedObject Store.queryIndexes = .ok created := by
          rw [SqlCatalog.execute, Store.queryIndexes, List.foldlM_cons, hcreated]
          rfl
        obtain rfl : other = created := Except.ok.inj (hother.symm.trans hsame)
        exact ⟨true, hstanding, hrows⟩
  · simp only [bind_eq_ok, pure_eq_ok, Prod.mk.injEq] at hstep
    obtain ⟨_, _, _, rfl⟩ := hstep
    exact ⟨indexed, h, rfl⟩

end Standing

-- The first transaction of a migration

-- before_ddl and after_ddl leave the reserved names and the format rows alone.
def Considerate (hooks : Rebuild.Hooks) : Prop := ∀ pair ∈ hooks, ∀ database after,
  pair.1 database = .ok after ∨ pair.2 database = .ok after → Untouched database after

theorem guard_type {schema : BlobSchema} {evolved : Bool} {entry : String × String}
    (h : PayloadCatalog.guard schema evolved = .ok entry) : (objectOf "ms_blobs" entry).type = .trigger := by
  have hname : entry.1 ≠ "ms_blobs" := by
    rw [guard_name h]
    intro hsame
    have hdata := objectName_data schema .ready
    rw [hsame] at hdata
    exact absurd hdata (by decide)
  have htext : "CREATE TRIGGER".toList.isPrefixOf entry.2.toList = true := by
    simp only [PayloadCatalog.guard, bind_eq_ok, pure_eq_ok] at h
    obtain ⟨_, _, _, _, rfl⟩ := h
    simp only [String.append_assoc, String.toList_append]
    rfl
  simp only [objectOf, if_neg hname, htext, if_true]

section

variable {db : Catalog} {plan : MetadataMigration}

theorem started_keys (hs : Backup.Sound db) : (Migrations.started plan db).DeferredKeys := by
  refine ⟨fun m hm _ => ?_, hs.settled.keys.2⟩
  rcases hs.settled.wf.metaHasParent m hm with hevolved | hparent
  · exact hs.settled.keys.1 m hm hevolved
  · exact hparent

-- What _initialize asks of the rows before it starts a migration.
structure Startable (plan : MetadataMigration) (db : Catalog) : Prop where
  source : (db.schema? plan.source.name plan.source.version).map (fun row => row.definition) = some plan.source
  unnamed : ∀ j ∈ db.migrations, j.name ≠ plan.name
  latest : db.latestVersion plan.source.name = some plan.source.version
  idle : ∀ j ∈ db.migrations, ¬(j.schemaName = plan.source.name ∧ j.state = .running)
  ready : ¬Migrations.unready db plan.source.name
  layout : ∃ union, Migrations.layout (db.declarations plan.source.name ++ [plan.target]) = .ok union
  fresh : ¬db.hasSchema plan.target.name plan.target.version
  unpaid : (plan.target.name, plan.target.version) ∉ db.payloadSchemas
  job : insertMigration (Migrations.rebuilt plan (declaredRows db plan.target))
    (Migrations.newJob plan (declaredRows db plan.target)) = .ok (Migrations.started plan db)

theorem Startable.declared (h : Startable plan db) : db.declared plan.source.name := by
  obtain ⟨row, hrow, _⟩ := Option.map_eq_some_iff.mp h.source
  obtain ⟨hmem, hname, _⟩ := mem_of_schema? hrow
  exact ⟨row, hmem, hname⟩

-- On the rows alone this is the start of the catalog model.
theorem Startable.transact (h : Startable plan db) (hs : Backup.Sound db) :
    transact [.initializeJob plan] db = .ok (Migrations.started plan db) := by
  obtain ⟨row, hrow, hdefinition⟩ := Option.map_eq_some_iff.mp h.source
  obtain ⟨hmem, hname, hversion⟩ := mem_of_schema? hrow
  have henrolled : (plan.source.name, plan.source.version) ∈ db.payloadSchemas := by
    rw [← hname, ← hversion]
    exact hs.registered.payload row hmem
  have hguard : (⟨plan.source.name, db.evolved plan.source.name⟩ : Guard) ∈ db.guards := by
    rw [← hname]
    exact hs.settled.guarded.guarded row hmem
  have hcatalog : CatalogInstall.install plan.source db = .ok db := by
    rw [CatalogInstall.install, hrow]
    simp only [hdefinition, require_true, except_ok_bind]
    rfl
  have hpayload : PayloadCatalog.install plan.source db = .ok db := by
    rw [PayloadCatalog.install, if_pos henrolled, require_true hguard]
    rfl
  have hschema : Store.schema db plan.source false = .ok () := by
    simp only [Store.schema, h.source, require_true, except_ok_bind, Bool.false_eq_true, if_false,
      hguard, pure_bind]
  have hnone : db.migrations.find? (fun j => j.name = plan.name) = none :=
    List.find?_eq_none.mpr fun j hj hsame => h.unnamed j hj (of_decide_eq_true hsame)
  obtain ⟨union, hunion⟩ := h.layout
  have hstatus : Migrations.status (Migrations.started plan db) plan.name =
    .ok (Migrations.newJob plan db) := by
    rw [Migrations.status, Migrations.started, List.find?_append, hnone]
    simp [Migrations.newJob, fromOption]
  have hinitialize : Migrations.initializeJob plan db =
    .ok (Migrations.newJob plan db, Migrations.started plan db) := by
    rw [Migrations.initializeJob, hcatalog, except_ok_bind, hpayload, except_ok_bind, hschema,
      except_ok_bind, hnone]
    simp only [bind_eq_ok, require_eq_ok, pure_eq_ok, Migrations.writable]
    refine ⟨(), h.latest, (), h.idle, (), h.ready, union, hunion, declaredRows db plan.target, ?_,
      (), started_keys hs, (), h.unpaid, _, h.job, _, hstatus, rfl⟩
    rw [insertSchema, require_true h.fresh]
    rfl
  simp only [MeldStore.transact, List.foldlM_cons, List.foldlM_nil, bind_eq_ok, require_eq_ok, pure_eq_ok]
  refine ⟨_, ⟨_, ?_, rfl⟩, ⟨⟩, started_keys hs, rfl⟩
  rw [Action.exec, hinitialize]
  rfl

end

-- Which objects are those of one schema, and which stay elsewhere

theorem belongs_objectOf_only {table other : String} {entry : String × String}
    (h : (objectOf table entry).Belongs other) : sameName table other := by
  unfold Belongs at h
  cases htype : (objectOf table entry).type with
  | table =>
      rw [htype] at h
      have hname : entry.1 = table := by
        by_contra hne
        exact objectOf_type hne htype
      rw [← hname]
      exact h
  | index =>
      rw [htype] at h
      exact h
  | trigger =>
      rw [htype] at h
      exact h
  | view =>
      rw [htype] at h
      exact h.elim

theorem belongs_self (table : String) (entry : String × String) : (objectOf table entry).Belongs table := by
  refine belongs_objectOf entry fun htype => ?_
  by_contra hne
  exact objectOf_type hne htype

theorem not_data {name : String} (h : ¬"ms_data_".toList <+: (asciiLower name).toList) (schema : BlobSchema) :
    ¬sameName name (tableName schema) := by
  intro hsame
  apply h
  rw [hsame, ← objectName_table]
  exact objectName_data schema .table

theorem sameName_table {s t : BlobSchema} (h : sameName (tableName s) (tableName t)) : s.name = t.name := by
  rw [sameName, ← objectName_table, ← objectName_table, asciiLower_objectName, asciiLower_objectName] at h
  exact (objectName_inj h).1

inductive Elsewhere (db : Catalog) (indexed : Bool) (name : String) (o : SqlObject) : Prop
  | fixed (entry : String × String) (hentry : entry ∈ fixedDdl true indexed) (ho : o = fixedObject entry)
  | other (other : String) (own : List SqlObject) (hne : name ≠ other) (hdeclared : db.declared other)
      (hown : ownObjects (db.evolved other) (db.declarations other) = .ok own) (ho : o ∈ own)

section

variable {db : Catalog} {indexed : Bool} {o : SqlObject}

theorem owned_split {name : String} {own : List SqlObject} (hdeclared : db.declared name)
    (hown : ownObjects (db.evolved name) (db.declarations name) = .ok own) :
    Owned db true indexed o ↔ Elsewhere db indexed name o ∨ o ∈ own := by
  constructor
  · intro ho
    cases ho with
    | fixed entry hentry ho => exact .inl (.fixed entry hentry ho)
    | own other own' hdeclared' hown' ho =>
        by_cases hsame : name = other
        · subst hsame
          cases hown.symm.trans hown'
          exact .inr ho
        · exact .inl (.other other own' hsame hdeclared' hown' ho)
  · rintro (ho | ho)
    · cases ho with
      | fixed entry hentry ho => exact .fixed entry hentry ho
      | other other own' _ hdeclared' hown' ho => exact .own other own' hdeclared' hown' ho
    · exact .own name own hdeclared hown ho

theorem elsewhere_apart (hw : db.Wf) {schema : BlobSchema} (h : Elsewhere db indexed schema.name o) :
    ¬o.Belongs (tableName schema) := by
  intro hbelongs
  cases h with
  | fixed entry hentry ho =>
      rw [ho] at hbelongs
      exact not_data (fixedDdl_not_data entry (fixedDdl_mono _ _ hentry)).2 schema
        (belongs_objectOf_only hbelongs)
  | other other own hne hdeclared hown ho =>
      obtain ⟨latest, hlatest, hname, _⟩ := mem_own_declared hw hown ho
      obtain ⟨last, ddl, ready, retire, hlast, _, _, _, rfl⟩ := ownObjects_eq_ok.mp hown
      obtain rfl : latest = last := Option.some.inj (hlatest.symm.trans hlast)
      have htable : ¬sameName (tableName latest) (tableName schema) := fun hsame =>
        hne ((sameName_table hsame).symm.trans hname)
      simp only [List.mem_append, List.mem_map, List.mem_cons, List.not_mem_nil, or_false] at ho
      rcases ho with ⟨entry, _, rfl⟩ | rfl | rfl
      · exact htable (belongs_objectOf_only hbelongs)
      · exact not_data (by decide) schema (belongs_objectOf_only hbelongs)
      · exact htable (belongs_objectOf_only hbelongs)

theorem evolved_started_other {plan : MetadataMigration} {name : String} (hne : plan.source.name ≠ name) :
    (Migrations.started plan db).evolved name = db.evolved name := by
  rw [Bool.eq_iff_iff, evolved_iff, evolved_iff]
  simp only [Migrations.started, Migrations.rebuilt]
  split
  · exact Iff.rfl
  · rw [List.mem_append, List.mem_singleton]
    exact or_iff_left hne.symm

theorem declared_started {plan : MetadataMigration} (h : db.declared plan.source.name) (name : String) :
    (Migrations.started plan db).declared name ↔ db.declared name := by
  constructor
  · rintro ⟨row, hrow, rfl⟩
    rcases List.mem_append.mp hrow with hold | hnew
    · exact ⟨row, hold, rfl⟩
    · rw [List.mem_singleton.mp hnew]
      exact plan.sameSchema ▸ h
  · rintro ⟨row, hrow, hname⟩
    exact ⟨row, List.mem_append_left _ hrow, hname⟩

theorem elsewhere_started {plan : MetadataMigration} (h : db.declared plan.source.name) :
    Elsewhere (Migrations.started plan db) indexed plan.source.name o ↔
      Elsewhere db indexed plan.source.name o := by
  constructor
  · intro ho
    cases ho with
    | fixed entry hentry ho => exact .fixed entry hentry ho
    | other other own hne hdeclared hown ho =>
        rw [evolved_started_other hne, declarations_started_other hne] at hown
        exact .other other own hne ((declared_started h other).mp hdeclared) hown ho
  · intro ho
    cases ho with
    | fixed entry hentry ho => exact .fixed entry hentry ho
    | other other own hne hdeclared hown ho =>
        rw [← @evolved_started_other _ plan _ hne, ← @declarations_started_other _ plan _ hne] at hown
        exact .other other own hne ((declared_started h other).mpr hdeclared) hown ho

end

-- The tables before and after the rebuild, with the guards of the schema.
structure Starting (indexed : Bool) (plan : MetadataMigration) (s : SqlCatalog) (old new : Ddl)
    (was ready retire : String × String) : Prop where
  standing : Standing true indexed s
  startable : Startable plan s.rows
  old : (if s.rows.evolved plan.source.name then Migrations.layoutObjects (s.rows.declarations plan.source.name)
    else Installation.schemaObjects plan.source) = .ok old
  new : Migrations.layoutObjects (s.rows.declarations plan.source.name ++ [plan.target]) = .ok new
  was : PayloadCatalog.guard plan.source (s.rows.evolved plan.source.name) = .ok was
  ready : PayloadCatalog.guard plan.target true = .ok ready
  retire : Lifecycle.schemaGuard plan.source = .ok retire

namespace Starting

variable {indexed : Bool} {plan : MetadataMigration} {s : SqlCatalog} {old new : Ddl}
  {was ready retire : String × String}

theorem last (h : Starting indexed plan s old new was ready retire) :
    (s.rows.declarations plan.source.name).getLast? = some plan.source := by
  obtain ⟨latest, hlatest, hversion⟩ := Option.map_eq_some_iff.mp h.startable.latest
  obtain ⟨row, hrow, hsame⟩ := Option.map_eq_some_iff.mp h.startable.source
  have hmem : plan.source ∈ s.rows.declarations plan.source.name := hsame ▸ (Standing.mem_of_schema? hrow).1
  rw [hlatest, List.inj_on_of_nodup_map (declarations_versions h.standing.wf plan.source.name).distinct
    (List.mem_of_getLast? hlatest) hmem hversion]

theorem own (h : Starting indexed plan s old new was ready retire) :
    ownObjects (s.rows.evolved plan.source.name) (s.rows.declarations plan.source.name) =
      .ok (old.map (objectOf (tableName plan.source)) ++
        [objectOf "ms_blobs" was, objectOf (tableName plan.source) retire]) :=
  ownObjects_eq_ok.mpr ⟨plan.source, old, was, retire, h.last, h.old, h.was, h.retire, rfl⟩

theorem table_eq (plan : MetadataMigration) : tableName plan.target = tableName plan.source := by
  rw [tableName, tableName, plan.sameSchema]

theorem declarations (h : Starting indexed plan s old new was ready retire) :
    (Migrations.started plan s.rows).declarations plan.source.name =
      s.rows.declarations plan.source.name ++ [plan.target] :=
  declarations_started h.standing.wf h.startable.latest

theorem next (h : Starting indexed plan s old new was ready retire) :
    ownObjects ((Migrations.started plan s.rows).evolved plan.source.name)
      ((Migrations.started plan s.rows).declarations plan.source.name) =
      .ok (new.map (objectOf (tableName plan.source)) ++
        [objectOf "ms_blobs" ready, objectOf (tableName plan.source) retire]) := by
  rw [evolved_started plan (.inr rfl), h.declarations, ← table_eq]
  have hretire : Lifecycle.schemaGuard plan.target = .ok retire :=
    (schemaGuard_of_name plan.sameSchema).symm.trans h.retire
  exact ownObjects_eq_ok.mpr ⟨plan.target, new, ready, retire, List.getLast?_concat, h.new,
    h.ready, hretire, rfl⟩

theorem sound (h : Starting indexed plan s old new was ready retire) :
    Backup.Sound (Migrations.started plan s.rows) := by
  obtain ⟨row, hrow, hname⟩ := h.startable.declared
  refine Backup.Operates.sound h.standing.sound (.begins plan _ ?_ (h.startable.transact h.standing.sound))
  exact hname ▸ h.standing.sound.enrolled row hrow

theorem distinct (h : Starting indexed plan s old new was ready retire) :
    Distinct (owned (Migrations.started plan s.rows) true indexed) :=
  owned_distinct h.sound.settled.wf true indexed

theorem before (h : Starting indexed plan s old new was ready retire) {o : SqlObject} :
    Owned s.rows true indexed o ↔ Elsewhere s.rows indexed plan.source.name o ∨
      o ∈ old.map (objectOf (tableName plan.source)) ++
        [objectOf "ms_blobs" was, objectOf (tableName plan.source) retire] :=
  owned_split h.startable.declared h.own

theorem after (h : Starting indexed plan s old new was ready retire) {o : SqlObject} :
    Owned (Migrations.started plan s.rows) true indexed o ↔ Elsewhere s.rows indexed plan.source.name o ∨
      o ∈ new.map (objectOf (tableName plan.source)) ++
        [objectOf "ms_blobs" ready, objectOf (tableName plan.source) retire] := by
  have hdeclared : (Migrations.started plan s.rows).declared plan.source.name :=
    (declared_started h.startable.declared _).mpr h.startable.declared
  rw [owned_split hdeclared h.next, elsewhere_started h.startable.declared]

-- The names of the new tables are all different.
theorem new_nodup (h : Starting indexed plan s old new was ready retire) : (new.map Prod.fst).Nodup := by
  have hnames := layoutObjects_names List.getLast?_concat h.new
  have hversions := declarations_versions h.sound.settled.wf plan.source.name
  rw [h.declarations] at hversions
  have hmem : plan.target ∈ s.rows.declarations plan.source.name ++ [plan.target] :=
    List.mem_append_right _ (List.mem_singleton_self _)
  have hroles := @ownRoles_nodup true _ _ hversions hmem
  rw [hnames]
  exact (hroles.sublist (List.sublist_append_left _ _)).map fun a b hab => (objectName_inj hab).2

-- The retirement guard has a name of its own.
theorem retire_kept (h : Starting indexed plan s old new was ready retire) : retire.1 ∉ old.map Prod.fst := by
  have hversions := declarations_versions h.standing.wf plan.source.name
  have hnodup : ((old.map (objectOf (tableName plan.source)) ++
      [objectOf "ms_blobs" was, objectOf (tableName plan.source) retire]).map fun o => o.name).Nodup := by
    rw [ownObjects_names h.last h.own]
    exact (ownRoles_nodup hversions (List.mem_of_getLast? h.last)).map fun a b hab => (objectName_inj hab).2
  rw [List.map_append] at hnodup
  intro hmem
  obtain ⟨entry, hentry, hname⟩ := List.mem_map.mp hmem
  refine (List.nodup_append.mp hnodup).2.2 entry.1 ?_ retire.1 ?_ hname
  · exact List.mem_map.mpr ⟨_, List.mem_map_of_mem hentry, rfl⟩
  · exact List.mem_cons_of_mem _ List.mem_cons_self

theorem guard_apart (schema : BlobSchema) (entry : String × String) :
    ¬(objectOf "ms_blobs" entry).Belongs (tableName schema) := fun hbelongs =>
  not_data (by decide) schema (belongs_objectOf_only hbelongs)

-- What a rebuild recreates of the library's own is the retirement guard.
theorem mem_extras_iff (h : Starting indexed plan s old new was ready retire) {o : SqlObject}
    (ho : reserved o.name = true) :
    o ∈ extras old (tableName plan.source) s.database ↔ o = objectOf (tableName plan.source) retire := by
  constructor
  · intro hextra
    obtain ⟨_, _, hmem, hname⟩ := extras_type hextra
    have hbelongs := extras_belongs hextra
    rcases h.before.mp ((h.standing.objects o ho).mp hmem) with helse | hown
    · exact absurd hbelongs (elsewhere_apart h.standing.wf helse)
    · simp only [List.mem_append, List.mem_map, List.mem_cons, List.not_mem_nil, or_false] at hown
      rcases hown with ⟨entry, hentry, rfl⟩ | rfl | rfl
      · exact absurd (List.mem_map_of_mem hentry) hname
      · exact absurd hbelongs (guard_apart _ _)
      · rfl
  · rintro rfl
    have hmem : objectOf (tableName plan.source) retire ∈ s.database.objects := by
      refine (h.standing.objects _ ho).mpr (h.before.mpr (.inr ?_))
      exact List.mem_append_right _ (List.mem_cons_of_mem _ List.mem_cons_self)
    have hname : retire.1 ≠ tableName plan.source := by
      rw [schemaGuard_name h.retire, ← objectName_table]
      exact fun hsame => nomatch (objectName_inj hsame).2
    refine mem_extras hmem ?_ rfl h.retire_kept
    simp only [objectOf, if_neg hname]
    split
    · exact .inr rfl
    · exact .inl rfl

-- The reserved names after the rebuild: the old guard of publication is still there.
theorem mem_relaid (h : Starting indexed plan s old new was ready retire) {sqlite : Sqlite} {backup : String}
    {first second : Rebuild.Database} (huntouched : Untouched s.database first)
    (hrelaid : Relaid sqlite (tableName plan.source) backup new (extras old (tableName plan.source) s.database)
      first second)
    {o : SqlObject} (ho : reserved o.name = true) :
    o ∈ second.objects ↔ (Elsewhere s.rows indexed plan.source.name o ∨ o = objectOf "ms_blobs" was) ∨
      o ∈ new.map (objectOf (tableName plan.source)) ∨ o = objectOf (tableName plan.source) retire := by
  obtain ⟨sql, hsql, hobjects⟩ := hrelaid.objects
  have hkept : o ∈ first.objects.filter (fun o => ¬o.Belongs (tableName plan.source)) ↔
      Elsewhere s.rows indexed plan.source.name o ∨ o = objectOf "ms_blobs" was := by
    rw [List.mem_filter, huntouched.objects o ho, h.standing.objects o ho, h.before, decide_eq_true_eq]
    constructor
    · rintro ⟨helse | hown, hbelongs⟩
      · exact .inl helse
      · simp only [List.mem_append, List.mem_map, List.mem_cons, List.not_mem_nil, or_false] at hown
        rcases hown with ⟨entry, _, rfl⟩ | rfl | rfl
        · exact absurd (belongs_self _ _) hbelongs
        · exact .inr rfl
        · exact absurd (belongs_self _ _) hbelongs
    · rintro (helse | rfl)
      · exact ⟨.inl helse, elsewhere_apart h.standing.wf helse⟩
      · exact ⟨.inr (List.mem_append_right _ List.mem_cons_self), guard_apart _ _⟩
  have hnew : o ∈ [objectOf (tableName plan.source) (tableName plan.source, sql)] ∨
      o ∈ (new.filter fun entry => entry.1 ≠ tableName plan.source).map (objectOf (tableName plan.source)) ↔
        o ∈ new.map (objectOf (tableName plan.source)) := by
    rw [List.mem_singleton]
    constructor
    · rintro (rfl | hmem)
      · exact List.mem_map_of_mem hsql
      · obtain ⟨entry, hentry, rfl⟩ := List.mem_map.mp hmem
        exact List.mem_map_of_mem (List.mem_filter.mp hentry).1
    · intro hmem
      obtain ⟨entry, hentry, rfl⟩ := List.mem_map.mp hmem
      by_cases htable : entry.1 = tableName plan.source
      · exact .inl (congrArg _ (List.inj_on_of_nodup_map h.new_nodup hentry hsql htable))
      · exact .inr (List.mem_map_of_mem (List.mem_filter.mpr ⟨hentry, decide_eq_true htable⟩))
  have hparts : o ∈ second.objects ↔ o ∈ first.objects.filter (fun o => ¬o.Belongs (tableName plan.source)) ∨
      (o ∈ [objectOf (tableName plan.source) (tableName plan.source, sql)] ∨
        o ∈ (new.filter fun entry => entry.1 ≠ tableName plan.source).map (objectOf (tableName plan.source))) ∨
      o ∈ extras old (tableName plan.source) s.database := by
    rw [hobjects]
    simp only [List.mem_append, or_assoc]
  rw [hparts, hkept, hnew, h.mem_extras_iff ho]

-- Replacing that guard by the new one leaves the objects of the new version.
theorem mem_started (h : Starting indexed plan s old new was ready retire) {sqlite : Sqlite} {backup : String}
    {first second : Rebuild.Database} (huntouched : Untouched s.database first)
    (hrelaid : Relaid sqlite (tableName plan.source) backup new (extras old (tableName plan.source) s.database)
      first second)
    {o : SqlObject} (ho : reserved o.name = true) :
    (o ∈ second.objects ∧ ¬(o.type = .trigger ∧ sameName o.name ready.1)) ∨ o = objectOf "ms_blobs" ready ↔
      Owned (Migrations.started plan s.rows) true indexed o := by
  have hready : Owned (Migrations.started plan s.rows) true indexed (objectOf "ms_blobs" ready) :=
    h.after.mpr (.inr (List.mem_append_right _ List.mem_cons_self))
  have hnames : was.1 = ready.1 := by
    rw [guard_name h.was, guard_name h.ready, objectName, objectName, table_eq]
  rw [h.mem_relaid huntouched hrelaid ho, h.after]
  simp only [List.mem_append, List.mem_cons, List.not_mem_nil, or_false]
  constructor
  · rintro (⟨(helse | rfl) | hnew | hretire, hkept⟩ | hsame)
    · exact .inl helse
    · exact absurd ⟨guard_type h.was, congrArg asciiLower hnames⟩ hkept
    · exact .inr (.inl hnew)
    · exact .inr (.inr (.inr hretire))
    · exact .inr (.inr (.inl hsame))
  · intro howned
    by_cases hsame : o = objectOf "ms_blobs" ready
    · exact .inr hsame
    · have hmem : Owned (Migrations.started plan s.rows) true indexed o := by
        rw [h.after]
        simpa only [List.mem_append, List.mem_cons, List.not_mem_nil, or_false] using howned
      refine .inl ⟨?_, fun hclash => hsame ((h.distinct o hmem).2 _ hready hclash.2)⟩
      rcases howned with helse | hnew | hready | hretire
      · exact .inl (.inl helse)
      · exact .inr (.inl hnew)
      · exact absurd hready hsame
      · exact .inr (.inr hretire)

-- The catalog that the start leaves, once its statements have run.
theorem standing_after (h : Starting indexed plan s old new was ready retire) {last : SqlCatalog}
    (hrows : last.rows = Migrations.started plan s.rows)
    (hobjects : ∀ o, reserved o.name = true →
      (o ∈ last.database.objects ↔ Owned (Migrations.started plan s.rows) true indexed o))
    (hformats : ∀ format ∈ formats, last.database.rows format.table = s.database.rows format.table) :
    Standing true indexed last := by
  have hdeclared := declared_started h.startable.declared
  refine
    { sound := hrows ▸ h.sound, guards := fun g hg => ?_, enrolled := fun name hname => ?_,
      formats := fun format hformat => ?_, own := fun name hname => ?_, objects := fun o ho => ?_,
      layouts := fun _ => rfl }
  · rw [hrows] at hg ⊢
    rw [hdeclared]
    rcases List.mem_append.mp hg with hold | hnew
    · exact h.standing.guards g (List.mem_filter.mp hold).1
    · rw [List.mem_singleton.mp hnew]
      exact plan.sameSchema ▸ h.startable.declared
  · rw [hrows] at hname ⊢
    exact (hdeclared name).mpr (h.standing.enrolled name hname)
  · rw [Format.Read, SqlCatalog.select, hformats format hformat]
    exact h.standing.formats format hformat
  · rw [hrows] at hname ⊢
    by_cases hsame : plan.source.name = name
    · subst hsame
      exact ⟨_, h.next⟩
    · rw [evolved_started_other hsame, declarations_started_other hsame]
      exact h.standing.own name ((hdeclared name).mp hname)
  · rw [hobjects o ho, hrows]

end Starting

theorem statement_eq_ok {change : Rebuild.Database → Except Error Rebuild.Database} {s after : SqlCatalog} :
    s.statement change = .ok after ↔ ∃ database, change s.database = .ok database ∧
      { s with database := database, writes := s.writes + 1 } = after := by
  simp only [SqlCatalog.statement, bind_eq_ok, pure_eq_ok]

theorem formats_tables : ∀ format ∈ formats, ∃ entry ∈ fixedObjects, entry.1 = format.table ∧
    tableOf entry.1 = entry.1 := by
  decide +kernel

theorem formats_not_data :
    ∀ format ∈ formats, ¬"ms_data_".toList <+: (asciiLower format.table).toList := by decide +kernel

section

variable {extended indexed : Bool} {plan : MetadataMigration} {s after : SqlCatalog} {hooks : Rebuild.Hooks}
  {sqlite : Sqlite} {backup : String} {job : MigrationRow}

-- A rebuild between two hooks that keep to themselves.
theorem Considerate.rebuilt (hhooks : Considerate hooks) {table : String} {old new : Ddl}
    {database last : Rebuild.Database} (h : rebuild sqlite hooks table old new backup database = .ok last) :
    ∃ first second, Untouched database first ∧ Untouched second last ∧
      Relaid sqlite table backup new (extras old table database) first second := by
  obtain ⟨first, second, hrun, hrelaid, _⟩ := rebuild_relays h
  refine ⟨first, second, ?_, ?_, hrelaid⟩
  · rcases hrun with ⟨_, rfl, _⟩ | ⟨pair, hpair, hfirst, _⟩
    · exact Untouched.refl _
    · exact hhooks pair hpair _ _ (.inl hfirst)
  · rcases hrun with ⟨_, _, rfl⟩ | ⟨pair, hpair, _, hlast⟩
    · exact Untouched.refl _
    · exact hhooks pair hpair _ _ (.inr hlast)

theorem Standing.formats_kept (h : Standing extended indexed s) {schema : BlobSchema} {new : Ddl}
    {extras : List SqlObject} {first second : Rebuild.Database} (huntouched : Untouched s.database first)
    (hrelaid : Relaid sqlite (tableName schema) backup new extras first second) :
    ∀ format ∈ MeldStore.formats, second.rows format.table = s.database.rows format.table := by
  intro format hformat
  obtain ⟨entry, hentry, hname, htable⟩ := formats_tables format hformat
  have hkind : (fixedObject entry).type = .table := if_pos htable.symm
  have hmem : fixedObject entry ∈ first.objects := by
    have hreserved : reserved (fixedObject entry).name = true := fixedDdl_reserved entry (mem_fixedDdl hentry)
    rw [huntouched.objects _ hreserved, h.objects _ hreserved]
    exact .fixed entry (mem_fixedDdl hentry) rfl
  have hdata : format.table ≠ tableName schema := fun hsame =>
    not_data (formats_not_data format hformat) schema (congrArg asciiLower hsame)
  have hbackup : format.table ≠ backup := hname ▸ hrelaid.copy _ hmem hkind
  rw [hrelaid.others format.table hdata hbackup]
  exact huntouched.formats format hformat

theorem Standing.start (h : Standing true indexed s)
    (hsource : (s.rows.schema? plan.source.name plan.source.version).map (fun row => row.definition) =
      some plan.source)
    (hunnamed : ∀ j ∈ s.rows.migrations, j.name ≠ plan.name) (hhooks : Considerate hooks)
      {objects : String → Option String}
    (hrun : SqlCatalog.Migrations.start sqlite plan hooks backup objects s = .ok (job, after)) :
    Standing true indexed after := by
  simp only [SqlCatalog.Migrations.start, Migrations.writable, bind_eq_ok, require_eq_ok,
    pure_eq_ok, declarations_eq,
    Except.ok.injEq, exists_eq_left', h.evolved_eq, statement_eq_ok, Prod.mk.injEq] at hrun
  obtain ⟨_, hlatest, _, hidle, _, hready, old, hold, _, _, new, hnew, rows, hinsert, _,
    ⟨third, hrebuild, rfl⟩, ready,
    hguard, _, ⟨dropped, hdrop, rfl⟩, _, ⟨database, hcreate, rfl⟩, _, hunpaid, last, hmigration, _,
      _, _, rfl⟩ := hrun
  obtain ⟨hfresh, rfl⟩ := insertSchema_effect hinsert
  obtain ⟨_, hlast⟩ := insertMigration_effect hmigration
  have hlayout : ∃ union, Migrations.layout (s.rows.declarations plan.source.name ++ [plan.target]) =
    .ok union := by
    simp only [Migrations.layoutObjects, bind_eq_ok] at hnew
    obtain ⟨_, _, _, _, union, hunion, _⟩ := hnew
    exact ⟨union, hunion⟩
  have hrows : last = Migrations.started plan s.rows := hlast
  obtain ⟨was, hwas⟩ := exists_guard plan.source (s.rows.evolved plan.source.name)
  obtain ⟨retire, hretire⟩ := exists_schemaGuard plan.source
  have hstarting : Starting indexed plan s old new was ready retire :=
    ⟨h, ⟨hsource, hunnamed, hlatest, hidle, hready, hlayout, hfresh, hunpaid, hrows ▸ hmigration⟩, hold,
      hnew, hwas, hguard, hretire⟩
  obtain ⟨first, second, hfirst, hsecond, hrelaid⟩ := hhooks.rebuilt hrebuild
  obtain ⟨hdropObjects, hdropRows⟩ := dropTrigger_spec hdrop
  obtain ⟨_, hcreateObjects, hcreateRows⟩ := create_spec hcreate
  have hkind : (objectOf "ms_blobs" ready).type ≠ .table := by
    rw [guard_type hguard]
    nofun
  rw [if_neg hkind, hdropRows] at hcreateRows
  refine hstarting.standing_after hrows (fun o ho => ?_) fun format hformat => ?_
  · rw [← hstarting.mem_started hfirst hrelaid ho, ← hsecond.objects o ho]
    show o ∈ database.objects ↔ _
    rw [hcreateObjects, hdropObjects, List.mem_append, List.mem_filter, List.mem_singleton, decide_eq_true_eq]
  · show database.rows format.table = _
    rw [hcreateRows, hsecond.formats format hformat]
    exact h.formats_kept hfirst hrelaid format hformat

-- The source of a migration is installed already, and stays as it is.
theorem Standing.reinstalled (h : Standing extended indexed s) {schema : BlobSchema} {table : String}
    (hdeclared : s.rows.declared schema.name)
    (hrun : SqlCatalog.Installation.install schema s = .ok (table, after)) :
    after = s ∧ (s.rows.schema? schema.name schema.version).map (fun row => row.definition) = some schema := by
  have hinstall := hrun
  simp only [SqlCatalog.Installation.install, bind_eq_ok, h.core, Except.ok.injEq, exists_eq_left'] at hrun
  obtain ⟨expected, _, hrun⟩ := hrun
  cases hrow : s.rows.schema? schema.name schema.version with
  | some row =>
      rw [hrow] at hrun
      simp only [bind_eq_ok, require_eq_ok] at hrun
      obtain ⟨_, hsame, _⟩ := hrun
      have hdefinition := Migrations.definition_inj.mp hsame.1
      rw [h.installation hrow hdefinition] at hinstall
      cases hinstall
      exact ⟨rfl, congrArg some hdefinition⟩
  | none =>
      rw [hrow] at hrun
      simp only [bind_eq_ok, require_eq_ok] at hrun
      obtain ⟨_, hversion, _⟩ := hrun
      obtain ⟨row, hfound⟩ := (Ground.standing h).declared_first hdeclared hversion
      rw [hrow] at hfound
      cases hfound

theorem Standing.initializeJob (h : Standing extended indexed s) (hdeclared : s.rows.declared plan.source.name)
    (hhooks : Considerate hooks)
    (hrun : SqlCatalog.Migrations.initializeJob sqlite plan hooks backup s = .ok (job, after)) :
    ∃ extended, Standing extended indexed after := by
  simp only [SqlCatalog.Migrations.initializeJob, bind_eq_ok] at hrun
  obtain ⟨⟨table, mid⟩, hinstall, _, hpayload, _, _, hrun⟩ := hrun
  obtain ⟨hsame, hsource⟩ := h.reinstalled hdeclared hinstall
  obtain rfl : s = mid := hsame.symm
  obtain ⟨row, hrow, hdefinition⟩ := Option.map_eq_some_iff.mp hsource
  obtain ⟨hmem, hname, hversion⟩ := MeldStore.mem_of_schema? hrow
  have henrolled : (plan.source.name, plan.source.version) ∈ s.rows.payloadSchemas := by
    rw [← hname, ← hversion]
    exact h.sound.registered.payload row hmem
  rw [h.payload henrolled hdeclared] at hpayload
  cases hpayload
  split_ifs at hrun with hnone
  · -- no migration has been started, so there is no job
    obtain rfl := h.missing_extended.mp hnone
    simp only [bind_eq_ok] at hrun
    obtain ⟨_, _, mid, hmid, hstart⟩ := hrun
    obtain ⟨other, hother, hstanding, hrows⟩ := h.exists_extended
    obtain rfl : other = mid := Except.ok.inj (hother.symm.trans hmid)
    refine ⟨true, hstanding.start (hrows ▸ hsource) (fun j hj => ?_) hhooks hstart⟩
    obtain ⟨hevolved, _⟩ := h.sound.settled.jobs.between j (hrows ▸ hj)
    have hlayouts := h.layouts fun hnil => by
      rw [evolved_iff, hnil] at hevolved
      cases hevolved
    cases hlayouts
  · simp only [bind_eq_ok] at hrun
    obtain ⟨_, _, hrun⟩ := hrun
    split at hrun
    · simp only [bind_eq_ok, pure_eq_ok, Prod.mk.injEq] at hrun
      obtain ⟨_, _, _, _, _, _, _, rfl⟩ := hrun
      exact ⟨extended, h⟩
    · rename_i hunnamed
      have hextended : extended = true := by
        cases extended with
        | true => rfl
        | false => exact absurd (h.missing_extended.mpr rfl) hnone
      subst hextended
      refine ⟨true, h.start hsource (fun j hj hsame => ?_) hhooks hrun⟩
      exact List.find?_eq_none.mp hunnamed j hj (decide_eq_true hsame)

end

end MeldStore
