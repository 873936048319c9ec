import MeldStore.Installation.Again

namespace MeldStore

open Library Library.Checked Rebuild Rebuild.SqlObject

-- The first installation of a name

-- The rows that a new schema adds.
def enrolledRows (db : Catalog) (schema : BlobSchema) : Catalog :=
  { db with
    schemas := db.schemas ++ [{ name := schema.name, version := schema.version, definition := schema }]
    guards := db.guards ++ [⟨schema.name, false⟩]
    payloadSchemas := db.payloadSchemas ++ [(schema.name, schema.version)]
    lifecycleSchemas := db.lifecycleSchemas ++ [schema.name] }

-- Where a name can be installed: nothing of the library is there, or a catalog stands. The
-- last argument is what is there.
inductive Ground (extended indexed : Bool) (s : SqlCatalog) : Set SqlObject → Prop
  | fresh (hrows : s.rows = Catalog.empty) (hclean : ∀ o ∈ s.database.objects, reserved o.name = false)
      (hflags : extended = false ∧ indexed = false) : Ground extended indexed s ∅
  | standing (h : Standing extended indexed s) : Ground extended indexed s (owned s.rows extended indexed)

section

variable {db : Catalog} {schema : BlobSchema} {name : String} {extended indexed : Bool}

theorem schema?_of_undeclared (h : ¬db.declared name) (version : ℤ) : db.schema? name version = none := by
  cases hfound : db.schema? name version with
  | none => rfl
  | some row =>
      obtain ⟨hrow, hname, _⟩ := mem_of_schema? hfound
      exact absurd ⟨row, hrow, hname⟩ h

theorem evolved_of_undeclared (hs : Backup.Sound db) (h : ¬db.declared name) : db.evolved name = false := by
  refine Bool.eq_false_iff.mpr fun hevolved => h ?_
  exact (hs.registered.layouts name ((evolved_iff db name).mp hevolved)).1

theorem declared_enrolledRows : (enrolledRows db schema).declared name ↔
    db.declared name ∨ name = schema.name := by
  simp only [Catalog.declared, enrolledRows, List.mem_append, List.mem_singleton, or_and_right, exists_or,
    exists_eq_left, eq_comm]

theorem declarations_self (h : ¬db.declared schema.name) :
    (enrolledRows db schema).declarations schema.name = [schema] := by
  have hnone : db.schemas.filter (fun row => row.name = schema.name) = [] :=
    List.filter_eq_nil_iff.mpr fun row hrow hname => h ⟨row, hrow, of_decide_eq_true hname⟩
  rw [Catalog.declarations, enrolledRows, List.filter_append, hnone]
  simp

theorem declarations_other (h : name ≠ schema.name) :
    (enrolledRows db schema).declarations name = db.declarations name := by
  have hnone : [({ name := schema.name, version := schema.version, definition := schema } : SchemaRow)].filter
      (fun row => row.name = name) = [] := by simp [h.symm]
  rw [Catalog.declarations, enrolledRows, List.filter_append, hnone, List.append_nil]
  rfl

theorem owned_enrolledRows (hs : Backup.Sound db) (h : ¬db.declared schema.name) {own : List SqlObject}
    (hown : ownObjects false [schema] = .ok own) :
    owned (enrolledRows db schema) extended indexed = owned db extended indexed ∪ listed own := by
  have hevolved : (enrolledRows db schema).evolved schema.name = false :=
    show db.evolved schema.name = false from evolved_of_undeclared hs h
  ext o
  constructor
  · intro ho
    cases ho with
    | fixed entry hentry ho => exact .inl (.fixed entry hentry ho)
    | own name' own' hdeclared hown' ho =>
        by_cases hname : name' = schema.name
        · subst hname
          rw [hevolved, declarations_self h, hown] at hown'
          cases hown'
          exact .inr ho
        · rw [declarations_other hname] at hown'
          exact .inl (.own name' own' ((declared_enrolledRows.mp hdeclared).resolve_right hname) hown' ho)
  · rintro (ho | ho)
    · cases ho with
      | fixed entry hentry ho => exact .fixed entry hentry ho
      | own name' own' hdeclared hown' ho =>
          have hname : name' ≠ schema.name := fun hsame => h (hsame ▸ hdeclared)
          refine .own name' own' (declared_enrolledRows.mpr (.inl hdeclared)) ?_ ho
          rw [declarations_other hname]
          exact hown'
    · refine .own schema.name own (declared_enrolledRows.mpr (.inr rfl)) ?_ ho
      rw [hevolved, declarations_self h]
      exact hown

def declaredRows (db : Catalog) (schema : BlobSchema) : Catalog :=
  { db with
    schemas := db.schemas ++ [{ name := schema.name, version := schema.version, definition := schema }] }

theorem insertSchema_declaredRows (h : ¬db.declared schema.name) :
    insertSchema db schema = .ok (declaredRows db schema) := by
  have hfresh : ¬db.hasSchema schema.name schema.version := fun ⟨row, hrow, hname, _⟩ => h ⟨row, hrow, hname⟩
  rw [insertSchema, require_true hfresh]
  rfl

-- On the rows alone this is Store.install_schema of the catalog model.
theorem installSchema_enrolledRows (hs : Backup.Sound db) (hguards : ∀ g ∈ db.guards, db.declared g.schemaName)
    (henrolled : ∀ name ∈ db.lifecycleSchemas, db.declared name) (h : ¬db.declared schema.name)
    (hversion : schema.version = 1) : transact [.installSchema schema] db = .ok (enrolledRows db schema) := by
  have hevolved : (declaredRows db schema).evolved schema.name = false :=
    show db.evolved schema.name = false from evolved_of_undeclared hs h
  have hpayload : (schema.name, schema.version) ∉ db.payloadSchemas := fun hmem => by
    obtain ⟨row, hrow, hname, _⟩ := hs.registered.declared _ hmem
    exact h ⟨row, hrow, hname⟩
  have hblobs : ∀ b ∈ (declaredRows db schema).blobs, b.schemaName = schema.name → b.state = .publishing :=
      fun b hb hname => by
    obtain ⟨row, hrow, hsame, _⟩ := hs.settled.wf.blobDeclared b hb
    exact absurd ⟨row, hrow, hsame.trans hname⟩ h
  have hfree : ∀ g ∈ (declaredRows db schema).guards, g.schemaName ≠ schema.name :=
    fun g hg hname => h (hname ▸ hguards g hg)
  have hlifecycle : schema.name ∉ db.lifecycleSchemas := fun hmem => h (henrolled _ hmem)
  have hinstall : CatalogInstall.install schema db = .ok (declaredRows db schema) := by
    rw [CatalogInstall.install, schema?_of_undeclared h]
    show (require (schema.version = 1) _ >>= fun _ => _) = _
    rw [require_true hversion, except_ok_bind]
    exact insertSchema_declaredRows h
  have hguard : PayloadCatalog.install schema (declaredRows db schema) =
      .ok { declaredRows db schema with
        guards := db.guards ++ [⟨schema.name, false⟩]
        payloadSchemas := db.payloadSchemas ++ [(schema.name, schema.version)] } := by
    have habsent : (schema.name, schema.version) ∉ (declaredRows db schema).payloadSchemas := hpayload
    rw [PayloadCatalog.install, if_neg habsent, hevolved, require_true hfree, except_ok_bind,
      require_true hblobs]
    rfl
  have hexec : Action.exec db (.installSchema schema) = .ok (enrolledRows db schema) := by
    simp only [Action.exec, Store.installSchema, hinstall, hguard, except_ok_bind, Lifecycle.installSchema]
    exact congrArg Except.ok (if_neg hlifecycle)
  have hkeys : (enrolledRows db schema).DeferredKeys := hs.settled.keys
  simp only [transact, List.foldlM_cons, List.foldlM_nil, bind_eq_ok, require_eq_ok, pure_eq_ok]
  exact ⟨_, ⟨_, hexec, rfl⟩, ⟨⟩, hkeys, rfl⟩

end

-- The statements for one schema

theorem schemaObjects_head {schema : BlobSchema} {ddl : Ddl} (h : Installation.schemaObjects schema = .ok ddl) :
    ∃ sql rest, ddl = (tableName schema, sql) :: rest := by
  simp only [Installation.schemaObjects, bind_eq_ok, pure_eq_ok] at h
  obtain ⟨_, _, _, _, _, _, _, _, _, _, _, _, rfl⟩ := h
  exact ⟨_, _, rfl⟩

section

variable {known : Set SqlObject} {s : SqlCatalog} {schema : BlobSchema} {ddl : Ddl}

theorem exists_schemaTables (h : Holds known s.database) (hddl : Installation.schemaObjects schema = .ok ddl)
    (hdistinct : Distinct (known ∪ listed (ddl.map (objectOf (tableName schema)))))
    (hnew : ∀ o ∈ ddl.map (objectOf (tableName schema)), o ∉ known)
    (hnodup : (ddl.map (objectOf (tableName schema))).Nodup) :
    ∃ after, s.execute (objectOf (tableName schema)) ddl = .ok after ∧
      Laid known (ddl.map (objectOf (tableName schema))) s.database after.database ∧ after.rows = s.rows := by
  have hordered : Ordered s.database.objects (ddl.map (objectOf (tableName schema))) := by
    obtain ⟨sql, rest, rfl⟩ := schemaObjects_head hddl
    have htype : (objectOf (tableName schema) (tableName schema, sql)).type = .table := if_pos rfl
    refine ⟨?_, ordered_objectOf ⟨_, List.mem_append_right _ List.mem_cons_self, htype, rfl⟩⟩
    simp only [AttachedIn, htype]
  obtain ⟨after, hafter, hexecuted⟩ := exists_execute h hdistinct hnew hnodup hordered
  exact ⟨after, hafter, hexecuted.laid h hdistinct, hexecuted.rows⟩

-- A guard is one trigger on a table that is there.
theorem exists_guardTrigger (h : Holds known s.database) {table : String} {entry : String × String}
    (hdistinct : Distinct (known ∪ listed [objectOf table entry])) (hnew : objectOf table entry ∉ known)
    (htable : ∃ t ∈ known, t.type = .table ∧ t.name = table) :
    ∃ after, s.statement (create (objectOf table entry)) = .ok after ∧
      Laid known [objectOf table entry] s.database after.database ∧ after.rows = s.rows := by
  obtain ⟨t, ht, htype, hname⟩ := htable
  have hmem := (h.objects t (h.distinct t ht).1).mpr ht
  have hordered : Ordered s.database.objects ([entry].map (objectOf table)) :=
    ⟨attachedIn_objectOf ⟨t, hmem, htype, hname⟩, trivial⟩
  obtain ⟨after, hafter, hexecuted⟩ := @exists_execute _ _ _ [entry] h hdistinct
    (List.forall_mem_singleton.mpr hnew) (List.nodup_singleton _) hordered
  refine ⟨after, ?_, hexecuted.laid h hdistinct, hexecuted.rows⟩
  simp only [SqlCatalog.execute, List.foldlM_cons, List.foldlM_nil, bind_eq_ok, pure_eq_ok] at hafter
  obtain ⟨_, hone, rfl⟩ := hafter
  exact hone

end

namespace Ground

variable {extended indexed : Bool} {s : SqlCatalog} {known : Set SqlObject}

theorem holds (g : Ground extended indexed s known) : Holds known s.database := by
  cases g with
  | fresh hrows hclean hflags =>
      refine ⟨fun o ho => ⟨fun hmem => ?_, fun hnone => hnone.elim⟩, fun o ho => ho.elim⟩
      rw [hclean o hmem] at ho
      cases ho
  | standing h => exact h.holds

theorem tidy (g : Ground extended indexed s known) : Backup.Sound s.rows ∧
    (∀ g ∈ s.rows.guards, s.rows.declared g.schemaName) ∧ ∀ name ∈ s.rows.lifecycleSchemas,
      s.rows.declared name := by
  cases g with
  | fresh hrows hclean hflags =>
      rw [hrows]
      exact ⟨Backup.empty_sound, nofun, nofun⟩
  | standing h => exact ⟨h.sound, h.guards, h.enrolled⟩

theorem parts (g : Ground extended indexed s known) :
    (known = ∅ ∧ s.rows = Catalog.empty) ∨
    (Present known fixedObjects ∧ ∀ format ∈ formats, format.Read s) := by
  cases g with
  | fresh hrows hclean hflags => exact .inl ⟨rfl, hrows⟩
  | standing h => exact .inr ⟨owned_presents fun entry hentry => mem_fixedDdl hentry, h.formats⟩

theorem part (g : Ground extended indexed s known) {ddl : Ddl} {format : Format}
    (hddl : ∀ entry ∈ ddl, entry ∈ fixedObjects)
    (hformat : format ∈ formats) : Part known ddl format s := by
  rcases g.parts with ⟨rfl, _⟩ | ⟨hpresent, hread⟩
  · exact .inr fun o ho => ho.elim
  · exact .inl ⟨fun entry hentry => hpresent entry (hddl entry hentry), hread format hformat⟩

theorem known_subset (g : Ground extended indexed s known) : known ⊆ owned s.rows extended indexed := by
  cases g with
  | fresh hrows hclean hflags => exact Set.empty_subset _
  | standing h => exact Set.Subset.refl _

-- With the fixed objects, all that the rows ask for is there.
theorem owned_subset (g : Ground extended indexed s known) :
    owned s.rows extended indexed ⊆ known ∪ listed (fixedObjects.map fixedObject) := by
  cases g with
  | fresh hrows hclean hflags =>
      intro o ho
      cases ho with
      | fixed entry hentry ho =>
          obtain ⟨rfl, rfl⟩ := hflags
          simp only [fixedDdl, Bool.false_eq_true, if_false, List.append_nil] at hentry
          exact .inr (ho ▸ List.mem_map_of_mem hentry)
      | own name own hdeclared hown ho =>
          obtain ⟨row, hrow, _⟩ := hdeclared
          rw [hrows] at hrow
          cases hrow
  | standing h => exact Set.subset_union_left

theorem own (g : Ground extended indexed s known) (name : String) (hdeclared : s.rows.declared name) :
    ∃ own, ownObjects (s.rows.evolved name) (s.rows.declarations name) = .ok own := by
  cases g with
  | fresh hrows hclean hflags =>
      obtain ⟨row, hrow, _⟩ := hdeclared
      rw [hrows] at hrow
      cases hrow
  | standing h => exact h.own name hdeclared

theorem layouts (g : Ground extended indexed s known) (h : s.rows.layouts ≠ []) : extended = true := by
  cases g with
  | fresh hrows hclean hflags => exact absurd (congrArg Catalog.layouts hrows) h
  | standing hs => exact hs.layouts h

theorem retiring (g : Ground extended indexed s known) : Retiring known s.rows.lifecycleSchemas := by
  cases g with
  | fresh hrows hclean hflags =>
      rw [hrows]
      exact nofun
  | standing h => exact h.retiring

theorem blobs (g : Ground extended indexed s known) {more : Set SqlObject} (hsub : known ⊆ more) {ddl : Ddl}
    {entry : String × String} (hentry : entry ∈ ddl) (hfixed : entry ∈ fixedObjects)
    (habsent : Absent more ddl) :
    s.rows.blobs = [] := by
  rcases g.parts with ⟨_, hrows⟩ | ⟨hpresent, _⟩
  · rw [hrows]
    rfl
  · exact absurd rfl (habsent _ (hsub (hpresent entry hfixed)) entry hentry)

end Ground

theorem Laid.read {known : Set SqlObject} {news : List SqlObject} {s after : SqlCatalog} {format : Format}
    (h : Laid known news s.database after.database) (hother : ∀ o ∈ news, o.name ≠ format.table)
      (hread : format.Read s) :
    format.Read after := by
  rw [Format.Read, SqlCatalog.select, h.tables format.table hother]
  exact hread

theorem missing_new {known all : Set SqlObject} {database : Rebuild.Database} (h : Holds known database)
    (hdistinct : Distinct all) (hsub : known ⊆ all) {o : SqlObject} (ho : o ∈ all) (hnew : o ∉ known) :
    objectsOf database o.name = none := by
  refine (h.missing (hdistinct o ho).1).mpr fun other hother hsame => hnew ?_
  rw [← (hdistinct other (hsub hother)).2 o ho (congrArg asciiLower hsame)]
  exact hother

theorem core_apart :
    ∀ a ∈ Installation.CORE, ∀ b ∈ PayloadCatalog.DDL ++ (Encodings.DDL ++ Lifecycle.DDL), a.1 ≠ b.1 := by
  decide

theorem payload_apart : ∀ a ∈ PayloadCatalog.DDL, ∀ b ∈ Encodings.DDL ++ Lifecycle.DDL, a.1 ≠ b.1 := by decide

theorem encodings_apart : ∀ a ∈ Encodings.DDL, ∀ b ∈ Lifecycle.DDL, a.1 ≠ b.1 := by decide

-- What the statements for a new schema start from.
structure Opening (extended indexed : Bool) (s : SqlCatalog) (known : Set SqlObject)
    (schema : BlobSchema) (ddl : Ddl) (ready retire : String × String) : Prop where
  ground : Ground extended indexed s known
  undeclared : ¬s.rows.declared schema.name
  first : schema.version = 1
  tables : Installation.schemaObjects schema = .ok ddl
  publication : PayloadCatalog.guard schema false = .ok ready
  retirement : Lifecycle.schemaGuard schema = .ok retire

namespace Opening

variable {extended indexed : Bool} {s : SqlCatalog} {known : Set SqlObject} {schema : BlobSchema} {ddl : Ddl}
  {ready retire : String × String}

theorem own (h : Opening extended indexed s known schema ddl ready retire) :
    ownObjects false [schema] = .ok (ddl.map (objectOf (tableName schema)) ++
      [objectOf "ms_blobs" ready, objectOf (tableName schema) retire]) :=
  ownObjects_eq_ok.mpr ⟨schema, ddl, ready, retire, rfl, h.tables, h.publication, h.retirement, rfl⟩

theorem sound (h : Opening extended indexed s known schema ddl ready retire) :
    Backup.Sound (enrolledRows s.rows schema) := by
  obtain ⟨hs, hguards, henrolled⟩ := h.ground.tidy
  exact Backup.Operates.sound hs (.writes [.installSchema schema] _ (by simp [Action.migrates])
    (installSchema_enrolledRows hs hguards henrolled h.undeclared h.first))

theorem distinct (h : Opening extended indexed s known schema ddl ready retire) :
    Distinct (owned (enrolledRows s.rows schema) extended indexed) :=
  owned_distinct h.sound.settled.wf extended indexed

theorem known_subset (h : Opening extended indexed s known schema ddl ready retire) :
    known ⊆ owned (enrolledRows s.rows schema) extended indexed := by
  rw [owned_enrolledRows h.ground.tidy.1 h.undeclared h.own]
  exact h.ground.known_subset.trans Set.subset_union_left

theorem own_subset (h : Opening extended indexed s known schema ddl ready retire) :
    listed (ddl.map (objectOf (tableName schema)) ++
      [objectOf "ms_blobs" ready, objectOf (tableName schema) retire]) ⊆
        owned (enrolledRows s.rows schema) extended indexed := by
  rw [owned_enrolledRows h.ground.tidy.1 h.undeclared h.own]
  exact Set.subset_union_right

theorem fixed_subset {db : Catalog} {part : Ddl} (hpart : ∀ entry ∈ part, entry ∈ fixedObjects) :
    listed (part.map fixedObject) ⊆ owned db extended indexed := by
  intro o ho
  obtain ⟨entry, hentry, rfl⟩ := List.mem_map.mp ho
  exact .fixed entry (mem_fixedDdl (hpart entry hentry)) rfl

theorem own_names (h : Opening extended indexed s known schema ddl ready retire) {o : SqlObject}
    (ho : o ∈ ddl.map (objectOf (tableName schema)) ++
      [objectOf "ms_blobs" ready, objectOf (tableName schema) retire]) : ∃ role, o.name =
        objectName schema role := by
  have hmem := List.mem_map_of_mem (f := fun o : SqlObject => o.name) ho
  rw [ownObjects_names rfl h.own] at hmem
  obtain ⟨role, _, hname⟩ := List.mem_map.mp hmem
  exact ⟨role, hname.symm⟩

theorem own_not_fixed (h : Opening extended indexed s known schema ddl ready retire) {o : SqlObject}
    (ho : o ∈ ddl.map (objectOf (tableName schema)) ++
      [objectOf "ms_blobs" ready, objectOf (tableName schema) retire]) {entry : String × String}
    (hentry : entry ∈ fixedDdl true true) : o.name ≠ entry.1 := by
  obtain ⟨role, hname⟩ := h.own_names ho
  intro hsame
  refine (fixedDdl_not_data entry hentry).1 ?_
  rw [← hsame, hname]
  exact objectName_data schema role

theorem own_not_known (h : Opening extended indexed s known schema ddl ready retire) {o : SqlObject}
    (ho : o ∈ ddl.map (objectOf (tableName schema)) ++
      [objectOf "ms_blobs" ready, objectOf (tableName schema) retire]) : o ∉ known := by
  intro hknown
  cases h.ground.known_subset hknown with
  | fixed entry hentry hsame =>
      exact h.own_not_fixed ho (fixedDdl_mono _ _ hentry) (congrArg SqlObject.name hsame)
  | own name own hdeclared hown hmem =>
      obtain ⟨latest, _, hlatest, role, _, hname⟩ := mem_own_declared h.ground.tidy.1.settled.wf hown hmem
      obtain ⟨role', hname'⟩ := h.own_names ho
      obtain ⟨hschema, _⟩ := objectName_inj (hname.symm.trans hname')
      exact h.undeclared (hschema ▸ hlatest ▸ hdeclared)

theorem own_nodup (h : Opening extended indexed s known schema ddl ready retire) :
    (ddl.map (objectOf (tableName schema)) ++
      [objectOf "ms_blobs" ready, objectOf (tableName schema) retire]).Nodup := by
  have hversions : Versions [schema] := ⟨by simp, by simp⟩
  have hroles := @ownRoles_nodup false _ _ hversions List.mem_cons_self
  refine List.Nodup.of_map (fun o : SqlObject => o.name) ?_
  rw [ownObjects_names rfl h.own]
  exact hroles.map fun a b hab => (objectName_inj hab).2

theorem not_listed_fixed (h : Opening extended indexed s known schema ddl ready retire) {o : SqlObject}
    (ho : o ∈ ddl.map (objectOf (tableName schema)) ++
      [objectOf "ms_blobs" ready, objectOf (tableName schema) retire]) {part : Ddl}
    (hpart : ∀ entry ∈ part, entry ∈ fixedObjects) : o ∉ listed (part.map fixedObject) := by
  intro hmem
  obtain ⟨entry, hentry, hsame⟩ := List.mem_map.mp hmem
  exact h.own_not_fixed ho (mem_fixedDdl (hpart entry hentry)) (congrArg SqlObject.name hsame).symm

-- Before the first row of the schema: the core objects, then the tables.
theorem exists_installation (h : Opening extended indexed s known schema ddl ready retire) :
    ∃ after, SqlCatalog.Installation.install schema s = .ok (tableName schema, after) ∧
      Laid known (Installation.CORE.map fixedObject ++ ddl.map (objectOf (tableName schema)))
      s.database after.database ∧
      after.rows = declaredRows s.rows schema ∧ coreFormat.Read after := by
  have hsub : known ∪ listed (Installation.CORE.map fixedObject) ⊆ owned (enrolledRows s.rows schema)
    extended indexed :=
    Set.union_subset h.known_subset (fixed_subset fixedDdl_of_core)
  obtain ⟨mid, hcore, hadded⟩ := exists_core h.ground.holds (h.distinct.mono hsub) (by
    rcases h.ground.parts with ⟨hnone, _⟩ | ⟨hpresent, hread⟩
    · exact .inl hnone
    · exact .inr ⟨fun entry hentry => hpresent entry (fixedDdl_of_core entry hentry),
        hread _ List.mem_cons_self⟩)
  have hown {o : SqlObject} (ho : o ∈ ddl.map (objectOf (tableName schema))) :
      o ∈ ddl.map (objectOf (tableName schema)) ++
        [objectOf "ms_blobs" ready, objectOf (tableName schema) retire] :=
    List.mem_append_left _ ho
  have htables : listed (ddl.map (objectOf (tableName schema))) ⊆ owned (enrolledRows s.rows schema)
    extended indexed :=
    fun o ho => h.own_subset (hown ho)
  obtain ⟨after, hafter, hlaid, hrows⟩ := exists_schemaTables (s := mid.write (declaredRows s.rows schema))
    hadded.laid.holds h.tables (h.distinct.mono (Set.union_subset hsub htables))
    (fun o ho hmem => hmem.elim (h.own_not_known (hown ho)) (h.not_listed_fixed (hown ho) fixedDdl_of_core))
    (h.own_nodup.sublist (List.sublist_append_left _ _))
  have hmissing : ∀ entry ∈ ddl, s.objects entry.1 = none := by
    intro entry hentry
    have hmem : objectOf (tableName schema) entry ∈ ddl.map (objectOf (tableName schema)) :=
      List.mem_map_of_mem hentry
    exact missing_new h.ground.holds h.distinct h.known_subset (htables hmem) (h.own_not_known (hown hmem))
  refine ⟨after, ?_, hadded.laid.trans hlaid, hrows, ?_⟩
  · rw [SqlCatalog.Installation.install, hcore, except_ok_bind, h.tables, except_ok_bind, hadded.rows,
      schema?_of_undeclared h.undeclared]
    show (require (schema.version = 1) _ >>= fun _ => _) = _
    rw [require_true h.first, except_ok_bind, require_true hmissing, except_ok_bind,
      insertSchema_declaredRows h.undeclared, except_ok_bind, hafter]
    rfl
  · exact hlaid.read (fun o ho =>
      h.own_not_fixed (hown ho) (mem_fixedDdl (fixedDdl_of_core _ List.mem_cons_self)))
      hadded.format

theorem ready_mem : objectOf "ms_blobs" ready ∈ ddl.map (objectOf (tableName schema)) ++
    [objectOf "ms_blobs" ready, objectOf (tableName schema) retire] :=
  List.mem_append_right _ List.mem_cons_self

theorem retire_mem : objectOf (tableName schema) retire ∈ ddl.map (objectOf (tableName schema)) ++
    [objectOf "ms_blobs" ready, objectOf (tableName schema) retire] :=
  List.mem_append_right _ (List.mem_cons_of_mem _ List.mem_cons_self)

theorem ready_not_tables (h : Opening extended indexed s known schema ddl ready retire) :
    objectOf "ms_blobs" ready ∉ ddl.map (objectOf (tableName schema)) :=
  fun hmem => (List.nodup_append.mp h.own_nodup).2.2 _ hmem _ List.mem_cons_self rfl

theorem retire_not_tables (h : Opening extended indexed s known schema ddl ready retire) :
    objectOf (tableName schema) retire ∉ ddl.map (objectOf (tableName schema)) ∧
      objectOf (tableName schema) retire ≠ objectOf "ms_blobs" ready := by
  obtain ⟨_, hlast, hapart⟩ := List.nodup_append.mp h.own_nodup
  refine ⟨fun hmem => hapart _ hmem _ (List.mem_cons_of_mem _ List.mem_cons_self) rfl, fun hsame => ?_⟩
  exact (List.nodup_cons.mp hlast).1 (hsame ▸ List.mem_cons_self)

-- The publication guard and the row of the payload extension.
theorem exists_publication (h : Opening extended indexed s known schema ddl ready retire) {mid : SqlCatalog}
    {news : List SqlObject} (hlaid : Laid known news s.database mid.database)
    (hrows : mid.rows = declaredRows s.rows schema)
    (hsub : listed news ⊆ owned (enrolledRows s.rows schema) extended indexed)
    (hcore : Present (known ∪ listed news) Installation.CORE)
    (hother : ∀ o ∈ news, ∀ entry ∈ PayloadCatalog.DDL, o.name ≠ entry.1)
    (hready : objectOf "ms_blobs" ready ∉ news) :
    ∃ after, SqlCatalog.PayloadCatalog.install schema mid = .ok after ∧
      Laid (known ∪ listed news) (PayloadCatalog.DDL.map fixedObject ++ [objectOf "ms_blobs" ready])
        mid.database after.database ∧
      after.rows = { declaredRows s.rows schema with
        guards := s.rows.guards ++ [⟨schema.name, false⟩]
        payloadSchemas := s.rows.payloadSchemas ++ [(schema.name, schema.version)] } ∧
        payloadFormat.Read after := by
  obtain ⟨hs, hguards, henrolled⟩ := h.ground.tidy
  have hall : known ∪ listed news ⊆ owned (enrolledRows s.rows schema) extended indexed :=
    Set.union_subset h.known_subset hsub
  have hparts : known ∪ listed news ∪ listed (PayloadCatalog.DDL.map fixedObject) ⊆
      owned (enrolledRows s.rows schema) extended indexed :=
    Set.union_subset hall (fixed_subset fixedDdl_of_payload)
  have hformat : payloadFormat ∈ formats := List.mem_cons_of_mem _ List.mem_cons_self
  have hpart := (h.ground.part fixedDdl_of_payload hformat).step hlaid hother
    (by decide)
  obtain ⟨next, hextend, hadded⟩ :=
    exists_extend hlaid.holds (h.distinct.mono hparts) hpart hcore fun habsent => by
    rw [hrows]
    exact h.ground.blobs Set.subset_union_left List.mem_cons_self
      (fixedDdl_of_payload _ List.mem_cons_self) habsent
  have hnew : objectOf "ms_blobs" ready ∉ known ∪ listed news ∪ listed
    (PayloadCatalog.DDL.map fixedObject) := by
    rintro ((hold | hmem) | hmem)
    · exact h.own_not_known ready_mem hold
    · exact hready hmem
    · exact h.not_listed_fixed ready_mem fixedDdl_of_payload hmem
  have hmem : objectOf "ms_blobs" ready ∈ owned (enrolledRows s.rows schema) extended indexed :=
    h.own_subset ready_mem
  have htable : ∃ t ∈ known ∪ listed news ∪ listed (PayloadCatalog.DDL.map fixedObject), t.type = .table ∧
      t.name = "ms_blobs" := by
    obtain ⟨entry, hentry, hname⟩ : ∃ entry ∈ Installation.CORE, entry.1 = "ms_blobs" := by decide +kernel
    refine ⟨fixedObject entry, .inl (hcore entry hentry), if_pos ?_, hname⟩
    rw [hname]
    rfl
  have hdistinct : Distinct (known ∪ listed news ∪ listed (PayloadCatalog.DDL.map fixedObject) ∪
      listed [objectOf "ms_blobs" ready]) :=
    h.distinct.mono (Set.union_subset hparts fun o ho => List.mem_singleton.mp ho ▸ hmem)
  obtain ⟨after, hafter, hguardLaid, hguardRows⟩ := exists_guardTrigger hadded.laid.holds hdistinct hnew htable
  have hnotEvolved : next.evolved schema.name = false := by
    rw [SqlCatalog.evolved, hadded.rows, hrows]
    exact Bool.and_eq_false_imp.mpr fun _ =>
      show s.rows.evolved schema.name = false from evolved_of_undeclared hs h.undeclared
  have hmissing : mid.objects ready.1 = none := missing_new hlaid.holds h.distinct hall hmem
    fun hold => hnew (.inl hold)
  have hpayload : (schema.name, schema.version) ∉ next.rows.payloadSchemas := fun hpair => by
    rw [hadded.rows, hrows] at hpair
    obtain ⟨row, hrow, hname, _⟩ := hs.registered.declared _ hpair
    exact h.undeclared ⟨row, hrow, hname⟩
  have hblobs : ∀ b ∈ next.rows.blobs, b.schemaName = schema.name → b.state = .publishing :=
    fun b hb hname => by
    rw [hadded.rows, hrows] at hb
    obtain ⟨row, hrow, hsame, _⟩ := hs.settled.wf.blobDeclared b hb
    exact absurd ⟨row, hrow, hsame.trans hname⟩ h.undeclared
  refine ⟨after.write (SqlCatalog.PayloadCatalog.enrolled schema next), ?_,
    hadded.laid.trans hguardLaid, ?_, ?_⟩
  · rw [SqlCatalog.PayloadCatalog.install, hextend, except_ok_bind, hnotEvolved, h.publication, except_ok_bind,
      if_neg hpayload, require_true hmissing, except_ok_bind, require_true hblobs, except_ok_bind, hafter]
    rfl
  · show SqlCatalog.PayloadCatalog.enrolled schema next = _
    rw [SqlCatalog.PayloadCatalog.enrolled, hnotEvolved, hadded.rows, hrows]
    rfl
  · exact Laid.read hguardLaid (List.forall_mem_singleton.mpr
      (h.own_not_fixed ready_mem (mem_fixedDdl (fixedDdl_of_payload _ List.mem_cons_self)))) hadded.format

-- The encodings, the lifecycle extension and the retirement guard.
theorem exists_retirement (h : Opening extended indexed s known schema ddl ready retire) {mid : SqlCatalog}
    {news : List SqlObject} (hlaid : Laid known news s.database mid.database)
    (hrows : mid.rows.lifecycleSchemas = s.rows.lifecycleSchemas ∧ mid.rows.blobs = s.rows.blobs)
    (hsub : listed news ⊆ owned (enrolledRows s.rows schema) extended indexed)
    (hbefore : Present (known ∪ listed news) (Installation.CORE ++ PayloadCatalog.DDL))
    (hother : ∀ o ∈ news, ∀ entry ∈ Encodings.DDL ++ Lifecycle.DDL, o.name ≠ entry.1)
    (htable : ∃ t ∈ known ∪ listed news, t.type = .table ∧ t.name = tableName schema)
    (hretire : objectOf (tableName schema) retire ∉ news) :
    ∃ first second after, SqlCatalog.Encodings.install mid = .ok first ∧
      SqlCatalog.Lifecycle.install first = .ok second ∧
      SqlCatalog.Lifecycle.installSchema schema second = .ok after ∧
      Laid (known ∪ listed news) (Encodings.DDL.map fixedObject ++ (Lifecycle.DDL.map fixedObject ++
        [objectOf (tableName schema) retire])) mid.database after.database ∧
      after.rows = { mid.rows with lifecycleSchemas := s.rows.lifecycleSchemas ++ [schema.name] } ∧
      encodingFormat.Read after ∧ lifecycleFormat.Read after := by
  obtain ⟨hs, hguards, henrolled⟩ := h.ground.tidy
  have hall : known ∪ listed news ⊆ owned (enrolledRows s.rows schema) extended indexed :=
    Set.union_subset h.known_subset hsub
  have hencodings : known ∪ listed news ∪ listed (Encodings.DDL.map fixedObject) ⊆
      owned (enrolledRows s.rows schema) extended indexed := Set.union_subset hall
        (fixed_subset fixedDdl_of_encodings)
  have hlifecycle : known ∪ listed news ∪ listed (Encodings.DDL.map fixedObject) ∪
      listed (Lifecycle.DDL.map fixedObject) ⊆ owned (enrolledRows s.rows schema) extended indexed :=
    Set.union_subset hencodings (fixed_subset fixedDdl_of_lifecycle)
  have hformat : encodingFormat ∈ formats ∧ lifecycleFormat ∈ formats := by simp [formats]
  have hfirst := (h.ground.part fixedDdl_of_encodings hformat.1).step hlaid
    (fun o ho entry hentry => hother o ho entry (List.mem_append_left _ hentry)) (by decide)
  obtain ⟨first, hinstall, hadded⟩ := exists_encodings hlaid.holds (h.distinct.mono hencodings) hfirst
  have hsecond := ((h.ground.part fixedDdl_of_lifecycle hformat.2).step hlaid
    (fun o ho entry hentry => hother o ho entry (List.mem_append_right _ hentry)) (by decide)).step hadded.laid
    (fun o ho entry hentry => by
      obtain ⟨other, hother, rfl⟩ := List.mem_map.mp ho
      exact encodings_apart other hother entry hentry) (by decide)
  have hretiring : Retiring (known ∪ listed news ∪ listed (Encodings.DDL.map fixedObject))
    first.rows.lifecycleSchemas := by
    rw [hadded.rows, hrows.1]
    intro name hname
    obtain ⟨schema', entry, hschema, hentry, hmem⟩ := h.ground.retiring name hname
    exact ⟨schema', entry, hschema, hentry, .inl (.inl hmem)⟩
  obtain ⟨second, hlife, hlifeAdded⟩ := exists_lifecycle hadded.laid.holds (h.distinct.mono hlifecycle) hsecond
    (fun entry hentry => .inl (hbefore entry hentry)) hretiring fun habsent => by
      rw [hadded.rows, hrows.2]
      exact h.ground.blobs (Set.subset_union_left.trans Set.subset_union_left) List.mem_cons_self
        (fixedDdl_of_lifecycle _ List.mem_cons_self) habsent
  have hmem : objectOf (tableName schema) retire ∈ owned (enrolledRows s.rows schema) extended indexed :=
    h.own_subset retire_mem
  have hnew : objectOf (tableName schema) retire ∉ known ∪ listed news ∪ listed
    (Encodings.DDL.map fixedObject) ∪
      listed (Lifecycle.DDL.map fixedObject) := by
    rintro (((hold | hmem) | hmem) | hmem)
    · exact h.own_not_known retire_mem hold
    · exact hretire hmem
    · exact h.not_listed_fixed retire_mem fixedDdl_of_encodings hmem
    · exact h.not_listed_fixed retire_mem fixedDdl_of_lifecycle hmem
  have hdistinct : Distinct (known ∪ listed news ∪ listed (Encodings.DDL.map fixedObject) ∪
      listed (Lifecycle.DDL.map fixedObject) ∪ listed [objectOf (tableName schema) retire]) :=
    h.distinct.mono (Set.union_subset hlifecycle fun o ho => List.mem_singleton.mp ho ▸ hmem)
  obtain ⟨t, ht, htype, hname⟩ := htable
  obtain ⟨after, hafter, hguardLaid, hguardRows⟩ := exists_guardTrigger hlifeAdded.laid.holds hdistinct hnew
    ⟨t, .inl (.inl ht), htype, hname⟩
  have hmissing : second.objects retire.1 = none :=
    missing_new hlifeAdded.laid.holds h.distinct hlifecycle hmem hnew
  have hlifecycleRows : second.rows.lifecycleSchemas = s.rows.lifecycleSchemas := by
    rw [hlifeAdded.rows, hadded.rows, hrows.1]
  have hunlisted : schema.name ∉ second.rows.lifecycleSchemas := by
    rw [hlifecycleRows]
    exact fun hmem => h.undeclared (henrolled _ hmem)
  have hretireTables {entry : String × String} (hentry : entry ∈ fixedObjects) :
      ∀ o ∈ [objectOf (tableName schema) retire], o.name ≠ entry.1 :=
    List.forall_mem_singleton.mpr (h.own_not_fixed retire_mem (mem_fixedDdl hentry))
  refine ⟨first, second, after.write { second.rows with
    lifecycleSchemas := second.rows.lifecycleSchemas ++ [schema.name] }, hinstall, hlife, ?_,
    hadded.laid.trans (hlifeAdded.laid.trans hguardLaid), ?_, ?_, ?_⟩
  · rw [SqlCatalog.Lifecycle.installSchema, h.retirement, except_ok_bind, if_neg hunlisted,
      require_true hmissing, except_ok_bind, hafter]
    rfl
  · show ({ second.rows with lifecycleSchemas := second.rows.lifecycleSchemas ++ [schema.name] } : Catalog) = _
    rw [hlifecycleRows, hlifeAdded.rows, hadded.rows]
  · refine Laid.read hguardLaid (hretireTables (fixedDdl_of_encodings _ List.mem_cons_self)) ?_
    refine hlifeAdded.laid.read (fun o ho => ?_) hadded.format
    obtain ⟨other, hother, rfl⟩ := List.mem_map.mp ho
    exact (encodings_apart _ List.mem_cons_self other hother).symm
  · exact Laid.read hguardLaid (hretireTables (fixedDdl_of_lifecycle _ List.mem_cons_self)) hlifeAdded.format

theorem fixed_names {part : Ddl} {o : SqlObject} (h : o ∈ part.map fixedObject) :
    ∃ entry ∈ part, o.name = entry.1 := by
  obtain ⟨entry, hentry, rfl⟩ := List.mem_map.mp h
  exact ⟨entry, hentry, rfl⟩

theorem last_names (h : Opening extended indexed s known schema ddl ready retire) {o : SqlObject}
    (ho : o ∈ Encodings.DDL.map fixedObject ++ (Lifecycle.DDL.map fixedObject ++
      [objectOf (tableName schema) retire]))
    {entry : String × String} (hentry : entry ∈ fixedObjects)
    (happart : ∀ other ∈ Encodings.DDL ++ Lifecycle.DDL, entry.1 ≠ other.1) : o.name ≠ entry.1 := by
  rcases List.mem_append.mp ho with hmem | hmem
  · obtain ⟨other, hother, hname⟩ := fixed_names hmem
    rw [hname]
    exact (happart other (List.mem_append_left _ hother)).symm
  · rcases List.mem_append.mp hmem with hmem | hmem
    · obtain ⟨other, hother, hname⟩ := fixed_names hmem
      rw [hname]
      exact (happart other (List.mem_append_right _ hother)).symm
    · rw [List.mem_singleton.mp hmem]
      exact h.own_not_fixed retire_mem (mem_fixedDdl hentry)

theorem settles (h : Opening extended indexed s known schema ddl ready retire) :
    known ∪ listed (Installation.CORE.map fixedObject ++ ddl.map (objectOf (tableName schema)) ++
      (PayloadCatalog.DDL.map fixedObject ++ [objectOf "ms_blobs" ready]) ++ (Encodings.DDL.map fixedObject ++
      (Lifecycle.DDL.map fixedObject ++ [objectOf (tableName schema) retire]))) =
    owned s.rows extended indexed ∪ listed (ddl.map (objectOf (tableName schema)) ++
      [objectOf "ms_blobs" ready, objectOf (tableName schema) retire]) := by
  ext o
  constructor
  · rintro (hold | hnew)
    · exact .inl (h.ground.known_subset hold)
    · rcases List.mem_append.mp hnew with hmem | hmem
      · rcases List.mem_append.mp hmem with hmem | hmem
        · rcases List.mem_append.mp hmem with hmem | hmem
          · exact .inl (fixed_subset fixedDdl_of_core hmem)
          · exact .inr (List.mem_append_left _ hmem)
        · rcases List.mem_append.mp hmem with hmem | hmem
          · exact .inl (fixed_subset fixedDdl_of_payload hmem)
          · exact .inr (List.mem_singleton.mp hmem ▸ ready_mem)
      · rcases List.mem_append.mp hmem with hmem | hmem
        · exact .inl (fixed_subset fixedDdl_of_encodings hmem)
        · rcases List.mem_append.mp hmem with hmem | hmem
          · exact .inl (fixed_subset fixedDdl_of_lifecycle hmem)
          · exact .inr (List.mem_singleton.mp hmem ▸ retire_mem)
  · rintro (hold | hnew)
    · rcases h.ground.owned_subset hold with hknown | hfixed
      · exact .inl hknown
      · obtain ⟨entry, hentry, rfl⟩ := List.mem_map.mp hfixed
        have hmem {part : Ddl} (hpart : entry ∈ part) : fixedObject entry ∈ part.map fixedObject :=
          List.mem_map_of_mem hpart
        rcases List.mem_append.mp hentry with hentry | hentry
        · rcases List.mem_append.mp hentry with hentry | hentry
          · rcases List.mem_append.mp hentry with hentry | hentry
            · exact .inr
                (List.mem_append_left _ (List.mem_append_left _ (List.mem_append_left _ (hmem hentry))))
            · exact .inr
                (List.mem_append_left _ (List.mem_append_right _ (List.mem_append_left _ (hmem hentry))))
          · exact .inr (List.mem_append_right _ (List.mem_append_left _ (hmem hentry)))
        · exact .inr (List.mem_append_right _ (List.mem_append_right _ (List.mem_append_left _ (hmem hentry))))
    · rcases List.mem_append.mp hnew with hmem | hmem
      · exact .inr (List.mem_append_left _ (List.mem_append_left _ (List.mem_append_right _ hmem)))
      · rcases List.mem_cons.mp hmem with rfl | hmem
        · exact .inr
            (List.mem_append_left _ (List.mem_append_right _ (List.mem_append_right _ List.mem_cons_self)))
        · exact .inr (List.mem_append_right _ (List.mem_append_right _ (List.mem_append_right _ hmem)))

-- Installing a new name succeeds, and the catalog stands with its objects.
theorem exists_first (h : Opening extended indexed s known schema ddl ready retire) :
    ∃ after, SqlCatalog.Store.installSchema schema s = .ok (tableName schema, after) ∧
      after.rows = enrolledRows s.rows schema ∧ Standing extended indexed after ∧
      ∀ o, reserved o.name = false → (o ∈ after.database.objects ↔ o ∈ s.database.objects) := by
  obtain ⟨hs, hguards, henrolled⟩ := h.ground.tidy
  obtain ⟨first, hinstall, hlaid, hrows, hcoreRead⟩ := h.exists_installation
  have hown {o : SqlObject} (ho : o ∈ ddl.map (objectOf (tableName schema))) :
      o ∈ ddl.map (objectOf (tableName schema)) ++
        [objectOf "ms_blobs" ready, objectOf (tableName schema) retire] :=
    List.mem_append_left _ ho
  have hsub : listed (Installation.CORE.map fixedObject ++ ddl.map (objectOf (tableName schema))) ⊆
      owned (enrolledRows s.rows schema) extended indexed := by
    intro o ho
    rcases List.mem_append.mp ho with hmem | hmem
    · exact fixed_subset fixedDdl_of_core hmem
    · exact h.own_subset (hown hmem)
  have hcore {more : List SqlObject} : Present (known ∪ listed (Installation.CORE.map fixedObject ++ more))
      Installation.CORE := fun entry hentry => .inr (List.mem_append_left _ (List.mem_map_of_mem hentry))
  have hother : ∀ o ∈ Installation.CORE.map fixedObject ++ ddl.map (objectOf (tableName schema)),
      ∀ entry ∈ PayloadCatalog.DDL ++ (Encodings.DDL ++ Lifecycle.DDL), o.name ≠ entry.1 := by
    intro o ho entry hentry
    rcases List.mem_append.mp ho with hmem | hmem
    · obtain ⟨other, hother, hname⟩ := fixed_names hmem
      rw [hname]
      exact core_apart other hother entry hentry
    · refine h.own_not_fixed (hown hmem) (mem_fixedDdl ?_)
      simp only [fixedObjects, List.mem_append] at hentry ⊢
      tauto
  obtain ⟨second, hpayload, hpayloadLaid, hpayloadRows, hpayloadRead⟩ :=
    h.exists_publication hlaid hrows hsub hcore
    (fun o ho entry hentry => hother o ho entry (List.mem_append_left _ hentry)) (fun hmem => by
      rcases List.mem_append.mp hmem with hmem | hmem
      · exact h.not_listed_fixed ready_mem fixedDdl_of_core hmem
      · exact h.ready_not_tables hmem)
  have hmid := hlaid.trans hpayloadLaid
  have hsub' : listed (Installation.CORE.map fixedObject ++ ddl.map (objectOf (tableName schema)) ++
      (PayloadCatalog.DDL.map fixedObject ++ [objectOf "ms_blobs" ready])) ⊆
      owned (enrolledRows s.rows schema) extended indexed := by
    intro o ho
    rcases List.mem_append.mp ho with hmem | hmem
    · exact hsub hmem
    · rcases List.mem_append.mp hmem with hmem | hmem
      · exact fixed_subset fixedDdl_of_payload hmem
      · exact List.mem_singleton.mp hmem ▸ h.own_subset ready_mem
  have hother' : ∀ o ∈ Installation.CORE.map fixedObject ++ ddl.map (objectOf (tableName schema)) ++
      (PayloadCatalog.DDL.map fixedObject ++ [objectOf "ms_blobs" ready]),
      ∀ entry ∈ Encodings.DDL ++ Lifecycle.DDL, o.name ≠ entry.1 := by
    intro o ho entry hentry
    rcases List.mem_append.mp ho with hmem | hmem
    · exact hother o hmem entry (List.mem_append_right _ hentry)
    · rcases List.mem_append.mp hmem with hmem | hmem
      · obtain ⟨other, hother, hname⟩ := fixed_names hmem
        rw [hname]
        exact payload_apart other hother entry hentry
      · rw [List.mem_singleton.mp hmem]
        refine h.own_not_fixed ready_mem (mem_fixedDdl ?_)
        simp only [fixedObjects, List.mem_append] at hentry ⊢
        tauto
  obtain ⟨sql, rest, hhead⟩ := schemaObjects_head h.tables
  have htable :
    ∃ t ∈ known ∪ listed (Installation.CORE.map fixedObject ++ ddl.map (objectOf (tableName schema)) ++
      (PayloadCatalog.DDL.map fixedObject ++ [objectOf "ms_blobs" ready])), t.type = .table ∧
        t.name = tableName schema := by
    refine ⟨objectOf (tableName schema) (tableName schema, sql), .inr ?_, if_pos rfl, rfl⟩
    refine List.mem_append_left _ (List.mem_append_right _ ?_)
    rw [hhead]
    exact List.mem_cons_self
  obtain ⟨third, fourth, after, hencodings, hlifecycle, hretirement, hlastLaid, hlastRows, hencodingRead,
    hlifecycleRead⟩ :=
    h.exists_retirement hmid (by rw [hpayloadRows]; exact ⟨rfl, rfl⟩) hsub' (fun entry hentry => by
      refine .inr ?_
      rcases List.mem_append.mp hentry with hmem | hmem
      · exact List.mem_append_left _ (List.mem_append_left _ (List.mem_map_of_mem hmem))
      · exact List.mem_append_right _ (List.mem_append_left _ (List.mem_map_of_mem hmem))) hother' htable
          (fun hmem => by
      rcases List.mem_append.mp hmem with hmem | hmem
      · rcases List.mem_append.mp hmem with hmem | hmem
        · exact h.not_listed_fixed retire_mem fixedDdl_of_core hmem
        · exact h.retire_not_tables.1 hmem
      · rcases List.mem_append.mp hmem with hmem | hmem
        · exact h.not_listed_fixed retire_mem fixedDdl_of_payload hmem
        · exact h.retire_not_tables.2 (List.mem_singleton.mp hmem))
  have hall := hmid.trans hlastLaid
  have hafterRows : after.rows = enrolledRows s.rows schema := by
    rw [hlastRows, hpayloadRows]
    rfl
  refine ⟨after, ?_, hafterRows, ?_, hall.plain⟩
  · simp only [SqlCatalog.Store.installSchema, hinstall, hpayload, hencodings, hlifecycle,
      hretirement, except_ok_bind]
    rfl
  · have hset : known ∪ listed (Installation.CORE.map fixedObject ++ ddl.map (objectOf (tableName schema)) ++
        (PayloadCatalog.DDL.map fixedObject ++ [objectOf "ms_blobs" ready]) ++ (Encodings.DDL.map fixedObject ++
        (Lifecycle.DDL.map fixedObject ++ [objectOf (tableName schema) retire]))) =
        owned (enrolledRows s.rows schema) extended indexed := by
      rw [owned_enrolledRows hs h.undeclared h.own]
      exact h.settles
    refine
      { sound := hafterRows ▸ h.sound, guards := fun g hg => ?_, enrolled := fun name hname => ?_,
        formats := ?_, own := fun name hname => ?_, objects := fun o ho => ?_, layouts := ?_ }
    · rw [hafterRows] at hg ⊢
      rcases List.mem_append.mp hg with hold | hnew
      · exact declared_enrolledRows.mpr (.inl (hguards g hold))
      · exact declared_enrolledRows.mpr (.inr (List.mem_singleton.mp hnew ▸ rfl))
    · rw [hafterRows] at hname ⊢
      rcases List.mem_append.mp hname with hold | hnew
      · exact declared_enrolledRows.mpr (.inl (henrolled name hold))
      · exact declared_enrolledRows.mpr (.inr (List.mem_singleton.mp hnew))
    · intro format hformat
      simp only [formats, List.mem_cons, List.not_mem_nil, or_false] at hformat
      rcases hformat with rfl | rfl | rfl | rfl
      · refine hlastLaid.read (fun o ho => ?_) (hpayloadLaid.read (fun o ho => ?_) hcoreRead)
        · exact h.last_names ho (fixedDdl_of_core _ List.mem_cons_self) fun entry hentry =>
            core_apart _ List.mem_cons_self entry (List.mem_append_right _ hentry)
        · rcases List.mem_append.mp ho with hmem | hmem
          · obtain ⟨entry, hentry, hname⟩ := fixed_names hmem
            rw [hname]
            exact (core_apart _ List.mem_cons_self entry (List.mem_append_left _ hentry)).symm
          · rw [List.mem_singleton.mp hmem]
            exact h.own_not_fixed ready_mem (mem_fixedDdl (fixedDdl_of_core _ List.mem_cons_self))
      · exact hlastLaid.read (fun o ho => h.last_names ho (fixedDdl_of_payload _ List.mem_cons_self)
          fun entry hentry =>
          payload_apart _ List.mem_cons_self entry hentry) hpayloadRead
      · exact hencodingRead
      · exact hlifecycleRead
    · rw [hafterRows] at hname ⊢
      by_cases hsame : name = schema.name
      · have hevolved : (enrolledRows s.rows schema).evolved schema.name = false :=
          show s.rows.evolved schema.name = false from evolved_of_undeclared hs h.undeclared
        rw [hsame, hevolved, declarations_self h.undeclared]
        exact ⟨_, h.own⟩
      · rw [declarations_other hsame]
        exact h.ground.own name ((declared_enrolledRows.mp hname).resolve_right hsame)
    · rw [hall.holds.objects o ho, hset, hafterRows]
      rfl
    · rw [hafterRows]
      exact h.ground.layouts

end Opening

end MeldStore
