import MeldStore.Installation.Known

namespace MeldStore

open Library Library.Checked Rebuild Rebuild.SqlObject

-- Each installer of fixed objects finds all of them or creates all of them

def Present (known : Set SqlObject) (ddl : Ddl) : Prop := ∀ entry ∈ ddl, fixedObject entry ∈ known

def Absent (known : Set SqlObject) (ddl : Ddl) : Prop := ∀ o ∈ known, ∀ entry ∈ ddl, o.name ≠ entry.1

-- The rows that say which version of a part is there.
structure Format where
  table : String
  columns : List String
  values : List (List Value)

def coreFormat : Format := ⟨"ms_format", ["singleton", "version"], [[.int 1, .int 1]]⟩

def payloadFormat : Format := ⟨"ms_payload_format", ["version"], [[.int 1]]⟩

def encodingFormat : Format := ⟨"ms_encoding_format", ["version"], [[.int 1]]⟩

def lifecycleFormat : Format := ⟨"ms_lifecycle_format", ["version"], [[.int 1]]⟩

def formats : List Format := [coreFormat, payloadFormat, encodingFormat, lifecycleFormat]

def Format.Read (format : Format) (s : SqlCatalog) : Prop :=
  s.select format.table format.columns = format.values

-- What an installer leaves.
structure Laid (known : Set SqlObject) (news : List SqlObject) (before after : Rebuild.Database) : Prop where
  holds : Holds (known ∪ listed news) after
  plain : ∀ o, reserved o.name = false → (o ∈ after.objects ↔ o ∈ before.objects)
  tables : ∀ table, (∀ o ∈ news, o.name ≠ table) → after.rows table = before.rows table

theorem Laid.trans {known : Set SqlObject} {news more : List SqlObject} {first second third : Rebuild.Database}
    (h : Laid known news first second) (h' : Laid (known ∪ listed news) more second third) :
    Laid known (news ++ more) first third := by
  have hunion : known ∪ listed (news ++ more) = known ∪ listed news ∪ listed more := by
    ext o
    simp only [listed, Set.mem_union, Set.mem_ofPred_eq, List.mem_append, or_assoc]
  refine ⟨hunion ▸ h'.holds, fun o ho => (h'.plain o ho).trans (h.plain o ho), fun table hother => ?_⟩
  rw [h'.tables table fun o ho => hother o (List.mem_append_right _ ho),
    h.tables table fun o ho => hother o (List.mem_append_left _ ho)]

variable {known : Set SqlObject} {s : SqlCatalog} {ddl : Ddl}

theorem Present.union (h : Present known ddl) : known ∪ listed (ddl.map fixedObject) = known := by
  refine Set.union_eq_self_of_subset_right fun o ho => ?_
  obtain ⟨entry, hentry, rfl⟩ := List.mem_map.mp ho
  exact h entry hentry

theorem Holds.finds (h : Holds known s.database) (hpresent : Present known ddl) :
    verifyObjects s.objects ddl = .ok () ∧ ∀ entry ∈ ddl, s.objects entry.1 = some entry.2 := by
  have hverified : verifyObjects s.objects ddl = .ok () :=
    h.verifies fun entry hentry => ⟨fixedObject entry, hpresent entry hentry, rfl, rfl⟩
  exact ⟨hverified, verifyObjects_eq_ok.mp hverified⟩

theorem Laid.refl (h : Holds known s.database) (hpresent : Present known ddl) :
    Laid known (ddl.map fixedObject) s.database s.database :=
  ⟨hpresent.union.symm ▸ h, fun _ _ => Iff.rfl, fun _ _ => rfl⟩

theorem Executed.laid {news : List SqlObject} {after : SqlCatalog} (h : Holds known s.database)
    (hdistinct : Distinct (known ∪ listed news)) (he : Executed news s after) :
    Laid known news s.database after.database := by
  refine ⟨he.holds h hdistinct, fun o ho => ?_,
    fun table hother => he.others table fun o hmem _ => hother o hmem⟩
  rw [he.objects, List.mem_append]
  refine ⟨fun hmem => hmem.resolve_right fun hnew => ?_, .inl⟩
  rw [(hdistinct o (.inr hnew)).1] at ho
  cases ho

-- The names of a list of fixed objects, each after its table.
def Covered (earlier : List String) : List String → Prop
  | [] => True
  | name :: rest => (tableOf name = name ∨ tableOf name ∈ earlier) ∧ Covered (name :: earlier) rest

instance Covered.decidable : (earlier names : List String) → Decidable (Covered earlier names)
  | _, [] => isTrue trivial
  | earlier, name :: rest => @instDecidableAnd _ _ _ (Covered.decidable (name :: earlier) rest)

theorem tableOf_tableOf (name : String) : tableOf (tableOf name) = tableOf name := by
  fun_cases tableOf name with
  | case20 =>
      unfold tableOf
      split <;> first | rfl | contradiction
  | _ => rfl

theorem Covered.ordered {earlier : List String} {objects : List SqlObject}
    (h : Covered earlier (ddl.map Prod.fst))
    (hearlier : ∀ name ∈ earlier, tableOf name = name → ∃ t ∈ objects, t.type = .table ∧ t.name = name) :
    Ordered objects (ddl.map fixedObject) := by
  induction ddl generalizing earlier objects with
  | nil => trivial
  | cons entry ddl ih =>
      obtain ⟨hfirst, hrest⟩ := h
      refine ⟨?_, ih hrest fun name hname htable => ?_⟩
      · rcases hfirst with hself | hmem
        · have hkind : (fixedObject entry).type = .table := if_pos hself.symm
          simp only [AttachedIn, hkind]
        · exact attachedIn_objectOf (hearlier _ hmem (tableOf_tableOf _))
      · rcases List.mem_cons.mp hname with rfl | hold
        · exact ⟨fixedObject entry, List.mem_append_right _ List.mem_cons_self, if_pos htable.symm, rfl⟩
        · obtain ⟨t, ht, hrest⟩ := hearlier name hold htable
          exact ⟨t, List.mem_append_left _ ht, hrest⟩

theorem Holds.ordered (h : Holds known s.database) {before : Ddl} (hbefore : Present known before)
    (hcovered : Covered (before.map Prod.fst) (ddl.map Prod.fst)) :
    Ordered s.database.objects (ddl.map fixedObject) := by
  refine hcovered.ordered fun name hname htable => ?_
  obtain ⟨entry, hentry, rfl⟩ := List.mem_map.mp hname
  have hknown := hbefore entry hentry
  exact ⟨fixedObject entry, (h.objects _ (h.distinct _ hknown).1).mpr hknown, if_pos htable.symm, rfl⟩

-- CREATE statements and the row with the version.
theorem exists_laid (h : Holds known s.database) (hdistinct : Distinct (known ∪ listed (ddl.map fixedObject)))
    (habsent : Absent known ddl) (hnodup : (ddl.map Prod.fst).Nodup)
    (hordered : Ordered s.database.objects (ddl.map fixedObject)) (table : String) {entry : String × String}
    (hentry : entry ∈ ddl) (htable : entry.1 = table ∧ tableOf table = table)
    (columns : List (String × Value)) :
    ∃ mid, s.execute fixedObject ddl = .ok mid ∧
      Laid known (ddl.map fixedObject) s.database (mid.insertFormat table columns).database ∧
      mid.rows = s.rows ∧
      (mid.insertFormat table columns).database.rows table = [SqlCatalog.formatRow columns] := by
  have hnew : ∀ o ∈ ddl.map fixedObject, o ∉ known := by
    intro o ho hknown
    obtain ⟨entry, hentry, rfl⟩ := List.mem_map.mp ho
    exact habsent _ hknown entry hentry rfl
  have hobjects : (ddl.map fixedObject).Nodup := by
    have hnames : (ddl.map fixedObject).map (fun o => o.name) = ddl.map Prod.fst := by
      rw [List.map_map]
      rfl
    exact List.Nodup.of_map _ (hnames ▸ hnodup)
  obtain ⟨mid, hmid, hexecuted⟩ := exists_execute h hdistinct hnew hobjects hordered
  have hlaid := hexecuted.laid h hdistinct
  have hmem : fixedObject entry ∈ ddl.map fixedObject := List.mem_map_of_mem hentry
  obtain ⟨rfl, htable⟩ := htable
  have hkind : (fixedObject entry).type = .table := if_pos htable.symm
  have hempty : mid.database.rows entry.1 = [] := hexecuted.created _ hmem hkind
  refine ⟨mid, hmid, ⟨⟨hlaid.holds.objects, hlaid.holds.distinct⟩, hlaid.plain, fun other hother => ?_⟩,
    hexecuted.rows, ?_⟩
  · have hne : other ≠ entry.1 := (hother _ hmem).symm
    show Function.update mid.database.rows entry.1 _ other = _
    rw [Function.update_of_ne hne]
    exact hlaid.tables other hother
  · show Function.update mid.database.rows entry.1 (mid.database.rows entry.1 ++ _) entry.1 = _
    rw [Function.update_self, hempty]
    rfl

theorem Holds.missing_of_absent (h : Holds known s.database) (habsent : Absent known ddl)
    (hfixed : ∀ entry ∈ ddl, entry ∈ fixedDdl true true) : ∀ entry ∈ ddl, s.objects entry.1 = none :=
  fun entry hentry => (h.missing (fixedDdl_reserved entry (hfixed entry hentry))).mpr
    fun o ho => habsent o ho entry hentry

-- Either all of a part is there with its version, or none of it.
def Part (known : Set SqlObject) (ddl : Ddl) (format : Format) (s : SqlCatalog) : Prop :=
  (Present known ddl ∧ format.Read s) ∨ Absent known ddl

-- The part is there now.
structure Added (known : Set SqlObject) (ddl : Ddl) (format : Format) (s after : SqlCatalog) : Prop where
  laid : Laid known (ddl.map fixedObject) s.database after.database
  rows : after.rows = s.rows
  format : format.Read after

theorem Added.refl (h : Holds known s.database) (hpresent : Present known ddl) {format : Format}
    (hformat : format.Read s) :
    Added known ddl format s s := ⟨Laid.refl h hpresent, rfl, hformat⟩

theorem fixedDdl_of_core : ∀ entry ∈ Installation.CORE, entry ∈ fixedObjects := fun _ hentry =>
  List.mem_append_left _ (List.mem_append_left _ (List.mem_append_left _ hentry))

theorem fixedDdl_of_payload : ∀ entry ∈ PayloadCatalog.DDL, entry ∈ fixedObjects := fun _ hentry =>
  List.mem_append_left _ (List.mem_append_left _ (List.mem_append_right _ hentry))

theorem fixedDdl_of_encodings : ∀ entry ∈ Encodings.DDL, entry ∈ fixedObjects := fun _ hentry =>
  List.mem_append_left _ (List.mem_append_right _ hentry)

theorem fixedDdl_of_lifecycle : ∀ entry ∈ Lifecycle.DDL, entry ∈ fixedObjects := fun _ hentry =>
  List.mem_append_right _ hentry

theorem mem_fixedDdl {extended indexed : Bool} {entry : String × String} (h : entry ∈ fixedObjects) :
    entry ∈ fixedDdl extended indexed :=
  List.mem_append_left _ (List.mem_append_left _ h)

-- A part stays what it is while other objects are created.
theorem Part.step {format : Format} {news : List SqlObject} {after : SqlCatalog} (h : Part known ddl format s)
    (hlaid : Laid known news s.database after.database) (hother : ∀ o ∈ news, ∀ entry ∈ ddl, o.name ≠ entry.1)
    (htable : format.table ∈ ddl.map Prod.fst) : Part (known ∪ listed news) ddl format after := by
  obtain ⟨entry, hentry, hname⟩ := List.mem_map.mp htable
  rcases h with ⟨hpresent, hread⟩ | habsent
  · refine .inl ⟨fun entry hentry => .inl (hpresent entry hentry), ?_⟩
    have hsame := hlaid.tables format.table fun o ho => hname ▸ hother o ho entry hentry
    rw [Format.Read, SqlCatalog.select, hsame]
    exact hread
  · refine .inr fun o ho entry hentry => ?_
    rcases ho with hold | hnew
    · exact habsent o hold entry hentry
    · exact hother o hnew entry hentry

theorem core_present (h : Holds known s.database) (hpresent : Present known Installation.CORE)
    (hformat : coreFormat.Read s) : SqlCatalog.Installation.core s = .ok s := by
  obtain ⟨hverified, hfound⟩ := h.finds hpresent
  have hsome : s.objects "ms_format" ≠ none := by
    rw [hfound _ List.mem_cons_self]
    nofun
  rw [SqlCatalog.Installation.core, if_neg hsome, hverified]
  simp only [bind_eq_ok, require_eq_ok, pure_eq_ok]
  exact ⟨(), trivial, (), hformat, trivial⟩

theorem core_absent (h : Holds ∅ s.database)
    (hdistinct : Distinct (listed (Installation.CORE.map fixedObject))) :
    ∃ after, SqlCatalog.Installation.core s = .ok after ∧ Added ∅ Installation.CORE coreFormat s after := by
  have hclean : ∀ o ∈ s.database.objects, reserved o.name = false := fun o ho =>
    Bool.eq_false_iff.mpr fun hreserved => ((h.objects o hreserved).mp ho).elim
  have hnone : s.objects "ms_format" = none :=
    (h.missing (by decide)).mpr fun o ho => ho.elim
  have hnothing : Present ∅ [] := nofun
  have hordered : Ordered s.database.objects (Installation.CORE.map fixedObject) :=
    h.ordered hnothing (by decide)
  obtain ⟨mid, hmid, hlaid, hsame, hrows⟩ :=
    exists_laid h (by rwa [Set.empty_union]) (fun o ho => ho.elim) (by decide) hordered
    "ms_format" List.mem_cons_self ⟨rfl, rfl⟩
    [("singleton", .int 1), ("version", .int SqlCatalog.Installation.FORMAT_VERSION)]
  refine ⟨_, ?_, hlaid, hsame, ?_⟩
  · rw [SqlCatalog.Installation.core, if_pos hnone, require_true fun o ho => .inr (hclean o ho)]
    simp only [except_ok_bind, hmid]
    rfl
  · exact congrArg (List.map _) hrows

theorem exists_core (h : Holds known s.database)
    (hdistinct : Distinct (known ∪ listed (Installation.CORE.map fixedObject)))
    (hpart : known = ∅ ∨ (Present known Installation.CORE ∧ coreFormat.Read s)) :
    ∃ after, SqlCatalog.Installation.core s = .ok after ∧ Added known Installation.CORE coreFormat s after := by
  rcases hpart with rfl | ⟨hpresent, hread⟩
  · exact core_absent h (by rwa [Set.empty_union] at hdistinct)
  · exact ⟨s, core_present h hpresent hread, Added.refl h hpresent hread⟩

theorem extend_present (h : Holds known s.database) (hpresent : Present known PayloadCatalog.DDL)
    (hformat : payloadFormat.Read s) :
    SqlCatalog.PayloadCatalog.extend s = .ok s := by
  obtain ⟨hverified, hfound⟩ := h.finds hpresent
  have hsome : s.objects "ms_payload_format" ≠ none := by
    rw [hfound _ List.mem_cons_self]
    nofun
  rw [SqlCatalog.PayloadCatalog.extend, if_neg hsome, hverified]
  simp only [bind_eq_ok, require_eq_ok, pure_eq_ok]
  exact ⟨(), trivial, (), hformat, trivial⟩

theorem extend_absent (h : Holds known s.database)
    (hdistinct : Distinct (known ∪ listed (PayloadCatalog.DDL.map fixedObject)))
    (habsent : Absent known PayloadCatalog.DDL) (hcore : Present known Installation.CORE)
    (hblobs : ∀ b ∈ s.rows.blobs, b.state = .publishing) : ∃ after,
      SqlCatalog.PayloadCatalog.extend s = .ok after ∧
      Added known PayloadCatalog.DDL payloadFormat s after := by
  have hmissing :=
    h.missing_of_absent habsent fun entry hentry => mem_fixedDdl (fixedDdl_of_payload entry hentry)
  obtain ⟨mid, hmid, hlaid, hsame, hrows⟩ :=
    exists_laid h hdistinct habsent (by decide) (h.ordered hcore (by decide))
    "ms_payload_format" List.mem_cons_self ⟨rfl, rfl⟩ [("version", .int 1)]
  refine ⟨_, ?_, hlaid, hsame, ?_⟩
  · rw [SqlCatalog.PayloadCatalog.extend, if_pos (hmissing _ List.mem_cons_self),
      require_true hmissing, except_ok_bind, require_true hblobs, except_ok_bind, hmid]
    rfl
  · exact congrArg (List.map _) hrows

theorem exists_extend (h : Holds known s.database)
    (hdistinct : Distinct (known ∪ listed (PayloadCatalog.DDL.map fixedObject)))
    (hpart : Part known PayloadCatalog.DDL payloadFormat s) (hcore : Present known Installation.CORE)
    (hblobs : Absent known PayloadCatalog.DDL → s.rows.blobs = []) : ∃ after,
      SqlCatalog.PayloadCatalog.extend s = .ok after ∧
      Added known PayloadCatalog.DDL payloadFormat s after := by
  rcases hpart with ⟨hpresent, hread⟩ | habsent
  · exact ⟨s, extend_present h hpresent hread, Added.refl h hpresent hread⟩
  · refine extend_absent h hdistinct habsent hcore fun b hb => ?_
    rw [hblobs habsent] at hb
    cases hb

theorem encodings_present (h : Holds known s.database) (hpresent : Present known Encodings.DDL)
    (hformat : encodingFormat.Read s) :
    SqlCatalog.Encodings.install s = .ok s := by
  obtain ⟨hverified, hfound⟩ := h.finds hpresent
  have hsome : s.objects "ms_encoding_format" ≠ none := by
    rw [hfound _ List.mem_cons_self]
    nofun
  rw [SqlCatalog.Encodings.install, if_neg hsome, SqlCatalog.Encodings.verify, hverified]
  simp only [bind_eq_ok, require_eq_ok, pure_eq_ok]
  exact ⟨(), ⟨(), trivial, hformat⟩, trivial⟩

theorem encodings_absent (h : Holds known s.database)
    (hdistinct : Distinct (known ∪ listed (Encodings.DDL.map fixedObject)))
    (habsent : Absent known Encodings.DDL) :
    ∃ after, SqlCatalog.Encodings.install s = .ok after ∧ Added known Encodings.DDL encodingFormat s after := by
  have hmissing :=
    h.missing_of_absent habsent fun entry hentry => mem_fixedDdl (fixedDdl_of_encodings entry hentry)
  have hnothing : Present known [] := nofun
  have hordered : Ordered s.database.objects (Encodings.DDL.map fixedObject) := h.ordered hnothing (by decide)
  obtain ⟨mid, hmid, hlaid, hsame, hrows⟩ := exists_laid h hdistinct habsent (by decide) hordered
    "ms_encoding_format" List.mem_cons_self ⟨rfl, rfl⟩ [("version", .int 1)]
  refine ⟨_, ?_, hlaid, hsame, ?_⟩
  · rw [SqlCatalog.Encodings.install, if_pos (hmissing _ List.mem_cons_self), require_true hmissing,
      except_ok_bind, hmid]
    rfl
  · exact congrArg (List.map _) hrows

theorem exists_encodings (h : Holds known s.database)
    (hdistinct : Distinct (known ∪ listed (Encodings.DDL.map fixedObject)))
    (hpart : Part known Encodings.DDL encodingFormat s) :
    ∃ after, SqlCatalog.Encodings.install s = .ok after ∧ Added known Encodings.DDL encodingFormat s after := by
  rcases hpart with ⟨hpresent, hread⟩ | habsent
  · exact ⟨s, encodings_present h hpresent hread, Added.refl h hpresent hread⟩
  · exact encodings_absent h hdistinct habsent

-- The retirement guards of the enrolled schemas are among the objects.
def Retiring (known : Set SqlObject) (names : List String) : Prop :=
  ∀ name ∈ names, ∃ schema entry, schema.name = name ∧ Lifecycle.schemaGuard schema = .ok entry ∧
    objectOf (tableName schema) entry ∈ known

theorem schemaGuard_of_name {s t : BlobSchema} (h : s.name = t.name) :
    Lifecycle.schemaGuard s = Lifecycle.schemaGuard t := by
  simp only [Lifecycle.schemaGuard, tableName, h]

-- BlobSchema(name, {}) for the name of a schema
theorem exists_bare (schema : BlobSchema) :
    ∃ bare, SqlCatalog.Lifecycle.bare schema.name = .ok bare ∧ bare.name = schema.name := by
  obtain ⟨hname, hsize, _⟩ := schema.valid
  let d : Declaration := ⟨schema.name, 1, [], [], ["file"], none⟩
  have hvalid : d.Valid := by
    refine ⟨hname, hsize, le_refl 1,
      show (1 : ℤ) < 2 ^ 63 by norm_num, by simp [d], by simp [d], by simp [d], by simp [d],
      by simp [d], ?_, by simp [d], by simp [d], by simp [d]⟩
    intro handler hhandler
    rw [List.mem_singleton.mp hhandler]
    decide
  refine ⟨⟨d, hvalid⟩, ?_, rfl⟩
  exact BlobSchema.init_eq_ok.mpr ⟨Declaration.accepted_of_valid hvalid,
    (Declaration.sorted_of_valid hvalid).symm⟩

theorem forM_eq_ok {α : Type} {items : List α} {check : α → Except Error Unit}
    (h : ∀ item ∈ items, check item = .ok ()) :
    items.forM check = .ok () := by
  induction items with
  | nil => rfl
  | cons item items ih =>
      obtain ⟨hfirst, hrest⟩ := List.forall_mem_cons.mp h
      show (check item >>= fun _ => items.forM check) = .ok ()
      rw [hfirst]
      exact ih hrest

theorem lifecycleVerify (h : Holds known s.database) (hpresent : Present known Lifecycle.DDL)
    (hformat : lifecycleFormat.Read s)
    (hretiring : Retiring known s.rows.lifecycleSchemas) : SqlCatalog.Lifecycle.verify s = .ok () := by
  simp only [SqlCatalog.Lifecycle.verify, bind_eq_ok, require_eq_ok]
  refine ⟨(), (h.finds hpresent).1, (), hformat, forM_eq_ok fun name hname => ?_⟩
  obtain ⟨schema, entry, rfl, hentry, hmem⟩ := hretiring name hname
  obtain ⟨bare, hbare, hsame⟩ := exists_bare schema
  simp only [SqlCatalog.Lifecycle.verifyGuard, bind_eq_ok]
  exact ⟨bare, hbare, entry, schemaGuard_of_name hsame ▸ hentry,
    h.verifies (List.forall_mem_singleton.mpr ⟨_, hmem, rfl, rfl⟩)⟩

theorem lifecycle_present (h : Holds known s.database) (hpresent : Present known Lifecycle.DDL)
    (hformat : lifecycleFormat.Read s)
    (hretiring : Retiring known s.rows.lifecycleSchemas) : SqlCatalog.Lifecycle.install s = .ok s := by
  have hsome : s.objects "ms_lifecycle_format" ≠ none := by
    rw [(h.finds hpresent).2 _ List.mem_cons_self]
    nofun
  rw [SqlCatalog.Lifecycle.install, if_neg hsome, lifecycleVerify h hpresent hformat hretiring]
  rfl

theorem lifecycle_absent (h : Holds known s.database)
    (hdistinct : Distinct (known ∪ listed (Lifecycle.DDL.map fixedObject)))
    (habsent : Absent known Lifecycle.DDL)
    (hbefore : Present known (Installation.CORE ++ PayloadCatalog.DDL))
    (hblobs : ∀ b ∈ s.rows.blobs, b.state ≠ .pendingDelete) :
    ∃ after, SqlCatalog.Lifecycle.install s = .ok after ∧
      Added known Lifecycle.DDL lifecycleFormat s after := by
  have hmissing :=
    h.missing_of_absent habsent fun entry hentry => mem_fixedDdl (fixedDdl_of_lifecycle entry hentry)
  have htable : s.objects "ms_blobs" ≠ none := by
    obtain ⟨entry, hentry, hname⟩ : ∃ entry ∈ Installation.CORE, entry.1 = "ms_blobs" := by decide +kernel
    rw [← hname, (h.finds hbefore).2 entry (List.mem_append_left _ hentry)]
    nofun
  obtain ⟨mid, hmid, hlaid, hsame, hrows⟩ :=
    exists_laid h hdistinct habsent (by decide) (h.ordered hbefore (by decide))
    "ms_lifecycle_format" List.mem_cons_self ⟨rfl, rfl⟩ [("version", .int 1)]
  refine ⟨_, ?_, hlaid, hsame, ?_⟩
  · rw [SqlCatalog.Lifecycle.install, if_pos (hmissing _ List.mem_cons_self),
      require_true hmissing, except_ok_bind,
      require_true htable, except_ok_bind, require_true hblobs, except_ok_bind, hmid]
    rfl
  · exact congrArg (List.map _) hrows

theorem exists_lifecycle (h : Holds known s.database)
    (hdistinct : Distinct (known ∪ listed (Lifecycle.DDL.map fixedObject)))
    (hpart : Part known Lifecycle.DDL lifecycleFormat s)
    (hbefore : Present known (Installation.CORE ++ PayloadCatalog.DDL))
    (hretiring : Retiring known s.rows.lifecycleSchemas)
    (hblobs : Absent known Lifecycle.DDL → s.rows.blobs = []) :
    ∃ after, SqlCatalog.Lifecycle.install s = .ok after ∧
      Added known Lifecycle.DDL lifecycleFormat s after := by
  rcases hpart with ⟨hpresent, hread⟩ | habsent
  · exact ⟨s, lifecycle_present h hpresent hread hretiring, Added.refl h hpresent hread⟩
  · refine lifecycle_absent h hdistinct habsent hbefore fun b hb => ?_
    rw [hblobs habsent] at hb
    cases hb

end MeldStore
