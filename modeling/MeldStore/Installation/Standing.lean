import MeldStore.Installation

namespace MeldStore

open Library Library.Checked Library.Keyed Rebuild Rebuild.SqlObject

-- The objects of a registered schema

def ownObjects (evolved : Bool) (schemas : List BlobSchema) : Except Error (List SqlObject) := do
  let latest ← fromOption schemas.getLast? (.PythonError "IndexError")
  let ddl ← (if evolved then Migrations.layoutObjects schemas else Installation.schemaObjects latest)
  let ready ← PayloadCatalog.guard latest evolved
  let retire ← Lifecycle.schemaGuard latest
  pure (ddl.map (objectOf (tableName latest)) ++
    [objectOf "ms_blobs" ready, objectOf (tableName latest) retire])

def ownRoles (evolved : Bool) (schemas : List BlobSchema) (latest : BlobSchema) : List Role :=
  (if evolved then layoutRoles schemas else schemaRoles latest) ++ [.ready, .retire]

theorem guard_name {schema : BlobSchema} {evolved : Bool} {entry : String × String}
    (h : PayloadCatalog.guard schema evolved = .ok entry) : entry.1 = objectName schema .ready := by
  simp only [PayloadCatalog.guard, bind_eq_ok, pure_eq_ok] at h
  obtain ⟨_, _, _, _, rfl⟩ := h
  rfl

theorem schemaGuard_name {schema : BlobSchema} {entry : String × String}
    (h : Lifecycle.schemaGuard schema = .ok entry) : entry.1 = objectName schema .retire := by
  simp only [Lifecycle.schemaGuard, bind_eq_ok, pure_eq_ok] at h
  obtain ⟨_, _, _, _, rfl⟩ := h
  rfl

theorem ownObjects_eq_ok {evolved : Bool} {schemas : List BlobSchema} {own : List SqlObject} :
    ownObjects evolved schemas = .ok own ↔ ∃ latest ddl ready retire, schemas.getLast? = some latest ∧
      (if evolved then Migrations.layoutObjects schemas else Installation.schemaObjects latest) = .ok ddl ∧
      PayloadCatalog.guard latest evolved = .ok ready ∧ Lifecycle.schemaGuard latest = .ok retire ∧
      own = ddl.map (objectOf (tableName latest)) ++
        [objectOf "ms_blobs" ready, objectOf (tableName latest) retire] := by
  simp only [ownObjects, bind_eq_ok, fromOption_eq_ok, pure_eq_ok]
  constructor
  · rintro ⟨latest, hlatest, ddl, hddl, ready, hready, retire, hretire, rfl⟩
    exact ⟨latest, ddl, ready, retire, hlatest, hddl, hready, hretire, rfl⟩
  · rintro ⟨latest, ddl, ready, retire, hlatest, hddl, hready, hretire, rfl⟩
    exact ⟨latest, hlatest, ddl, hddl, ready, hready, retire, hretire, rfl⟩

theorem ownObjects_names {evolved : Bool} {schemas : List BlobSchema} {own : List SqlObject}
    {latest : BlobSchema}
    (hlatest : schemas.getLast? = some latest) (h : ownObjects evolved schemas = .ok own) :
    own.map (fun o => o.name) = (ownRoles evolved schemas latest).map (objectName latest) := by
  obtain ⟨last, ddl, ready, retire, hlast, hddl, hready, hretire, rfl⟩ := ownObjects_eq_ok.mp h
  obtain rfl : latest = last := Option.some.inj (hlatest.symm.trans hlast)
  have hnames : (ddl.map (objectOf (tableName latest))).map (fun o => o.name) = ddl.map Prod.fst := by
    rw [List.map_map]
    rfl
  rw [List.map_append, hnames, ownRoles, List.map_append]
  congr 1
  · cases evolved with
    | true => exact layoutObjects_names hlatest hddl
    | false => exact schemaObjects_names hddl
  · show [ready.1, retire.1] = _
    rw [guard_name hready, schemaGuard_name hretire]
    rfl

theorem ownRoles_nodup {evolved : Bool} {schemas : List BlobSchema} {latest : BlobSchema} (h : Versions schemas)
    (hlatest : latest ∈ schemas) : (ownRoles evolved schemas latest).Nodup := by
  have hnodup := roles_nodup h.distinct
  refine hnodup.sublist ?_
  have hlast : [Role.ready, .retire].Sublist [Role.ready, .retire] := List.Sublist.refl _
  cases evolved with
  | true =>
      refine List.Sublist.append ?_ hlast
      exact (List.sublist_append_left [Role.table, .update, .insert, .delete] _).append (List.Sublist.refl _)
  | false =>
      refine List.Sublist.append ?_ hlast
      have hindexes : (numbered .index latest).Sublist _ :=
        (List.range_sublist.mpr (length_le_most hlatest)).map Role.index
      have hfirst : [Role.table, .update, .insert].Sublist [Role.table, .update, .insert, .delete] := by decide
      exact (hfirst.append hindexes).trans (List.sublist_append_left _ _)

theorem declarations_versions {db : Catalog} (hw : db.Wf) (name : String) :
    Versions (db.declarations name) := by
  refine ⟨fun s hs t ht => ?_, ?_⟩
  · obtain ⟨row, hrow, hname, rfl⟩ := mem_declarations.mp hs
    obtain ⟨other, hother, hsame, rfl⟩ := mem_declarations.mp ht
    rw [(hw.schemaRow row hrow).1, (hw.schemaRow other hother).1, hname, hsame]
  · have hperm := (List.perm_insertionSort (fun s t : SchemaRow => s.version ≤ t.version)
      (db.schemas.filter fun s => s.name = name)).map fun row => row.definition.version
    rw [Catalog.declarations, List.map_map]
    refine hperm.nodup_iff.mpr (List.pairwise_map.mpr ?_)
    refine (List.Pairwise.filter _ hw.schemaKey).imp_of_mem fun {a b} ha hb hne hsame => ?_
    obtain ⟨hmem, haname⟩ := List.mem_filter.mp ha
    obtain ⟨hmem', hbname⟩ := List.mem_filter.mp hb
    rw [(hw.schemaRow a hmem).2, (hw.schemaRow b hmem').2] at hsame
    rcases hne with hnone | hne
    · cases hnone
    · refine hne (congrArg some (Prod.ext ?_ hsame))
      exact (of_decide_eq_true haname).trans (of_decide_eq_true hbname).symm

-- What sqlite_master holds under the ms_ prefix

-- The fixed objects of a catalog: those of migrations and the index on pending cleanups are
-- there once they were asked for.
def fixedDdl (extended indexed : Bool) : Ddl :=
  fixedObjects ++ (if extended then Migrations.DDL else []) ++ if indexed then Store.queryIndexes else []

def Catalog.declared (db : Catalog) (name : String) : Prop := ∃ row ∈ db.schemas, row.name = name

inductive Owned (db : Catalog) (extended indexed : Bool) (o : SqlObject) : Prop
  | fixed (entry : String × String) (hentry : entry ∈ fixedDdl extended indexed) (ho : o = fixedObject entry)
  | own (name : String) (own : List SqlObject) (hdeclared : db.declared name)
      (hown : ownObjects (db.evolved name) (db.declarations name) = .ok own) (ho : o ∈ own)

theorem fixedDdl_mono (extended indexed : Bool) {entry : String × String}
    (h : entry ∈ fixedDdl extended indexed) :
    entry ∈ fixedDdl true true := by
  cases extended <;> cases indexed <;>
    simp only [fixedDdl, if_true, Bool.false_eq_true, if_false, List.mem_append,
    List.not_mem_nil, or_false] at h ⊢ <;> tauto

theorem fixedDdl_names_nodup :
    ((fixedDdl true true).map fun entry => asciiLower entry.1).Nodup := by decide +kernel

theorem fixedDdl_not_data : ∀ entry ∈ fixedDdl true true, ¬"ms_data_".toList <+: (asciiLower entry.1).toList ∧
    ¬"ms_data_".toList <+: (asciiLower (tableOf entry.1)).toList := by decide +kernel

theorem fixedDdl_reserved : ∀ entry ∈ fixedDdl true true, reserved entry.1 = true := by decide +kernel

theorem objectName_reserved (schema : BlobSchema) (role : Role) : reserved (objectName schema role) = true :=
  List.isPrefixOf_iff_prefix.mpr ((List.prefix_append "ms_".toList "data_".toList).trans
    (objectName_data schema role))

theorem reserved_not_internal {name : String} (h : reserved name = true) : isInternal name = false := by
  have hprefix := List.isPrefixOf_iff_prefix.mp h
  rw [isInternal, Bool.and_eq_false_iff]
  refine .inl (Bool.eq_false_iff.mpr fun hinternal => ?_)
  have hinternal := List.isPrefixOf_iff_prefix.mp hinternal
  rcases List.prefix_or_prefix_of_prefix hprefix hinternal with h | h
  · exact absurd h (by decide)
  · exact absurd h (by decide)

section

variable {db : Catalog} {extended indexed : Bool} {o other : SqlObject}

theorem mem_own_declared {name : String} {own : List SqlObject} (hw : db.Wf)
    (hown : ownObjects (db.evolved name) (db.declarations name) = .ok own) (ho : o ∈ own) :
    ∃ latest, (db.declarations name).getLast? = some latest ∧ latest.name = name ∧
      ∃ role ∈ ownRoles (db.evolved name) (db.declarations name) latest, o.name = objectName latest role := by
  obtain ⟨latest, _, _, _, hlatest, _⟩ := ownObjects_eq_ok.mp hown
  refine ⟨latest, hlatest, ?_, ?_⟩
  · obtain ⟨row, hrow, hname, hdefinition⟩ := mem_declarations.mp (List.mem_of_getLast? hlatest)
    rw [← hdefinition, (hw.schemaRow row hrow).1, hname]
  · have hmem : o.name ∈ own.map fun o => o.name := List.mem_map_of_mem ho
    rw [ownObjects_names hlatest hown] at hmem
    obtain ⟨role, hrole, hname⟩ := List.mem_map.mp hmem
    exact ⟨role, hrole, hname.symm⟩

theorem Owned.reserved (hw : db.Wf) (h : Owned db extended indexed o) : reserved o.name = true := by
  cases h with
  | fixed entry hentry ho =>
      rw [ho]
      exact fixedDdl_reserved entry (fixedDdl_mono _ _ hentry)
  | own name own _ hown ho =>
      obtain ⟨latest, _, _, role, _, hname⟩ := mem_own_declared hw hown ho
      rw [hname]
      exact objectName_reserved latest role

-- Verification is by name only: two objects with one name are the same.
theorem Owned.unique (hw : db.Wf) (h : Owned db extended indexed o) (h' : Owned db extended indexed other)
    (hsame : sameName o.name other.name) : o = other := by
  have hdata {entry : String × String} {latest : BlobSchema} {role : Role}
    (hentry : entry ∈ fixedDdl extended indexed)
      (hsame : sameName entry.1 (objectName latest role)) : False := by
    refine (fixedDdl_not_data entry (fixedDdl_mono _ _ hentry)).1 ?_
    rw [hsame]
    exact objectName_data latest role
  cases h with
  | fixed entry hentry ho =>
      subst ho
      cases h' with
      | fixed entry' hentry' ho' =>
          subst ho'
          exact congrArg fixedObject (List.inj_on_of_nodup_map fixedDdl_names_nodup (fixedDdl_mono _ _ hentry)
            (fixedDdl_mono _ _ hentry') hsame)
      | own name own _ hown ho' =>
          obtain ⟨latest, _, _, role, _, hname⟩ := mem_own_declared hw hown ho'
          exact (hdata hentry (hname ▸ hsame)).elim
  | own name own _ hown ho =>
      obtain ⟨latest, hlatest, hlast, role, _, hname⟩ := mem_own_declared hw hown ho
      cases h' with
      | fixed entry' hentry' ho' =>
          subst ho'
          exact (hdata hentry' (hname ▸ hsame.symm)).elim
      | own name' own' _ hown' ho' =>
          obtain ⟨latest', hlatest', hlast', role', _, hname'⟩ := mem_own_declared hw hown' ho'
          rw [hname, hname', sameName, asciiLower_objectName, asciiLower_objectName] at hsame
          obtain ⟨hschema, hrole⟩ := objectName_inj hsame
          obtain rfl : name = name' := by rw [← hlast, ← hlast', hschema]
          cases hown.symm.trans hown'
          have hnames : (own.map fun o => o.name).Nodup := by
            rw [ownObjects_names hlatest hown]
            exact (ownRoles_nodup (declarations_versions hw name) (List.mem_of_getLast? hlatest)).map
              fun a b hab => (objectName_inj hab).2
          exact List.inj_on_of_nodup_map hnames ho ho' (hname.trans (hsame.trans hname'.symm))

end

end MeldStore
