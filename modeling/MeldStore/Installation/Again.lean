import MeldStore.Installation.Parts
import MeldStore.Installation.Texts

namespace MeldStore

open Library Library.Checked Rebuild Rebuild.SqlObject

-- The catalogs that Store.install_schema and migrations leave, and what installing does there

structure Standing (extended indexed : Bool) (s : SqlCatalog) : Prop where
  sound : Backup.Sound s.rows
  guards : ∀ g ∈ s.rows.guards, s.rows.declared g.schemaName
  enrolled : ∀ name ∈ s.rows.lifecycleSchemas, s.rows.declared name
  formats : ∀ format ∈ formats, format.Read s
  own : ∀ name, s.rows.declared name →
    ∃ own, ownObjects (s.rows.evolved name) (s.rows.declarations name) = .ok own
  objects : ∀ o, reserved o.name = true → (o ∈ s.database.objects ↔ Owned s.rows extended indexed o)
  layouts : s.rows.layouts ≠ [] → extended = true

def owned (db : Catalog) (extended indexed : Bool) : Set SqlObject := { o | Owned db extended indexed o }

theorem owned_distinct {db : Catalog} (hw : db.Wf) (extended indexed : Bool) :
    Distinct (owned db extended indexed) :=
  fun _ ho => ⟨Owned.reserved hw ho, fun _ hother => Owned.unique hw ho hother⟩

theorem owned_presents {db : Catalog} {extended indexed : Bool} {ddl : Ddl}
    (hfixed : ∀ entry ∈ ddl, entry ∈ fixedDdl extended indexed) : Present (owned db extended indexed) ddl :=
  fun entry hentry => .fixed entry (hfixed entry hentry) rfl

theorem guard_of_name {s t : BlobSchema} (h : s.name = t.name) (evolved : Bool) :
    PayloadCatalog.guard s evolved = PayloadCatalog.guard t evolved := by
  simp only [PayloadCatalog.guard, tableName, h]

theorem declarations_ne_nil {db : Catalog} {name : String} (h : db.declared name) :
    ∃ latest, (db.declarations name).getLast? = some latest := by
  obtain ⟨row, hrow, hname⟩ := h
  have hmem : row.definition ∈ db.declarations name := mem_declarations.mpr ⟨row, hrow, hname, rfl⟩
  cases hlast : (db.declarations name).getLast? with
  | some latest => exact ⟨latest, rfl⟩
  | none => exact absurd (List.getLast?_eq_none_iff.mp hlast ▸ hmem) List.not_mem_nil

namespace Standing

variable {extended indexed : Bool} {s : SqlCatalog} {schema : BlobSchema} {name : String}

theorem wf (h : Standing extended indexed s) : s.rows.Wf := h.sound.settled.wf

theorem holds (h : Standing extended indexed s) : Holds (owned s.rows extended indexed) s.database :=
  ⟨h.objects, owned_distinct h.wf extended indexed⟩

theorem named (h : Standing extended indexed s) (hmem : schema ∈ s.rows.declarations name) :
    schema.name = name := by
  obtain ⟨row, hrow, hname, rfl⟩ := mem_declarations.mp hmem
  rw [(h.wf.schemaRow row hrow).1, hname]

theorem found (h : Standing extended indexed s) {entry : String × String}
    (hfixed : entry ∈ fixedDdl extended indexed) :
    s.objects entry.1 = some entry.2 :=
  (h.holds.finds (@owned_presents _ _ _ [entry] (List.forall_mem_singleton.mpr hfixed))).2 entry
    (List.mem_singleton_self entry)

theorem evolved_eq (h : Standing extended indexed s) (name : String) :
    s.evolved name = s.rows.evolved name := by
  rw [SqlCatalog.evolved, Bool.and_eq_right_iff_imp]
  intro hevolved
  have hextended := h.layouts fun hnone => by
    rw [evolved_iff, hnone] at hevolved
    cases hevolved
  have hmem : ("ms_metadata_layouts",
    "CREATE TABLE ms_metadata_layouts (schema_name TEXT NOT NULL PRIMARY KEY, " ++
      "layout_version INTEGER NOT NULL CHECK (layout_version=1))") ∈ fixedDdl extended indexed := by
    rw [hextended]
    exact List.mem_append_left _ (List.mem_append_right _ List.mem_cons_self)
  rw [h.found hmem]
  rfl

theorem declarations_eq (s : SqlCatalog) (name : String) :
    s.declarations name = .ok (s.rows.declarations name) := by
  rw [SqlCatalog.declarations, mapM_eq_ok_map _ _ id fun schema _ => Migrations.decode_definition schema,
    List.map_id]

-- The installers of the fixed objects find them.

theorem core (h : Standing extended indexed s) : SqlCatalog.Installation.core s = .ok s :=
  core_present h.holds (owned_presents fun _ hentry => mem_fixedDdl (fixedDdl_of_core _ hentry))
    (h.formats _ List.mem_cons_self)

theorem extend (h : Standing extended indexed s) : SqlCatalog.PayloadCatalog.extend s = .ok s :=
  extend_present h.holds (owned_presents fun _ hentry => mem_fixedDdl (fixedDdl_of_payload _ hentry))
    (h.formats _ (List.mem_cons_of_mem _ List.mem_cons_self))

theorem encodings (h : Standing extended indexed s) : SqlCatalog.Encodings.install s = .ok s :=
  encodings_present h.holds (owned_presents fun _ hentry => mem_fixedDdl (fixedDdl_of_encodings _ hentry))
    (h.formats _ (List.mem_cons_of_mem _ (List.mem_cons_of_mem _ List.mem_cons_self)))

theorem own_mem (h : Standing extended indexed s) (hdeclared : s.rows.declared name) {latest : BlobSchema}
    (hlatest : (s.rows.declarations name).getLast? = some latest) : ∃ ddl ready retire,
      (if s.rows.evolved name then Migrations.layoutObjects (s.rows.declarations name)
        else Installation.schemaObjects latest) = .ok ddl ∧
      PayloadCatalog.guard latest (s.rows.evolved name) = .ok ready ∧
      Lifecycle.schemaGuard latest = .ok retire ∧
      (∀ entry ∈ ddl, Owned s.rows extended indexed (objectOf (tableName latest) entry)) ∧
      Owned s.rows extended indexed (objectOf "ms_blobs" ready) ∧
      Owned s.rows extended indexed (objectOf (tableName latest) retire) := by
  obtain ⟨own, hown⟩ := h.own name hdeclared
  obtain ⟨last, ddl, ready, retire, hlast, hddl, hready, hretire, rfl⟩ := ownObjects_eq_ok.mp hown
  obtain rfl : latest = last := Option.some.inj (hlatest.symm.trans hlast)
  have howned {o : SqlObject} (ho : o ∈ ddl.map (objectOf (tableName latest)) ++
      [objectOf "ms_blobs" ready, objectOf (tableName latest) retire]) : Owned s.rows extended indexed o :=
    .own name _ hdeclared hown ho
  refine ⟨ddl, ready, retire, hddl, hready, hretire, fun entry hentry => ?_, ?_, ?_⟩
  · exact howned (List.mem_append_left _ (List.mem_map_of_mem hentry))
  · exact howned (List.mem_append_right _ List.mem_cons_self)
  · exact howned (List.mem_append_right _ (List.mem_cons_of_mem _ List.mem_cons_self))

theorem verifies_one (h : Standing extended indexed s) {table : String} {entry : String × String}
    (howned : Owned s.rows extended indexed (objectOf table entry)) :
    verifyObjects s.objects [entry] = .ok () :=
  h.holds.verifies (List.forall_mem_singleton.mpr ⟨_, howned, rfl, rfl⟩)

theorem verifies_retire (h : Standing extended indexed s) (hdeclared : s.rows.declared schema.name) :
    ∃ entry, Lifecycle.schemaGuard schema = .ok entry ∧ verifyObjects s.objects [entry] = .ok () := by
  obtain ⟨latest, hlatest⟩ := declarations_ne_nil hdeclared
  obtain ⟨_, _, retire, _, _, hretire, _, _, howned⟩ := h.own_mem hdeclared hlatest
  refine ⟨retire, ?_, h.verifies_one howned⟩
  rw [← hretire, schemaGuard_of_name (h.named (List.mem_of_getLast? hlatest))]

theorem verifies_ready (h : Standing extended indexed s) (hdeclared : s.rows.declared schema.name) :
    ∃ entry, PayloadCatalog.guard schema (s.rows.evolved schema.name) = .ok entry ∧
      verifyObjects s.objects [entry] = .ok () := by
  obtain ⟨latest, hlatest⟩ := declarations_ne_nil hdeclared
  obtain ⟨_, ready, _, _, hready, _, _, howned, _⟩ := h.own_mem hdeclared hlatest
  refine ⟨ready, ?_, h.verifies_one howned⟩
  rw [← hready, guard_of_name (h.named (List.mem_of_getLast? hlatest))]

theorem retiring (h : Standing extended indexed s) :
    Retiring (owned s.rows extended indexed) s.rows.lifecycleSchemas := by
  intro name hname
  have hdeclared := h.enrolled name hname
  obtain ⟨latest, hlatest⟩ := declarations_ne_nil hdeclared
  obtain ⟨_, _, retire, _, _, hretire, _, _, howned⟩ := h.own_mem hdeclared hlatest
  exact ⟨latest, retire, h.named (List.mem_of_getLast? hlatest), hretire, howned⟩

theorem lifecycle (h : Standing extended indexed s) : SqlCatalog.Lifecycle.install s = .ok s :=
  lifecycle_present h.holds (owned_presents fun _ hentry => mem_fixedDdl (fixedDdl_of_lifecycle _ hentry))
    (h.formats _ (List.mem_cons_of_mem _ (List.mem_cons_of_mem _ (List.mem_cons_of_mem _ List.mem_cons_self))))
      h.retiring

-- Every version that is installed generates its objects.
theorem exists_schemaObjects (h : Standing extended indexed s) (hmem : schema ∈ s.rows.declarations name) :
    ∃ ddl, Installation.schemaObjects schema = .ok ddl ∧
      (s.rows.evolved name = false → verifyObjects s.objects ddl = .ok ()) := by
  have hdeclared : s.rows.declared name := by
    obtain ⟨row, hrow, hname, _⟩ := mem_declarations.mp hmem
    exact ⟨row, hrow, hname⟩
  obtain ⟨latest, hlatest⟩ := declarations_ne_nil hdeclared
  obtain ⟨ddl, _, _, hddl, _, _, howned, _⟩ := h.own_mem hdeclared hlatest
  cases hevolved : s.rows.evolved name with
  | true =>
      rw [hevolved, if_pos rfl] at hddl
      obtain ⟨expected, hexpected⟩ :=
        exists_schemaObjects_of_layout (declarations_versions h.wf name).named hddl hmem
      exact ⟨expected, hexpected, nofun⟩
  | false =>
      rw [hevolved, if_neg Bool.false_ne_true] at hddl
      have hone {other : BlobSchema} (hother : other ∈ s.rows.declarations name) : other.version = 1 := by
        obtain ⟨row, hrow, hname, rfl⟩ := mem_declarations.mp hother
        rw [(h.wf.schemaRow row hrow).2]
        exact h.sound.registered.conforming.single row hrow (hname ▸ hevolved)
      have hlast := List.mem_of_getLast? hlatest
      obtain rfl : schema = latest :=
        List.inj_on_of_nodup_map (declarations_versions h.wf name).distinct hmem hlast
        ((hone hmem).trans (hone hlast).symm)
      exact ⟨ddl, hddl, fun _ => h.holds.verifies fun entry hentry => ⟨_, howned entry hentry, rfl, rfl⟩⟩

theorem migrationsVerify (h : Standing extended indexed s) (hevolved : s.rows.evolved name = true)
    (hdeclared : s.rows.declared name) : SqlCatalog.Migrations.verify name s = .ok () := by
  have hextended := h.layouts fun hnone => by
    rw [evolved_iff, hnone] at hevolved
    cases hevolved
  obtain ⟨latest, hlatest⟩ := declarations_ne_nil hdeclared
  obtain ⟨ddl, _, _, hddl, _, _, howned, _⟩ := h.own_mem hdeclared hlatest
  rw [hevolved, if_pos rfl] at hddl
  simp only [SqlCatalog.Migrations.verify, bind_eq_ok]
  refine ⟨(), (h.holds.finds (owned_presents fun entry hentry => ?_)).1, _, declarations_eq s name, ddl, hddl,
    h.holds.verifies fun entry hentry => ⟨_, howned entry hentry, rfl, rfl⟩⟩
  rw [hextended]
  exact List.mem_append_left _ (List.mem_append_right _ hentry)

theorem mem_of_schema? {row : SchemaRow} (h : s.rows.schema? schema.name schema.version = some row) :
    row.definition ∈ s.rows.declarations schema.name ∧ s.rows.declared schema.name := by
  obtain ⟨hrow, hname, _⟩ := MeldStore.mem_of_schema? h
  exact ⟨mem_declarations.mpr ⟨row, hrow, hname, rfl⟩, row, hrow, hname⟩

theorem installation (h : Standing extended indexed s) {row : SchemaRow}
    (hrow : s.rows.schema? schema.name schema.version = some row) (hsame : row.definition = schema) :
    SqlCatalog.Installation.install schema s = .ok (tableName schema, s) := by
  obtain ⟨hmem, hdeclared⟩ := mem_of_schema? hrow
  obtain ⟨expected, hexpected, hverified⟩ := h.exists_schemaObjects (hsame ▸ hmem)
  simp only [SqlCatalog.Installation.install, bind_eq_ok]
  refine ⟨s, h.core, expected, hexpected, ?_⟩
  rw [hrow]
  simp only [bind_eq_ok, require_eq_ok, pure_eq_ok, h.evolved_eq]
  refine ⟨(), by rw [hsame]; exact ⟨rfl, rfl⟩, (), ?_, trivial⟩
  cases hevolved : s.rows.evolved schema.name with
  | true => exact h.migrationsVerify hevolved hdeclared
  | false => exact hverified hevolved

theorem payload (h : Standing extended indexed s)
    (henrolled : (schema.name, schema.version) ∈ s.rows.payloadSchemas)
    (hdeclared : s.rows.declared schema.name) : SqlCatalog.PayloadCatalog.install schema s = .ok s := by
  obtain ⟨entry, hentry, hverified⟩ := h.verifies_ready hdeclared
  rw [← h.evolved_eq] at hentry
  simp only [SqlCatalog.PayloadCatalog.install, bind_eq_ok]
  refine ⟨s, h.extend, entry, hentry, ?_⟩
  rw [if_pos henrolled, hverified]
  rfl

theorem retirement (h : Standing extended indexed s) (hdeclared : s.rows.declared schema.name) :
    SqlCatalog.Lifecycle.installSchema schema s = .ok s := by
  obtain ⟨entry, hentry, hverified⟩ := h.verifies_retire hdeclared
  obtain ⟨row, hrow, hname⟩ := hdeclared
  have henrolled : schema.name ∈ s.rows.lifecycleSchemas := hname ▸ h.sound.enrolled row hrow
  simp only [SqlCatalog.Lifecycle.installSchema, bind_eq_ok]
  refine ⟨entry, hentry, ?_⟩
  rw [if_pos henrolled, hverified]
  rfl

-- An installed declaration installs without a write.
theorem again (h : Standing extended indexed s) {row : SchemaRow}
    (hrow : s.rows.schema? schema.name schema.version = some row) (hsame : row.definition = schema) :
    SqlCatalog.Store.installSchema schema s = .ok (tableName schema, s) := by
  obtain ⟨_, hdeclared⟩ := mem_of_schema? hrow
  obtain ⟨hmem, hname, hversion⟩ := MeldStore.mem_of_schema? hrow
  have henrolled : (schema.name, schema.version) ∈ s.rows.payloadSchemas := by
    rw [← hname, ← hversion]
    exact h.sound.registered.payload row hmem
  simp only [SqlCatalog.Store.installSchema, bind_eq_ok, pure_eq_ok]
  exact ⟨_, h.installation hrow hsame, s, h.payload henrolled hdeclared, s, h.encodings, s, h.lifecycle, s,
    h.retirement hdeclared, rfl⟩

end Standing

end MeldStore
