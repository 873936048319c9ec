import MeldStore.Library.Json.Width
import MeldStore.Names

namespace MeldStore

open Library Library.Checked Library.Codes

-- Which texts there are: the only limit of a name is its length.

theorem identifier_of_size {name : String} (hne : name ≠ "") (hnul : '\x00' ∉ name.toList)
    (hsize : name.utf8ByteSize ≤ 128) :
    identifier name = .ok name := by
  simp only [identifier, bind_eq_ok, require_eq_ok, pure_eq_ok]
  exact ⟨⟨⟩, ⟨hne, hnul⟩, ⟨⟩, hsize, trivial⟩

theorem quoteIdentifier_eq_ok {name quoted : String} :
    quoteIdentifier name = .ok quoted ↔ identifier name = .ok name ∧
    quoted = "\"" ++ doubled '"' name ++ "\"" := by
  simp only [quoteIdentifier, bind_eq_ok, pure_eq_ok]
  constructor
  · rintro ⟨value, hvalue, rfl⟩
    have hsame : value = name := by
      simp only [identifier, bind_eq_ok, require_eq_ok, pure_eq_ok] at hvalue
      obtain ⟨_, _, _, _, rfl⟩ := hvalue
      rfl
    subst hsame
    exact ⟨hvalue, rfl⟩
  · rintro ⟨hvalue, rfl⟩
    exact ⟨name, hvalue, rfl⟩

theorem exists_quoteIdentifier {name : String} (h : identifier name = .ok name) :
    ∃ quoted, quoteIdentifier name = .ok quoted := ⟨_, quoteIdentifier_eq_ok.mpr ⟨h, rfl⟩⟩

section

variable {schema : BlobSchema} {role : Role}

theorem utf8Size_of_mem {c : Char} (h : c ∈ (objectName schema role).toList) : c.utf8Size = 1 := by
  rcases mem_objectName h with hdigit | hletter
  · have hle : c.val ≤ '9'.val := isDigit_le hdigit
    have hsmall : c.val ≤ 0x7f := UInt32.le_trans hle (by decide)
    rw [Char.utf8Size]
    exact if_pos hsmall
  · exact (by decide : ∀ c ∈ letters, c.utf8Size = 1) c hletter

theorem size_eq_length {name : String} (h : ∀ c ∈ name.toList, c.utf8Size = 1) :
    name.utf8ByteSize = name.toList.length := by
  rw [← Json.width_toList]
  generalize name.toList = text at h
  induction text with
  | nil => rfl
  | cons c text ih =>
      have hfirst := h c List.mem_cons_self
      have hrest := ih fun d hd => h d (List.mem_cons_of_mem _ hd)
      simp only [Json.width, List.map_cons, List.sum_cons, List.length_cons] at hrest ⊢
      omega

theorem length_hex (bytes : List UInt8) : (hex bytes).toList.length = 2 * bytes.length := by
  rw [hex, String.toList_ofList]
  induction bytes with
  | nil => rfl
  | cons b bytes ih =>
      rw [List.flatMap_cons, List.length_append, ih, List.length_cons]
      show 2 + 2 * bytes.length = 2 * (bytes.length + 1)
      omega

theorem size_objectName (schema : BlobSchema) (role : Role) :
    (objectName schema role).utf8ByteSize = 8 + 2 * schema.name.utf8ByteSize + role.suffix.toList.length := by
  have hbytes : schema.name.toUTF8.toList.length = schema.name.utf8ByteSize := by
    rw [Utf8.toList_eq, Array.length_toList, String.toUTF8_eq_toByteArray, ← String.size_toByteArray]
    rfl
  rw [size_eq_length fun c hc => utf8Size_of_mem hc, objectName, tableName, String.toList_append,
    String.toList_append, List.length_append, List.length_append, length_hex, hbytes]
  rfl

theorem identifier_objectName :
    identifier (objectName schema role) = .ok (objectName schema role) ↔
      8 + 2 * schema.name.utf8ByteSize + role.suffix.toList.length ≤ 128 := by
  rw [← size_objectName]
  constructor
  · intro h
    simp only [identifier, bind_eq_ok, require_eq_ok, pure_eq_ok] at h
    obtain ⟨_, _, _, hsize, _⟩ := h
    exact hsize
  · refine identifier_of_size (fun hempty => ?_) fun hnul => ?_
    · have hdata := objectName_data schema role
      rw [hempty] at hdata
      exact absurd hdata (by decide)
    · rcases mem_objectName hnul with hdigit | hletter
      · exact absurd hdigit (by decide)
      · exact absurd hletter (by decide)

theorem suffix_short (hshort : role.suffix.toList.length ≤ 24) :
    identifier (objectName schema role) = .ok (objectName schema role) := by
  obtain ⟨_, hname, _⟩ := schema.valid
  exact identifier_objectName.mpr (by omega)

theorem exists_column {name : String} {spec : Field} (h : identifier name = .ok name) :
    ∃ text, Installation.column name spec = .ok text := by
  obtain ⟨quoted, hquoted⟩ := exists_quoteIdentifier h
  exact ⟨_, by rw [Installation.column, hquoted]; rfl⟩

theorem exists_changed {name : String} (h : identifier name = .ok name) :
    ∃ text, Installation.changed name = .ok text := by
  obtain ⟨quoted, hquoted⟩ := exists_quoteIdentifier h
  exact ⟨_, by rw [Installation.changed, hquoted]; rfl⟩

theorem exists_indexObject {name table separator suffix : String} {index : Index}
    (h : identifier name = .ok name)
    (hvalid : index.Valid) :
    ∃ entry, Installation.indexObject name table separator suffix index = .ok entry := by
  obtain ⟨quoted, hquoted⟩ := exists_quoteIdentifier h
  obtain ⟨columns, hcolumns⟩ := exists_mapM fun field hfield => exists_quoteIdentifier (hvalid.2.2 field hfield)
  exact ⟨_, by rw [Installation.indexObject, hquoted]; simp only [except_ok_bind]; rw [hcolumns]; rfl⟩

theorem identifier_of_indexObject {name table separator suffix : String} {index : Index}
    {entry : String × String}
    (h : Installation.indexObject name table separator suffix index = .ok entry) :
    identifier name = .ok name := by
  simp only [Installation.indexObject, bind_eq_ok] at h
  obtain ⟨_, hquoted, _⟩ := h
  exact (quoteIdentifier_eq_ok.mp hquoted).1

theorem exists_schemaObjects_iff : (∃ ddl, Installation.schemaObjects schema = .ok ddl) ↔
    ∀ n < schema.indexes.length, identifier (objectName schema (.index n)) =
      .ok (objectName schema (.index n)) := by
  obtain ⟨_, _, _, _, hfields, _, _, hindexes, _⟩ := schema.valid
  constructor
  · rintro ⟨ddl, h⟩ n hn
    simp only [Installation.schemaObjects, bind_eq_ok] at h
    obtain ⟨_, _, _, _, _, _, _, _, _, _, entries, hentries, _⟩ := h
    have hmem : (schema.indexes[n], n) ∈ schema.indexes.zipIdx :=
      List.mk_mem_zipIdx_iff_getElem?.mpr (List.getElem?_eq_getElem hn)
    obtain ⟨entry, _, hentry⟩ := mapM_mem _ _ _ hentries _ hmem
    rw [objectName_index]
    exact identifier_of_indexObject hentry
  · intro hnames
    have htable : identifier (tableName schema) = .ok (tableName schema) := by
      rw [← objectName_table]
      exact suffix_short (by decide)
    have hnamed {name : String} {spec : Field} (hfield : (name, spec) ∈ schema.fields) :
        identifier name = .ok name :=
      (hfields _ hfield).1
    obtain ⟨table, htable'⟩ := exists_quoteIdentifier htable
    obtain ⟨columns, hcolumns⟩ := exists_mapM fun (field : String × Field) (hfield : field ∈ schema.fields) =>
      @exists_column field.1 field.2 (hnamed hfield)
    obtain ⟨predicate, hpredicate⟩ : ∃ predicate, (["id", "schema_name", "schema_version"] ++
        (schema.fields.filter fun field => field.2.immutable).map Prod.fst).mapM Installation.changed =
          .ok predicate := by
      refine exists_mapM fun name hname => exists_changed ?_
      rcases List.mem_append.mp hname with hfixed | hfield
      · exact (by decide : ∀ name ∈ ["id", "schema_name", "schema_version"], identifier name = .ok name)
          name hfixed
      · obtain ⟨field, hmem, rfl⟩ := List.mem_map.mp hfield
        exact @hnamed field.1 field.2 (List.mem_filter.mp hmem).1
    obtain ⟨update, hupdate⟩ := exists_quoteIdentifier (@suffix_short schema .update (by decide))
    obtain ⟨insert, hinsert⟩ := exists_quoteIdentifier (@suffix_short schema .insert (by decide))
    obtain ⟨entries, hentries⟩ : ∃ entries, (schema.indexes.zipIdx.mapM fun entry =>
        Installation.indexObject (tableName schema ++ "_i" ++ toString entry.2) table ", " "" entry.1) =
          .ok entries := by
      refine exists_mapM fun entry hentry => exists_indexObject ?_ (hindexes entry.1 ?_).1
      · rw [← objectName_index]
        exact hnames _ (List.snd_lt_of_mem_zipIdx hentry)
      · exact List.fst_mem_of_mem_zipIdx hentry
    exact ⟨_, by
      simp only [Installation.schemaObjects, bind_eq_ok, pure_eq_ok]
      exact ⟨table, htable', columns, hcolumns, predicate, hpredicate, update, hupdate, insert, hinsert,
        entries, hentries, rfl⟩⟩

theorem exists_guard (schema : BlobSchema) (evolved : Bool) :
    ∃ entry, PayloadCatalog.guard schema evolved = .ok entry := by
  obtain ⟨quoted, hquoted⟩ := exists_quoteIdentifier (@suffix_short schema .ready (by decide))
  obtain ⟨table, htable⟩ := exists_quoteIdentifier (@suffix_short schema .table (by decide))
  rw [objectName_table] at htable
  exact ⟨_, by
    simp only [PayloadCatalog.guard, bind_eq_ok, pure_eq_ok]
    exact ⟨quoted, hquoted, table, htable, rfl⟩⟩

theorem exists_schemaGuard (schema : BlobSchema) : ∃ entry, Lifecycle.schemaGuard schema = .ok entry := by
  obtain ⟨quoted, hquoted⟩ := exists_quoteIdentifier (@suffix_short schema .retire (by decide))
  obtain ⟨table, htable⟩ := exists_quoteIdentifier (@suffix_short schema .table (by decide))
  rw [objectName_table] at htable
  exact ⟨_, by
    simp only [Lifecycle.schemaGuard, bind_eq_ok, pure_eq_ok]
    exact ⟨quoted, hquoted, table, htable, rfl⟩⟩

theorem suffix_index (number : ℕ) : (Role.index number).suffix.toList.length = 2 + number.repr.length := by
  rw [Role.suffix, String.toList_append, List.length_append]
  rfl

-- A Python tuple has fewer than 2 ^ 63 items.
theorem exists_schemaObjects_of_few (h : schema.indexes.length < 2 ^ 63) :
    ∃ ddl, Installation.schemaObjects schema = .ok ddl := by
  refine exists_schemaObjects_iff.mpr fun n hn => suffix_short ?_
  have hdigits : n.repr.length ≤ 19 := (Nat.length_repr_le_iff (by decide)).mpr (by omega)
  rw [suffix_index]
  omega

-- The index of a version has a longer name in the rebuilt table.
theorem exists_schemaObjects_of_layout {schemas : List BlobSchema} {ddl : Ddl}
    (hnamed : ∀ s ∈ schemas, ∀ t ∈ schemas, s.name = t.name) (h : Migrations.layoutObjects schemas = .ok ddl)
    (hmem : schema ∈ schemas) : ∃ ddl, Installation.schemaObjects schema = .ok ddl := by
  simp only [Migrations.layoutObjects, bind_eq_ok, fromOption_eq_ok] at h
  obtain ⟨latest, hlatest, _, _, _, _, _, _, _, _, _, _, _, _, _, _, _, _, entries, hentries, _⟩ := h
  have hname : schema.name = latest.name := hnamed _ hmem _ (List.mem_of_getLast? hlatest)
  refine exists_schemaObjects_iff.mpr fun n hn => ?_
  obtain ⟨ddl, _, hddl⟩ := mapM_mem _ _ _ hentries _ hmem
  have hzip : (schema.indexes[n], n) ∈ schema.indexes.zipIdx :=
    List.mk_mem_zipIdx_iff_getElem?.mpr (List.getElem?_eq_getElem hn)
  obtain ⟨entry, _, hentry⟩ := mapM_mem _ _ _ hddl _ hzip
  have hlong : identifier (objectName latest (.versionIndex schema.version n)) =
      .ok (objectName latest (.versionIndex schema.version n)) := by
    rw [objectName_versionIndex]
    exact identifier_of_indexObject hentry
  rw [identifier_objectName, ← hname] at hlong
  have hshort : (Role.index n).suffix.toList.length ≤
    (Role.versionIndex schema.version n).suffix.toList.length := by
    simp only [Role.suffix, String.toList_append, List.length_append]
    show 2 + _ ≤ 2 + _ + 2 + _
    omega
  exact identifier_objectName.mpr (by omega)

end

end MeldStore
