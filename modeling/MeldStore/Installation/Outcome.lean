import MeldStore.Installation.First

namespace MeldStore

open Library Library.Checked Rebuild Rebuild.SqlObject

-- What Store.install_schema does to any catalog

-- No schema was opened here; what others made may even have reserved names.
structure Unopened (s : SqlCatalog) : Prop where
  rows : s.rows = Catalog.empty
  format : s.objects "ms_format" = none

def Settled (s : SqlCatalog) : Prop := Unopened s ∨ ∃ extended indexed, Standing extended indexed s

-- The core objects are there, or nothing stands in their way.
def Clean (s : SqlCatalog) : Prop :=
  s.objects "ms_format" = none → ∀ o ∈ s.database.objects, reserved o.name = false

theorem require_false {condition : Prop} [Decidable condition] (h : ¬condition) (raised : Error) :
    (require condition raised : Except Error Unit) = .error raised := if_neg h

section

variable {s : SqlCatalog} {schema : BlobSchema} {extended indexed : Bool} {known : Set SqlObject}

theorem Unopened.blocked (h : Unopened s) (hclean : ¬Clean s) : SqlCatalog.Store.installSchema schema s =
    .error (.SchemaConflictError "Reserved ms_ namespace already contains SQL objects") := by
  have hjunk : ¬∀ o ∈ s.database.objects, isInternal o.name = true ∨ reserved o.name = false := by
    refine fun hall => hclean fun _ o ho => ?_
    rcases hall o ho with hinternal | hplain
    · refine Bool.eq_false_iff.mpr fun hreserved => ?_
      rw [reserved_not_internal hreserved] at hinternal
      cases hinternal
    · exact hplain
  rw [SqlCatalog.Store.installSchema, SqlCatalog.Installation.install, SqlCatalog.Installation.core,
    if_pos h.format, require_false hjunk]
  rfl

theorem Settled.ground (h : Settled s) (hclean : Clean s) :
    ∃ extended indexed known, Ground extended indexed s known := by
  rcases h with hopen | ⟨extended, indexed, hstanding⟩
  · exact ⟨false, false, ∅, .fresh hopen.rows (hclean hopen.format) ⟨rfl, rfl⟩⟩
  · exact ⟨extended, indexed, _, .standing hstanding⟩

namespace Ground

theorem core (g : Ground extended indexed s known) :
    ∃ mid, SqlCatalog.Installation.core s = .ok mid ∧ mid.rows = s.rows := by
  have hsub : known ∪ listed (Installation.CORE.map fixedObject) ⊆ owned s.rows extended indexed :=
    Set.union_subset g.known_subset (Opening.fixed_subset fixedDdl_of_core)
  obtain ⟨mid, hmid, hadded⟩ := exists_core g.holds ((owned_distinct g.tidy.1.settled.wf _ _).mono hsub) (by
    rcases g.parts with ⟨hnone, _⟩ | ⟨hpresent, hread⟩
    · exact .inl hnone
    · exact .inr ⟨fun entry hentry => hpresent entry (fixedDdl_of_core entry hentry),
        hread _ List.mem_cons_self⟩)
  exact ⟨mid, hmid, hadded.rows⟩

theorem unwritable (g : Ground extended indexed s known) {raised : Error}
    (h : Installation.schemaObjects schema = .error raised) :
    SqlCatalog.Store.installSchema schema s = .error raised := by
  obtain ⟨mid, hmid, _⟩ := g.core
  rw [SqlCatalog.Store.installSchema, SqlCatalog.Installation.install, hmid, except_ok_bind, h]
  rfl

theorem differs (g : Ground extended indexed s known) {row : SchemaRow}
    (hrow : s.rows.schema? schema.name schema.version = some row) (hne : row.definition ≠ schema) {ddl : Ddl}
    (hddl : Installation.schemaObjects schema = .ok ddl) : SqlCatalog.Store.installSchema schema s =
      .error (.SchemaConflictError "Schema name/version already has a different definition") := by
  obtain ⟨mid, hmid, hrows⟩ := g.core
  have hdefinition : ¬(row.definition.definition = schema.definition ∧ tableName row.definition =
    tableName schema) :=
    fun hsame => hne (Migrations.definition_inj.mp hsame.1)
  rw [SqlCatalog.Store.installSchema, SqlCatalog.Installation.install, hmid, except_ok_bind, hddl,
    except_ok_bind, hrows, hrow]
  show ((require _ _ >>= fun _ => _) >>= fun _ => _) = _
  rw [require_false hdefinition]
  rfl

theorem unannounced (g : Ground extended indexed s known)
    (hnone : s.rows.schema? schema.name schema.version = none) (hversion : schema.version ≠ 1) {ddl : Ddl}
    (hddl : Installation.schemaObjects schema = .ok ddl) : SqlCatalog.Store.installSchema schema s =
      .error (.SchemaConflictError "Use an explicit MetadataMigration to install a new version") := by
  obtain ⟨mid, hmid, hrows⟩ := g.core
  rw [SqlCatalog.Store.installSchema, SqlCatalog.Installation.install, hmid, except_ok_bind, hddl,
    except_ok_bind, hrows, hnone]
  show ((require _ _ >>= fun _ => _) >>= fun _ => _) = _
  rw [require_false hversion]
  rfl

-- The first version of a declared name is there.
theorem declared_first (g : Ground extended indexed s known) (h : s.rows.declared schema.name)
    (hversion : schema.version = 1) : ∃ row, s.rows.schema? schema.name schema.version = some row := by
  obtain ⟨row, hrow, hname⟩ := h
  obtain ⟨first, hfirst, hsame, hone⟩ := g.tidy.1.registered.conforming.first row hrow
  cases hfound : s.rows.schema? schema.name schema.version with
  | some found => exact ⟨found, rfl⟩
  | none =>
      have habsent := List.find?_eq_none.mp hfound first hfirst
      simp [hsame, hname, hone, hversion] at habsent

end Ground

-- The schemas that an installation adds.
def Addable (s : SqlCatalog) (schema : BlobSchema) : Prop :=
  ¬s.rows.declared schema.name ∧ schema.version = 1 ∧
    (∃ ddl, Installation.schemaObjects schema = .ok ddl) ∧ Clean s

def opened (schema : BlobSchema) (s : SqlCatalog) : SqlCatalog :=
  (SqlCatalog.transaction (SqlCatalog.Store.installSchema schema) s).2

theorem transaction_kept {α : Type} {body : SqlCatalog → Except Error (α × SqlCatalog)}
    (h : (∃ raised, body s = .error raised) ∨ ∃ value, body s = .ok (value, s)) :
    (SqlCatalog.transaction body s).2 = s := by
  rcases h with ⟨raised, h⟩ | ⟨value, h⟩
  · rw [SqlCatalog.transaction, h]
  · rw [SqlCatalog.transaction, h]
    dsimp only
    split_ifs <;> rfl

theorem opened_kept (hs : Settled s) (h : ¬Addable s schema) : opened schema s = s := by
  refine transaction_kept ?_
  by_cases hclean : Clean s
  · obtain ⟨extended, indexed, known, g⟩ := hs.ground hclean
    cases hddl : Installation.schemaObjects schema with
    | error raised => exact .inl ⟨raised, g.unwritable hddl⟩
    | ok ddl =>
        cases hrow : s.rows.schema? schema.name schema.version with
        | some row =>
            by_cases hsame : row.definition = schema
            · cases g with
              | fresh hrows =>
                  rw [hrows] at hrow
                  cases hrow
              | standing hstanding => exact .inr ⟨_, hstanding.again hrow hsame⟩
            · exact .inl ⟨_, g.differs hrow hsame hddl⟩
        | none =>
            by_cases hversion : schema.version = 1
            · refine absurd ⟨fun hdeclared => ?_, hversion, ⟨ddl, hddl⟩, hclean⟩ h
              obtain ⟨row, hfound⟩ := g.declared_first hdeclared hversion
              rw [hrow] at hfound
              cases hfound
            · exact .inl ⟨_, g.unannounced hrow hversion hddl⟩
  · rcases hs with hopen | ⟨extended, indexed, hstanding⟩
    · exact .inl ⟨_, hopen.blocked hclean⟩
    · refine absurd (fun hnone => ?_) hclean
      rw [hstanding.found (mem_fixedDdl (fixedDdl_of_core _ List.mem_cons_self))] at hnone
      cases hnone

-- What an installation adds to sqlite_master.
def Opens (added : List BlobSchema) (o : SqlObject) : Prop :=
  (added ≠ [] ∧ ∃ entry ∈ fixedObjects, o = fixedObject entry) ∨
    ∃ schema ∈ added, ∃ own, ownObjects false [schema] = .ok own ∧ o ∈ own

theorem Ground.objects (g : Ground extended indexed s known) {o : SqlObject} (ho : reserved o.name = true) :
    Owned s.rows extended indexed o ↔ o ∈ s.database.objects ∨ ∃ entry ∈ fixedObjects, o =
      fixedObject entry := by
  have hfixed : (∃ entry ∈ fixedObjects, o = fixedObject entry) → Owned s.rows extended indexed o :=
    fun ⟨entry, hentry, hsame⟩ => .fixed entry (mem_fixedDdl hentry) hsame
  constructor
  · intro howned
    rcases g.owned_subset howned with hknown | hmem
    · exact .inl ((g.holds.objects o ho).mpr hknown)
    · obtain ⟨entry, hentry, hsame⟩ := List.mem_map.mp hmem
      exact .inr ⟨entry, hentry, hsame.symm⟩
  · rintro (hmem | hmem)
    · exact g.known_subset ((g.holds.objects o ho).mp hmem)
    · exact hfixed hmem

theorem opened_added (hs : Settled s) (h : Addable s schema) :
    (∃ extended indexed, Standing extended indexed (opened schema s)) ∧
      (opened schema s).rows = enrolledRows s.rows schema ∧
      ∀ o, o ∈ (opened schema s).database.objects ↔ o ∈ s.database.objects ∨ Opens [schema] o := by
  obtain ⟨hundeclared, hversion, ⟨ddl, hddl⟩, hclean⟩ := h
  obtain ⟨extended, indexed, known, g⟩ := hs.ground hclean
  obtain ⟨ready, hready⟩ := exists_guard schema false
  obtain ⟨retire, hretire⟩ := exists_schemaGuard schema
  have hopening : Opening extended indexed s known schema ddl ready retire :=
    ⟨g, hundeclared, hversion, hddl, hready, hretire⟩
  obtain ⟨after, hafter, hrows, hstanding, hplain⟩ := hopening.exists_first
  have hkeys : after.rows.DeferredKeys := hstanding.sound.settled.keys
  have hsame : opened schema s = after := by
    rw [opened, SqlCatalog.transaction, hafter]
    dsimp only
    rw [if_pos hkeys]
  rw [hsame]
  refine ⟨⟨extended, indexed, hstanding⟩, hrows, fun o => ?_⟩
  have hopens : Opens [schema] o ↔ (∃ entry ∈ fixedObjects, o = fixedObject entry) ∨
      o ∈ listed (ddl.map (objectOf (tableName schema)) ++
        [objectOf "ms_blobs" ready, objectOf (tableName schema) retire]) := by
    simp only [Opens, List.mem_singleton, exists_eq_left, hopening.own, Except.ok.injEq, exists_eq_left']
    simp [listed]
  cases hreserved : reserved o.name with
  | true =>
      have howned := @owned_enrolledRows _ _ extended indexed g.tidy.1 hundeclared _ hopening.own
      have hiff : Owned (enrolledRows s.rows schema) extended indexed o ↔
        Owned s.rows extended indexed o ∨
          o ∈ listed (ddl.map (objectOf (tableName schema)) ++
            [objectOf "ms_blobs" ready, objectOf (tableName schema) retire]) :=
        Set.ext_iff.mp howned o
      rw [hstanding.objects o hreserved, hrows, hiff, g.objects hreserved, hopens, or_assoc]
  | false =>
      have hnone : ¬Opens [schema] o := by
        rw [hopens]
        have hall := hopening.distinct
        rintro (⟨entry, hentry, rfl⟩ | hown)
        · have htrue : reserved (fixedObject entry).name = true := fixedDdl_reserved entry (mem_fixedDdl hentry)
          rw [htrue] at hreserved
          cases hreserved
        · rw [(hall o (hopening.own_subset hown)).1] at hreserved
          cases hreserved
      rw [hplain o hreserved]
      exact (or_iff_left hnone).symm

end

-- One installation after another, each in its transaction.
def openAll (schemas : List BlobSchema) (s : SqlCatalog) : SqlCatalog :=
  schemas.foldl (fun s schema => opened schema s) s

def enrolledAll (db : Catalog) (added : List BlobSchema) : Catalog :=
  { db with
    schemas := db.schemas ++ added.map fun schema =>
      { name := schema.name, version := schema.version, definition := schema }
    guards := db.guards ++ added.map fun schema => ⟨schema.name, false⟩
    payloadSchemas := db.payloadSchemas ++ added.map fun schema => (schema.name, schema.version)
    lifecycleSchemas := db.lifecycleSchemas ++ added.map fun schema => schema.name }

theorem enrolledAll_cons (db : Catalog) (schema : BlobSchema) (added : List BlobSchema) :
    enrolledAll (enrolledRows db schema) added = enrolledAll db (schema :: added) := by
  simp only [enrolledAll, enrolledRows, List.map_cons, List.append_assoc, List.singleton_append]

theorem opens_cons {schema : BlobSchema} {added : List BlobSchema} {o : SqlObject} :
    Opens (schema :: added) o ↔ Opens [schema] o ∨ Opens added o := by
  have hfirst : (schema :: added ≠ []) = True := eq_true (List.cons_ne_nil _ _)
  have hone : ([schema] ≠ []) = True := eq_true (List.cons_ne_nil _ _)
  simp only [Opens, hfirst, hone, true_and, List.mem_cons, List.not_mem_nil, or_false,
    exists_eq_left, or_and_right, exists_or]
  constructor
  · rintro (hfixed | hown | hrest)
    · exact .inl (.inl hfixed)
    · exact .inl (.inr hown)
    · exact .inr (.inr hrest)
  · rintro ((hfixed | hown) | ⟨_, hfixed⟩ | hrest)
    · exact .inl hfixed
    · exact .inr (.inl hown)
    · exact .inl hfixed
    · exact .inr (.inr hrest)

-- What any sequence of installations does: the catalog takes the schemas that were addable.
structure Opened (added : List BlobSchema) (s after : SqlCatalog) : Prop where
  settled : Settled after
  rows : after.rows = enrolledAll s.rows added
  objects : ∀ o, o ∈ after.database.objects ↔ o ∈ s.database.objects ∨ Opens added o
  formats : added ≠ [] → ∀ format ∈ formats, format.Read after
  kept : added = [] → after = s

theorem addable_opened {s : SqlCatalog} {schema other : BlobSchema} (hs : Settled s) (h : Addable s schema)
    (hne : other.name ≠ schema.name) : Addable (opened schema s) other ↔ Addable s other := by
  obtain ⟨⟨_, _, hstanding⟩, hrows, _⟩ := opened_added hs h
  have hclean : Clean (opened schema s) := fun hnone => by
    rw [hstanding.found (mem_fixedDdl (fixedDdl_of_core _ List.mem_cons_self))] at hnone
    cases hnone
  have hdeclared : (opened schema s).rows.declared other.name ↔ s.rows.declared other.name := by
    rw [hrows, declared_enrolledRows]
    exact or_iff_left hne
  simp only [Addable, hdeclared, iff_true_intro hclean, iff_true_intro h.2.2.2]

theorem openAll_spec {schemas : List BlobSchema} {s : SqlCatalog} (hs : Settled s)
    (hnames : (schemas.map fun schema => schema.name).Nodup) {added : List BlobSchema}
    (hadded : added.Sublist schemas ∧ ∀ schema ∈ schemas, schema ∈ added ↔ Addable s schema) :
    Opened added s (openAll schemas s) := by
  induction schemas generalizing s added with
  | nil =>
      obtain rfl := List.sublist_nil.mp hadded.1
      refine ⟨hs, ?_, fun o => ?_, fun hne => absurd rfl hne, fun _ => rfl⟩
      · simp [enrolledAll, openAll]
      · simp [Opens, openAll]
  | cons schema schemas ih =>
      obtain ⟨hfresh, hrest⟩ := List.nodup_cons.mp hnames
      have hne : ∀ other ∈ schemas, other.name ≠ schema.name := fun other hother hsame =>
        hfresh (List.mem_map.mpr ⟨other, hother, hsame⟩)
      have hmem : schema ∈ schema :: schemas := List.mem_cons_self
      rcases List.sublist_cons_iff.mp hadded.1 with hsub | ⟨rest, rfl, hsub⟩
      · have hnot : ¬Addable s schema := fun h => hne schema (hsub.subset ((hadded.2 schema hmem).mpr h)) rfl
        have hsame : openAll (schema :: schemas) s = openAll schemas s :=
          congrArg (openAll schemas) (opened_kept hs hnot)
        rw [hsame]
        exact ih hs hrest ⟨hsub, fun other hother => hadded.2 other (List.mem_cons_of_mem _ hother)⟩
      · have haddable : Addable s schema := (hadded.2 schema hmem).mp List.mem_cons_self
        obtain ⟨hstanding, hrows, hobjects⟩ := opened_added hs haddable
        have hopened := @ih (opened schema s) (.inr hstanding) hrest rest ⟨hsub, fun other hother => by
          rw [addable_opened hs haddable (hne other hother), ← hadded.2 other (List.mem_cons_of_mem _ hother),
            List.mem_cons]
          have hdiffers : other ≠ schema := fun hsame => hne other hother (hsame ▸ rfl)
          exact (or_iff_right hdiffers).symm⟩
        have hsame : openAll (schema :: schemas) s = openAll schemas (opened schema s) := rfl
        rw [hsame]
        refine ⟨hopened.settled, ?_, fun o => ?_, fun _ format hformat => ?_, nofun⟩
        · rw [hopened.rows, hrows, enrolledAll_cons]
        · rw [hopened.objects o, hobjects o, or_assoc, ← opens_cons]
        · by_cases hnil : rest = []
          · rw [hopened.kept hnil]
            obtain ⟨_, _, hstanding⟩ := hstanding
            exact hstanding.formats format hformat
          · exact hopened.formats hnil format hformat

-- The same objects and the same rows of the registries.
structure SameRegistration (a b : SqlCatalog) : Prop where
  objects : ∀ o, o ∈ a.database.objects ↔ o ∈ b.database.objects
  schemas : a.rows.schemas.Perm b.rows.schemas
  payload : a.rows.payloadSchemas.Perm b.rows.payloadSchemas
  lifecycle : a.rows.lifecycleSchemas.Perm b.rows.lifecycleSchemas
  layouts : a.rows.layouts = b.rows.layouts
  formats : ∀ format ∈ formats, a.select format.table format.columns = b.select format.table format.columns

theorem openAll_perm {schemas schemas' : List BlobSchema} {s : SqlCatalog} (hs : Settled s)
    (hperm : schemas.Perm schemas') (hnames : (schemas.map fun schema => schema.name).Nodup) :
    SameRegistration (openAll schemas s) (openAll schemas' s) := by
  classical
  have hfilter (given : List BlobSchema) : (given.filter fun schema => Addable s schema).Sublist given ∧
      ∀ schema ∈ given, schema ∈ (given.filter fun schema => Addable s schema) ↔ Addable s schema :=
    ⟨List.filter_sublist, fun schema hmem => by simp [hmem]⟩
  have hadded := hperm.filter fun schema => decide (Addable s schema)
  have hfirst := openAll_spec hs hnames (hfilter schemas)
  have hsecond := openAll_spec hs ((hperm.map _).nodup_iff.mp hnames) (hfilter schemas')
  have hopens (o : SqlObject) : Opens (schemas.filter fun schema => Addable s schema) o ↔
      Opens (schemas'.filter fun schema => Addable s schema) o := by
    simp only [Opens, hadded.mem_iff, ne_eq, ← List.isEmpty_iff, hadded.isEmpty_eq]
  refine ⟨fun o => ?_, ?_, ?_, ?_, ?_, fun format hformat => ?_⟩
  · rw [hfirst.objects o, hsecond.objects o, hopens o]
  · rw [hfirst.rows, hsecond.rows]
    exact (hadded.map _).append_left _
  · rw [hfirst.rows, hsecond.rows]
    exact (hadded.map _).append_left _
  · rw [hfirst.rows, hsecond.rows]
    exact (hadded.map _).append_left _
  · rw [hfirst.rows, hsecond.rows]
    rfl
  · by_cases hnil : (schemas.filter fun schema => Addable s schema) = []
    · have hnil' : (schemas'.filter fun schema => Addable s schema) = [] := (hnil ▸ hadded).symm.eq_nil
      rw [hfirst.kept hnil, hsecond.kept hnil']
    · have hne : (schemas'.filter fun schema => Addable s schema) ≠ [] := fun hnil' =>
        hnil (hnil' ▸ hadded).eq_nil
      exact (hfirst.formats hnil format hformat).trans (hsecond.formats hne format hformat).symm

end MeldStore
