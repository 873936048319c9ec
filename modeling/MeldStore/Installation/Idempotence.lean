import MeldStore.Installation.Evolution

namespace MeldStore

open Library Library.Checked Rebuild Rebuild.SqlObject

-- Every state that stores and applications reach, and what Store.install_schema does there

namespace SqlCatalog

-- One call on a catalog in which every schema is first installed by Store.install_schema. A
-- call that raises leaves the catalog of before, which no step has to say.
inductive Step (s : SqlCatalog) : SqlCatalog → Prop
  | installs (schema : BlobSchema) : Step s (opened schema s)
  | upgrades : Step s (transaction (fun s => do
      let s ← Store.installLifecycle s
      pure ((), s)) s).2
  | indexes : Step s (transaction Store.installQueryIndexes s).2
  | begins (sqlite : Sqlite) (plan : MetadataMigration) (hooks : Rebuild.Hooks) (backup : String)
      (hdeclared : s.rows.declared plan.source.name) (hhooks : Considerate hooks) :
      Step s (transaction (Migrations.initializeJob sqlite plan hooks backup) s).2
  | works (after : SqlCatalog) (hinstalled : s.objects "ms_format" ≠ none) (hworks : Works s.rows after.rows)
      (huntouched : Untouched s.database after.database) : Step s after
  | application (after : SqlCatalog) (hrows : after.rows = s.rows)
      (huntouched : Untouched s.database after.database) :
      Step s after

def Reached (s : SqlCatalog) : Prop := ∃ first, Unopened first ∧ Runs.Run Step first s

end SqlCatalog

section

variable {s after : SqlCatalog} {schema : BlobSchema}

-- A transaction commits the result of its body or leaves the catalog as it was.
theorem transaction_settled {α : Type} {body : SqlCatalog → Except Error (α × SqlCatalog)} (hs : Settled s)
    (h : ∀ value after, body s = .ok (value, after) → Settled after) :
    Settled (SqlCatalog.transaction body s).2 := by
  unfold SqlCatalog.transaction
  cases hbody : body s with
  | error raised => exact hs
  | ok result =>
      obtain ⟨value, after⟩ := result
      dsimp only
      split_ifs with hkeys
      · exact h value after hbody
      · exact hs

theorem transaction_raises {α : Type} {body : SqlCatalog → Except Error (α × SqlCatalog)} {raised : Error}
    (h : body s = .error raised) : SqlCatalog.transaction body s = (.error raised, s) := by
  rw [SqlCatalog.transaction, h]

theorem opened_settled (hs : Settled s) (schema : BlobSchema) : Settled (opened schema s) := by
  by_cases haddable : Addable s schema
  · exact .inr (opened_added hs haddable).1
  · rw [opened_kept hs haddable]
    exact hs

theorem upgraded_settled (hs : Settled s) (h : SqlCatalog.Store.installLifecycle s = .ok after) :
    Settled after := by
  rcases hs with hopen | ⟨extended, indexed, hstanding⟩
  · exact .inl (hopen.installLifecycle h)
  · rw [hstanding.installLifecycle] at h
    cases h
    exact .inr ⟨extended, indexed, hstanding⟩

theorem indexed_settled {added : List String} (hs : Settled s)
    (h : SqlCatalog.Store.installQueryIndexes s = .ok (added, after)) : Settled after := by
  rcases hs with hopen | ⟨extended, indexed, hstanding⟩
  · exact .inl (hopen.installQueryIndexes h)
  · obtain ⟨more, hmore, _⟩ := hstanding.installQueryIndexes h
    exact .inr ⟨extended, more, hmore⟩

theorem begun_settled {sqlite : Sqlite} {plan : MetadataMigration} {hooks : Rebuild.Hooks} {backup : String}
    {job : MigrationRow} (hs : Settled s) (hdeclared : s.rows.declared plan.source.name)
    (hhooks : Considerate hooks)
    (h : SqlCatalog.Migrations.initializeJob sqlite plan hooks backup s = .ok (job, after)) :
    Settled after := by
  rcases hs with hopen | ⟨extended, indexed, hstanding⟩
  · obtain ⟨row, hrow, _⟩ := hdeclared
    rw [hopen.rows] at hrow
    cases hrow
  · obtain ⟨more, hmore⟩ := hstanding.initializeJob hdeclared hhooks h
    exact .inr ⟨more, indexed, hmore⟩

theorem SqlCatalog.Step.settled (hs : Settled s) (h : SqlCatalog.Step s after) : Settled after := by
  cases h with
  | installs schema => exact opened_settled hs schema
  | upgrades =>
      refine transaction_settled hs fun value after h => ?_
      simp only [bind_eq_ok, pure_eq_ok, Prod.mk.injEq] at h
      obtain ⟨_, hinstall, _, rfl⟩ := h
      exact upgraded_settled hs hinstall
  | indexes => exact transaction_settled hs fun added after h => indexed_settled hs h
  | begins sqlite plan hooks backup hdeclared hhooks =>
      exact transaction_settled hs fun job after h => begun_settled hs hdeclared hhooks h
  | works _ hinstalled hworks huntouched =>
      rcases hs with hopen | ⟨extended, indexed, hstanding⟩
      · exact absurd hopen.format hinstalled
      · exact .inr ⟨extended, indexed, hstanding.kept (hworks.operates.sound hstanding.sound)
          (hworks.keepsRegistries hstanding.wf) huntouched⟩
  | application _ hrows huntouched =>
      rcases hs with hopen | ⟨extended, indexed, hstanding⟩
      · exact .inl (hopen.kept hrows huntouched)
      · exact .inr ⟨extended, indexed, hstanding.kept (hrows ▸ hstanding.sound) (hrows ▸ KeepsRegistries.refl _)
          huntouched⟩

theorem SqlCatalog.Reached.settled (h : SqlCatalog.Reached s) : Settled s := by
  obtain ⟨first, hopen, hrun⟩ := h
  exact Runs.invariant Settled (fun _ _ hs hstep => hstep.settled hs) hrun (.inl hopen)

-- A schema that is there cannot be missing its format table.
theorem Settled.standing_of_declared (hs : Settled s) (h : s.rows.declared schema.name) :
    ∃ extended indexed, Standing extended indexed s := by
  rcases hs with hopen | hstanding
  · obtain ⟨row, hrow, _⟩ := h
    rw [hopen.rows] at hrow
    cases hrow
  · exact hstanding

theorem Settled.installs_again (hs : Settled s) {row : SchemaRow}
    (hrow : s.rows.schema? schema.name schema.version = some row)
    (hsame : row.definition.definition = schema.definition) :
    SqlCatalog.transaction (SqlCatalog.Store.installSchema schema) s = (.ok (tableName schema), s) := by
  obtain ⟨extended, indexed, hstanding⟩ := hs.standing_of_declared (Standing.mem_of_schema? hrow).2
  rw [SqlCatalog.transaction, hstanding.again hrow (Migrations.definition_inj.mp hsame)]
  exact if_pos hstanding.sound.settled.keys

theorem Settled.refuses_other (hs : Settled s) {row : SchemaRow}
    (hrow : s.rows.schema? schema.name schema.version = some row)
    (hother : row.definition.definition ≠ schema.definition) (hfew : schema.indexes.length < 2 ^ 63) :
    SqlCatalog.transaction (SqlCatalog.Store.installSchema schema) s =
      (.error (.SchemaConflictError "Schema name/version already has a different definition"), s) := by
  obtain ⟨extended, indexed, hstanding⟩ := hs.standing_of_declared (Standing.mem_of_schema? hrow).2
  obtain ⟨ddl, hddl⟩ := exists_schemaObjects_of_few hfew
  have hne : row.definition ≠ schema := fun hsame => hother (congrArg BlobSchema.definition hsame)
  exact transaction_raises ((Ground.standing hstanding).differs hrow hne hddl)

theorem Settled.refuses_later (hs : Settled s) (hnone : s.rows.schema? schema.name schema.version = none)
    (hversion : schema.version ≠ 1) (hfew : schema.indexes.length < 2 ^ 63) :
    ∃ message, SqlCatalog.transaction (SqlCatalog.Store.installSchema schema) s =
      (.error (.SchemaConflictError message), s) := by
  obtain ⟨ddl, hddl⟩ := exists_schemaObjects_of_few hfew
  by_cases hclean : Clean s
  · obtain ⟨extended, indexed, known, g⟩ := hs.ground hclean
    exact ⟨_, transaction_raises (g.unannounced hnone hversion hddl)⟩
  · rcases hs with hopen | ⟨extended, indexed, hstanding⟩
    · exact ⟨_, transaction_raises (hopen.blocked hclean)⟩
    · refine absurd (fun hmissing => ?_) hclean
      rw [hstanding.found (mem_fixedDdl (fixedDdl_of_core _ List.mem_cons_self))] at hmissing
      cases hmissing

end

-- A Python tuple has fewer than 2^63 items, so all its indexes get names that SQLite quotes.
theorem installation_is_idempotent_and_conflict_safe (s : SqlCatalog) (h : SqlCatalog.Reached s) :
    (∀ schema row, s.rows.schema? schema.name schema.version = some row →
      row.definition.definition = schema.definition →
        SqlCatalog.transaction (SqlCatalog.Store.installSchema schema) s = (.ok (tableName schema), s)) ∧
    (∀ schema : BlobSchema, schema.indexes.length < 2 ^ 63 →
      (∃ row, s.rows.schema? schema.name schema.version = some row ∧
        row.definition.definition ≠ schema.definition) ∨
      (s.rows.schema? schema.name schema.version = none ∧ schema.version ≠ 1) →
        ∃ message, SqlCatalog.transaction (SqlCatalog.Store.installSchema schema) s =
          (.error (.SchemaConflictError message), s)) ∧
    ∀ schemas schemas' : List BlobSchema, schemas.Perm schemas' →
      (schemas.map fun schema => schema.name).Nodup →
      SameRegistration (openAll schemas s) (openAll schemas' s) := by
  have hs := h.settled
  refine ⟨fun schema row hrow hsame => hs.installs_again hrow hsame, fun schema hfew hcase => ?_,
    fun schemas schemas' hperm hnames => openAll_perm hs hperm hnames⟩
  rcases hcase with ⟨row, hrow, hother⟩ | ⟨hnone, hversion⟩
  · exact ⟨_, hs.refuses_other hrow hother hfew⟩
  · exact hs.refuses_later hnone hversion hfew

-- A table of an application, and a database with nothing else.
def notes : SqlObject := ⟨.table, "notes", "notes", "CREATE TABLE notes (body TEXT)"⟩

def blank : SqlCatalog :=
  { database := { objects := [notes], rows := fun _ => [], temp := [], distinct := by decide,
                  attached := by decide }
    rows := Catalog.empty
    writes := 0 }

def rescanned : BlobSchema :=
  { name := "scan", version := 1, fields := [], indexes := [], handlers := ["file"], validatorId := none,
    valid := by decide }

theorem scans_install_once :
    SqlCatalog.transaction (SqlCatalog.Store.installSchema scanned1) (opened scanned1 blank) =
        (.ok (tableName scanned1), opened scanned1 blank) ∧
      (∃ message, SqlCatalog.transaction (SqlCatalog.Store.installSchema rescanned) (opened scanned1 blank) =
        (.error (.SchemaConflictError message), opened scanned1 blank)) ∧
      (∃ message, SqlCatalog.transaction (SqlCatalog.Store.installSchema scanned2) (opened scanned1 blank) =
        (.error (.SchemaConflictError message), opened scanned1 blank)) ∧
      SameRegistration (openAll [scanned1, scanner] (opened scanned1 blank))
        (openAll [scanner, scanned1] (opened scanned1 blank)) := by
  have hopen : Unopened blank := ⟨rfl, by decide⟩
  have hreached : SqlCatalog.Reached (opened scanned1 blank) := ⟨blank, hopen, .single (.installs scanned1)⟩
  have haddable : Addable blank scanned1 := by
    refine ⟨fun ⟨row, hrow, _⟩ => (nomatch hrow), rfl, exists_schemaObjects_of_few (by decide),
      fun _ o ho => ?_⟩
    rw [List.mem_singleton.mp ho]
    decide
  have hrows := (opened_added (.inl hopen) haddable).2.1
  obtain ⟨hagain, hconflict, horder⟩ := installation_is_idempotent_and_conflict_safe _ hreached
  refine ⟨hagain scanned1 ⟨"scan", 1, scanned1⟩ (by rw [hrows]; rfl) rfl,
    hconflict rescanned (by decide) (.inl ⟨⟨"scan", 1, scanned1⟩, by rw [hrows]; rfl, ?_⟩),
    hconflict scanned2 (by decide) (.inr ⟨by rw [hrows]; rfl, by decide⟩),
    horder _ _ (List.Perm.swap _ _ _) (by decide)⟩
  exact fun hsame => absurd (Migrations.definition_inj.mp hsame) (by decide)

end MeldStore
