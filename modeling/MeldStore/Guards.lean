import Mathlib.Data.List.TakeWhile
import MeldStore.Readiness
import MeldStore.Migrations.Progress

namespace MeldStore

open Library Library.Checked Library.Keyed

-- What the CHECKs and triggers of a metadata table keep of its rows, whoever writes.

-- The values of a declared kind. Timestamps are those of its shape, with or without a date.
def Kind.Has (kind : Kind) (value : Value) : Prop :=
  match kind, value with
  | _, .null => True
  | .text, .text _ => True
  | .int64, .int i => -(2 ^ 63) ≤ i ∧ i < 2 ^ 63
  | .float, .real q => -maxDouble ≤ q ∧ q ≤ maxDouble
  | .boolean, .int i => i = 0 ∨ i = 1
  | .timestamp, .text s => DateTime.shaped s.toList = true
  | _, _ => False

-- A row and the declaration of its own version.
structure Declares (s : BlobSchema) (m : MetaRow) : Prop where
  version : s.version = m.schemaVersion
  required : ∀ field ∈ s.fields, field.2.required = true → m.fields field.1 ≠ .null
  kinds : ∀ field ∈ s.fields, field.2.kind.Has (m.fields field.1)
  others : ∀ name, name ∉ s.fields.map Prod.fst → m.fields name = .null

-- A value that holds no NUL. GLOB, which checks the shape of a timestamp, reads up to the first.
def Value.whole : Value → Bool
  | .text s => s.toList.all fun c => c ≠ '\x00'
  | _ => true

theorem cString_of_whole {s : String} (h : (Value.text s).whole = true) : cString s = s.toList :=
  List.takeWhile_eq_self_iff.mpr fun c hc => List.all_eq_true.mp h c hc

theorem whole_of_shaped {s : String} (h : DateTime.shaped s.toList = true) : (Value.text s).whole = true :=
  List.all_eq_true.mpr fun c hc => decide_eq_true (DateTime.nul_free_of_shaped h c hc)

-- The CHECK of a column admits the values of its kind, and timestamps with any tail after a NUL.
theorem has_iff {kind : Kind} {value : Value} :
    kind.Has value ↔ kind.admits value = true ∧ (kind = .timestamp → value.whole = true) := by
  cases kind <;> cases value <;>
    simp only [Kind.Has, Kind.admits, isInt64, Bool.and_eq_true, Bool.or_eq_true, beq_iff_eq, decide_eq_true_eq,
      reduceCtorEq, false_implies, true_implies, and_true, Bool.false_eq_true, Value.whole]
  rename_i s
  constructor
  · intro h
    have hwhole := whole_of_shaped h
    exact ⟨by rwa [cString_of_whole hwhole], hwhole⟩
  · rintro ⟨h, hwhole⟩
    rwa [cString_of_whole hwhole] at h

-- The timestamps that a row has of its own version, and those that a statement writes.

def Catalog.Whole (db : Catalog) (m : MetaRow) : Prop :=
  ∀ s ∈ db.declarations m.table, s.version = m.schemaVersion → ∀ field ∈ s.fields, field.2.kind = .timestamp →
    (m.fields field.1).whole = true

def Direct.Whole (db : Catalog) : Direct → Prop
  | insertMeta table new | updateMeta table _ new =>
      ∀ column ∈ db.columns table, column.2.kind = .timestamp → (new.fields column.1).whole = true
  | _ => True

-- The first version of every schema is 1, and a table with more has been rebuilt.
structure Catalog.Conforming (db : Catalog) : Prop where
  rows : ∀ m ∈ db.metadata, db.Admits m ∧ db.Narrow m
  first : ∀ s ∈ db.schemas, db.hasSchema s.name 1
  single : ∀ s ∈ db.schemas, db.evolved s.name = false → s.version = 1

theorem Catalog.empty_conforming : Catalog.empty.Conforming :=
  ⟨by simp [Catalog.empty], by simp [Catalog.empty], by simp [Catalog.empty]⟩

variable {db after : Catalog} {table : String} {m : MetaRow}

theorem mem_columns_iff {column : String × Field} :
    column ∈ db.columns table ↔ ∃ s ∈ db.declarations table, column ∈ s.fields :=
  List.mem_flatMap

-- A row has its declaration when its timestamps end where SQLite stops reading them.
theorem declares_iff (hw : db.Wf) (hrow : db.Admits m ∧ db.Narrow m) :
    (∃ s ∈ db.declarations m.table, Declares s m) ↔ db.Whole m := by
  obtain ⟨⟨_, hversion, hkinds, hdeclared⟩, hnarrow⟩ := hrow
  constructor
  · rintro ⟨s, hs, hdeclares⟩ t ht hsame field hfield htimestamp
    obtain rfl := declared_eq hw hs ht (hdeclares.version.trans hsame.symm)
    exact (has_iff.mp (hdeclares.kinds field hfield)).2 htimestamp
  · intro hwhole
    obtain ⟨s, hs, hsame⟩ := List.mem_map.mp hversion
    obtain ⟨hrequired, hothers⟩ := hdeclared s hs hsame
    refine ⟨s, hs, hsame, hrequired, fun field hfield => ?_, fun name hname => ?_⟩
    · exact has_iff.mpr ⟨hkinds field (mem_columns hs hfield), hwhole s hs hsame field hfield⟩
    · by_cases hcolumn : name ∈ (db.columns m.table).map Prod.fst
      · obtain ⟨column, hmem, rfl⟩ := List.mem_map.mp hcolumn
        exact hothers column hmem hname
      · exact hnarrow name hcolumn

-- The same declarations admit the same rows.
theorem admits_congr (h : ∀ s, s ∈ after.declarations m.table ↔ s ∈ db.declarations m.table)
    (hadmits : db.Admits m ∧ db.Narrow m) : after.Admits m ∧ after.Narrow m := by
  have hcolumns : ∀ column, column ∈ after.columns m.table ↔ column ∈ db.columns m.table := by
    simp [mem_columns_iff, h]
  obtain ⟨⟨hversion, hmem, hkinds, hdeclared⟩, hnarrow⟩ := hadmits
  refine ⟨⟨hversion, ?_, fun column hc => hkinds column ((hcolumns column).mp hc), fun s hs hsame => ?_⟩, ?_⟩
  · simpa [h] using hmem
  · obtain ⟨hrequired, hothers⟩ := hdeclared s ((h s).mp hs) hsame
    exact ⟨hrequired, fun column hc => hothers column ((hcolumns column).mp hc)⟩
  · intro name hname
    refine hnarrow name fun hcolumn => hname ?_
    obtain ⟨column, hmem, rfl⟩ := List.mem_map.mp hcolumn
    exact List.mem_map_of_mem ((hcolumns column).mpr hmem)

-- A row stays admitted when its table gets the columns of a new version.
theorem admits_grown {d : BlobSchema}
    (h : ∀ s, s ∈ after.declarations m.table ↔ s ∈ db.declarations m.table ∨ s = d)
    (hfresh : ∀ s ∈ db.declarations m.table, s.version ≠ d.version)
    (hkinds : ∀ a ∈ db.columns m.table, ∀ b ∈ d.fields, a.1 = b.1 → a.2.kind = b.2.kind)
    (hadmits : db.Admits m ∧ db.Narrow m) : after.Admits m ∧ after.Narrow m := by
  have hcolumns : ∀ column, column ∈ after.columns m.table ↔
    column ∈ db.columns m.table ∨ column ∈ d.fields := by
    intro column
    simp only [mem_columns_iff, h]
    constructor
    · rintro ⟨s, hs | rfl, hcolumn⟩
      · exact Or.inl ⟨s, hs, hcolumn⟩
      · exact Or.inr hcolumn
    · rintro (⟨s, hs, hcolumn⟩ | hcolumn)
      · exact ⟨s, Or.inl hs, hcolumn⟩
      · exact ⟨d, Or.inr rfl, hcolumn⟩
  obtain ⟨⟨hversion, hmem, hold, hdeclared⟩, hnarrow⟩ := hadmits
  -- A new column is null in the row, unless an earlier version has one of its name.
  have hnew : ∀ column ∈ d.fields, m.fields column.1 = .null ∨
      ∃ a ∈ db.columns m.table, a.1 = column.1 := by
    intro column _
    by_cases hname : column.1 ∈ (db.columns m.table).map Prod.fst
    · obtain ⟨a, ha, hsame⟩ := List.mem_map.mp hname
      exact Or.inr ⟨a, ha, hsame⟩
    · exact Or.inl (hnarrow _ hname)
  refine ⟨⟨hversion, ?_, fun column hc => ?_, fun s hs hsame => ?_⟩, fun name hname => ?_⟩
  · obtain ⟨s, hs, hsame⟩ := List.mem_map.mp hmem
    exact List.mem_map.mpr ⟨s, (h s).mpr (Or.inl hs), hsame⟩
  · rcases (hcolumns column).mp hc with hc | hc
    · exact hold column hc
    · rcases hnew column hc with hnull | ⟨a, ha, hname⟩
      · rw [hnull]
        rfl
      · rw [← hname, ← hkinds a ha column hc hname]
        exact hold a ha
  · rcases (h s).mp hs with hs | rfl
    · obtain ⟨hrequired, hothers⟩ := hdeclared s hs hsame
      refine ⟨hrequired, fun column hc hother => ?_⟩
      rcases (hcolumns column).mp hc with hc | hc
      · exact hothers column hc hother
      · rcases hnew column hc with hnull | ⟨a, ha, hname⟩
        · exact hnull
        · rw [← hname] at hother ⊢
          exact hothers a ha hother
    · obtain ⟨t, ht, hversions⟩ := List.mem_map.mp hmem
      exact absurd (hversions.trans hsame.symm) (hfresh t ht)
  · refine hnarrow name fun hcolumn => hname ?_
    obtain ⟨column, hc, rfl⟩ := List.mem_map.mp hcolumn
    exact List.mem_map_of_mem ((hcolumns column).mpr (Or.inl hc))

-- Two fields of one name have one kind wherever layout accepts the versions.
theorem unionField_kept {columns union : List (String × Kind)} {field : String × Field}
    (h : Migrations.unionField columns field = .ok union) :
    (field.1, field.2.kind) ∈ union ∧ (∀ column ∈ columns, column ∈ union) ∧
      ((columns.map Prod.fst).Nodup → (union.map Prod.fst).Nodup) := by
  unfold Migrations.unionField at h
  split at h
  · rename_i column hfound
    simp only [bind_eq_ok, require_eq_ok, pure_eq_ok] at h
    obtain ⟨_, hkind, rfl⟩ := h
    have hname : column.1 = field.1 := by simpa using List.find?_some hfound
    refine ⟨?_, fun _ h => h, fun h => h⟩
    rw [← hname, ← hkind]
    exact List.mem_of_find?_eq_some hfound
  · rename_i hnone
    cases h
    refine ⟨List.mem_append_right _ (List.mem_singleton.mpr rfl), fun _ h => List.mem_append_left _ h, ?_⟩
    intro hnodup
    rw [List.map_append, List.nodup_append]
    refine ⟨hnodup, List.nodup_singleton _, ?_⟩
    rintro name hname other hother rfl
    obtain ⟨column, hcolumn, rfl⟩ := List.mem_map.mp hname
    rw [List.map_singleton, List.mem_singleton] at hother
    exact absurd (decide_eq_true hother) (List.find?_eq_none.mp hnone column hcolumn)

theorem unionFields_kept {fields : List (String × Field)} {columns union : List (String × Kind)}
    (h : fields.foldlM Migrations.unionField columns = .ok union) (hnodup : (columns.map Prod.fst).Nodup) :
    (∀ field ∈ fields, (field.1, field.2.kind) ∈ union) ∧ (∀ column ∈ columns, column ∈ union) ∧
      (union.map Prod.fst).Nodup := by
  induction fields generalizing columns with
  | nil =>
      simp only [List.foldlM_nil, pure_eq_ok] at h
      subst h
      exact ⟨by simp, fun _ h => h, hnodup⟩
  | cons field rest ih =>
      simp only [List.foldlM_cons, bind_eq_ok] at h
      obtain ⟨next, hfield, hrest⟩ := h
      obtain ⟨hmem, hkept, hunique⟩ := unionField_kept hfield
      obtain ⟨hall, hlater, hfinal⟩ := ih hrest (hunique hnodup)
      refine ⟨fun other hother => ?_, fun column hcolumn => hlater column (hkept column hcolumn), hfinal⟩
      rcases List.mem_cons.mp hother with rfl | hother
      · exact hlater _ hmem
      · exact hall other hother

theorem layout_kinds {schemas : List BlobSchema} {union : List (String × Kind)}
    (h : Migrations.layout schemas = .ok union) {s t : BlobSchema} (hs : s ∈ schemas) (ht : t ∈ schemas)
    {a b : String × Field} (ha : a ∈ s.fields) (hb : b ∈ t.fields) (hname : a.1 = b.1) :
    a.2.kind = b.2.kind := by
  simp only [Migrations.layout, bind_eq_ok] at h
  obtain ⟨columns, hfields, _⟩ := h
  obtain ⟨hall, _, hnodup⟩ := unionFields_kept hfields (by simp)
  have hma := hall a (List.mem_flatMap.mpr ⟨s, hs, ha⟩)
  have hmb := hall b (List.mem_flatMap.mpr ⟨t, ht, hb⟩)
  have hsame := List.inj_on_of_nodup_map hnodup hma hmb hname
  exact congrArg Prod.snd hsame

-- Writes keep the invariant.

theorem Catalog.Conforming.kept (hc : db.Conforming) (hschemas : after.schemas = db.schemas)
    (hlayouts : after.layouts = db.layouts) (hrows : ∀ m ∈ after.metadata, db.Admits m ∧ db.Narrow m) :
    after.Conforming := by
  refine ⟨fun m hm => admits_congr (fun s => ?_) (hrows m hm), ?_, ?_⟩
  · rw [mem_declarations, mem_declarations, hschemas]
  · simpa only [hschemas, Catalog.hasSchema] using hc.first
  · simpa only [hschemas, Catalog.evolved, hlayouts] using hc.single

theorem rewritten_rows {old new : MetaRow} (hc : db.Conforming) (hnew : db.Admits new ∧ db.Narrow new) :
    ∀ m ∈ rewrite (fun m => m.sameKey old) (fun _ => new) db.metadata, db.Admits m ∧ db.Narrow m := by
  intro m hm
  rcases (mem_rewrite _ _ _ _).mp hm with ⟨hm, _⟩ | ⟨_, _, _, rfl⟩
  · exact hc.rows m hm
  · exact hnew

theorem appended_rows {new : MetaRow} (hc : db.Conforming) (hnew : db.Admits new ∧ db.Narrow new) :
    ∀ m ∈ db.metadata ++ [new], db.Admits m ∧ db.Narrow m := by
  intro m hm
  rcases List.mem_append.mp hm with hm | hm
  · exact hc.rows m hm
  · exact List.mem_singleton.mp hm ▸ hnew

theorem mem_declarations_append {row : SchemaRow} {s : BlobSchema}
    (hafter : after.schemas = db.schemas ++ [row]) :
    s ∈ after.declarations table ↔ s ∈ db.declarations table ∨ (row.name = table ∧ row.definition = s) := by
  simp only [mem_declarations, hafter, List.mem_append, List.mem_singleton, or_and_right, exists_or,
    exists_eq_left]

theorem hasSchema_mono {name : String} {version : Int} (hmono : ∀ s ∈ db.schemas, s ∈ after.schemas)
    (h : db.hasSchema name version) : after.hasSchema name version := by
  obtain ⟨s, hs, hrest⟩ := h
  exact ⟨s, hmono s hs, hrest⟩

theorem Installs.conforming {schema : BlobSchema} (hc : db.Conforming) (h : Installs db schema after) :
    after.Conforming := by
  obtain ⟨schemas, guards, payload, rfl, hschemas, _⟩ := h
  rcases hschemas with ⟨rfl, _⟩ | ⟨rfl, hfresh, hone⟩
  · refine hc.kept ?_ rfl hc.rows
    exact List.append_nil _
  -- The table of a new schema has no rows yet.
  have hnone : ∀ m ∈ db.metadata, m.table ≠ schema.name := by
    rintro m hm htable
    obtain ⟨s, hs, _⟩ := List.mem_map.mp (hc.rows m hm).1.2.1
    obtain ⟨row, hrow, hname, _⟩ := mem_declarations.mp hs
    have hfirst := hc.first row hrow
    rw [hname, htable, ← hone] at hfirst
    exact hfresh hfirst
  refine ⟨fun m hm => admits_congr (fun s => ?_) (hc.rows m hm), fun s hs => ?_, fun s hs hflat => ?_⟩
  · rw [mem_declarations_append rfl]
    exact ⟨fun h => h.resolve_right fun h => hnone m hm h.1.symm, Or.inl⟩
  · rcases List.mem_append.mp hs with hs | hs
    · exact hasSchema_mono (fun _ h => List.mem_append_left _ h) (hc.first s hs)
    · rw [List.mem_singleton.mp hs]
      exact ⟨_, List.mem_append_right _ (List.mem_singleton.mpr rfl), rfl, hone⟩
  · rcases List.mem_append.mp hs with hs | hs
    · exact hc.single s hs hflat
    · rw [List.mem_singleton.mp hs]
      exact hone

theorem started_conforming {plan : MetadataMigration} (hw : db.Wf) (hc : db.Conforming)
    (hinstalled : db.Installed plan.source) (hfresh : ¬db.hasSchema plan.target.name plan.target.version)
    (hlayout : ∃ union, Migrations.layout (db.declarations plan.source.name ++ [plan.target]) = .ok union) :
    (Migrations.started plan db).Conforming := by
  obtain ⟨union, hlayout⟩ := hlayout
  have hschemas : (Migrations.started plan db).schemas =
      db.schemas ++ [{ name := plan.target.name, version := plan.target.version, definition := plan.target }] :=
    rfl
  refine ⟨fun m hm => ?_, fun s hs => ?_, fun s hs hflat => ?_⟩
  · by_cases htable : m.table = plan.source.name
    · refine admits_grown (d := plan.target) (fun s => ?_) (fun s hs hsame => ?_) ?_ (hc.rows m hm)
      · rw [mem_declarations_append hschemas, htable, ← plan.sameSchema]
        exact ⟨Or.imp_right fun h => h.2.symm, Or.imp_right fun h => ⟨rfl, h.symm⟩⟩
      · obtain ⟨row, hrow, hname, hdefinition⟩ := mem_declarations.mp hs
        refine hfresh ⟨row, hrow, hname.trans (htable.trans plan.sameSchema), ?_⟩
        rw [← (hw.schemaRow row hrow).2, hdefinition, hsame]
      · rw [htable]
        intro a ha b hb hname
        obtain ⟨s, hs, ha⟩ := mem_columns_iff.mp ha
        exact layout_kinds hlayout (List.mem_append_left _ hs)
          (List.mem_append_right _ (List.mem_singleton.mpr rfl)) ha hb hname
    · refine admits_congr (fun s => ?_) (hc.rows m hm)
      rw [mem_declarations_append hschemas]
      exact ⟨fun h => h.resolve_right fun h => htable (h.1.symm.trans plan.sameSchema.symm), Or.inl⟩
  · have hmono : ∀ s ∈ db.schemas, s ∈ (Migrations.started plan db).schemas :=
      fun _ h => List.mem_append_left _ h
    rcases List.mem_append.mp hs with hs | hs
    · exact hasSchema_mono hmono (hc.first s hs)
    · obtain ⟨row, hrow, hname, _⟩ := mem_declarations.mp hinstalled.mem_declarations
      have hfirst := hc.first row hrow
      rw [hname] at hfirst
      rw [List.mem_singleton.mp hs]
      exact plan.sameSchema ▸ hasSchema_mono hmono hfirst
  · rcases List.mem_append.mp hs with hs | hs
    · refine hc.single s hs (Bool.eq_false_iff.mpr fun he => ?_)
      rw [evolved_started plan (Or.inl he)] at hflat
      cases hflat
    · rw [List.mem_singleton.mp hs] at hflat
      rw [evolved_started plan (Or.inr plan.sameSchema.symm)] at hflat
      cases hflat

theorem Effect.conforming (hw : db.Wf) (hc : db.Conforming) (h : Effect db after) : after.Conforming := by
  cases h with
  | installed schema _ h => exact h.conforming hc
  | enrolled => exact hc.kept rfl rfl hc.rows
  | rows _ h =>
      cases h with
      | finalized _ _ _ _ _ _ _ _ _ _ _ hadmits _ _ _ _ _ _ hnarrow =>
          exact hc.kept rfl rfl (appended_rows hc ⟨hadmits, hnarrow⟩)
      | edited _ _ _ _ _ _ _ _ hadmits hnarrow =>
          exact hc.kept rfl rfl (rewritten_rows hc ⟨hadmits, hnarrow⟩)
      | retired => exact hc.kept rfl rfl fun m hm => hc.rows m (List.mem_filter.mp hm).1
      | published | discarded | orphaned => exact hc.kept rfl rfl hc.rows
  | migration _ h =>
      cases h with
      | initialized plan hinstalled _ _ _ _ hfresh hlayout =>
          exact started_conforming hw hc hinstalled hfresh hlayout
      | moved _ _ _ _ _ _ _ _ _ _ hadmits _ _ _ _ hnarrow =>
          exact hc.kept rfl rfl (rewritten_rows hc ⟨hadmits, hnarrow⟩)
      | progressed => exact hc.kept rfl rfl hc.rows

theorem DirectEffect.conforming (hc : db.Conforming) (h : DirectEffect db after) : after.Conforming := by
  cases h with
  | metaInserted _ _ _ hadmits => exact hc.kept rfl rfl (appended_rows hc hadmits)
  | metaUpdated _ _ _ _ hadmits => exact hc.kept rfl rfl (rewritten_rows hc hadmits)
  | metaDeleted => exact hc.kept rfl rfl fun m hm => hc.rows m (List.mem_filter.mp hm).1
  | nothing => exact hc
  | _ => exact hc.kept rfl rfl hc.rows

theorem Executes.conforming (hs : db.Held ∧ db.Conforming) (h : Executes db after) :
    after.Held ∧ after.Conforming := by
  refine ⟨h.held hs.1, ?_⟩
  cases h with
  | direct statement h => exact (direct_effect hs.1.guarded.wf h).conforming hs.2
  | store action h _ =>
      exact (Runs.invariant (fun db : Catalog => db.Wf ∧ db.Conforming)
        (fun _ _ hs h => ⟨h.wf hs.1, h.conforming hs.1 hs.2⟩) (exec_effects hs.1.guarded.wf h)
        ⟨hs.1.guarded.wf, hs.2⟩).2

theorem Serves.conforming (hs : (db.Held ∧ db.DeferredKeys) ∧ db.Conforming) (h : Serves db after) :
    (after.Held ∧ after.DeferredKeys) ∧ after.Conforming := by
  refine ⟨h.held hs.1, ?_⟩
  cases h with
  | transaction h _ =>
      exact (Runs.invariant (fun db : Catalog => db.Held ∧ db.Conforming) (fun _ _ hs h => h.conforming hs) h
        ⟨hs.1.1, hs.2⟩).2
  | journaling schema prepared h _ =>
      obtain ⟨_, _, _, _, _, _, _⟩ := journal_effect h
      exact hs.2.kept rfl rfl hs.2.rows
  | recording job error h =>
      rcases recordCleanup_effect h with rfl | ⟨_, _, _, _, rfl, _⟩
      · exact hs.2
      · exact hs.2.kept rfl rfl hs.2.rows

theorem Served.conforming (h : Served db) : db.Wf ∧ db.Conforming := by
  have hs := Runs.invariant (fun db : Catalog => (db.Held ∧ db.DeferredKeys) ∧ db.Conforming)
    (fun _ _ hs h => h.conforming hs) h
    ⟨⟨⟨Catalog.empty_guarded, by simp [Catalog.Enrolled, Catalog.empty]⟩,
      by simp [Catalog.DeferredKeys, Catalog.empty]⟩, Catalog.empty_conforming⟩
  exact ⟨hs.1.1.guarded.wf, hs.2⟩

-- The statements on one metadata table. One on several rows is one after the other.

def Direct.onMetadata (table : String) : Direct → Bool
  | insertMeta given _ => given = table
  | updateMeta given _ _ => given = table
  | deleteMeta given _ => given = table
  | _ => false

def Direct.updates (table : String) (id : TextCell) : Direct → Bool
  | updateMeta given key _ => given = table && key = id
  | _ => false

def Direct.deletes (table : String) (id : TextCell) : Direct → Bool
  | deleteMeta given key => given = table && key = id
  | _ => false

theorem DirectEffect.schemas_kept (h : DirectEffect db after) :
    after.schemas = db.schemas ∧ after.layouts = db.layouts := by
  cases h <;> exact ⟨rfl, rfl⟩

theorem insertMeta_starts {new : MetaCells} (hw : db.Wf) (hc : db.Conforming)
    (h : insertMeta db table new = .ok after) :
    ∃ row, after.metadata = db.metadata ++ [row] ∧ row.table = table ∧ row.version = 1 ∧
      db.latestVersion table = some row.schemaVersion := by
  obtain ⟨row, htable, _, _, _, hadmits, hone, hevolved, _, _, rfl⟩ := insertMeta_effect h
  refine ⟨row, rfl, htable, hone, ?_⟩
  obtain ⟨s, hs, hversion⟩ := List.mem_map.mp hadmits.2.1
  rw [htable] at hs
  obtain ⟨latest, hlatest⟩ := Option.isSome_iff_exists.mp (List.getLast?_isSome.mpr (List.ne_nil_of_mem hs))
  have hfound : db.latestVersion table = some latest.version := by rw [Catalog.latestVersion, hlatest]; rfl
  cases he : db.evolved table with
  | true => rw [hfound, hevolved latest.version he hfound]
  | false =>
      -- Every version of a table that was never rebuilt is 1.
      have hall : ∀ t ∈ db.declarations table, t.version = 1 := by
        intro t ht
        obtain ⟨found, hmem, hname, rfl⟩ := mem_declarations.mp ht
        exact (hw.schemaRow found hmem).2.trans (hc.single found hmem (hname ▸ he))
      rw [hfound, hall latest (List.mem_of_getLast? hlatest), ← hversion, hall s hs]

theorem updateMeta_bumps {old : MetaRow} {new : MetaCells} (hw : db.Wf)
    (h : updateMeta db old new = .ok after) :
    ∃ row latest, after.metadata = rewrite (fun m => m.sameKey old) (fun _ => row) db.metadata ∧
      (db.declarations old.table).getLast? = some latest ∧ row.table = old.table ∧ row.id = old.id ∧
      row.schemaVersion = old.schemaVersion ∧ row.version = old.version + 1 ∧
      (∀ field ∈ latest.fields, field.2.immutable = true → row.fields field.1 = old.fields field.1) ∧
      (db.evolved old.table = true → old.schemaVersion = latest.version) := by
  obtain ⟨row, latest, hlatest, htable, hid, hbump, _, hfields, _, hkind, _, rfl⟩ := updateMeta_effect h
  rcases hkind with ⟨hversion, hfrozen, himmutable⟩ | ⟨_, _, s, hs, _⟩
  · refine ⟨row, latest, rfl, hlatest, htable, hid, hversion, hbump, fun field hfield hi => ?_, hfrozen⟩
    have hcolumn := mem_columns (List.mem_of_getLast? hlatest) hfield
    rw [hfields, restrictTo_of_mem _ _ _ (List.mem_map_of_mem hcolumn)]
    exact himmutable field hfield hi
  · rw [hw.noSteps] at hs
    cases hs

theorem deleteMeta_latest {old : MetaRow} (h : deleteMeta db old = .ok after) :
    after.metadata = db.metadata.filter (fun m => !m.sameKey old) ∧
      ∀ latest, db.evolved old.table = true → db.latestVersion old.table = some latest →
        old.schemaVersion = latest := by
  refine ⟨by rw [(deleteMeta_effect h).2], fun latest he hlatest => ?_⟩
  simp only [deleteMeta, bind_eq_ok, require_eq_ok] at h
  obtain ⟨_, htrigger, _⟩ := h
  simpa [metaDeleteTrigger, he, hlatest] using htrigger

-- What one statement leaves of a row.
inductive RowAfter (db : Catalog) (m : MetaRow) (statement : Direct) (after : Catalog) : Prop
  | kept (hm : m ∈ after.metadata) (h : statement.updates m.table m.id = false)
  | updated (new : MetaRow) (latest : BlobSchema) (hm : new ∈ after.metadata)
      (h : statement.updates m.table m.id = true) (hlatest : (db.declarations m.table).getLast? = some latest)
      (hkey : new.table = m.table ∧ new.id = m.id ∧ new.schemaVersion = m.schemaVersion)
      (hbump : new.version = m.version + 1)
      (himmutable : ∀ field ∈ latest.fields, field.2.immutable = true →
        new.fields field.1 = m.fields field.1)
      (hfrozen : db.evolved m.table = true → m.schemaVersion = latest.version)
  | deleted (h : statement.deletes m.table m.id = true) (hnone : statement.updates m.table m.id = false)
      (hfrozen : ∀ latest, db.evolved m.table = true → db.latestVersion m.table = some latest →
        m.schemaVersion = latest)

theorem statement_row {statement : Direct} (hw : db.Wf) (hm : m ∈ db.metadata)
    (hon : statement.onMetadata table = true) (h : statement.exec db = .ok after) :
    RowAfter db m statement after := by
  cases statement with
  | insertMeta given new =>
      obtain ⟨_, _, _, _, _, _, _, _, _, _, rfl⟩ := insertMeta_effect h
      exact .kept (List.mem_append_left _ hm) rfl
  | updateMeta given key new =>
      rcases onRow_effect h with ⟨old, _, hold, hselect, hupdate⟩ | ⟨hnone, rfl⟩
      swap
      · refine .kept hm (Bool.eq_false_iff.mpr fun hkey => List.find?_eq_none.mp hnone m hm ?_)
        simp only [Direct.updates, Bool.and_eq_true, decide_eq_true_eq] at hkey ⊢
        exact ⟨hkey.1.symm, hkey.2.symm⟩
      simp only [Bool.and_eq_true, decide_eq_true_eq] at hselect
      obtain ⟨row, latest, hafter, hlatest, hkey⟩ := updateMeta_bumps hw hupdate
      by_cases hsame : m.sameKey old = true
      · obtain rfl := hw.meta_eq hm hold ((sameKey_iff m old).mp hsame).1 ((sameKey_iff m old).mp hsame).2
        refine .updated row latest ?_ (by simp [Direct.updates, hselect.1, hselect.2]) hlatest
          ⟨hkey.1, hkey.2.1, hkey.2.2.1⟩ hkey.2.2.2.1 hkey.2.2.2.2.1 hkey.2.2.2.2.2
        rw [hafter]
        exact (mem_rewrite _ _ _ _).mpr (Or.inr ⟨m, hm, hsame, rfl⟩)
      · refine .kept ?_ (Bool.eq_false_iff.mpr fun hupdates => hsame ?_)
        · rw [hafter]
          exact (mem_rewrite _ _ _ _).mpr (Or.inl ⟨hm, by simpa using hsame⟩)
        · simp only [Direct.updates, Bool.and_eq_true, decide_eq_true_eq] at hupdates
          exact (sameKey_iff m old).mpr ⟨hupdates.1.symm.trans hselect.1.symm,
            hupdates.2.symm.trans hselect.2.symm⟩
  | deleteMeta given key =>
      rcases onRow_effect h with ⟨old, _, hold, hselect, hdelete⟩ | ⟨_, rfl⟩
      swap
      · exact .kept hm rfl
      simp only [Bool.and_eq_true, decide_eq_true_eq] at hselect
      obtain ⟨hafter, hfrozen⟩ := deleteMeta_latest hdelete
      by_cases hsame : m.sameKey old = true
      · obtain rfl := hw.meta_eq hm hold ((sameKey_iff m old).mp hsame).1 ((sameKey_iff m old).mp hsame).2
        exact .deleted (by simp [Direct.deletes, hselect.1, hselect.2]) rfl hfrozen
      · refine .kept ?_ rfl
        rw [hafter]
        exact List.mem_filter.mpr ⟨hm, by simpa using hsame⟩
  | _ => cases hon

-- A row that no statement of a run deletes.
structure RowLives (db : Catalog) (m : MetaRow) (statements : List Direct) (new : MetaRow) : Prop where
  key : new.table = m.table ∧ new.id = m.id ∧ new.schemaVersion = m.schemaVersion
  bumps : new.version = m.version + statements.countP fun s => s.updates m.table m.id
  immutable : ∀ latest, (db.declarations m.table).getLast? = some latest → ∀ field ∈ latest.fields,
    field.2.immutable = true → new.fields field.1 = m.fields field.1

theorem statements_row {statements : List Direct} (hw : db.Wf) (hm : m ∈ db.metadata)
    (hon : ∀ s ∈ statements, s.onMetadata table = true)
    (hnone : ∀ s ∈ statements, s.deletes m.table m.id = false)
    (h : statements.foldlM Direct.exec db = .ok after) :
    ∃ new ∈ after.metadata, RowLives db m statements new := by
  induction statements generalizing db m with
  | nil =>
      simp only [List.foldlM_nil, pure_eq_ok] at h
      subst h
      exact ⟨m, hm, ⟨rfl, rfl, rfl⟩, by simp, fun _ _ _ _ _ => rfl⟩
  | cons statement rest ih =>
      simp only [List.foldlM_cons, bind_eq_ok] at h
      obtain ⟨mid, hstatement, hrest⟩ := h
      have heffect := direct_effect hw hstatement
      have hdeclarations : mid.declarations m.table = db.declarations m.table := by
        rw [Catalog.declarations, heffect.schemas_kept.1]
        rfl
      have honRest := fun s hs => hon s (List.mem_cons_of_mem _ hs)
      have hnoneRest := fun s hs => hnone s (List.mem_cons_of_mem _ hs)
      cases statement_row hw hm (hon statement List.mem_cons_self) hstatement with
      | deleted hdeletes =>
          rw [hnone statement List.mem_cons_self] at hdeletes
          cases hdeletes
      | kept hkept hother =>
          obtain ⟨new, hnew, hkey, hbumps, himmutable⟩ := ih (heffect.wf hw) hkept honRest hnoneRest hrest
          refine ⟨new, hnew, hkey, ?_, fun latest hlatest => himmutable latest (hdeclarations ▸ hlatest)⟩
          rw [hbumps, List.countP_cons_of_neg (by simp [hother])]
      | updated next latest hmem hupdates hlatest hkey hbump himmutable _ =>
          obtain ⟨new, hnew, hlater⟩ := ih (heffect.wf hw) hmem honRest
            (by rw [hkey.1, hkey.2.1]; exact hnoneRest) hrest
          obtain ⟨hkey', hbumps, himmutable'⟩ := hlater
          rw [hkey.1, hkey.2.1, hkey.2.2] at hkey'
          rw [hkey.1, hkey.2.1] at hbumps
          rw [hkey.1, hdeclarations] at himmutable'
          refine ⟨new, hnew, hkey', ?_, fun last hlast field hfield hi => ?_⟩
          · rw [hbumps, hbump, List.countP_cons_of_pos (by simpa using hupdates)]
            push_cast
            omega
          · obtain rfl := Option.some.inj (hlatest.symm.trans hlast)
            exact (himmutable' latest hlatest field hfield hi).trans (himmutable field hfield hi)

-- A row below the latest version of a rebuilt table stays as it is.
theorem statements_frozen {statements : List Direct} (hw : db.Wf) (hm : m ∈ db.metadata)
    (hon : ∀ s ∈ statements, s.onMetadata table = true) (hevolved : db.evolved m.table = true) {latest : Int}
    (hlatest : db.latestVersion m.table = some latest) (hold : m.schemaVersion ≠ latest)
    (h : statements.foldlM Direct.exec db = .ok after) : m ∈ after.metadata := by
  induction statements generalizing db with
  | nil =>
      simp only [List.foldlM_nil, pure_eq_ok] at h
      exact h ▸ hm
  | cons statement rest ih =>
      simp only [List.foldlM_cons, bind_eq_ok] at h
      obtain ⟨mid, hstatement, hrest⟩ := h
      have heffect := direct_effect hw hstatement
      obtain ⟨hschemas, hlayouts⟩ := heffect.schemas_kept
      have hmid : m ∈ mid.metadata := by
        cases statement_row hw hm (hon statement List.mem_cons_self) hstatement with
        | kept hkept => exact hkept
        | deleted _ _ hfrozen => exact absurd (hfrozen latest hevolved hlatest) hold
        | updated _ last _ _ hlast _ _ _ hfrozen =>
            rw [Catalog.latestVersion, hlast] at hlatest
            exact absurd ((hfrozen hevolved).trans (Option.some.inj hlatest)) hold
      refine ih (heffect.wf hw) hmid (fun s hs => hon s (List.mem_cons_of_mem _ hs)) ?_ ?_ hrest
      · rw [Catalog.evolved, hlayouts]
        exact hevolved
      · rw [Catalog.latestVersion, Catalog.declarations, hschemas]
        exact hlatest

instance (db : Catalog) (m : MetaRow) : Decidable (db.Whole m) := by
  unfold Catalog.Whole
  infer_instance

theorem whole_congr (hschemas : after.schemas = db.schemas) (h : db.Whole m) : after.Whole m := by
  intro s hs
  rw [Catalog.declarations, hschemas] at hs
  exact h s hs

-- What a statement writes is whole, and then the row it leaves.
theorem written_whole {table : String} {new : MetaCells} {row : MetaRow} (htable : row.table = table)
    (hfields : row.fields = restrictTo (db.columns table) new.fields)
    (hnew : ∀ column ∈ db.columns table, column.2.kind = .timestamp → (new.fields column.1).whole = true) :
    db.Whole row := by
  intro s hs _ field hfield htimestamp
  have hcolumn := mem_columns (htable ▸ hs) hfield
  rw [hfields, restrictTo_of_mem _ _ _ (List.mem_map_of_mem hcolumn)]
  exact hnew field hcolumn htimestamp

theorem statement_whole {statement : Direct} (hon : statement.onMetadata table = true)
    (hwhole : statement.Whole db) (h : statement.exec db = .ok after) (hrows : ∀ m ∈ db.metadata, db.Whole m) :
    ∀ m ∈ after.metadata, db.Whole m := by
  cases statement with
  | insertMeta given new =>
      obtain ⟨row, htable, _, _, hfields, _, _, _, _, _, rfl⟩ := insertMeta_effect h
      intro m hm
      rcases List.mem_append.mp hm with hm | hm
      · exact hrows m hm
      · rw [List.mem_singleton.mp hm]
        exact written_whole htable hfields hwhole
  | updateMeta given key new =>
      rcases onRow_effect h with ⟨old, _, _, hselect, hupdate⟩ | ⟨_, rfl⟩
      swap
      · exact hrows
      simp only [Bool.and_eq_true, decide_eq_true_eq] at hselect
      obtain ⟨row, _, _, htable, _, _, _, hfields, _, _, _, rfl⟩ := updateMeta_effect hupdate
      intro m hm
      rcases (mem_rewrite _ _ _ _).mp hm with ⟨hm, _⟩ | ⟨_, _, _, rfl⟩
      · exact hrows m hm
      · exact written_whole htable hfields (hselect.1 ▸ hwhole)
  | deleteMeta given key =>
      rcases onRow_effect h with ⟨old, _, _, _, hdelete⟩ | ⟨_, rfl⟩
      swap
      · exact hrows
      rw [(deleteMeta_effect hdelete).2]
      exact fun m hm => hrows m (List.mem_filter.mp hm).1
  | _ => cases hon

theorem statements_whole {statements : List Direct} (hw : db.Wf)
    (hon : ∀ s ∈ statements, s.onMetadata table = true)
    (hwhole : ∀ s ∈ statements, s.Whole db) (h : statements.foldlM Direct.exec db = .ok after)
    (hrows : ∀ m ∈ db.metadata, db.Whole m) : ∀ m ∈ after.metadata, after.Whole m := by
  induction statements generalizing db with
  | nil =>
      simp only [List.foldlM_nil, pure_eq_ok] at h
      exact h ▸ hrows
  | cons statement rest ih =>
      simp only [List.foldlM_cons, bind_eq_ok] at h
      obtain ⟨mid, hstatement, hrest⟩ := h
      have heffect := direct_effect hw hstatement
      obtain ⟨hschemas, _⟩ := heffect.schemas_kept
      have hmid := statement_whole (hon statement List.mem_cons_self) (hwhole statement List.mem_cons_self)
        hstatement hrows
      refine ih (heffect.wf hw) (fun s hs => hon s (List.mem_cons_of_mem _ hs)) (fun s hs => ?_) hrest
        fun m hm => whole_congr hschemas (hmid m hm)
      have hsame := hwhole s (List.mem_cons_of_mem _ hs)
      cases s with
      | insertMeta given new | updateMeta given key new =>
          rwa [Direct.Whole, Catalog.columns, Catalog.declarations, hschemas]
      | _ => exact trivial

theorem statements_conform {statements : List Direct} (hs : db.Wf ∧ db.Conforming)
    (h : statements.foldlM Direct.exec db = .ok after) : after.Wf ∧ after.Conforming :=
  foldlM_invariant (fun db : Catalog => db.Wf ∧ db.Conforming) _ statements db after h hs
    fun _ _ _ _ hs hstep => by
      have heffect := direct_effect hs.1 hstep
      exact ⟨heffect.wf hs.1, heffect.conforming hs.2⟩

-- Generated metadata guards enforce the declarations, of a row exactly when no NUL ends one of its
-- timestamps early.
theorem metadata_guards_enforce_declarations (start : Catalog) (table : String) (statements : List Direct)
    (db : Catalog) (hstart : Served start) (hon : ∀ s ∈ statements, s.onMetadata table = true)
    (hrun : statements.foldlM Direct.exec start = .ok db) :
    (∀ m ∈ db.metadata, (∃ s ∈ db.declarations m.table, Declares s m) ↔ db.Whole m) ∧
    ((∀ m ∈ start.metadata, start.Whole m) → (∀ s ∈ statements, s.Whole start) →
      ∀ m ∈ db.metadata, ∃ s ∈ db.declarations m.table, Declares s m) ∧
    (∀ new after, insertMeta db table new = .ok after → ∃ row, after.metadata = db.metadata ++ [row] ∧
      row.table = table ∧ row.version = 1 ∧ db.latestVersion table = some row.schemaVersion) ∧
    (∀ statement after, statement.onMetadata table = true → statement.exec db = .ok after →
      ∀ m ∈ db.metadata, RowAfter db m statement after) ∧
    (∀ m ∈ start.metadata, (∀ s ∈ statements, s.deletes m.table m.id = false) →
      ∃ new ∈ db.metadata, RowLives start m statements new) ∧
    ∀ m ∈ start.metadata, start.evolved m.table = true → ∀ latest,
      start.latestVersion m.table = some latest → m.schemaVersion ≠ latest → m ∈ db.metadata := by
  have hs := hstart.conforming
  obtain ⟨hw, hc⟩ := statements_conform hs hrun
  refine ⟨fun m hm => declares_iff hw (hc.rows m hm), fun hrows hwhole m hm => ?_,
    fun new after h => insertMeta_starts hw hc h,
    fun statement after hstatement h m hm => statement_row hw hm hstatement h,
    fun m hm hnone => statements_row hs.1 hm hon hnone hrun,
    fun m hm he latest hlatest hold => statements_frozen hs.1 hm hon he hlatest hold hrun⟩
  exact (declares_iff hw (hc.rows m hm)).mpr (statements_whole hs.1 hon hwhole hrun hrows m hm)

-- A table of events with one event, which may not have a time yet.

def event : BlobSchema :=
  { name := "event", version := 1, fields := [("at", ⟨.timestamp, false, false⟩)], indexes := [],
    handlers := ["file"], validatorId := none, valid := by decide }

def eventCells (version : Int) (time : Value) : MetaCells :=
  { id := .text "e1", schemaName := .text "event", schemaVersion := .int 1, version := .int version,
    fields := fun _ => time }

def eventInstalled : Catalog := orElse (transact [.installSchema event] Catalog.empty) Catalog.empty

def beginning : List Direct :=
  [.insertBlob { id := .text "e1", schemaName := .text "event", schemaVersion := .int 1,
                 state := .text "publishing" }, .insertMeta "event" (eventCells 1 .null)]

def eventInserted : Catalog := orElse (beginning.foldlM Direct.exec eventInstalled) eventInstalled

theorem eventInserted_served : Served eventInserted := by
  have hinstalled : Serves Catalog.empty eventInstalled :=
    .transaction (.single (.store (.installSchema event) (orElse_of_isOk (by decide) _) (by simp))) (by decide)
  have hinserted : Serves eventInstalled eventInserted := by
    refine .transaction (foldlM_relates (Runs.Run Executes) Direct.exec beginning _ _ ?_ (fun _ => .refl)
      (fun _ _ _ h h' => h.trans h') fun statement _ _ _ h => .single (.direct statement h)) (by decide)
    exact orElse_of_isOk (by decide) _
  exact .tail (.single hinstalled) hinserted

def timing (time : String) : Direct := .updateMeta "event" (.text "e1") (eventCells 2 (.text time))

theorem eventInserted_whole : ∀ m ∈ eventInserted.metadata, eventInserted.Whole m := by decide

theorem timed_event_has_its_declaration :
    ∃ db, [timing "2020-01-01T00:00:00.000000Z"].foldlM Direct.exec eventInserted = .ok db ∧
      ∀ m ∈ db.metadata, ∃ s ∈ db.declarations m.table, Declares s m := by
  obtain ⟨db, hdb⟩ := exists_of_isOk
    (show ([timing "2020-01-01T00:00:00.000000Z"].foldlM Direct.exec eventInserted).isOk by decide)
  refine ⟨db, hdb, ?_⟩
  refine (metadata_guards_enforce_declarations eventInserted "event" _ db eventInserted_served
    (by decide) hdb).2.1
    eventInserted_whole (List.forall_mem_singleton.mpr ?_)
  exact (by decide : ∀ column ∈ eventInserted.columns "event", column.2.kind = .timestamp →
    (Value.text "2020-01-01T00:00:00.000000Z").whole = true)

def hiddenTail : List Direct := [timing "2020-01-01T00:00:00.000000Z\x00x"]

-- Behind a NUL an UPDATE stores what has not the shape of a timestamp.
theorem nul_hides_a_tail : ∃ (start : Catalog) (statements : List Direct) (db : Catalog), Served start ∧
    (∀ s ∈ statements, s.onMetadata "event" = true) ∧ statements.foldlM Direct.exec start = .ok db ∧
    ∃ m ∈ db.metadata, ¬∃ s ∈ db.declarations m.table, Declares s m := by
  refine ⟨eventInserted, hiddenTail, orElse (hiddenTail.foldlM Direct.exec eventInserted) eventInserted,
    eventInserted_served, by decide, orElse_of_isOk (by decide) _, ?_⟩
  have hbroken : ∀ m ∈ (orElse (hiddenTail.foldlM Direct.exec eventInserted) eventInserted).metadata,
      ∀ s ∈ (orElse (hiddenTail.foldlM Direct.exec eventInserted) eventInserted).declarations m.table,
      ∃ field ∈ s.fields, field.2.kind = .timestamp ∧ (m.fields field.1).whole = false := by
    decide
  obtain ⟨m, hm⟩ := List.exists_mem_of_ne_nil
    (orElse (hiddenTail.foldlM Direct.exec eventInserted) eventInserted).metadata (by decide)
  refine ⟨m, hm, ?_⟩
  rintro ⟨s, hs, hdeclares⟩
  obtain ⟨field, hfield, htimestamp, hnul⟩ := hbroken m hm s hs
  rw [(has_iff.mp (hdeclares.kinds field hfield)).2 htimestamp] at hnul
  cases hnul

end MeldStore
