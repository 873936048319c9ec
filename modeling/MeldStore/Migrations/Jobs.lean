import MeldStore.Transactions

namespace MeldStore

open Library Library.Checked Library.Keyed

-- The latest version of a schema

theorem getLast?_of_pairwise {α : Type} {r : α → α → Prop} {l : List α} (h : l.Pairwise r)
    (hrefl : ∀ a, r a a) {last : α} (hlast : l.getLast? = some last) : ∀ a ∈ l, r a last := by
  obtain ⟨start, rfl⟩ := List.getLast?_eq_some_iff.mp hlast
  intro a ha
  rcases List.mem_append.mp ha with ha | ha
  · exact (List.pairwise_append.mp h).2.2 a ha last List.mem_cons_self
  · rw [List.mem_singleton.mp ha]
    exact hrefl last

namespace Catalog

def IsLatest (db : Catalog) (name : String) (version : Int) : Prop :=
  db.hasSchema name version ∧ ∀ s ∈ db.schemas, s.name = name → s.version ≤ version

theorem latestVersion_isLatest {db : Catalog} (hw : db.Wf) {name : String} {version : Int}
    (h : db.latestVersion name = some version) : db.IsLatest name version := by
  simp only [latestVersion, declarations, Option.map_eq_some_iff, List.getLast?_map] at h
  obtain ⟨_, ⟨s, hs, rfl⟩, hversion⟩ := h
  have hmem : s ∈ db.schemas ∧ s.name = name := by
    have := List.mem_of_getLast? hs
    rw [List.mem_insertionSort, List.mem_filter] at this
    exact ⟨this.1, of_decide_eq_true this.2⟩
  have hsversion : s.version = version := (hw.schemaRow s hmem.1).2.symm.trans hversion
  refine ⟨⟨s, hmem.1, hmem.2, hsversion⟩, fun t ht htname => ?_⟩
  have htotal : Std.Total fun s t : SchemaRow => s.version ≤ t.version := ⟨fun _ _ => le_total _ _⟩
  have htrans : IsTrans SchemaRow fun s t => s.version ≤ t.version := ⟨fun _ _ _ => le_trans⟩
  have hsorted := List.pairwise_insertionSort (fun s t : SchemaRow => s.version ≤ t.version)
    (db.schemas.filter fun s => s.name = name)
  rw [← hsversion]
  refine getLast?_of_pairwise hsorted (fun _ => le_refl _) hs t ?_
  rw [List.mem_insertionSort, List.mem_filter]
  exact ⟨ht, decide_eq_true htname⟩

theorem IsLatest.unique {db : Catalog} {name : String} {v w : Int} (hv : db.IsLatest name v)
    (hw : db.IsLatest name w) : v = w := by
  obtain ⟨⟨s, hs, hsname, rfl⟩, hvmax⟩ := hv
  obtain ⟨⟨t, ht, htname, rfl⟩, hwmax⟩ := hw
  exact le_antisymm (hwmax s hs hsname) (hvmax t ht htname)

-- Every job lies between two versions of an evolved schema; a running one leads
-- to the latest.
structure Jobs (db : Catalog) : Prop where
  wf : db.Wf
  between : ∀ j ∈ db.migrations, db.evolved j.schemaName = true ∧ j.sourceVersion < j.targetVersion ∧
    ∃ latest, db.IsLatest j.schemaName latest ∧ j.targetVersion ≤ latest ∧
      (j.state = .running → j.targetVersion = latest)
  oneRunning : ∀ j ∈ db.migrations, ∀ k ∈ db.migrations, j.schemaName = k.schemaName →
    j.state = .running → k.state = .running → j = k

theorem empty_jobs : Catalog.empty.Jobs :=
  ⟨empty_wf, by simp [Catalog.empty], by simp [Catalog.empty]⟩

end Catalog

open Catalog

theorem status_of_mem {db : Catalog} (hw : db.Wf) {j : MigrationRow} (hj : j ∈ db.migrations) :
    Migrations.status db j.name = .ok j := by
  rw [Migrations.status, fromOption_eq_ok]
  refine hw.migrationName.find?_eq_some hj rfl _ (decide_eq_true rfl) fun other _ hother => ?_
  rw [of_decide_eq_true hother]

-- Declaring the first version of a schema leaves its latest version as it was.
theorem isLatest_installed {db : Catalog} (hw : db.Wf) {schema : BlobSchema} (hone : schema.version = 1)
    {name : String} {version : Int} (h : db.IsLatest name version) :
    Catalog.IsLatest { db with schemas := db.schemas ++
      [{ name := schema.name, version := schema.version, definition := schema }] } name version := by
  refine ⟨hasSchema_append h.1, fun s hs hname => ?_⟩
  rcases List.mem_append.mp hs with hs | hs
  · exact h.2 s hs hname
  · obtain ⟨t, ht, htname, rfl⟩ := h.1
    rw [List.mem_singleton.mp hs]
    have hpositive := t.definition.one_le_version
    rw [(hw.schemaRow t ht).2] at hpositive
    simpa [hone] using hpositive

theorem Installs.jobs {db after : Catalog} {schema : BlobSchema} (hj : db.Jobs)
    (h : Installs db schema after) : after.Jobs := by
  have hwf := h.wf hj.wf
  obtain ⟨schemas, _, _, rfl, hschemas, _⟩ := h
  refine ⟨hwf, fun j hjob => ?_, hj.oneRunning⟩
  obtain ⟨hevolved, hversions, latest, hlatest, hrest⟩ := hj.between j hjob
  refine ⟨hevolved, hversions, latest, ?_, hrest⟩
  rcases hschemas with ⟨rfl, _⟩ | ⟨rfl, _, hone⟩
  · simpa [Catalog.IsLatest, Catalog.hasSchema] using hlatest
  · exact isLatest_installed hj.wf hone hlatest

theorem RowChange.migrations_kept {db after : Catalog} (h : RowChange db after) :
    after.migrations = db.migrations ∧ after.schemas = db.schemas ∧ after.layouts = db.layouts := by
  cases h <;> exact ⟨rfl, rfl, rfl⟩

theorem jobs_congr {db after : Catalog} (hj : db.Jobs) (hwf : after.Wf)
    (hmigrations : after.migrations = db.migrations) (hschemas : after.schemas = db.schemas)
    (hlayouts : after.layouts = db.layouts) : after.Jobs := by
  refine ⟨hwf, ?_, by rw [hmigrations]; exact hj.oneRunning⟩
  rw [hmigrations]
  intro j hjob
  have := hj.between j hjob
  simpa only [Catalog.evolved, Catalog.IsLatest, Catalog.hasSchema, hschemas, hlayouts] using this

-- A migration starts from the latest version, so its target is the next.
theorem isLatest_started {db : Catalog} {plan : MetadataMigration}
    (h : db.IsLatest plan.source.name plan.source.version) :
    (Migrations.started plan db).IsLatest plan.source.name plan.target.version := by
  refine ⟨⟨_, List.mem_append_right _ (List.mem_singleton.mpr rfl), plan.sameSchema.symm, rfl⟩,
    fun s hs hname => ?_⟩
  rcases List.mem_append.mp hs with hs | hs
  · have := h.2 s hs hname
    have := plan.nextVersion
    omega
  · rw [List.mem_singleton.mp hs]

theorem isLatest_started_other {db : Catalog} {plan : MetadataMigration} {name : String} {version : Int}
    (hne : name ≠ plan.source.name) (h : db.IsLatest name version) :
    (Migrations.started plan db).IsLatest name version := by
  refine ⟨hasSchema_append h.1, fun s hs hname => ?_⟩
  rcases List.mem_append.mp hs with hs | hs
  · exact h.2 s hs hname
  · rw [List.mem_singleton.mp hs] at hname
    exact absurd (hname.symm.trans plan.sameSchema.symm) hne

theorem evolved_started {db : Catalog} (plan : MetadataMigration) {name : String}
    (h : db.evolved name = true ∨ name = plan.source.name) :
    (Migrations.started plan db).evolved name = true := by
  rw [evolved_iff] at h ⊢
  simp only [Migrations.started, Migrations.rebuilt]
  split
  · rename_i he
    rcases h with h | rfl
    · exact h
    · exact (evolved_iff _ _).mp he
  · rcases h with h | rfl
    · exact List.mem_append_left _ h
    · exact List.mem_append_right _ (List.mem_singleton.mpr rfl)

theorem started_jobs {db : Catalog} (hj : db.Jobs) {plan : MetadataMigration}
    (hwf : (Migrations.started plan db).Wf)
    (hlatest : db.latestVersion plan.source.name = some plan.source.version)
    (hidle : ∀ j ∈ db.migrations, ¬(j.schemaName = plan.source.name ∧ j.state = .running)) :
    (Migrations.started plan db).Jobs := by
  have hsource := latestVersion_isLatest hj.wf hlatest
  refine ⟨hwf, fun j hjob => ?_, fun j hjob k hkob hname hrunning hrunning' => ?_⟩
  · rcases List.mem_append.mp hjob with hjob | hjob
    · obtain ⟨hevolved, hversions, latest, hlatest, hbelow, hrunning⟩ := hj.between j hjob
      refine ⟨evolved_started plan (Or.inl hevolved), hversions, ?_⟩
      by_cases hname : j.schemaName = plan.source.name
      · rw [hname] at hlatest
        obtain rfl := hlatest.unique hsource
        refine ⟨plan.target.version, hname ▸ isLatest_started hsource, ?_, fun hr => ?_⟩
        · have := plan.nextVersion
          omega
        · exact absurd ⟨hname, hr⟩ (hidle j hjob)
      · exact ⟨latest, isLatest_started_other hname hlatest, hbelow, hrunning⟩
    · rw [List.mem_singleton.mp hjob]
      refine ⟨evolved_started plan (Or.inr rfl), ?_, plan.target.version, isLatest_started hsource,
        le_refl _, fun _ => rfl⟩
      have := plan.nextVersion
      simp only [Migrations.newJob]
      omega
  · have hold : ∀ j ∈ db.migrations ++ [Migrations.newJob plan db], j.state = .running →
        j.schemaName = plan.source.name → j = Migrations.newJob plan db := by
      intro j hjob hr hs
      rcases List.mem_append.mp hjob with hjob | hjob
      · exact absurd ⟨hs, hr⟩ (hidle j hjob)
      · exact List.mem_singleton.mp hjob
    by_cases hs : j.schemaName = plan.source.name
    · rw [hold j hjob hrunning hs, hold k hkob hrunning' (hname.symm.trans hs)]
    · have hmem : ∀ x ∈ db.migrations ++ [Migrations.newJob plan db], x.schemaName ≠ plan.source.name →
          x ∈ db.migrations := by
        intro x hx hne
        rcases List.mem_append.mp hx with hx | hx
        · exact hx
        · rw [List.mem_singleton.mp hx] at hne
          exact absurd rfl hne
      exact hj.oneRunning j (hmem j hjob hs) k (hmem k hkob (hname ▸ hs)) hname hrunning hrunning'

-- Progress of a running job keeps the invariant.
theorem progressed_jobs {db : Catalog} (hj : db.Jobs) {name : String} {moved : Nat}
    {lastId : Option TextCell} {state : MigrationState}
    (hwf : (updateMigration db name moved lastId state).Wf)
    (hrunning : ∃ j ∈ db.migrations, j.name = name ∧ j.state = .running) :
    (updateMigration db name moved lastId state).Jobs := by
  have hback : ∀ j ∈ (updateMigration db name moved lastId state).migrations, ∃ old ∈ db.migrations,
      (j = old ∧ old.name ≠ name) ∨ (old.name = name ∧ old.state = .running ∧
        j = { old with migratedRows := old.migratedRows + moved, lastId := lastId, state := state }) := by
    intro j hjob
    rcases (mem_rewrite _ _ _ _).mp hjob with ⟨hjob, hne⟩ | ⟨old, hold, he, rfl⟩
    · exact ⟨j, hjob, Or.inl ⟨rfl, by simpa using hne⟩⟩
    · obtain ⟨k, hk, hkname, hkrunning⟩ := hrunning
      have hsame : old = k := hj.wf.migrationName.eq_of_mem hold hk rfl
        (by rw [hkname, of_decide_eq_true he])
      exact ⟨old, hold, Or.inr ⟨of_decide_eq_true he, hsame ▸ hkrunning, rfl⟩⟩
  refine ⟨hwf, fun j hjob => ?_, fun j hjob k hkob hname hr hr' => ?_⟩
  · obtain ⟨old, hold, ⟨rfl, _⟩ | ⟨_, hrun, rfl⟩⟩ := hback j hjob
    · exact hj.between j hold
    · obtain ⟨hevolved, hversions, latest, hlatest, hbelow, htarget⟩ := hj.between old hold
      exact ⟨hevolved, hversions, latest, hlatest, hbelow, fun _ => htarget hrun⟩
  · obtain ⟨old, hold, hcase⟩ := hback j hjob
    obtain ⟨old', hold', hcase'⟩ := hback k hkob
    have hsame : old = old' := by
      refine hj.oneRunning old hold old' hold' ?_ ?_ ?_
      · rcases hcase with ⟨rfl, _⟩ | ⟨_, _, rfl⟩ <;> rcases hcase' with ⟨rfl, _⟩ | ⟨_, _, rfl⟩ <;>
          exact hname
      · rcases hcase with ⟨rfl, _⟩ | ⟨_, hrun, _⟩
        · exact hr
        · exact hrun
      · rcases hcase' with ⟨rfl, _⟩ | ⟨_, hrun, _⟩
        · exact hr'
        · exact hrun
    subst hsame
    rcases hcase with ⟨rfl, hne⟩ | ⟨he, _, rfl⟩ <;> rcases hcase' with ⟨rfl, hne'⟩ | ⟨he', _, rfl⟩
    · rfl
    · exact absurd he' hne
    · exact absurd he hne'
    · rfl

theorem MigrationChange.jobs {db after : Catalog} (hj : db.Jobs) (h : MigrationChange db after) :
    after.Jobs := by
  have hwf := (Effect.migration _ h).wf hj.wf
  cases h with
  | initialized plan _ hlatest _ hidle => exact started_jobs hj hwf hlatest hidle
  | moved => exact jobs_congr hj hwf rfl rfl rfl
  | progressed name moved lastId state hrunning => exact progressed_jobs hj hwf hrunning

theorem Effect.jobs {db after : Catalog} (hj : db.Jobs) (h : Effect db after) : after.Jobs := by
  cases h with
  | installed schema _ h => exact h.jobs hj
  | enrolled name _ => exact jobs_congr hj { hj.wf with } rfl rfl rfl
  | rows _ h =>
      obtain ⟨hmigrations, hschemas, hlayouts⟩ := h.migrations_kept
      exact jobs_congr hj ((Effect.rows _ h).wf hj.wf) hmigrations hschemas hlayouts
  | migration _ h => exact h.jobs hj

theorem Change.jobs {db after : Catalog} (hj : db.Jobs) (h : Change db after) : after.Jobs := by
  have hwf := h.wf hj.wf
  rcases h with h | ⟨_, _, _, _, _, _, _, _⟩ | ⟨_, _, _, _, _⟩
  · exact h.jobs hj
  · exact jobs_congr hj hwf rfl rfl rfl
  · exact jobs_congr hj hwf rfl rfl rfl

theorem Changes.jobs {db after : Catalog} (hj : db.Jobs) (h : Changes db after) : after.Jobs :=
  Runs.invariant Jobs (fun _ _ hj h => h.jobs hj) h hj

theorem Reachable.jobs {db : Catalog} (h : Reachable db) : db.Jobs := h.changes.jobs empty_jobs

end MeldStore
