import MeldStore.Migrations.ExactlyOnce
import MeldStore.Committed

namespace MeldStore

open Library Library.Checked Library.Keyed

namespace Migrations

variable {plan : MetadataMigration} {total batchSize : Nat} {db after : Catalog}

-- The progress a batch records while its job runs. The rows it moves do not
-- depend on it.
abbrev progressed (plan : MetadataMigration) (moved : Nat) (last : Option TextCell) (db : Catalog) : Catalog :=
  updateMigration db plan.name moved last .running

section Progressed

variable (moved : Nat) (last : Option TextCell)

end Progressed

theorem migrateRow_kept {row : MetaRow} (h : migrateRow plan db row = .ok after) :
    after.migrations = db.migrations ∧ (unready after plan.source.name → unready db plan.source.name) := by
  obtain ⟨_, b, _, _, _, _, _, _, _, _, hb, _, _, _, _, rfl, _⟩ := migrateRow_effect h
  refine ⟨rfl, ?_⟩
  rintro ⟨other, hother, hname, hstate⟩
  rcases (mem_rewrite _ _ _ _).mp hother with ⟨hmem, _⟩ | ⟨_, _, _, rfl⟩
  · exact ⟨other, hmem, hname, hstate⟩
  · exact ⟨b, hb, hname, hstate⟩

theorem migrateRows_kept (rows : List MetaRow) (h : rows.foldlM (migrateRow plan) db = .ok after) :
    after.migrations = db.migrations ∧ (unready after plan.source.name → unready db plan.source.name) :=
  foldlM_relates (fun a b : Catalog => b.migrations = a.migrations ∧
      (unready b plan.source.name → unready a plan.source.name)) _ _ db after h (fun _ => ⟨rfl, id⟩)
    (fun _ _ _ hab hbc => ⟨hbc.1.trans hab.1, fun h => hab.2 (hbc.2 h)⟩) fun _ _ _ _ h => migrateRow_kept h

-- The pending rows in the order in which batches take them.
abbrev ordered (plan : MetadataMigration) (db : Catalog) : List MetaRow :=
  (pending plan db).insertionSort fun a b => a.id ≤ b.id

-- Nothing else commits during the run.
def alone (_ : Nat) (db : Catalog) : Catalog := db

structure Matches (plan : MetadataMigration) (db : Catalog) : Prop where
  job : ∃ j ∈ db.migrations, j.name = plan.name ∧ j.schemaName = plan.source.name ∧
    j.sourceVersion = plan.source.version ∧ j.targetVersion = plan.target.version
  declared : plan.target ∈ db.declarations plan.source.name

inductive Proceeds (db : Catalog) : Catalog → Prop
  | writes (actions : List Action) (after : Catalog)
      (hwrites : ∀ action ∈ actions, action.migrates = false)
      (h : transact actions db = .ok after) : Proceeds db after
  | begins (plan : MetadataMigration) (after : Catalog)
      (h : transact [.initializeJob plan] db = .ok after) : Proceeds db after
  | moves (plan : MetadataMigration) (batchSize : Nat) (after : Catalog) (hmatches : Matches plan db)
      (h : transact [.batch plan batchSize] db = .ok after) : Proceeds db after
  | journaling (schema : BlobSchema) (prepared : PreparedFile) (after : Catalog)
      (hsealed : prepared.Sealed) (h : Store.journal db schema prepared = .ok after)
      (hkeys : after.DeferredKeys) : Proceeds db after
  | recording (job : GcRow) (error : Option String) (after : Catalog)
      (h : Maintenance.recordCleanup job error db = .ok after) : Proceeds db after

def Orderly (db : Catalog) : Prop := Runs.Run Proceeds Catalog.empty db

theorem Proceeds.commit (h : Proceeds db after) : Commit db after := by
  cases h with
  | writes actions _ _ h => exact .transaction actions _ h
  | begins plan _ h => exact .transaction _ _ h
  | moves plan batchSize _ _ h => exact .transaction _ _ h
  | journaling schema prepared _ hsealed h hkeys => exact .journaling schema prepared _ hsealed h hkeys
  | recording job error _ h => exact .recording job error _ h

-- Two plans of one job.
structure SameJob (plan other : MetadataMigration) : Prop where
  name : other.name = plan.name
  schema : other.source.name = plan.source.name
  version : other.source.version = plan.source.version
  target : other.target = plan.target

theorem SameJob.symm {other : MetadataMigration} (h : SameJob plan other) : SameJob other plan :=
  ⟨h.name.symm, h.schema.symm, h.version.symm, h.target.symm⟩

theorem Underway.same {other : MetadataMigration} (hsame : SameJob plan other) (hu : Underway plan total db) :
    Underway other total db := by
  obtain ⟨j, hj⟩ := hu.job
  have hpending : pending other db = pending plan db := by
    rw [pending, pending, hsame.schema, hsame.version]
  refine ⟨hu.jobs, by rw [hsame.target, hsame.schema]; exact hu.declared, j, ?_⟩
  exact { mem := hj.mem, name := hj.name.trans hsame.name.symm, schema := hj.schema.trans hsame.schema.symm,
          source := hj.source.trans hsame.version.symm, target := by rw [hsame.target]; exact hj.target,
          totals := hj.totals, counted := by rw [hpending]; exact hj.counted,
          running := by rw [hpending]; exact hj.running, complete := by rw [hpending]; exact hj.complete }

theorem Matches.same {other : MetadataMigration} (hu : Underway plan total db) (h : Matches other db)
    (hname : other.name = plan.name) : SameJob plan other := by
  obtain ⟨j, hj⟩ := hu.job
  obtain ⟨k, hk, hkname, hschema, hsource, htarget⟩ := h.job
  obtain rfl := hu.only_job hj hk (hkname.trans hname)
  have hsameSchema : other.source.name = plan.source.name := hschema.symm.trans hj.schema
  refine ⟨hname, hsameSchema, hsource.symm.trans hj.source, ?_⟩
  exact declared_eq hu.jobs.wf (hsameSchema ▸ h.declared) hu.declared (htarget.symm.trans hj.target)

theorem Proceeds.underway (hu : Underway plan total db) (h : Proceeds db after) :
    Underway plan total after := by
  cases h with
  | writes actions _ hwrites h => exact (writes_underway hu (transact_writes hu.jobs.wf hwrites h)).1
  | begins other _ h =>
      obtain ⟨_, h⟩ := map_snd_eq_ok (transact_single h).1
      exact (initializeJob_underway hu h).1
  | moves other batchSize _ hmatches h =>
      obtain ⟨_, h⟩ := map_snd_eq_ok (transact_single h).1
      by_cases hname : other.name = plan.name
      · have hsame := Matches.same hu hmatches hname
        exact (batch_underway (hu.same hsame) h).1.same hsame.symm
      · exact (batch_other_underway hu hname h).1
  | journaling schema prepared _ _ h hkeys =>
      exact (Migrates.underway hu (.journaling schema prepared _ h hkeys)).1
  | recording job error _ h => exact (Migrates.underway hu (.recording job error _ h)).1

theorem initializeJob_matches {job : MigrationRow} (h : initializeJob plan db = .ok (job, after)) :
    Matches plan after ∧ job ∈ after.migrations ∧ job.name = plan.name := by
  obtain ⟨mid, _, _, hfound, hstart⟩ := initializeJob_effect h
  have hjob := List.mem_of_find?_eq_some hfound
  have hname : job.name = plan.name := by simpa using List.find?_some hfound
  refine ⟨?_, hjob, hname⟩
  rcases hstart with ⟨rfl, hschema, hsource, htarget, hinstalled⟩ | ⟨rfl, _, _⟩
  · refine ⟨⟨job, hjob, hname, hschema, hsource, htarget⟩, ?_⟩
    rw [plan.sameSchema]
    exact hinstalled.mem_declarations
  · refine ⟨⟨newJob plan mid, List.mem_append_right _ (List.mem_singleton.mpr rfl), rfl, rfl, rfl, rfl⟩, ?_⟩
    exact mem_declarations.mpr ⟨_, List.mem_append_right _ (List.mem_singleton.mpr rfl),
      plan.sameSchema.symm, rfl⟩

-- Every job of an orderly catalog is under way, by some plan.
structure Tended (db : Catalog) : Prop where
  settled : db.Settled
  each : ∀ j ∈ db.migrations, ∃ plan total, plan.name = j.name ∧ Underway plan total db

theorem started_tended {job : MigrationRow} (ht : Tended db) (h : initializeJob plan db = .ok (job, after)) :
    pending plan after = pending plan db ∧ ∃ total, Underway plan total after ∧
      Counted plan total after job := by
  obtain ⟨hmatches, hjob, hname⟩ := initializeJob_matches h
  have hunder : pending plan after = pending plan db ∧ ∃ total, Underway plan total after := by
    by_cases hfresh : ∀ j ∈ db.migrations, j.name ≠ plan.name
    · obtain ⟨hu, hpending, _⟩ := started_underway ht.settled.jobs hfresh h
      exact ⟨hpending, _, hu⟩
    · push Not at hfresh
      obtain ⟨j, hj, hjname⟩ := hfresh
      obtain ⟨other, total, hother, hu⟩ := ht.each j hj
      obtain ⟨hafter, hpending⟩ := initializeJob_underway hu h
      have hsame := Matches.same hafter hmatches (hjname.symm.trans hother.symm)
      refine ⟨?_, total, hafter.same hsame⟩
      rwa [pending, pending, hsame.schema, hsame.version]
  obtain ⟨hpending, total, hu⟩ := hunder
  obtain ⟨j, hj⟩ := hu.job
  exact ⟨hpending, total, hu, hu.only_job hj hjob hname ▸ hj⟩

theorem Write.migrations_kept (h : Write db after) : after.migrations = db.migrations := by
  cases h with
  | installed schema _ h =>
      obtain ⟨_, _, _, rfl, _⟩ := h
      rfl
  | enrolled => rfl
  | rows _ h => exact h.migrations_kept.1

theorem batch_names {job : MigrationRow} (h : batch plan batchSize db = .ok (job, after)) :
    ∀ j ∈ after.migrations, ∃ k ∈ db.migrations, k.name = j.name := by
  obtain ⟨_, _, _, heffect, _⟩ := batch_effect h
  cases heffect with
  | complete => exact fun j hj => ⟨j, hj, rfl⟩
  | moved mid _ hmoved _ =>
      intro j hj
      obtain ⟨hmigrations, _⟩ := migrateRows_kept _ hmoved
      rcases (mem_rewrite _ _ _ _).mp hj with ⟨hj, _⟩ | ⟨k, hk, _, rfl⟩
      · exact ⟨j, hmigrations ▸ hj, rfl⟩
      · exact ⟨k, hmigrations ▸ hk, rfl⟩

-- Only initializeJob makes a job, and it is under way then.
theorem Proceeds.tended (ht : Tended db) (h : Proceeds db after) : Tended after := by
  have hsettled := h.commit.settled ht.settled
  have hkept : (∀ j ∈ after.migrations, ∃ k ∈ db.migrations, k.name = j.name) → Tended after := by
    intro hnames
    refine ⟨hsettled, fun j hj => ?_⟩
    obtain ⟨k, hk, hkname⟩ := hnames j hj
    obtain ⟨plan, total, hname, hu⟩ := ht.each k hk
    exact ⟨plan, total, hname.trans hkname, Proceeds.underway hu h⟩
  have hsame : after.migrations = db.migrations → Tended after :=
    fun he => hkept fun j hj => ⟨j, he ▸ hj, rfl⟩
  cases h with
  | writes actions _ hwrites h =>
      refine hsame (Runs.relates (fun _ => True) (fun a b : Catalog => b.migrations = a.migrations)
        (fun _ _ _ _ => trivial) (fun _ => rfl) (fun _ _ _ hab hbc => hbc.trans hab)
        (fun _ _ _ h => Write.migrations_kept h) (transact_writes ht.settled.wf hwrites h) trivial)
  | begins plan _ h =>
      obtain ⟨job, h⟩ := map_snd_eq_ok (transact_single h).1
      refine ⟨hsettled, fun j hj => ?_⟩
      by_cases hname : j.name = plan.name
      · obtain ⟨_, total, hu, _⟩ := started_tended ht h
        exact ⟨plan, total, hname.symm, hu⟩
      · obtain ⟨mid, hinstalls, _, _, hstart⟩ := initializeJob_effect h
        have hmid : mid.migrations = db.migrations := by
          obtain ⟨_, _, _, rfl, _⟩ := hinstalls
          rfl
        have hold : j ∈ db.migrations := by
          rcases hstart with ⟨rfl, _⟩ | ⟨rfl, _⟩
          · exact hmid ▸ hj
          · rcases List.mem_append.mp hj with hj | hj
            · exact hmid ▸ hj
            · exact absurd (congrArg MigrationRow.name (List.mem_singleton.mp hj)) hname
        obtain ⟨other, total, hother, hu⟩ := ht.each j hold
        exact ⟨other, total, hother, (initializeJob_underway hu h).1⟩
  | moves plan batchSize _ _ h =>
      obtain ⟨_, h⟩ := map_snd_eq_ok (transact_single h).1
      exact hkept (batch_names h)
  | journaling schema prepared _ _ h _ =>
      obtain ⟨_, _, _, _, _, _, _⟩ := journal_effect h
      exact hsame rfl
  | recording job error _ h =>
      rcases recordCleanup_effect h with rfl | ⟨_, _, _, _, rfl, _⟩ <;> exact hsame rfl

theorem Orderly.tended (h : Orderly db) : Tended db :=
  Runs.invariant Tended (fun _ _ ht h => h.tended ht) h
    ⟨Catalog.empty_settled, by simp [Catalog.empty]⟩

-- run itself proceeds, whatever orderly calls commit between its batches.
theorem batches_proceed {limit : Option Int} {others : Nat → Catalog → Catalog}
    (hothers : ∀ k v, Runs.Run Proceeds v (others k v)) {fuel done : Nat} {job : MigrationRow}
    (hu : Underway plan total db) {result : Except Error MigrationRow}
    (h : batches plan batchSize limit others fuel done job db = some (result, after)) :
    Runs.Run Proceeds db after := by
  induction fuel generalizing done job db with
  | zero => cases h
  | succ fuel ih =>
      unfold batches at h
      split at h
      · have hother : Underway plan total (others done db) :=
          Runs.invariant (Underway plan total) (fun _ _ hu h => Proceeds.underway hu h) (hothers done db) hu
        split at h
        · obtain ⟨_, rfl⟩ := Prod.mk.inj (Option.some.inj h)
          exact hothers done db
        · rename_i next mid hbatch
          obtain ⟨j, hj⟩ := hother.job
          have hmatches : Matches plan (others done db) :=
            ⟨⟨j, hj.mem, hj.name, hj.schema, hj.source, hj.target⟩, hother.declared⟩
          have hstep : Proceeds (others done db) mid :=
            .moves plan batchSize mid hmatches (transact_of_transaction rfl hbatch)
          exact ((hothers done db).tail hstep).trans (ih (Proceeds.underway hother hstep) h)
      · obtain ⟨_, rfl⟩ := Prod.mk.inj (Option.some.inj h)
        exact .refl

theorem run_proceeds {size : Int} {maxBatches : Option Int} {dryRun : Bool} {others : Nat → Catalog → Catalog}
    {fuel : Nat} (hdb : Orderly db) (hothers : ∀ k v, Runs.Run Proceeds v (others k v))
    {result : Except Error Report} (h : run plan size maxBatches dryRun others fuel db = some (result, after)) :
    Orderly after := by
  unfold run at h
  split at h
  · exact (Prod.mk.inj (Option.some.inj h)).2 ▸ hdb
  · split at h
    · -- a dry run leaves the catalog it began with
      have hsame : after = db := by
        repeat' split at h
        all_goals first
          | exact (Prod.mk.inj (Option.some.inj h)).2.symm
          | cases h
      exact hsame ▸ hdb
    · split at h
      · exact (Prod.mk.inj (Option.some.inj h)).2 ▸ hdb
      · rename_i job started hstart
        have hstep : Proceeds db started := .begins plan started (transact_of_transaction rfl hstart)
        obtain ⟨_, _, hu, _⟩ := started_tended hdb.tended (transaction_eq_ok hstart).1
        split at h
        · cases h
        · rename_i raised final hrun
          obtain ⟨_, rfl⟩ := Prod.mk.inj (Option.some.inj h)
          exact (hdb.tail hstep).trans (batches_proceed hothers hu hrun)
        · rename_i last final hrun
          obtain ⟨_, rfl⟩ := Prod.mk.inj (Option.some.inj h)
          exact (hdb.tail hstep).trans (batches_proceed hothers hu hrun)

end Migrations

end MeldStore
