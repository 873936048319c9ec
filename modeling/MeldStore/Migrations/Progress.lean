import MeldStore.Migrations.Batch

namespace MeldStore

open Library Library.Checked Library.Keyed

theorem mem_declarations {db : Catalog} {name : String} {schema : BlobSchema} :
    schema ∈ db.declarations name ↔ ∃ s ∈ db.schemas, s.name = name ∧ s.definition = schema := by
  simp only [Catalog.declarations, List.mem_map, List.mem_insertionSort, List.mem_filter,
    decide_eq_true_eq, and_assoc]

theorem declared_eq {db : Catalog} (hw : db.Wf) {name : String} {a b : BlobSchema}
    (ha : a ∈ db.declarations name)
    (hb : b ∈ db.declarations name) (hversion : a.version = b.version) : a = b := by
  obtain ⟨s, hs, hsname, rfl⟩ := mem_declarations.mp ha
  obtain ⟨t, ht, htname, rfl⟩ := mem_declarations.mp hb
  rw [(hw.schemaRow s hs).2, (hw.schemaRow t ht).2] at hversion
  rw [hw.schemaKey.eq_of_mem hs ht rfl (by rw [hversion, hsname, htname])]

theorem Catalog.Installed.mem_declarations {db : Catalog} {schema : BlobSchema} (h : db.Installed schema) :
    schema ∈ db.declarations schema.name := by
  obtain ⟨s, hfound, hdefinition⟩ := Option.map_eq_some_iff.mp h.declared
  obtain ⟨hmem, hname, _⟩ := mem_of_schema? hfound
  exact MeldStore.mem_declarations.mpr ⟨s, hmem, hname, hdefinition⟩

namespace Migrations

variable {plan : MetadataMigration} {total : Nat} {db after : Catalog}

-- The job of a plan counts the rows it moved, and keeps its checkpoint behind
-- every row that is still pending.
structure Counted (plan : MetadataMigration) (total : Nat) (db : Catalog) (j : MigrationRow) : Prop where
  mem : j ∈ db.migrations
  name : j.name = plan.name
  schema : j.schemaName = plan.source.name
  source : j.sourceVersion = plan.source.version
  target : j.targetVersion = plan.target.version
  totals : j.totalRows = total
  counted : j.migratedRows + (pending plan db).length = total
  running : j.state = .running → ∀ last ∈ j.lastId, ∀ m ∈ pending plan db, last < m.id
  complete : j.state = .complete → pending plan db = []

structure Underway (plan : MetadataMigration) (total : Nat) (db : Catalog) : Prop where
  jobs : db.Jobs
  declared : plan.target ∈ db.declarations plan.source.name
  job : ∃ j, Counted plan total db j

-- A change that leaves the pending rows and the job of the plan alone.
theorem Underway.kept (h : Underway plan total db) (hjobs : after.Jobs)
    (hschemas : ∀ s ∈ db.schemas, s ∈ after.schemas)
    (hmigrations : ∀ j ∈ db.migrations, j.name = plan.name → j ∈ after.migrations)
    (hpending : pending plan after = pending plan db) : Underway plan total after := by
  obtain ⟨j, hj⟩ := h.job
  refine ⟨hjobs, ?_, j, ?_⟩
  · obtain ⟨s, hs, hname, hdefinition⟩ := mem_declarations.mp h.declared
    exact mem_declarations.mpr ⟨s, hschemas s hs, hname, hdefinition⟩
  · exact { hj with
            mem := hmigrations j hj.mem hj.name,
            counted := by rw [hpending]; exact hj.counted,
            running := by rw [hpending]; exact hj.running,
            complete := by rw [hpending]; exact hj.complete }

-- New rows and edits are at the latest version, which is above the source.
theorem Underway.source_lt_latest (h : Underway plan total db) {latest : Int}
    (hlatest : db.IsLatest plan.source.name latest) : plan.source.version < latest := by
  obtain ⟨j, hj⟩ := h.job
  obtain ⟨_, hversions, other, hother, hbelow, _⟩ := h.jobs.between j hj.mem
  rw [hj.schema] at hother
  have hsame := hother.unique hlatest
  rw [hj.source] at hversions
  omega

theorem Underway.not_pending (h : Underway plan total db) {m : MetaRow}
    (hlatest : db.latestVersion m.table = some m.schemaVersion) :
    (decide (m.table = plan.source.name) && decide (m.schemaVersion = plan.source.version)) = false := by
  by_contra hne
  simp only [Bool.not_eq_false, Bool.and_eq_true, decide_eq_true_eq] at hne
  have hlt := h.source_lt_latest (hne.1 ▸ Catalog.latestVersion_isLatest h.jobs.wf hlatest)
  omega

theorem Underway.only_job (h : Underway plan total db) {j : MigrationRow} (hj : Counted plan total db j)
    {k : MigrationRow} (hk : k ∈ db.migrations) (hname : k.name = plan.name) : k = j :=
  h.jobs.wf.migrationName.eq_of_mem hk hj.mem rfl (by rw [hname, hj.name])

theorem installs_underway {schema : BlobSchema} (hu : Underway plan total db)
    (h : Installs db schema after) : Underway plan total after ∧ pending plan after = pending plan db := by
  have hjobs := h.jobs hu.jobs
  obtain ⟨schemas, _, _, rfl, _⟩ := h
  exact ⟨hu.kept hjobs (fun _ hs => List.mem_append_left _ hs) (fun _ hj _ => hj) rfl, rfl⟩

theorem rowChange_pending (hu : Underway plan total db) (h : RowChange db after) :
    pending plan after = pending plan db := by
  cases h with
  | finalized schema b m o p _ hlatest _ _ _ hmeta =>
      have hdrop := hu.not_pending (m := m) (by rw [hmeta.1, hmeta.2.2.1]; exact hlatest)
      simp [Migrations.pending, sourceRows, List.filter_append, hdrop]
  | published => rfl
  | edited schema old new hlatest hold htable hversion hnew =>
      have hlatest : db.latestVersion old.table = some old.schemaVersion := by
        rw [htable, hversion]
        exact hlatest
      refine filter_rewrite _ _ _ _ (fun m hm hkey => ?_) fun _ _ _ => ?_
      · rw [sameKey_iff] at hkey
        rw [hu.jobs.wf.meta_eq hm hold hkey.1 hkey.2]
        exact hu.not_pending hlatest
      · exact hu.not_pending (m := new) (by rw [hnew.1, hnew.2.2.1]; exact hlatest)
  | retired b o p m r g hcomplete _ _ hidle =>
      -- a running job of this schema refuses the retirement, a complete one has no rows left
      obtain ⟨j, hj⟩ := hu.job
      simp only [Migrations.pending, sourceRows, List.filter_filter]
      by_cases hschema : b.schemaName = plan.source.name
      · have hcomplete : j.state = .complete := by
          cases hstate : j.state with
          | complete => rfl
          | running => exact absurd ⟨hj.schema.trans hschema.symm, hstate⟩ (hidle j hj.mem)
        have hnone : db.metadata.filter (fun m => m.table = plan.source.name &&
            m.schemaVersion = plan.source.version) = [] := hj.complete hcomplete
        rw [hnone, List.filter_eq_nil_iff]
        intro n hn hkeep
        simp only [Bool.and_eq_true] at hkeep
        exact List.filter_eq_nil_iff.mp hnone n hn (by simpa using hkeep.1)
      · refine List.filter_congr fun n hn => ?_
        by_cases hkey : n.sameKey m = true
        · have htable : n.table ≠ plan.source.name := by
            rw [((sameKey_iff n m).mp hkey).1, hcomplete.metaTable]
            exact hschema
          simp [htable]
        · simp [hkey]
  | discarded => rfl
  | orphaned => rfl

theorem rowChange_underway (hu : Underway plan total db) (h : RowChange db after) :
    Underway plan total after ∧ pending plan after = pending plan db := by
  have hpending := rowChange_pending hu h
  obtain ⟨hmigrations, hschemas, hlayouts⟩ := h.migrations_kept
  have hjobs := (Effect.rows _ h).jobs hu.jobs
  refine ⟨hu.kept hjobs (fun s hs => hschemas ▸ hs) (fun j hj _ => hmigrations ▸ hj) hpending, hpending⟩

theorem write_underway (hu : Underway plan total db) (h : Write db after) :
    Underway plan total after ∧ pending plan after = pending plan db := by
  cases h with
  | installed schema _ h => exact installs_underway hu h
  | enrolled name hfresh =>
      have hjobs := (Effect.enrolled name hfresh).jobs hu.jobs
      exact ⟨hu.kept hjobs (fun _ hs => hs) (fun _ hj _ => hj) rfl, rfl⟩
  | rows _ h => exact rowChange_underway hu h

theorem writes_underway (hu : Underway plan total db) (h : Writes db after) :
    Underway plan total after ∧ pending plan after = pending plan db :=
  Runs.relates (Underway plan total) (fun a b => Underway plan total a →
      Underway plan total b ∧ pending plan b = pending plan a)
    (fun _ _ hu h => (write_underway hu h).1) (fun _ hu => ⟨hu, rfl⟩)
    (fun _ _ _ hab hbc hu => ⟨(hbc (hab hu).1).1, (hbc (hab hu).1).2.trans (hab hu).2⟩)
    (fun _ _ _ h hu => write_underway hu h) h hu hu

-- The start of another plan, or of this one again.
theorem initializeJob_underway {other : MetadataMigration} {job : MigrationRow}
    (hu : Underway plan total db) (h : initializeJob other db = .ok (job, after)) :
    Underway plan total after ∧ pending plan after = pending plan db := by
  obtain ⟨mid, hinstalls, _, _, hstart⟩ := initializeJob_effect h
  obtain ⟨humid, hpending⟩ := installs_underway hu hinstalls
  rcases hstart with ⟨rfl, _⟩ | ⟨rfl, _, hchange⟩
  · exact ⟨humid, hpending⟩
  · have hjobs := hchange.jobs humid.jobs
    exact ⟨humid.kept hjobs (fun _ hs => List.mem_append_left _ hs)
      (fun _ hj _ => List.mem_append_left _ hj) rfl, hpending⟩

-- Rows of another plan: its running job is at another schema, or ours is over.
theorem moved_underway {other : MetadataMigration} {row : MetaRow} (hu : Underway plan total db)
    (hname : other.name ≠ plan.name) (h : migrateRow other db row = .ok after) :
    Underway plan total after ∧ pending plan after = pending plan db := by
  obtain ⟨_, b, old, new, _, hold, htable, _, hversion, _, _, _, _, hnew, ⟨k, hk, hkname, hkrunning, hkschema,
    hksource, hktarget⟩, rfl, hchange⟩ := migrateRow_effect h
  have hjobs := hchange.jobs hu.jobs
  obtain ⟨j, hj⟩ := hu.job
  have hne : k ≠ j := by
    rintro rfl
    exact hname (hkname.symm.trans hj.name)
  have hpending : (rewrite (fun m => m.sameKey old) (fun _ => new) db.metadata).filter
      (fun m => m.table = plan.source.name && m.schemaVersion = plan.source.version) =
      pending plan db := by
    refine filter_rewrite _ _ _ _ (fun m hm hkey => ?_) fun _ _ _ => ?_
    · rw [sameKey_iff] at hkey
      rw [hu.jobs.wf.meta_eq hm hold hkey.1 hkey.2]
      by_contra hkeep
      simp only [Bool.not_eq_false, Bool.and_eq_true, decide_eq_true_eq] at hkeep
      cases hstate : j.state with
      | running =>
          exact hne (hu.jobs.oneRunning k hk j hj.mem
            (hkschema.trans (hkeep.1.trans hj.schema.symm)) hkrunning hstate)
      | complete =>
          have hmem : old ∈ pending plan db := (mem_pending old).mpr ⟨hold, hkeep⟩
          rw [hj.complete hstate] at hmem
          cases hmem
    · by_contra hkeep
      simp only [Bool.not_eq_false, Bool.and_eq_true, decide_eq_true_eq] at hkeep
      obtain ⟨_, _, latest, hlatest, _, htarget⟩ := hu.jobs.between k hk
      rw [hkschema, ← hnew.1, hkeep.1] at hlatest
      have hlt := hu.source_lt_latest hlatest
      have := htarget hkrunning
      omega
  exact ⟨hu.kept hjobs (fun _ hs => hs) (fun _ hj _ => hj) hpending, hpending⟩

-- What a batch that returns has done.
inductive BatchEffect (plan : MetadataMigration) (batchSize : Nat) (db : Catalog) (start : MigrationRow) :
    Catalog → Prop
  | complete (h : start.state = .complete) : BatchEffect plan batchSize db start db
  | moved (mid : Catalog) (hrunning : start.state = .running)
      (hmoved : (selected db plan start.lastId batchSize).foldlM (migrateRow plan) db = .ok mid)
      (hguard : sourceRows mid plan.source.name plan.source.version ≠ [] →
        selected db plan start.lastId batchSize ≠ []) :
      BatchEffect plan batchSize db start (updateMigration mid plan.name
        (selected db plan start.lastId batchSize).length
        (((selected db plan start.lastId batchSize).getLast?.map fun m => m.id).orElse fun _ => start.lastId)
        (if sourceRows mid plan.source.name plan.source.version ≠ [] then .running else .complete))

theorem batch_effect {batchSize : Nat} {job : MigrationRow}
    (h : batch plan batchSize db = .ok (job, after)) :
    ∃ start ∈ db.migrations, start.name = plan.name ∧ BatchEffect plan batchSize db start after ∧
      job ∈ after.migrations ∧ job.name = plan.name := by
  simp only [batch, bind_eq_ok] at h
  obtain ⟨start, hstatus, h⟩ := h
  simp only [status, fromOption_eq_ok] at hstatus
  have hmem := List.mem_of_find?_eq_some hstatus
  have hname : start.name = plan.name := by simpa using List.find?_some hstatus
  split at h
  · rename_i hcomplete
    simp only [pure_eq_ok, Prod.mk.injEq] at h
    obtain ⟨rfl, rfl⟩ := h
    exact ⟨start, hmem, hname, .complete hcomplete, hmem, hname⟩
  · rename_i hrunning
    simp only [bind_eq_ok, require_eq_ok, pure_eq_ok, Prod.mk.injEq] at h
    obtain ⟨_, _, mid, hloop, _, hguard, found, hfound, rfl, rfl⟩ := h
    simp only [status, fromOption_eq_ok] at hfound
    refine ⟨start, hmem, hname, .moved mid ?_ hloop ?_, List.mem_of_find?_eq_some hfound,
      by simpa using List.find?_some hfound⟩
    · cases hstate : start.state with
      | running => rfl
      | complete => exact absurd hstate hrunning
    · intro hremaining hnone
      exact hguard ⟨hremaining, hnone⟩

theorem migrationChanges_jobs (hj : db.Jobs) (h : MigrationChanges db after) : after.Jobs :=
  Runs.invariant Catalog.Jobs (fun _ _ hj h => h.jobs hj) h hj

-- A batch of another plan.
theorem batch_other_underway {other : MetadataMigration} {batchSize : Nat} {job : MigrationRow}
    (hu : Underway plan total db) (hname : other.name ≠ plan.name)
    (h : batch other batchSize db = .ok (job, after)) :
    Underway plan total after ∧ pending plan after = pending plan db := by
  have hchanges := batch_effects h
  obtain ⟨start, _, _, heffect, _⟩ := batch_effect h
  cases heffect with
  | complete => exact ⟨hu, rfl⟩
  | moved mid hrunning hmoved hguard =>
      obtain ⟨humid, hpending⟩ := foldlM_invariant
        (fun now => Underway plan total now ∧ pending plan now = pending plan db) _ _ db mid hmoved
        ⟨hu, rfl⟩ fun row _ before next hbefore hstep => by
          obtain ⟨hnext, hsame⟩ := moved_underway hbefore.1 hname hstep
          exact ⟨hnext, hsame.trans hbefore.2⟩
      refine ⟨humid.kept (migrationChanges_jobs hu.jobs hchanges) (fun _ hs => hs) (fun j hj hjname => ?_) rfl,
        hpending⟩
      refine (mem_rewrite _ _ _ _).mpr (Or.inl ⟨hj, ?_⟩)
      rw [hjname]
      simpa using Ne.symm hname

-- What every step leaves of the pending rows.
structure Stepped (plan : MetadataMigration) (db after : Catalog) : Prop where
  back : ∀ m ∈ pending plan after, m ∈ pending plan db
  each : ∀ m ∈ pending plan db, m ∈ pending plan after ∨ Moves plan m db after
  fewer : (pending plan after).length ≤ (pending plan db).length

theorem stepped_of_eq (h : pending plan after = pending plan db) : Stepped plan db after :=
  ⟨fun _ hm => h ▸ hm, fun _ hm => Or.inl (h.symm ▸ hm), le_of_eq (congrArg List.length h)⟩

-- A batch of the plan moves the rows it selects, and counts them.
theorem batch_underway {batchSize : Nat} {job : MigrationRow} (hu : Underway plan total db)
    (h : batch plan batchSize db = .ok (job, after)) :
    Underway plan total after ∧ Stepped plan db after ∧
      (job.state = .complete ∨ (pending plan after).length < (pending plan db).length) := by
  have hjobs := migrationChanges_jobs hu.jobs (batch_effects h)
  obtain ⟨start, hstart, hname, heffect, hjob, hjobName⟩ := batch_effect h
  obtain ⟨j, hj⟩ := hu.job
  obtain rfl := hu.only_job hj hstart hname
  cases heffect with
  | complete hcomplete =>
      obtain rfl := hu.only_job hj hjob hjobName
      exact ⟨hu, stepped_of_eq rfl, Or.inl hcomplete⟩
  | moved mid hrunning hmoved hguard =>
      obtain ⟨rest, hperm, hkept, hfurther⟩ :=
        selected_split hu.jobs.wf batchSize (hj.running hrunning)
      obtain ⟨rows, hrows⟩ : ∃ rows, rows = selected db plan start.lastId batchSize := ⟨_, rfl⟩
      rw [← hrows] at hperm hkept hfurther hmoved hguard hjob hjobs ⊢
      have hmem : ∀ row ∈ rows, row ∈ pending plan db :=
        fun row hrow => hperm.mem_iff.mpr (List.mem_append_left _ hrow)
      have hdistinct : rows.Pairwise fun a b => a.sameKey b = false ∧ b.sameKey a = false :=
        hrows ▸ selected_distinct hu.jobs.wf batchSize
      have hall := migrateRows_moves rows hu.jobs.wf hu.declared hmem hdistinct hmoved
      have hleft : (pending plan mid).Perm rest := by
        rw [hall.pending]
        exact hkept
      have hcount : (pending plan db).length = rows.length + (pending plan mid).length := by
        rw [hperm.length_eq, List.length_append, hleft.length_eq]
      refine ⟨⟨hjobs, ?_, ?_⟩, ⟨?_, ?_, ?_⟩, ?_⟩
      · obtain ⟨s, hs, hsname, hdefinition⟩ := mem_declarations.mp hu.declared
        exact mem_declarations.mpr ⟨s, hall.schemas ▸ hs, hsname, hdefinition⟩
      · refine ⟨_, { hj with
          mem := (mem_rewrite _ _ _ _).mpr (Or.inr ⟨start, hall.migrations ▸ hj.mem, ?_, rfl⟩),
          counted := ?_, running := fun _ => ?_, complete := ?_ }⟩
        · simpa using hj.name
        · have hbefore := hj.counted
          rw [hcount] at hbefore
          show start.migratedRows + rows.length + (pending plan mid).length = total
          omega
        · -- the checkpoint is the last row moved, or stays where it was
          intro last hlast m hm
          have hm : m ∈ pending plan mid := hm
          cases hgot : rows.getLast? with
          | some row =>
              simp only [hgot, Option.map_some, Option.orElse_some, Option.mem_def,
                Option.some.injEq] at hlast
              rw [← hlast]
              exact hfurther row hgot m (hleft.mem_iff.mp hm)
          | none =>
              simp only [hgot, Option.map_none, Option.orElse_none] at hlast
              rw [hall.pending] at hm
              exact hj.running hrunning last hlast m (List.mem_filter.mp hm).1
        · intro hstate
          by_contra hsome
          have hremaining : sourceRows mid plan.source.name plan.source.version ≠ [] := hsome
          rw [if_pos hremaining] at hstate
          cases hstate
      · intro m hm
        have hm : m ∈ pending plan mid := hm
        rw [hall.pending] at hm
        exact (List.mem_filter.mp hm).1
      · intro m hm
        rcases List.mem_append.mp (hperm.mem_iff.mp hm) with hrow | hrest
        · exact Or.inr (hall.moves m hrow)
        · exact Or.inl (hleft.mem_iff.mpr hrest)
      · show (pending plan mid).length ≤ _
        omega
      · by_cases hremaining : sourceRows mid plan.source.name plan.source.version ≠ []
        · right
          have hsome : rows ≠ [] := hguard hremaining
          have := List.length_pos_of_ne_nil hsome
          show (pending plan mid).length < _
          omega
        · left
          rcases (mem_rewrite _ _ _ _).mp hjob with ⟨_, hother⟩ | ⟨_, _, _, rfl⟩
          · simp [hjobName] at hother
          · rw [if_neg hremaining]

-- No source row is ever behind the checkpoint.
theorem selected_eq_nil {batchSize : Nat} (hu : Underway plan total db) {j : MigrationRow}
    (hj : Counted plan total db j) (hrunning : j.state = .running) (hsize : 0 < batchSize)
    (hnone : selected db plan j.lastId batchSize = []) : pending plan db = [] := by
  obtain ⟨rest, hperm, _, _⟩ := selected_split hu.jobs.wf batchSize (hj.running hrunning)
  have hlength := hperm.length_eq
  rw [hnone, List.nil_append] at hlength
  have hahead : ((pending plan db).filter fun m => ∀ last ∈ j.lastId, last < m.id) = pending plan db :=
    List.filter_eq_self.mpr fun m hm => decide_eq_true fun last hlast => hj.running hrunning last hlast m hm
  have htake := congrArg List.length hnone
  rw [selected, hahead, List.length_take, List.length_insertionSort, List.length_nil] at htake
  exact List.eq_nil_of_length_eq_zero (by omega)

end Migrations

end MeldStore
