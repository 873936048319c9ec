import MeldStore.Migrations.Progress
import MeldStore.Readiness

namespace MeldStore

open Library Library.Checked Library.Keyed

def Action.plan? : Action → Option MetadataMigration
  | initializeJob plan => some plan
  | batch plan _ => some plan
  | _ => none

namespace Migrations

-- Runs of migrate calls and of everything else that commits meanwhile. A batch
-- that fails or is interrupted rolls back, and is no step.

-- One transaction, where the name of the plan stands for the plan alone. migrate
-- runs in transactions of its own.
inductive Migrates (plan : MetadataMigration) (db : Catalog) : Catalog → Prop
  | writes (actions : List Action) (after : Catalog)
      (hwrites : ∀ action ∈ actions, action.migrates = false)
      (h : transact actions db = .ok after) : Migrates plan db after
  | migrates (action : Action) (after : Catalog)
      (hplan : ∀ other ∈ action.plan?, other.name = plan.name → other = plan)
      (h : transact [action] db = .ok after) : Migrates plan db after
  | journaling (schema : BlobSchema) (prepared : PreparedFile) (after : Catalog)
      (h : Store.journal db schema prepared = .ok after) (hkeys : after.DeferredKeys) :
      Migrates plan db after
  | recording (job : GcRow) (error : Option String) (after : Catalog)
      (h : Maintenance.recordCleanup job error db = .ok after) : Migrates plan db after

variable {plan : MetadataMigration} {total : Nat} {db after : Catalog}

theorem transact_eq_ok {actions : List Action} (h : transact actions db = .ok after) :
    actions.foldlM Action.exec db = .ok after ∧ after.DeferredKeys := by
  simp only [transact, bind_eq_ok, require_eq_ok, pure_eq_ok] at h
  obtain ⟨_, hrun, _, hkeys, rfl⟩ := h
  exact ⟨hrun, hkeys⟩

theorem transact_single {action : Action} (h : transact [action] db = .ok after) :
    action.exec db = .ok after ∧ after.DeferredKeys := by
  obtain ⟨hrun, hkeys⟩ := transact_eq_ok h
  simp only [List.foldlM_cons, List.foldlM_nil, bind_eq_ok, pure_eq_ok] at hrun
  obtain ⟨_, hstep, rfl⟩ := hrun
  exact ⟨hstep, hkeys⟩

theorem transact_writes {actions : List Action} (hw : db.Wf)
    (hwrites : ∀ action ∈ actions, action.migrates = false) (h : transact actions db = .ok after) :
    Writes db after :=
  (foldlM_invariant (fun now => Writes db now ∧ now.Wf) _ actions db _ (transact_eq_ok h).1 ⟨.refl, hw⟩
    fun action haction before next hbefore hstep => by
      have hnext := exec_writes hbefore.2 (hwrites action haction) hstep
      exact ⟨hbefore.1.trans hnext, hnext.effects.wf hbefore.2⟩).1

theorem exec_underway {action : Action} (hu : Underway plan total db)
    (hplan : ∀ other ∈ action.plan?, other.name = plan.name → other = plan)
    (h : action.exec db = .ok after) : Underway plan total after ∧ Stepped plan db after := by
  cases hmigrates : action.migrates with
  | false =>
      obtain ⟨hafter, hpending⟩ := writes_underway hu (exec_writes hu.jobs.wf hmigrates h)
      exact ⟨hafter, stepped_of_eq hpending⟩
  | true =>
      cases action with
      | initializeJob other =>
          obtain ⟨_, h⟩ := map_snd_eq_ok h
          obtain ⟨hafter, hpending⟩ := initializeJob_underway hu h
          exact ⟨hafter, stepped_of_eq hpending⟩
      | batch other batchSize =>
          obtain ⟨_, h⟩ := map_snd_eq_ok h
          by_cases hname : other.name = plan.name
          · obtain rfl := hplan other rfl hname
            obtain ⟨hafter, hstepped, _⟩ := batch_underway hu h
            exact ⟨hafter, hstepped⟩
          · obtain ⟨hafter, hpending⟩ := batch_other_underway hu hname h
            exact ⟨hafter, stepped_of_eq hpending⟩
      | _ => cases hmigrates

-- What one step preserves.
theorem Migrates.underway (hu : Underway plan total db) (h : Migrates plan db after) :
    Underway plan total after ∧ Stepped plan db after := by
  cases h with
  | writes actions _ hwrites h =>
      obtain ⟨hafter, hpending⟩ := writes_underway hu (transact_writes hu.jobs.wf hwrites h)
      exact ⟨hafter, stepped_of_eq hpending⟩
  | migrates action _ hplan h => exact exec_underway hu hplan (transact_single h).1
  | journaling schema prepared _ h _ =>
      have hjobs := (Change.journaled prepared (journal_effect h)).jobs hu.jobs
      obtain ⟨_, _, _, _, _, _, _⟩ := journal_effect h
      exact ⟨hu.kept hjobs (fun _ hs => hs) (fun _ hj _ => hj) rfl, stepped_of_eq rfl⟩
  | recording job error _ h =>
      have hjobs := (recordCleanup_changes h).jobs hu.jobs
      rcases recordCleanup_effect h with rfl | ⟨_, _, _, _, rfl, _⟩
      · exact ⟨hu, stepped_of_eq rfl⟩
      · exact ⟨hu.kept hjobs (fun _ hs => hs) (fun _ hj _ => hj) rfl, stepped_of_eq rfl⟩

-- A row is transformed once in a run: it is pending up to one step, which moves it,
-- and no row of its id is pending after that.
def MovedOnce (plan : MetadataMigration) (m : MetaRow) (states : List Catalog) : Prop :=
  ∃ before s t later, states = before ++ s :: t :: later ∧ (∀ u ∈ before, m ∈ pending plan u) ∧
    m ∈ pending plan s ∧ Moves plan m s t ∧ ∀ u ∈ t :: later, ∀ n ∈ pending plan u, n.id ≠ m.id

theorem chain_underway {trace : List Catalog} (hu : Underway plan total db)
    (hrun : (db :: trace).IsChain (Migrates plan)) : ∀ u ∈ db :: trace, Underway plan total u ∧
      ∀ m ∈ pending plan u, m ∈ pending plan db := by
  induction trace generalizing db with
  | nil => simpa using hu
  | cons next rest ih =>
      obtain ⟨hstep, hrest⟩ := List.isChain_cons_cons.mp hrun
      obtain ⟨hnext, hstepped⟩ := hstep.underway hu
      intro u hmem
      rcases List.mem_cons.mp hmem with rfl | hmem
      · exact ⟨hu, fun _ hm => hm⟩
      · obtain ⟨hu', hback⟩ := ih hnext hrest u hmem
        exact ⟨hu', fun m hm => hstepped.back m (hback m hm)⟩

-- A moved row leaves no pending row of its id.
theorem Moves.gone (hw : after.Wf) (hback : ∀ m ∈ pending plan after, m ∈ pending plan db) (hwdb : db.Wf)
    {m : MetaRow} (hm : m ∈ pending plan db) (h : Moves plan m db after) :
    ∀ n ∈ pending plan after, n.id ≠ m.id := by
  intro n hn hid
  obtain ⟨_, _, _, ⟨m', hm', htable, hmid, _, _, hversion, _⟩, _⟩ := h
  have hsame := pending_eq hwdb (hback n hn) hm hid
  subst hsame
  have hn' := (mem_pending n).mp hn
  have he := hw.meta_eq hm' hn'.1 htable hmid
  rw [he, hn'.2.2] at hversion
  exact target_ne_source plan hversion.symm

theorem moved_once {trace : List Catalog} (hu : Underway plan total db)
    (hrun : (db :: trace).IsChain (Migrates plan)) {m : MetaRow} (hm : m ∈ pending plan db) :
    (∀ u ∈ db :: trace, m ∈ pending plan u) ∨ MovedOnce plan m (db :: trace) := by
  induction trace generalizing db with
  | nil => exact Or.inl (by simpa using hm)
  | cons next rest ih =>
      obtain ⟨hstep, hrest⟩ := List.isChain_cons_cons.mp hrun
      obtain ⟨hnext, hstepped⟩ := hstep.underway hu
      rcases hstepped.each m hm with hkept | hmoves
      · rcases ih hnext hrest hkept with hall | ⟨before, s, t, later, hsplit, hbefore, hs, hmoves, hgone⟩
        · left
          intro u hmem
          rcases List.mem_cons.mp hmem with rfl | hmem
          · exact hm
          · exact hall u hmem
        · right
          refine ⟨db :: before, s, t, later, by rw [hsplit, List.cons_append], ?_, hs, hmoves, hgone⟩
          intro u hmem
          rcases List.mem_cons.mp hmem with rfl | hmem
          · exact hm
          · exact hbefore u hmem
      · right
        have hgone := hmoves.gone hnext.jobs.wf hstepped.back hu.jobs.wf hm
        refine ⟨[], db, next, rest, rfl, by simp, hm, hmoves, fun u hmem n hn => ?_⟩
        exact hgone n ((chain_underway hnext hrest u hmem).2 n hn)

-- The start of a job

theorem transact_of_transaction {α : Type} {action : Action} {body : Catalog → Except Error (α × Catalog)}
    (haction : action.exec db = (body db).map Prod.snd) {value : α}
    (h : transaction body db = .ok (value, after)) : transact [action] db = .ok after := by
  obtain ⟨hbody, hkeys⟩ := transaction_eq_ok h
  simp [transact, haction, hbody, Except.map, hkeys, require, bind, Except.bind, pure, Except.pure]

-- A job under a new name counts every row of the source version, each with its blob.
structure Begun (plan : MetadataMigration) (db after : Catalog) : Prop where
  reachable : Reachable db
  fresh : ∀ j ∈ db.migrations, j.name ≠ plan.name
  started : ∃ job, transaction (initializeJob plan) db = .ok (job, after)

theorem started_underway {job : MigrationRow} (hjobs : db.Jobs)
    (hfresh : ∀ j ∈ db.migrations, j.name ≠ plan.name)
    (h : initializeJob plan db = .ok (job, after)) :
    Underway plan (pending plan after).length after ∧ pending plan after = pending plan db ∧
      ∀ b ∈ after.blobs, b.schemaName = plan.source.name → b.state = .ready := by
  obtain ⟨mid, hinstalls, _, hfound, hstart⟩ := initializeJob_effect h
  have hmidJobs := hinstalls.jobs hjobs
  have hkept : mid.metadata = db.metadata ∧ mid.migrations = db.migrations := by
    obtain ⟨_, _, _, rfl, _⟩ := hinstalls
    exact ⟨rfl, rfl⟩
  have hpending : pending plan mid = pending plan db := by
    simp only [pending, sourceRows, hkept.1]
  rcases hstart with ⟨rfl, _⟩ | ⟨rfl, hready, hchange⟩
  · have hname : job.name = plan.name := by simpa using List.find?_some hfound
    exact absurd hname (hfresh job (hkept.2 ▸ List.mem_of_find?_eq_some hfound))
  · refine ⟨⟨hchange.jobs hmidJobs, ?_, newJob plan mid, ?_⟩, hpending, hready⟩
    · refine mem_declarations.mpr ⟨_, List.mem_append_right _ (List.mem_singleton.mpr rfl), ?_, rfl⟩
      exact plan.sameSchema.symm
    · exact { mem := List.mem_append_right _ (List.mem_singleton.mpr rfl), name := rfl, schema := rfl,
              source := rfl, target := rfl, totals := rfl, counted := Nat.zero_add _,
              running := by simp [newJob], complete := by simp [newJob] }

theorem begun_blobs {b : BlobRow} (hbegun : Begun plan db after) (hb : b ∈ after.blobs)
    (hname : b.schemaName = plan.source.name) (hversion : b.schemaVersion = plan.source.version) :
    ∃ m ∈ pending plan after, m.id = .text b.id := by
  obtain ⟨job, hstarted⟩ := hbegun.started
  have hcommit : Commit db after :=
    .transaction [.initializeJob plan] after (transact_of_transaction rfl hstarted)
  have hguarded := Reachable.guarded (Relation.ReflTransGen.tail hbegun.reachable hcommit)
  obtain ⟨hrun, hkeys⟩ := transaction_eq_ok hstarted
  have hready := (started_underway hbegun.reachable.jobs hbegun.fresh hrun).2.2 b hb hname
  obtain ⟨o, p, m, hcomplete⟩ := hguarded.complete hkeys hb hready
  refine ⟨m, (mem_pending m).mpr ⟨hcomplete.metadata, hcomplete.metaTable.trans hname, ?_⟩, hcomplete.metaId⟩
  exact hcomplete.sameVersion.trans hversion

-- Termination: every batch but the last leaves fewer pending rows, and nothing else
-- that commits adds one.

theorem run_underway (hu : Underway plan total db) (h : Runs.Run (Migrates plan) db after) :
    Underway plan total after ∧ (pending plan after).length ≤ (pending plan db).length :=
  Runs.relates (Underway plan total) (fun a b => Underway plan total a →
      Underway plan total b ∧ (pending plan b).length ≤ (pending plan a).length)
    (fun _ _ hu h => (h.underway hu).1) (fun _ hu => ⟨hu, le_refl _⟩)
    (fun _ _ _ hab hbc hu => ⟨(hbc (hab hu).1).1, (hbc (hab hu).1).2.trans (hab hu).2⟩)
    (fun _ _ _ h hu => ⟨(h.underway hu).1, (h.underway hu).2.fewer⟩) h hu hu

theorem dryBatches_terminates (batchSize fuel : Nat) (job : MigrationRow)
    (hu : Underway plan total db) (hfuel : 1 ≤ fuel)
    (hjob : job.state = .complete ∨ (pending plan db).length + 2 ≤ fuel) :
    ∃ result, dryBatches plan batchSize fuel job db = some result := by
  induction fuel generalizing job db with
  | zero => omega
  | succ fuel ih =>
      unfold dryBatches
      split
      · exact ⟨_, rfl⟩
      · rename_i hrunning
        cases hbatch : batch plan batchSize db with
        | error raised => exact ⟨_, rfl⟩
        | ok result =>
            obtain ⟨next, mid⟩ := result
            obtain ⟨hmid, _, hprogress⟩ := batch_underway hu hbatch
            have hroom : (pending plan db).length + 2 ≤ fuel + 1 := hjob.resolve_left hrunning
            refine ih next hmid (by omega) (hprogress.imp_right fun hfewer => ?_)
            omega

theorem batches_terminate (batchSize : Nat) (limit : Option Int) {others : Nat → Catalog → Catalog}
    (hothers : ∀ k db, Runs.Run (Migrates plan) db (others k db)) (fuel done : Nat) (job : MigrationRow)
    (hu : Underway plan total db) (hmem : job ∈ db.migrations ∧ job.name = plan.name) (hfuel : 1 ≤ fuel)
    (hjob : job.state = .complete ∨ (pending plan db).length + 2 ≤ fuel) :
    ∃ result after, batches plan batchSize limit others fuel done job db = some (result, after) ∧
      Runs.Run (Migrates plan) db after ∧
      ∀ last, result = .ok last → last ∈ after.migrations ∧ last.name = plan.name ∧
        (limit = none → last.state = .complete) := by
  induction fuel generalizing done job db with
  | zero => omega
  | succ fuel ih =>
      unfold batches
      split
      · rename_i hcontinue
        obtain ⟨hother, hfewer⟩ := run_underway hu (hothers done db)
        cases hbatch : transaction (batch plan batchSize) (others done db) with
        | error raised => exact ⟨_, _, rfl, hothers done db, fun _ h => by cases h⟩
        | ok result =>
            obtain ⟨next, mid⟩ := result
            obtain ⟨hmid, _, hprogress⟩ := batch_underway hother (transaction_eq_ok hbatch).1
            obtain ⟨_, _, _, _, hnext⟩ := batch_effect (transaction_eq_ok hbatch).1
            have hstep : Migrates plan (others done db) mid :=
              .migrates (.batch plan batchSize) mid (fun _ h _ => (Option.some.inj h).symm)
                (transact_of_transaction rfl hbatch)
            have hroom : (pending plan db).length + 2 ≤ fuel + 1 := hjob.resolve_left hcontinue.1
            obtain ⟨result, after, hresult, hrun, hlast⟩ := ih (done + 1) next hmid hnext (by omega)
              (hprogress.imp_right fun hless => by omega)
            exact ⟨result, after, hresult, ((hothers done db).tail hstep).trans hrun, hlast⟩
      · rename_i hstop
        refine ⟨_, _, rfl, .refl, fun last h => ?_⟩
        obtain rfl := Except.ok.inj h
        refine ⟨hmem.1, hmem.2, fun hlimit => ?_⟩
        by_contra hrunning
        exact hstop ⟨hrunning, fun most hmost => by rw [hlimit] at hmost; cases hmost⟩

-- The loop of a dry run ends with a job that is complete.
theorem dryBatches_complete {batchSize : Nat} {fuel : Nat} {job last : MigrationRow} {after : Catalog}
    (h : dryBatches plan batchSize fuel job db = some (.ok (last, after))) : last.state = .complete := by
  induction fuel generalizing job db with
  | zero => cases h
  | succ fuel ih =>
      unfold dryBatches at h
      split_ifs at h with hcomplete
      · obtain ⟨rfl, -⟩ := Prod.mk.inj (Except.ok.inj (Option.some.inj h))
        exact hcomplete
      · cases hbatch : batch plan batchSize db with
        | error raised =>
            rw [hbatch] at h
            cases h
        | ok result =>
            rw [hbatch] at h
            exact ih h

-- A call of run: it returns, and what it commits is a run of the steps above. Without max_batches
-- it returns only when the job is complete.
structure Returns (plan : MetadataMigration) (maxBatches : Option Int) (dryRun : Bool) (db : Catalog)
    (result : Except Error Report) (after : Catalog) : Prop where
  steps : Runs.Run (Migrates plan) db after
  unchanged : dryRun = true → after = db
  job : ∀ report, result = .ok report → dryRun = false → report.job ∈ after.migrations ∧
    report.job.name = plan.name
  complete : ∀ report, result = .ok report → maxBatches = none → report.job.state = .complete

theorem run_returns {batchSize : Int} {maxBatches : Option Int} {dryRun : Bool}
    {others : Nat → Catalog → Catalog} {fuel : Nat}
    (hothers : ∀ k db, Runs.Run (Migrates plan) db (others k db)) (hfuel : db.metadata.length + 2 ≤ fuel)
    (hinit : ∀ job started, initializeJob plan db = .ok (job, started) →
      (∃ total, Underway plan total started) ∧ pending plan started = pending plan db) :
    ∃ result after, run plan batchSize maxBatches dryRun others fuel db = some (result, after) ∧
      Returns plan maxBatches dryRun db result after := by
  have hsame : ∀ raised, Returns plan maxBatches dryRun db (.error raised) db :=
    fun _ => ⟨.refl, fun _ => rfl, fun _ h => (by cases h), fun _ h => by cases h⟩
  have hlength : (pending plan db).length ≤ db.metadata.length := List.length_filter_le _ _
  unfold run
  cases arguments batchSize maxBatches dryRun with
  | error raised => exact ⟨_, _, rfl, hsame raised⟩
  | ok _ =>
    cases dryRun with
    | true =>
      simp only [if_true]
      cases hstart : initializeJob plan db with
      | error raised => exact ⟨_, _, rfl, hsame raised⟩
      | ok pair =>
        obtain ⟨job, started⟩ := pair
        obtain ⟨⟨total, hu⟩, hpending⟩ := hinit job started hstart
        obtain ⟨result, hresult⟩ := dryBatches_terminates batchSize.toNat fuel job hu (by omega)
          (Or.inr (by rw [hpending]; omega))
        simp only [hresult]
        cases result with
        | error raised => exact ⟨_, _, rfl, hsame raised⟩
        | ok last =>
          simp only
          split
          · refine ⟨_, _, rfl, .refl, fun _ => rfl, fun _ _ h => (by cases h), fun report h _ => ?_⟩
            rw [← Except.ok.inj h]
            exact dryBatches_complete hresult
          · exact ⟨_, _, rfl, hsame _⟩
    | false =>
      simp only [Bool.false_eq_true, if_false]
      cases hstart : transaction (initializeJob plan) db with
      | error raised => exact ⟨_, _, rfl, hsame raised⟩
      | ok pair =>
        obtain ⟨job, started⟩ := pair
        have hrun := (transaction_eq_ok hstart).1
        obtain ⟨⟨total, hu⟩, hpending⟩ := hinit job started hrun
        obtain ⟨_, _, _, hfound, _⟩ := initializeJob_effect hrun
        have hjob : job ∈ started.migrations ∧ job.name = plan.name :=
          ⟨List.mem_of_find?_eq_some hfound, by simpa using List.find?_some hfound⟩
        have hstep : Migrates plan db started :=
          .migrates (.initializeJob plan) started (fun _ h _ => (Option.some.inj h).symm)
            (transact_of_transaction rfl hstart)
        obtain ⟨result, after, hresult, hsteps, hlast⟩ := batches_terminate batchSize.toNat
          maxBatches hothers fuel 0 job hu hjob (by omega) (Or.inr (by rw [hpending]; omega))
        simp only [hresult]
        cases result with
        | error raised =>
          exact ⟨_, _, rfl, .head hstep hsteps, (nomatch ·), fun _ h => (by cases h), fun _ h => by cases h⟩
        | ok last =>
          obtain ⟨hin, hname, hcomplete⟩ := hlast last rfl
          refine ⟨_, _, rfl, .head hstep hsteps, (nomatch ·), fun report h _ => ?_, fun report h hlimit => ?_⟩
          · rw [← Except.ok.inj h]
            exact ⟨hin, hname⟩
          · rw [← Except.ok.inj h]
            exact hcomplete hlimit

-- Migration transforms every source row exactly once, in every run from the start of
-- its job.
theorem migration_is_exactly_once (plan : MetadataMigration) (before db : Catalog)
    (hbegun : Begun plan before db) (trace : List Catalog)
    (hrun : (db :: trace).IsChain (Migrates plan)) :
    (∀ b ∈ db.blobs, b.schemaName = plan.source.name → b.schemaVersion = plan.source.version →
      ∃ m ∈ pending plan db, m.id = .text b.id) ∧
    (∀ u ∈ db :: trace, u.steps = [] ∧ (∀ m ∈ pending plan u, m ∈ pending plan db) ∧
      ∀ j ∈ u.migrations, j.name = plan.name →
        j.totalRows = (pending plan db).length ∧ (j.state = .complete → j.migratedRows = j.totalRows) ∧
        (j.state = .running → ∀ batchSize, 0 < batchSize → selected u plan j.lastId batchSize = [] →
          pending plan u = [])) ∧
    (∀ last ∈ (db :: trace).getLast?, ∀ j ∈ last.migrations, j.name = plan.name →
      j.state = .complete → ∀ m ∈ pending plan db, MovedOnce plan m (db :: trace)) ∧
    ∀ u ∈ before :: db :: trace, ∀ batchSize maxBatches dryRun others fuel,
      (∀ k v, Runs.Run (Migrates plan) v (others k v)) → u.metadata.length + 2 ≤ fuel →
        ∃ result after, run plan batchSize maxBatches dryRun others fuel u = some (result, after) ∧
          Returns plan maxBatches dryRun u result after := by
  obtain ⟨job, hstarted⟩ := hbegun.started
  have hu : Underway plan (pending plan db).length db :=
    (started_underway hbegun.reachable.jobs hbegun.fresh (transaction_eq_ok hstarted).1).1
  have hall := chain_underway hu hrun
  refine ⟨fun b => begun_blobs hbegun, fun u hmem => ?_, fun last hlast j hj hname hcomplete m hm => ?_,
    fun u hmem batchSize maxBatches dryRun others fuel hothers hfuel => ?_⟩
  · obtain ⟨hunder, hback⟩ := hall u hmem
    refine ⟨hunder.jobs.wf.noSteps, hback, fun j hj hname => ?_⟩
    obtain ⟨counted, hcounted⟩ := hunder.job
    obtain rfl := hunder.only_job hcounted hj hname
    refine ⟨hcounted.totals, fun hcomplete => ?_, fun hrunning batchSize hsize hnone => ?_⟩
    · have hnumber := hcounted.counted
      rw [hcounted.complete hcomplete, List.length_nil] at hnumber
      rw [hcounted.totals]
      omega
    · exact selected_eq_nil hunder hcounted hrunning hsize hnone
  · obtain ⟨hunder, _⟩ := hall last (List.mem_of_getLast? hlast)
    obtain ⟨counted, hcounted⟩ := hunder.job
    obtain rfl := hunder.only_job hcounted hj hname
    refine (moved_once hu hrun hm).resolve_left fun hkept => ?_
    have hstill := hkept last (List.mem_of_getLast? hlast)
    rw [hcounted.complete hcomplete] at hstill
    cases hstill
  · refine run_returns hothers hfuel fun job started hinit => ?_
    rcases List.mem_cons.mp hmem with rfl | hmem
    · obtain ⟨hunder, hpending, _⟩ := started_underway hbegun.reachable.jobs hbegun.fresh hinit
      exact ⟨⟨_, hunder⟩, hpending⟩
    · obtain ⟨hunder, hpending⟩ := initializeJob_underway (hall u hmem).1 hinit
      exact ⟨⟨_, hunder⟩, hpending⟩

-- One note is migrated by one batch.

def starredNote : BlobSchema :=
  { name := "note", version := 2,
    fields := [("starred", ⟨.int64, false, false⟩), ("title", ⟨.text, true, false⟩)], indexes := [],
    handlers := ["file"], validatorId := none, valid := by decide }

def starring : MetadataMigration :=
  { name := "star", source := note, target := starredNote, transformId := "star",
    transform := fun inputs => .ok (inputs ++ [("starred", .int 1)]), validName := by decide,
    validTransformId := by decide, sameSchema := rfl, nextVersion := rfl, samePayload := by decide }

def begun : Catalog :=
  orElse ((transaction (initializeJob starring) published).map Prod.snd) published

def starred : Catalog := orElse (transact [.batch starring 10] begun) begun

theorem starring_begun : Begun starring published begun := by
  have hrun : (transaction (initializeJob starring) published).map Prod.snd = .ok begun :=
    orElse_of_isOk (by decide) _
  exact ⟨published_reachable, by decide, map_snd_eq_ok hrun⟩

theorem note_is_starred_once : ∃ m, m.id = .text "b1" ∧ MovedOnce starring m [begun, starred] := by
  have hstep : Migrates starring begun starred :=
    .migrates (.batch starring 10) starred (fun _ h _ => (Option.some.inj h).symm)
      (orElse_of_isOk (by decide) _)
  have hrun : (begun :: [starred]).IsChain (Migrates starring) := by simpa using hstep
  have hrow : ∃ m ∈ pending starring begun, m.id = .text "b1" := by decide
  have hdone : ∃ j ∈ starred.migrations, j.name = starring.name ∧ j.state = .complete := by decide
  obtain ⟨m, hm, hid⟩ := hrow
  obtain ⟨j, hj, hname, hcomplete⟩ := hdone
  obtain ⟨_, _, honce, _⟩ := migration_is_exactly_once starring published begun starring_begun [starred] hrun
  exact ⟨m, hid, honce starred rfl j hj hname hcomplete m hm⟩

end Migrations

end MeldStore
