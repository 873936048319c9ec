import MeldStore.Store.Invariant

namespace MeldStore

open Library Library.Checked Library.Keyed

-- The SQL part of one store operation.
inductive Action
  | installSchema (schema : BlobSchema)
  | finalize (storage : String) (prepared : PreparedFile) (schema : BlobSchema)
      (metadata : BlobSchema.Metadata) (id : String)
  | publish (storage id : String)
  | create (storage : String) (call : Store.Creation) (prepared : PreparedFile)
  | updateMetadata (id : String) (schema : BlobSchema) (changes : BlobSchema.Metadata)
      (expectedVersion : Int)
  | delete (storage id : String) (expectedVersion : Int)
  | discardPrepared (storage : String) (prepared : PreparedFile)
  | initializeJob (plan : MetadataMigration)
  | batch (plan : MetadataMigration) (batchSize : Nat)
  | queueOrphans (storage : String) (keys : List String)

def Action.exec (db : Catalog) : Action → Except Error Catalog
  | installSchema schema => Store.installSchema schema db
  | finalize storage prepared schema metadata id =>
      (Store.finalize storage prepared schema metadata id db).map Prod.snd
  | publish storage id => (Store.publish storage id db).map Prod.snd
  | create storage call prepared => (Store.create storage call prepared db).map Prod.snd
  | updateMetadata id schema changes expectedVersion =>
      (Store.updateMetadata id schema changes expectedVersion db).map Prod.snd
  | delete storage id expectedVersion => (Lifecycle.delete storage id expectedVersion db).map Prod.snd
  | discardPrepared storage prepared => (Lifecycle.discard storage prepared db).map Prod.snd
  | initializeJob plan => (Migrations.initializeJob plan db).map Prod.snd
  | batch plan batchSize => (Migrations.batch plan batchSize db).map Prod.snd
  | queueOrphans storage keys => Maintenance.queueOrphans storage keys db

-- One transaction: its operations in order, then the check of COMMIT. A failure
-- anywhere rolls all of it back.
def transact (actions : List Action) (db : Catalog) : Except Error Catalog := do
  let after ← actions.foldlM Action.exec db
  require after.DeferredKeys foreignKeyFailed
  pure after

-- What one committed transaction does to the catalog: any operations together, the
-- journaling of one upload, or the recording of one cleanup outcome.
inductive Commit (db : Catalog) : Catalog → Prop
  | transaction (actions : List Action) (after : Catalog) (h : transact actions db = .ok after) :
      Commit db after
  | journaling (schema : BlobSchema) (prepared : PreparedFile) (after : Catalog)
      (hsealed : prepared.Sealed) (h : Store.journal db schema prepared = .ok after)
      (hkeys : after.DeferredKeys) : Commit db after
  | recording (job : GcRow) (error : Option String) (after : Catalog)
      (h : Maintenance.recordCleanup job error db = .ok after) : Commit db after

def Commits : Catalog → Catalog → Prop := Relation.ReflTransGen Commit

-- The committed states of a catalog that Store.install_schema sets up.
def Reachable (db : Catalog) : Prop := Commits Catalog.empty db

theorem map_snd_eq_ok {α β : Type*} {result : Except Error (α × β)} {after : β}
    (h : result.map Prod.snd = .ok after) : ∃ value, result = .ok (value, after) := by
  cases result with
  | error e => cases h
  | ok pair =>
      simp only [Except.map, Except.ok.injEq] at h
      exact ⟨pair.1, by rw [← h]⟩

theorem finalize_effects {db after : Catalog} {storage id : String} {prepared : PreparedFile}
    {schema : BlobSchema} {metadata : BlobSchema.Metadata} {r : Record}
    (h : Store.finalize storage prepared schema metadata id db = .ok (r, after)) : RowChanges db after := by
  rcases (finalize_effect h).2 with ⟨rfl, _⟩ | ⟨_, _, _, _, _, _, _, _, _, _, _, _, heffect⟩
  · exact .refl
  · exact .single heffect

theorem publish_effects {db after : Catalog} {storage id : String} {r : Record}
    (h : Store.publish storage id db = .ok (r, after)) : RowChanges db after := by
  rcases (publish_effect h).2 with ⟨rfl, _⟩ | ⟨_, _, _, _, _, heffect⟩
  · exact .refl
  · exact .single heffect

-- The last transaction of a creation finds the record, or creates and publishes it.
theorem create_effect {db after : Catalog} {storage : String} {call : Store.Creation}
    {prepared : PreparedFile} {r : Record}
    (h : Store.create storage call prepared db = .ok (r, after)) :
    (Store.retry storage call db = .ok (some r) ∧ after = db) ∨
      ∃ created mid, Store.retry storage call db = .ok none ∧
        Store.finalize storage prepared call.schema call.metadata call.id db = .ok (created, mid) ∧
        Store.publish storage call.id mid = .ok (r, after) := by
  simp only [Store.create, bind_eq_ok] at h
  obtain ⟨existing, hretry, h⟩ := h
  cases existing with
  | some found =>
      simp only [pure_eq_ok, Prod.mk.injEq] at h
      obtain ⟨rfl, rfl⟩ := h
      exact Or.inl ⟨hretry, rfl⟩
  | none =>
      simp only [bind_eq_ok] at h
      obtain ⟨⟨created, mid⟩, hfinalize, hpublish⟩ := h
      exact Or.inr ⟨created, mid, hretry, hfinalize, hpublish⟩

theorem create_effects {db after : Catalog} {storage : String} {call : Store.Creation}
    {prepared : PreparedFile} {r : Record}
    (h : Store.create storage call prepared db = .ok (r, after)) : RowChanges db after := by
  rcases create_effect h with ⟨_, rfl⟩ | ⟨_, _, _, hfinalize, hpublish⟩
  · exact .refl
  · exact (finalize_effects hfinalize).trans (publish_effects hpublish)

-- The operations of store.migrate, which runs outside any open transaction.
def Action.migrates : Action → Bool
  | initializeJob _ => true
  | batch _ _ => true
  | _ => false

def Action.installs : Action → Bool
  | installSchema _ => true
  | _ => false

-- The other operations change rows of blobs and cleanup jobs only.
theorem exec_rowChanges {db after : Catalog} {action : Action} (hw : db.Wf)
    (haction : action.migrates = false ∧ action.installs = false) (h : action.exec db = .ok after) :
    RowChanges db after := by
  cases action with
  | installSchema schema => cases haction.2
  | finalize storage prepared schema metadata id =>
      obtain ⟨_, h⟩ := map_snd_eq_ok h
      exact finalize_effects h
  | publish storage id =>
      obtain ⟨_, h⟩ := map_snd_eq_ok h
      exact publish_effects h
  | create storage call prepared =>
      obtain ⟨_, h⟩ := map_snd_eq_ok h
      exact create_effects h
  | updateMetadata id schema changes expectedVersion =>
      obtain ⟨_, h⟩ := map_snd_eq_ok h
      obtain ⟨_, _, _, _, _, _, _, _, hchange⟩ := updateMetadata_effect h
      exact .single hchange
  | delete storage id expectedVersion =>
      obtain ⟨_, h⟩ := map_snd_eq_ok h
      exact RowChanges.of_or ((delete_effect hw h).imp_right fun h => h.2.2)
  | discardPrepared storage prepared =>
      obtain ⟨_, h⟩ := map_snd_eq_ok h
      exact RowChanges.of_or ((discard_effect h).2.2.imp_right And.right)
  | initializeJob => cases haction.1
  | batch => cases haction.1
  | queueOrphans storage keys => exact queueOrphans_effects h

theorem exec_writes {db after : Catalog} {action : Action} (hw : db.Wf)
    (haction : action.migrates = false) (h : action.exec db = .ok after) : Writes db after := by
  cases hinstalls : action.installs with
  | false => exact (exec_rowChanges hw ⟨haction, hinstalls⟩ h).writes
  | true =>
      cases action with
      | installSchema schema =>
          obtain ⟨mid, hinstalls, rfl⟩ := installSchema_effects h
          refine .head (.installed schema mid hinstalls) ?_
          unfold Lifecycle.installSchema
          split
          · exact .refl
          · rename_i hfresh
            exact .single (.enrolled schema.name hfresh)
      | _ => cases hinstalls

theorem exec_effects {db after : Catalog} {action : Action} (hw : db.Wf)
    (h : action.exec db = .ok after) : Effects db after := by
  cases hmigrates : action.migrates with
  | false => exact (exec_writes hw hmigrates h).effects
  | true =>
      cases action with
      | initializeJob plan =>
          obtain ⟨_, h⟩ := map_snd_eq_ok h
          obtain ⟨mid, hinstalls, _, _, hstart⟩ := initializeJob_effect h
          refine (Effects.single (.installed plan.source mid hinstalls)).trans ?_
          rcases hstart with ⟨rfl, _⟩ | ⟨_, _, hstart⟩
          · exact .refl _
          · exact .single (.migration _ hstart)
      | batch plan batchSize =>
          obtain ⟨_, h⟩ := map_snd_eq_ok h
          exact (batch_effects h).effects
      | _ => cases hmigrates

theorem exec_wf {db after : Catalog} {action : Action} (hw : db.Wf)
    (h : action.exec db = .ok after) : after.Wf :=
  (exec_effects hw h).wf hw

theorem transact_effects {db after : Catalog} {actions : List Action} (hw : db.Wf)
    (h : transact actions db = .ok after) : Effects db after ∧ after.DeferredKeys := by
  simp only [transact, bind_eq_ok, require_eq_ok, pure_eq_ok] at h
  obtain ⟨_, hrun, _, hkeys, rfl⟩ := h
  refine ⟨?_, hkeys⟩
  refine (foldlM_invariant (fun mid => Effects db mid ∧ mid.Wf) _ actions db _ hrun ⟨.refl _, hw⟩ ?_).1
  rintro action _ before next ⟨heffects, hbefore⟩ hstep
  have hnext := exec_effects hbefore hstep
  exact ⟨heffects.trans hnext, hnext.wf hbefore⟩

theorem recordCleanup_changes {db after : Catalog} {job : GcRow} {error : Option String}
    (h : Maintenance.recordCleanup job error db = .ok after) : Changes db after := by
  rcases recordCleanup_effect h with rfl | ⟨_, _, _, _, _, hrecorded⟩
  · exact Relation.ReflTransGen.refl
  · exact Relation.ReflTransGen.single (.recorded hrecorded)

theorem Commit.changes {db after : Catalog} (hw : db.Wf) (h : Commit db after) : Changes db after := by
  cases h with
  | transaction actions _ h => exact (transact_effects hw h).1.changes
  | journaling schema prepared _ _ h _ =>
      exact Relation.ReflTransGen.single (.journaled prepared (journal_effect h))
  | recording job error _ h => exact recordCleanup_changes h

theorem Commits.changes {db after : Catalog} (hw : db.Wf) (h : Commits db after) : Changes db after :=
  Runs.relates Catalog.Wf Changes (fun _ _ hw h => (h.changes hw).wf hw)
    (fun _ => Relation.ReflTransGen.refl) (fun _ _ _ => Relation.ReflTransGen.trans)
    (fun _ _ hw h => h.changes hw) h hw

theorem Reachable.changes {db : Catalog} (h : Reachable db) : Changes Catalog.empty db :=
  Commits.changes Catalog.empty_wf h

theorem Reachable.wf {db : Catalog} (h : Reachable db) : db.Wf := h.changes.wf Catalog.empty_wf

-- A catalog with one published blob.

def note : BlobSchema :=
  { name := "note", version := 1, fields := [("title", ⟨.text, true, false⟩)], indexes := [],
    handlers := ["file"], validatorId := none, valid := by decide }

def draft : PreparedFile :=
  { token := "t1", storageId := "s", objectKey := "objects/0123456789abcdef0123456789abcdef", byteSize := 3,
    digest := "0123456789abcdef0123456789abcdef", hashAlgorithm := "xxh3_128", handlerId := "file",
    handlerVersion := 1, schemaName := "note", schemaVersion := 1, encoding := none }

def installed : Catalog := orElse (transact [.installSchema note] Catalog.empty) Catalog.empty

def journaled : Catalog := orElse (Store.journal installed note draft) installed

def published : Catalog :=
  orElse (transact [.finalize "s" draft note [("title", .str "a")] "b1", .publish "s" "b1"] journaled)
    journaled

theorem installed_reachable : Reachable installed :=
  .single (.transaction _ _ (orElse_of_isOk (by decide) _))

theorem journaled_reachable : Reachable journaled :=
  installed_reachable.tail (.journaling note draft _ (by decide) (orElse_of_isOk (by decide) _) (by decide))

theorem published_reachable : Reachable published :=
  journaled_reachable.tail (.transaction _ _ (orElse_of_isOk (by decide) _))

end MeldStore
