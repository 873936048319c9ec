import MeldStore.Readiness
import MeldStore.Tokens
import MeldStore.Migrations.Jobs

namespace MeldStore

open Library Library.Checked Library.Keyed

theorem readsBack_eq_true {descriptor : String} (h : readsBack descriptor = true) :
    ∃ tree, loadsDescriptor (.text descriptor) = .ok tree ∧ tree.equal tree = true := by
  unfold readsBack at h
  split at h
  · rename_i tree htree
    exact ⟨tree, htree, h⟩
  · cases h

-- What holds of every committed catalog of a store: all of its blobs are complete,
-- also the unpublished ones, and all descriptors can be read.
structure Catalog.Settled (db : Catalog) : Prop where
  ledger : db.Ledger
  guarded : db.Guarded
  jobs : db.Jobs
  keys : db.DeferredKeys
  backed : ∀ b ∈ db.blobs, db.Backed b
  decodable : ∀ e ∈ db.encodings, (loadsDescriptor e.descriptor).isOk = true

namespace Catalog

theorem empty_settled : Catalog.empty.Settled :=
  { ledger := empty_ledger, guarded := empty_guarded, jobs := empty_jobs, keys := by decide,
    backed := by simp [empty], decodable := by simp [empty] }

variable {db : Catalog}

theorem Settled.wf (hs : db.Settled) : db.Wf := hs.ledger.wf

theorem Settled.complete (hs : db.Settled) {b : BlobRow} (hb : b ∈ db.blobs) :
    ∃ o p m, db.Complete b.id b o p m :=
  (hs.backed b hb).complete hs.wf hs.keys hb

end Catalog

theorem Effect.backed {db after : Catalog} (hg : db.Guarded) (hb : ∀ b ∈ db.blobs, db.Backed b)
    (h : Effect db after) : ∀ b ∈ after.blobs, after.Backed b := by
  have hcarried : ∀ b' ∈ after.blobs, db.Carries after b' → after.Backed b' := by
    rintro b' _ (hbacked | ⟨b, hmem, hmono, _⟩)
    · exact hbacked
    · exact hmono (hb b hmem)
  cases h with
  | installed schema _ h =>
      obtain ⟨_, _, _, rfl, _⟩ := h
      exact hb
  | enrolled => exact hb
  | rows _ h => exact fun b' hb' => hcarried b' hb' (h.carries hg b' hb')
  | migration _ h => exact fun b' hb' => hcarried b' hb' (h.carries hg b' hb')

theorem Effect.encodings_kept {db after : Catalog} (h : Effect db after) :
    after.encodings = db.encodings := by
  cases h with
  | installed schema _ h =>
      obtain ⟨_, _, _, rfl, _⟩ := h
      rfl
  | enrolled => rfl
  | rows _ h => cases h <;> rfl
  | migration _ h => cases h <;> rfl

theorem Effects.encodings_kept {db after : Catalog} (h : Effects db after) :
    after.encodings = db.encodings :=
  Runs.relates (fun _ => True) (fun a b : Catalog => b.encodings = a.encodings) (fun _ _ _ _ => trivial)
    (fun _ => rfl) (fun _ _ _ hab hbc => hbc.trans hab) (fun _ _ _ h => h.encodings_kept) h trivial

theorem Effects.backed {db after : Catalog} (hg : db.Guarded) (hb : ∀ b ∈ db.blobs, db.Backed b)
    (h : Effects db after) : ∀ b ∈ after.blobs, after.Backed b :=
  (Runs.invariant (fun db : Catalog => db.Guarded ∧ ∀ b ∈ db.blobs, db.Backed b)
    (fun _ _ hs h => ⟨h.guarded hs.1, h.backed hs.1 hs.2⟩) h ⟨hg, hb⟩).2

theorem Journaled.backed {db after : Catalog} {prepared : PreparedFile} (hb : ∀ b ∈ db.blobs, db.Backed b)
    (h : Journaled db prepared after) : ∀ b ∈ after.blobs, after.Backed b := by
  obtain ⟨_, _, _, _, _, _, _⟩ := h
  intro b hmem
  exact (hb b hmem).mono rfl rfl (fun m hm _ _ => ⟨m, hm, rfl, rfl, le_refl _⟩) (fun _ ho _ => ho)
    fun _ hp _ => List.mem_append_left _ hp

theorem Commit.settled {db after : Catalog} (hs : db.Settled) (h : Commit db after) : after.Settled := by
  have hchanges := h.changes hs.wf
  have hledger := hchanges.ledger hs.ledger
  have hguarded : after.Guarded := Runs.invariant Catalog.Guarded (fun _ _ hg h => h.guarded hg) hchanges
    hs.guarded
  have hjobs := hchanges.jobs hs.jobs
  cases h with
  | transaction actions _ h =>
      obtain ⟨heffects, hkeys⟩ := transact_effects hs.wf h
      exact ⟨hledger, hguarded, hjobs, hkeys, heffects.backed hs.guarded hs.backed,
        heffects.encodings_kept ▸ hs.decodable⟩
  | journaling schema prepared _ hsealed h hkeys =>
      have hjournaled := journal_effect h
      refine ⟨hledger, hguarded, hjobs, hkeys, hjournaled.backed hs.backed, ?_⟩
      obtain ⟨_, _, _, _, _, _, _⟩ := hjournaled
      intro e he
      rcases List.mem_append.mp he with he | he
      · exact hs.decodable e he
      · simp only [Encodings.logical, Option.mem_toList, Option.map_eq_some_iff] at he
        obtain ⟨sealed, hsome, rfl⟩ := he
        obtain ⟨tree, htree, _⟩ := readsBack_eq_true (hsealed.2 sealed hsome)
        rw [htree]
        rfl
  | recording job error _ h =>
      rcases recordCleanup_effect h with rfl | ⟨_, _, _, _, rfl, _⟩
      · exact hs
      · exact ⟨hledger, hguarded, hjobs, hs.keys, hs.backed, hs.decodable⟩

theorem Commits.settled {db after : Catalog} (hs : db.Settled) (h : Commits db after) : after.Settled :=
  Runs.invariant Catalog.Settled (fun _ _ hs h => h.settled hs) h hs

theorem Reachable.settled {db : Catalog} (h : Reachable db) : db.Settled :=
  Commits.settled Catalog.empty_settled h

-- A complete blob has a record, where the descriptors can be read.
theorem Catalog.Complete.record {db : Catalog} (hw : db.Wf)
    (hdecodable : ∀ e ∈ db.encodings, (loadsDescriptor e.descriptor).isOk = true) {b : BlobRow} {o : ObjectRow}
    {p : PreparedRow} {m : MetaRow} (hc : db.Complete b.id b o p m) {readyOnly : Bool}
    (hready : readyOnly = true → b.state = .ready) : ∃ r, Store.record db b.id readyOnly = .ok r := by
  obtain ⟨s, hdeclared⟩ : ∃ s, db.schema? b.schemaName b.schemaVersion = some s := by
    obtain ⟨s, hmem, hname, hversion⟩ := hw.blobDeclared b hc.blob
    exact Option.isSome_iff_exists.mp (List.find?_isSome.mpr ⟨s, hmem, decide_eq_true ⟨hname, hversion⟩⟩)
  cases hread : Encodings.read db p.token with
  | none =>
      simp [Store.record, hc.find_blob hw hready, hc.find_association hw, hc.find_meta hw,
        fromOption, require, hc.sameSchema, hc.notAbove, hc.sameVersion, hdeclared, hread, bind,
        Except.bind, pure, Except.pure]
  | some e =>
      obtain ⟨tree, htree⟩ := exists_of_isOk (hdecodable e (List.mem_of_find?_eq_some hread))
      simp [Store.record, hc.find_blob hw hready, hc.find_association hw, hc.find_meta hw,
        fromOption, require, hc.sameSchema, hc.notAbove, hc.sameVersion, hdeclared, hread, htree, bind,
        Except.bind, pure, Except.pure]

theorem Catalog.Settled.record {db : Catalog} (hs : db.Settled) {b : BlobRow} {o : ObjectRow}
    {p : PreparedRow} {m : MetaRow} (hc : db.Complete b.id b o p m) {readyOnly : Bool}
    (hready : readyOnly = true → b.state = .ready) :
    ∃ r, Store.record db b.id readyOnly = .ok r ∧ db.Shows r b p m := by
  obtain ⟨r, hr⟩ := hc.record hs.wf hs.decodable hready
  obtain ⟨b', o', p', m', hc', hshows, _⟩ := record_shows hr
  obtain rfl := hs.wf.blob_eq hc'.blob hc.blob (hc'.blobId.trans hc.blobId.symm)
  have ho := hs.wf.object_eq hc'.object hc.object (hc'.objectBlob.trans hc.objectBlob.symm)
  obtain rfl := hs.wf.prepared_eq hc'.prepared hc.prepared
    (by rw [hc'.preparedToken, hc.preparedToken, ho])
  obtain rfl := hs.wf.meta_eq hc'.metadata hc.metadata (hc'.metaTable.trans hc.metaTable.symm)
    (hc'.metaId.trans hc.metaId.symm)
  exact ⟨r, hr, hshows⟩

-- Reading the same rows again

theorem Effect.schemas_mono {db after : Catalog} (h : Effect db after) {s : SchemaRow}
    (hs : s ∈ db.schemas) : s ∈ after.schemas := by
  cases h with
  | installed schema _ h =>
      obtain ⟨_, _, _, rfl, _⟩ := h
      exact List.mem_append_left _ hs
  | enrolled => exact hs
  | rows _ h => cases h <;> exact hs
  | migration _ h =>
      cases h with
      | initialized => exact List.mem_append_left _ hs
      | moved => exact hs
      | progressed => exact hs

theorem Change.schemas_mono {db after : Catalog} (h : Change db after) {s : SchemaRow}
    (hs : s ∈ db.schemas) : s ∈ after.schemas := by
  rcases h with h | ⟨_, _, _, _, _, _, _, _⟩ | ⟨_, _, _, _, _⟩
  · exact h.schemas_mono hs
  · exact hs
  · exact hs

theorem Changes.schemas_mono {db after : Catalog} (h : Changes db after) {s : SchemaRow}
    (hs : s ∈ db.schemas) : s ∈ after.schemas :=
  Runs.invariant (fun db : Catalog => s ∈ db.schemas) (fun _ _ hs h => h.schemas_mono hs) h hs

theorem schema?_kept {db after : Catalog} (hw : after.Wf) (hmono : ∀ s ∈ db.schemas, s ∈ after.schemas)
    {name : String} {version : Int} {s : SchemaRow} (h : db.schema? name version = some s) :
    after.schema? name version = some s := by
  obtain ⟨hs, hname, hversion⟩ := mem_of_schema? h
  refine hw.schemaKey.find?_eq_some (hmono s hs) rfl _ (decide_eq_true ⟨hname, hversion⟩)
    fun other _ hselect => ?_
  have hselect := of_decide_eq_true hselect
  rw [hselect.1, hselect.2, hname, hversion]

-- Two records of the same rows are one.
theorem Catalog.Shows.unique {db after : Catalog} {r r' : Record} {b : BlobRow} {p : PreparedRow}
    {m : MetaRow} (h : db.Shows r b p m) (h' : after.Shows r' b p m)
    (hschema : ∀ s, db.schema? b.schemaName b.schemaVersion = some s →
      after.schema? b.schemaName b.schemaVersion = some s)
    (hread : Encodings.read after p.token = Encodings.read db p.token) : r' = r := by
  obtain ⟨s, hs, hmetadata⟩ := h.metadata
  obtain ⟨s', hs', hmetadata'⟩ := h'.metadata
  have hsame : s' = s := Option.some.inj (hs'.symm.trans (hschema s hs))
  have hlogical : r'.handlerId = r.handlerId ∧ r'.handlerVersion = r.handlerVersion ∧
      r'.descriptor = r.descriptor := by
    cases he : Encodings.read db p.token with
    | none =>
        obtain ⟨hid, hversion, hdescriptor⟩ := h.passthrough he
        obtain ⟨hid', hversion', hdescriptor'⟩ := h'.passthrough (hread.trans he)
        exact ⟨hid'.trans hid.symm, hversion'.trans hversion.symm, hdescriptor'.trans hdescriptor.symm⟩
    | some e =>
        obtain ⟨hid, hversion, tree, htree, hdescriptor⟩ := h.encoded e he
        obtain ⟨hid', hversion', tree', htree', hdescriptor'⟩ := h'.encoded e (hread.trans he)
        have hsameTree : tree' = tree := Except.ok.inj (htree'.symm.trans htree)
        refine ⟨hid'.trans hid.symm, hversion'.trans hversion.symm, ?_⟩
        rw [hdescriptor', hdescriptor, hsameTree]
  have hfields : r'.metadata = r.metadata := by rw [hmetadata', hmetadata, hsame]
  cases r
  cases r'
  simp only [Record.mk.injEq]
  exact ⟨h'.id.trans h.id.symm, h'.schemaName.trans h.schemaName.symm,
    h'.schemaVersion.trans h.schemaVersion.symm, h'.state.trans h.state.symm, h'.token.trans h.token.symm,
    h'.storageId.trans h.storageId.symm, h'.objectKey.trans h.objectKey.symm,
    h'.byteSize.trans h.byteSize.symm, h'.digest.trans h.digest.symm,
    h'.hashAlgorithm.trans h.hashAlgorithm.symm, hlogical.1, hlogical.2.1, h'.version.trans h.version.symm,
    hfields, hlogical.2.2⟩

-- A record of a ready blob is also what the read of any state finds.
theorem record_any {db : Catalog} (hs : db.Settled) {id : String} {r : Record}
    (h : Store.record db id true = .ok r) : Store.record db id false = .ok r ∧ r.state = .ready := by
  obtain ⟨b, o, p, m, hc, hshows, hready⟩ := record_shows h
  have hid := hc.blobId
  subst hid
  have hany : false = true → b.state = .ready := nofun
  obtain ⟨r', hr', hshows'⟩ := hs.record hc hany
  rw [hshows.unique hshows' (fun _ h => h) rfl] at hr'
  exact ⟨hr', hshows.state.trans (hready rfl)⟩

theorem record_ready {db : Catalog} (hs : db.Settled) {id : String} {r : Record}
    (h : Store.record db id false = .ok r) (hready : r.state = .ready) :
    Store.record db id true = .ok r := by
  obtain ⟨b, o, p, m, hc, hshows, _⟩ := record_shows h
  have hid := hc.blobId
  subst hid
  obtain ⟨r', hr', hshows'⟩ := hs.record hc fun _ => hshows.state.symm.trans hready
  rw [hshows.unique hshows' (fun _ h => h) rfl] at hr'
  exact hr'

end MeldStore
