import MeldStore.Committed

namespace MeldStore

open Library Library.Checked Library.Keyed

namespace Catalog

-- What really happened to an id and a token

def WasJournaled (db : Catalog) (token : TextCell) : Prop :=
  ∃ before, Reachable before ∧ Commits before db ∧ ∃ p ∈ before.prepared, p.token = token

def WasBound (db : Catalog) (token : TextCell) (id : String) : Prop :=
  ∃ before, Reachable before ∧ Commits before db ∧ ∃ o ∈ before.objects, o.token = token ∧ o.blobId = id

-- A committed discard_prepared revoked the token.
def WasRevoked (db : Catalog) (token : TextCell) : Prop :=
  ∃ before actions after storage prepared, Reachable before ∧ transact actions before = .ok after ∧
    Commits after db ∧ .discardPrepared storage prepared ∈ actions ∧ .text prepared.token = token

def Retires (db : Catalog) (id : String) (token : TextCell) : Prop :=
  ∃ r ∈ db.retired, r.blobId = id ∧ r.token = token

-- A live blob with this token, schema version and normalised metadata.
def Live (db : Catalog) (id : String) (token : TextCell) (schema : BlobSchema)
    (values : List (String × Value)) (state : BlobState) : Prop :=
  ∃ b o m, b ∈ db.blobs ∧ b.id = id ∧ b.state = state ∧ b.schemaName = schema.name ∧
    b.schemaVersion = schema.version ∧ o ∈ db.objects ∧ o.blobId = id ∧ o.token = token ∧
    m ∈ db.metadata ∧ m.table = schema.name ∧ m.id = .text id ∧ m.schemaVersion = schema.version ∧
    Store.sameMetadata (schema.fields.map fun field => (field.1, m.fields field.1)) values = true

end Catalog

open Catalog

theorem MigrationChanges.gc_kept {db after : Catalog} (h : MigrationChanges db after) : after.gc = db.gc :=
  Runs.relates (fun _ => True) (fun a b : Catalog => b.gc = a.gc) (fun _ _ _ _ => trivial) (fun _ => rfl)
    (fun _ _ _ hab hbc => hbc.trans hab) (fun _ _ _ h => by cases h <;> rfl) h trivial

theorem finalize_gc_kept {db after : Catalog} {storage id : String} {prepared : PreparedFile}
    {schema : BlobSchema} {metadata : BlobSchema.Metadata} {r : Record}
    (h : Store.finalize storage prepared schema metadata id db = .ok (r, after)) : after.gc = db.gc := by
  rcases (finalize_effect h).2 with ⟨rfl, _⟩ | ⟨_, _, _, _, _, _, _, _, _, _, _, rfl, _⟩ <;> rfl

theorem publish_gc_kept {db after : Catalog} {storage id : String} {r : Record}
    (h : Store.publish storage id db = .ok (r, after)) : after.gc = db.gc := by
  rcases (publish_effect h).2 with ⟨rfl, _⟩ | ⟨_, _, _, _, rfl, _⟩ <;> rfl

-- Only discard_prepared revokes a token.
theorem exec_gc {db after : Catalog} {action : Action} (hw : db.Wf) (h : action.exec db = .ok after) :
    (∀ g ∈ after.gc, g ∈ db.gc ∨ g.reason ≠ .discarded) ∨
      ∃ storage prepared, action = .discardPrepared storage prepared ∧
        ∀ g ∈ after.gc, g ∈ db.gc ∨ g.token = some (.text prepared.token) := by
  have hkept : ∀ db' : Catalog, db'.gc = db.gc → ∀ g ∈ db'.gc, g ∈ db.gc ∨ g.reason ≠ .discarded :=
    fun _ he g hg => Or.inl (he ▸ hg)
  have hadded : ∀ (db' : Catalog) (reason : Reason), reason ≠ .discarded →
      (∃ g, db'.gc = db.gc ++ [g] ∧ g.reason = reason) →
      ∀ g ∈ db'.gc, g ∈ db.gc ∨ g.reason ≠ .discarded := by
    rintro db' reason hreason ⟨new, he, hnew⟩ g hg
    rw [he] at hg
    rcases List.mem_append.mp hg with hg | hg
    · exact Or.inl hg
    · rw [List.mem_singleton.mp hg, hnew]
      exact Or.inr hreason
  cases action with
  | installSchema schema =>
      obtain ⟨mid, hinstalls, rfl⟩ := installSchema_effects h
      left
      refine hkept _ ?_
      obtain ⟨_, _, _, rfl, _⟩ := hinstalls
      unfold Lifecycle.installSchema
      split <;> rfl
  | finalize storage prepared schema metadata id =>
      obtain ⟨_, h⟩ := map_snd_eq_ok h
      exact Or.inl (hkept _ (finalize_gc_kept h))
  | publish storage id =>
      obtain ⟨_, h⟩ := map_snd_eq_ok h
      exact Or.inl (hkept _ (publish_gc_kept h))
  | create storage call prepared =>
      obtain ⟨_, h⟩ := map_snd_eq_ok h
      left
      refine hkept _ ?_
      rcases create_effect h with ⟨_, rfl⟩ | ⟨_, _, _, hfinalize, hpublish⟩
      · rfl
      · exact (publish_gc_kept hpublish).trans (finalize_gc_kept hfinalize)
  | updateMetadata id schema changes expectedVersion =>
      obtain ⟨_, h⟩ := map_snd_eq_ok h
      obtain ⟨_, _, _, _, _, _, _, rfl, _⟩ := updateMetadata_effect h
      exact Or.inl (hkept _ rfl)
  | delete storage id expectedVersion =>
      obtain ⟨_, h⟩ := map_snd_eq_ok h
      left
      rcases delete_effect hw h with rfl | ⟨_, hgc, _⟩
      · exact hkept _ rfl
      · exact hadded _ .retired (by decide) hgc
  | discardPrepared storage prepared =>
      obtain ⟨_, h⟩ := map_snd_eq_ok h
      right
      refine ⟨storage, prepared, rfl, fun g hg => ?_⟩
      rcases (discard_effect h).2.2 with rfl | ⟨⟨new, he, htoken, _⟩, _⟩
      · exact Or.inl hg
      · rw [he] at hg
        rcases List.mem_append.mp hg with hg | hg
        · exact Or.inl hg
        · rw [List.mem_singleton.mp hg]
          exact Or.inr htoken
  | initializeJob plan =>
      obtain ⟨_, h⟩ := map_snd_eq_ok h
      obtain ⟨mid, hinstalls, _, _, hstart⟩ := initializeJob_effect h
      left
      refine hkept _ ?_
      obtain ⟨_, _, _, rfl, _⟩ := hinstalls
      rcases hstart with ⟨rfl, _⟩ | ⟨rfl, _, _⟩ <;> rfl
  | batch plan batchSize =>
      obtain ⟨_, h⟩ := map_snd_eq_ok h
      exact Or.inl (hkept _ (batch_effects h).gc_kept)
  | queueOrphans storage keys =>
      left
      simp only [Action.exec, Maintenance.queueOrphans, bind_eq_ok] at h
      obtain ⟨_, _, _, _, _, _, hloop⟩ := h
      refine foldlM_invariant (fun now : Catalog => ∀ g ∈ now.gc, g ∈ db.gc ∨ g.reason ≠ .discarded) _ keys db
        after hloop (hkept _ rfl) fun key _ before next hbefore hstep => ?_
      rcases queueOrphan_effect hstep with rfl | ⟨⟨new, he, hnew⟩, _⟩
      · exact hbefore
      · intro g hg
        rw [he] at hg
        rcases List.mem_append.mp hg with hg | hg
        · exact hbefore g hg
        · rw [List.mem_singleton.mp hg, hnew]
          exact Or.inr (by decide)

-- A discarded token stays discarded, so its row tells that it was revoked.
theorem Commits.discarded {db after : Catalog} (hs : db.Settled) (h : Commits db after) {token : TextCell}
    (hdiscarded : db.situated token .discarded) : after.situated token .discarded := by
  have hchanges := h.changes hs.wf
  obtain ⟨s, hnow⟩ := (hchanges.ledger hs.ledger).situated_exists token
  rw [Situation.follows_discarded (hchanges.follows hs.ledger hdiscarded hnow)] at hnow
  exact hnow

theorem discard_discards {db after : Catalog} {storage : String} {prepared : PreparedFile} {g : GcRow}
    (hl : after.Ledger) (h : Lifecycle.discard storage prepared db = .ok (g, after)) :
    after.situated (.text prepared.token) .discarded := by
  obtain ⟨⟨_, hretired⟩, ⟨job, hjob, htoken⟩, _⟩ := discard_effect h
  cases hreason : job.reason with
  | retired =>
      obtain ⟨r, hr, hrtoken, _⟩ := hl.retired_of_reason hjob hreason htoken
      exact absurd hrtoken (hretired r hr)
  | discarded => exact ⟨job, hjob, htoken, hreason⟩
  | orphan =>
      have hbacks := hl.backed job hjob
      simp only [Catalog.Backs, hreason, htoken] at hbacks
      exact absurd hbacks.1 (by simp)

-- A transaction that revokes a token leaves it discarded.
theorem transact_discards {db after : Catalog} {actions : List Action} (hs : db.Settled)
    (h : transact actions db = .ok after) {storage : String} {prepared : PreparedFile}
    (hmem : .discardPrepared storage prepared ∈ actions) :
    after.situated (.text prepared.token) .discarded := by
  simp only [transact, bind_eq_ok, require_eq_ok, pure_eq_ok] at h
  obtain ⟨_, hrun, _, _, rfl⟩ := h
  have hstep : ∀ (action : Action) (before next : Catalog), before.Ledger →
      action.exec before = .ok next → Effects before next ∧ next.Ledger := by
    intro action before next hl hexec
    have heffects := exec_effects hl.wf hexec
    exact ⟨heffects, heffects.changes.ledger hl⟩
  obtain ⟨first, last, rfl⟩ := List.append_of_mem hmem
  rw [List.foldlM_append, bind_eq_ok] at hrun
  obtain ⟨mid, hfirst, hlast⟩ := hrun
  rw [List.foldlM_cons, bind_eq_ok] at hlast
  obtain ⟨next, hdiscard, hlast⟩ := hlast
  have hmid : mid.Ledger := foldlM_invariant Catalog.Ledger _ first db mid hfirst hs.ledger
    fun action _ before after hl hexec => (hstep action before after hl hexec).2
  have hnext := (hstep _ mid next hmid hdiscard).2
  obtain ⟨_, hdiscard⟩ := map_snd_eq_ok hdiscard
  have hdiscarded := discard_discards hnext hdiscard
  refine (foldlM_invariant (fun now : Catalog => now.Ledger ∧
    now.situated (.text prepared.token) .discarded) _ last next _ hlast ⟨hnext, hdiscarded⟩ ?_).2
  rintro action _ before after ⟨hl, job, hjob, hrest⟩ hexec
  obtain ⟨heffects, hafter⟩ := hstep action before after hl hexec
  exact ⟨hafter, job, heffects.gc_effect.1 job hjob, hrest⟩

theorem wasRevoked_of_discarded {db : Catalog} (h : Reachable db) {token : TextCell}
    (hdiscarded : db.situated token .discarded) : db.WasRevoked token := by
  have hnone : ¬Catalog.empty.situated token .discarded := by simp [situated, Catalog.empty]
  obtain ⟨before, after, hbefore, hcommit, hafter, hnot, hnow⟩ :=
    Runs.introduced (fun db : Catalog => db.situated token .discarded) h hnone hdiscarded
  have hs : before.Settled := Reachable.settled hbefore
  cases hcommit with
  | transaction actions _ hrun =>
      have hactions := hrun
      simp only [transact, bind_eq_ok, require_eq_ok, pure_eq_ok] at hrun
      obtain ⟨_, hloop, _, _, rfl⟩ := hrun
      obtain ⟨action, haction, mid, next, hmid, hexec, hunrevoked, hrevoked⟩ :=
        foldlM_introduced Catalog.Wf (fun db : Catalog => db.situated token .discarded) _ actions before _
          hloop hs.wf (fun _ _ _ hw hexec => exec_wf hw hexec) hnot hnow
      obtain ⟨g, hg, htoken, hreason⟩ := hrevoked
      have hfresh : g ∉ mid.gc := fun hold => hunrevoked ⟨g, hold, htoken, hreason⟩
      rcases exec_gc hmid hexec with hkept | ⟨storage, prepared, rfl, hadded⟩
      · rcases hkept g hg with hold | hother
        · exact absurd hold hfresh
        · exact absurd hreason hother
      · refine ⟨before, actions, _, storage, prepared, hbefore, hactions, hafter, haction, ?_⟩
        rcases hadded g hg with hold | hnew
        · exact absurd hold hfresh
        · exact Option.some.inj (hnew.symm.trans htoken)
  | journaling schema prepared _ _ hrun _ =>
      obtain ⟨_, _, _, _, _, _, _⟩ := journal_effect hrun
      exact absurd hnow hnot
  | recording job error _ hrun =>
      rcases recordCleanup_effect hrun with rfl | ⟨old, hold, _, _, rfl, _⟩
      · exact absurd hnow hnot
      · obtain ⟨g, hg, htoken, hreason⟩ := hnow
        rcases (mem_rewrite _ _ _ _).mp hg with ⟨hg, _⟩ | ⟨other, hother, hkey, rfl⟩
        · exact absurd ⟨g, hg, htoken, hreason⟩ hnot
        · exact absurd ⟨old, hold, htoken, hreason⟩ hnot

theorem wasRevoked_iff {db : Catalog} (h : Reachable db) (token : TextCell) :
    db.WasRevoked token ↔ db.situated token .discarded := by
  refine ⟨?_, wasRevoked_of_discarded h⟩
  rintro ⟨before, actions, after, storage, prepared, hbefore, hrun, hafter, hmem, rfl⟩
  have hs : before.Settled := Reachable.settled hbefore
  have hcommit : Commit before after := .transaction actions after hrun
  exact Commits.discarded (hcommit.settled hs) hafter (transact_discards hs hrun hmem)

theorem wasJournaled_iff {db : Catalog} (h : Reachable db) (token : TextCell) :
    db.WasJournaled token ↔ ∃ p ∈ db.prepared, p.token = token := by
  refine ⟨?_, fun hnow => ⟨db, h, .refl, hnow⟩⟩
  rintro ⟨before, hbefore, hrun, p, hp, htoken⟩
  exact ⟨p, (Commits.changes (Reachable.settled hbefore).wf hrun).prepared_mono hp, htoken⟩

-- A token that was bound is still bound, or retired with its id.
theorem wasBound_cases {db : Catalog} {token : TextCell} {id : String} (h : db.WasBound token id) :
    (∃ o ∈ db.objects, o.token = token ∧ o.blobId = id) ∨ db.Retires id token := by
  obtain ⟨before, hbefore, hrun, o, ho, htoken, hid⟩ := h
  have hs : before.Settled := Reachable.settled hbefore
  obtain ⟨b, hb, hbid⟩ := hs.wf.objectHasBlob o ho
  have hbound : before.situated token (.bound id) := ⟨⟨o, ho, htoken, hid⟩, b, hb, hbid.trans hid⟩
  have hchanges := Commits.changes hs.wf hrun
  obtain ⟨s, hnow⟩ := (hchanges.ledger hs.ledger).situated_exists token
  rcases Situation.follows_bound (hchanges.follows hs.ledger hbound hnow) with rfl | rfl
  · exact Or.inl hnow.1
  · obtain ⟨r, hr, hrtoken, hrid⟩ := hnow
    exact Or.inr ⟨r, hr, hrid, hrtoken⟩

namespace Lifecycle

-- resolve tells the truth about a call.
structure Truthful (storage id : String) (prepared : PreparedFile) (schema : BlobSchema)
    (metadata : BlobSchema.Metadata) (db : Catalog) : Prop where
  live : ∀ outcome values, resolve storage id prepared schema metadata db = .ok outcome →
    expected storage id prepared schema metadata db = .ok values → ∀ state,
      (∃ record, outcome = .live record ∧ record.state = state) ↔
        db.Live id (.text prepared.token) schema values state
  retired : ∀ outcome, resolve storage id prepared schema metadata db = .ok outcome →
    ((∃ retirement, outcome = .retired retirement) ↔ db.Retires id (.text prepared.token))
  discarded : resolve storage id prepared schema metadata db = .ok .discarded →
    db.WasRevoked (.text prepared.token)
  unbound : ∀ outcome, resolve storage id prepared schema metadata db = .ok outcome →
    (outcome = .prepared ↔ db.WasJournaled (.text prepared.token) ∧
      (∀ o ∈ db.objects, o.token ≠ .text prepared.token) ∧
      (∀ r ∈ db.retired, r.token ≠ .text prepared.token) ∧ ¬db.WasRevoked (.text prepared.token))
  unknown : resolve storage id prepared schema metadata db = .ok .unknown →
    ¬db.WasJournaled (.text prepared.token)
  conflict : ∀ values other, expected storage id prepared schema metadata db = .ok values → other ≠ id →
    db.WasBound (.text prepared.token) other →
      ∃ message, resolve storage id prepared schema metadata db = .error (.ConflictError message)

-- The case the cascade misses: a token retired under another id, for an id that is
-- free. Its cleanup job reads as a revocation.
def Overlooked (storage id : String) (prepared : PreparedFile) (schema : BlobSchema)
    (metadata : BlobSchema.Metadata) (db : Catalog) : Prop :=
  (∃ values, expected storage id prepared schema metadata db = .ok values) ∧
    Encodings.matches db prepared = true ∧ (∀ b ∈ db.blobs, b.id ≠ id) ∧ (∀ r ∈ db.retired, r.blobId ≠ id) ∧
    ∃ r ∈ db.retired, r.token = .text prepared.token

theorem expected_effect {storage id : String} {prepared : PreparedFile} {schema : BlobSchema}
    {metadata : BlobSchema.Metadata} {db : Catalog} {values : List (String × Value)}
    (h : expected storage id prepared schema metadata db = .ok values) : db.Installed schema := by
  simp only [expected, bind_eq_ok, require_eq_ok, pure_eq_ok] at h
  obtain ⟨_, _, _, _, _, hschema, _⟩ := h
  exact (schema_effect hschema).1

theorem retired_effect {db : Catalog} {id : String} {prior : RetiredRow × GcRow}
    (h : Lifecycle.retired db id = some prior) : prior.1 ∈ db.retired ∧ prior.1.blobId = id := by
  simp only [Lifecycle.retired, Option.bind_eq_bind, Option.bind_eq_some_iff, Option.pure_def,
    Option.some.injEq] at h
  obtain ⟨r, hr, g, _, rfl⟩ := h
  exact ⟨List.mem_of_find?_eq_some hr, by simpa using List.find?_some hr⟩

theorem retired_eq_none {db : Catalog} (hl : db.Ledger) {id : String}
    (h : Lifecycle.retired db id = none) : ∀ r ∈ db.retired, r.blobId ≠ id := by
  intro r hr hid
  obtain ⟨g, hg, htoken, hreason⟩ := hl.retiredQueued r hr
  obtain ⟨r', hr', hrtoken, hblob⟩ := hl.retired_of_reason hg hreason htoken
  obtain rfl := hl.wf.retiredToken.eq_of_mem hr' hr rfl (by rw [hrtoken])
  have hfound : (db.retired.find? fun r => r.blobId = id).isSome :=
    List.find?_isSome.mpr ⟨r', hr, decide_eq_true hid⟩
  have hqueued : (db.gc.find? fun g => g.blobId = some id).isSome :=
    List.find?_isSome.mpr ⟨g, hg, decide_eq_true (by rw [hblob, hid])⟩
  obtain ⟨x, hx⟩ := Option.isSome_iff_exists.mp hfound
  obtain ⟨y, hy⟩ := Option.isSome_iff_exists.mp hqueued
  simp [Lifecycle.retired, hx, hy] at h

section Cascade

variable {storage id : String} {prepared : PreparedFile} {schema : BlobSchema}
  {metadata : BlobSchema.Metadata} {db : Catalog}

-- Where each answer comes from.
inductive Answers (prepared : PreparedFile) (schema : BlobSchema) (id : String)
    (values : List (String × Value)) (db : Catalog) : Outcome → Prop
  | retired (prior : RetiredRow × GcRow) (hprior : prior.1 ∈ db.retired) (hid : prior.1.blobId = id)
      (htoken : prior.1.token = .text prepared.token) : Answers prepared schema id values db (.retired prior)
  | live (record : Record) (hretired : ∀ r ∈ db.retired, r.blobId ≠ id)
      (hrecord : Store.record db id false = .ok record)
      (hsame : record.token = .text prepared.token ∧ record.schemaName = schema.name ∧
        record.schemaVersion = schema.version ∧ Store.sameMetadata record.metadata values) :
      Answers prepared schema id values db (.live record)
  | discarded (hretired : ∀ r ∈ db.retired, r.blobId ≠ id) (hblob : ∀ b ∈ db.blobs, b.id ≠ id)
      (hobject : ∀ o ∈ db.objects, o.token ≠ .text prepared.token)
      (hjob : ∃ g ∈ db.gc, g.token = some (.text prepared.token)) :
      Answers prepared schema id values db .discarded
  | unknown (hjournal : ∀ p ∈ db.prepared, p.token ≠ .text prepared.token) :
      Answers prepared schema id values db .unknown
  | prepared (hblob : ∀ b ∈ db.blobs, b.id ≠ id)
      (hobject : ∀ o ∈ db.objects, o.token ≠ .text prepared.token)
      (hjob : ∀ g ∈ db.gc, g.token ≠ some (.text prepared.token))
      (hjournal : ∃ p ∈ db.prepared, p.token = .text prepared.token) :
      Answers prepared schema id values db .prepared

theorem resolve_answers (hl : db.Ledger) {values : List (String × Value)} {outcome : Outcome}
    (hvalues : expected storage id prepared schema metadata db = .ok values)
    (h : resolve storage id prepared schema metadata db = .ok outcome) :
    (Encodings.matches db prepared = true ∨ ∀ p ∈ db.prepared, p.token ≠ .text prepared.token) ∧
      Answers prepared schema id values db outcome := by
  simp only [resolve, hvalues, bind_eq_ok, Except.ok.injEq, exists_eq_left', require_eq_ok] at h
  obtain ⟨_, hjournaled, h⟩ := h
  have hmatches : Encodings.matches db prepared = true ∨
      ∀ p ∈ db.prepared, p.token ≠ .text prepared.token := by
    cases hm : Encodings.matches db prepared with
    | true => exact Or.inl rfl
    | false =>
        refine Or.inr fun p hp he => hjournaled ⟨?_, hm⟩
        exact List.ne_nil_of_mem (List.mem_filter.mpr ⟨hp, decide_eq_true he⟩)
  refine ⟨hmatches, ?_⟩
  split at h
  · rename_i prior hprior
    simp only [bind_eq_ok, require_eq_ok, pure_eq_ok] at h
    obtain ⟨_, htoken, rfl⟩ := h
    obtain ⟨hmem, hid⟩ := retired_effect hprior
    exact .retired prior hmem hid htoken
  · rename_i hnone
    have hretired := retired_eq_none hl hnone
    split at h
    · simp only [bind_eq_ok, require_eq_ok, pure_eq_ok] at h
      obtain ⟨record, hrecord, _, hsame, rfl⟩ := h
      exact .live record hretired hrecord hsame
    · rename_i hblob
      have hblob : ∀ b ∈ db.blobs, b.id ≠ id := fun b hb hid => hblob ⟨b, hb, hid⟩
      simp only [bind_eq_ok, require_eq_ok] at h
      obtain ⟨_, hobject, h⟩ := h
      split at h
      · rename_i hjob
        cases h
        exact .discarded hretired hblob hobject hjob
      · rename_i hjob
        have hjob : ∀ g ∈ db.gc, g.token ≠ some (.text prepared.token) := fun g hg he => hjob ⟨g, hg, he⟩
        split at h
        · rename_i hjournal
          cases h
          exact .unknown fun p hp he => List.filter_eq_nil_iff.mp hjournal p hp (decide_eq_true he)
        · rename_i hjournal
          cases h
          refine .prepared hblob hobject hjob ?_
          obtain ⟨p, hp⟩ := List.exists_mem_of_ne_nil _ hjournal
          obtain ⟨hp, he⟩ := List.mem_filter.mp hp
          exact ⟨p, hp, of_decide_eq_true he⟩

def isConflict (error : Error) : Prop := error.isConflictError = true

-- Once the arguments are accepted, only a conflict is raised.
theorem resolve_fails (hs : db.Settled) {values : List (String × Value)}
    (hvalues : expected storage id prepared schema metadata db = .ok values) :
    FailsOnly isConflict (resolve storage id prepared schema metadata db) := by
  unfold resolve
  rw [hvalues]
  refine FailsOnly.bind (.ok _) fun values' _ => require_bind_fails rfl ?_
  split
  · exact require_bind_fails rfl (.pure _)
  · split
    · rename_i hblob
      obtain ⟨b, hb, rfl⟩ := hblob
      obtain ⟨o, p, m, hc⟩ := hs.complete hb
      have hany : false = true → b.state = .ready := fun h => absurd h Bool.false_ne_true
      obtain ⟨r, hr, _⟩ := hs.record hc hany
      rw [hr]
      exact FailsOnly.bind (.ok _) fun _ _ => require_bind_fails rfl (.pure _)
    · refine require_bind_fails rfl ?_
      split
      · exact .pure _
      · split <;> exact .pure _

theorem prepared_of_bound (hs : db.Settled) {token : TextCell} {other : String}
    (h : db.WasBound token other) : ∃ p ∈ db.prepared, p.token = token := by
  rcases wasBound_cases h with ⟨o, ho, htoken, _⟩ | ⟨r, hr, _, htoken⟩
  · obtain ⟨p, hp, he⟩ := hs.wf.objectHasPrepared o ho
    exact ⟨p, hp, he.trans htoken⟩
  · obtain ⟨p, hp, he⟩ := hs.wf.retiredHasPrepared r hr
    exact ⟨p, hp, he.trans htoken⟩

-- A token that was bound to another id is refused, unless it is overlooked.
theorem resolve_refuses (hs : db.Settled) {values : List (String × Value)} {outcome : Outcome}
    {other : String} (hvalues : expected storage id prepared schema metadata db = .ok values)
    (hne : other ≠ id) (hbound : db.WasBound (.text prepared.token) other)
    (hseen : ¬Overlooked storage id prepared schema metadata db) :
    resolve storage id prepared schema metadata db ≠ .ok outcome := by
  intro h
  have hcases := wasBound_cases hbound
  have hjob : db.Retires other (.text prepared.token) → ∃ g ∈ db.gc, g.token = some (.text prepared.token) := by
    rintro ⟨r, hr, _, htoken⟩
    obtain ⟨g, hg, he, _⟩ := hs.ledger.retiredQueued r hr
    exact ⟨g, hg, by rw [he, htoken]⟩
  obtain ⟨hmatches, hanswers⟩ := resolve_answers hs.ledger hvalues h
  cases hanswers with
  | retired prior hprior hid htoken =>
      rcases hcases with ⟨o, ho, he, _⟩ | ⟨r, hr, hrid, he⟩
      · obtain ⟨g, hg, hgtoken, _⟩ := hs.ledger.retiredQueued prior.1 hprior
        exact hs.wf.revoked g hg o ho (by rw [hgtoken, htoken, he])
      · obtain rfl := hs.wf.retiredToken.eq_of_mem hr hprior rfl (by rw [he, htoken])
        exact hne (hrid.symm.trans hid)
  | live record hretired hrecord hsame =>
      obtain ⟨b, o, p, m, hc, hshows, _⟩ := record_shows hrecord
      have hotoken : o.token = .text prepared.token := by
        rw [← hc.preparedToken, ← hshows.token, hsame.1]
      rcases hcases with ⟨o', ho', he, hid'⟩ | hother
      · obtain rfl := hs.wf.object_eq_of_token ho' hc.object (he.trans hotoken.symm)
        exact hne (hid'.symm.trans hc.objectBlob)
      · obtain ⟨g, hg, hgtoken⟩ := hjob hother
        exact hs.wf.revoked g hg o hc.object (by rw [hgtoken, hotoken])
  | discarded hretired hblob hobject hqueued =>
      rcases hcases with ⟨o, ho, he, _⟩ | ⟨r, hr, _, he⟩
      · exact hobject o ho he
      · obtain ⟨p, hp, hptoken⟩ := prepared_of_bound hs hbound
        have hsame := hmatches.resolve_right fun hnone => hnone p hp hptoken
        exact hseen ⟨⟨values, hvalues⟩, hsame, hblob, hretired, r, hr, he⟩
  | unknown hjournal =>
      obtain ⟨p, hp, he⟩ := prepared_of_bound hs hbound
      exact hjournal p hp he
  | prepared hblob hobject hunqueued hjournal =>
      rcases hcases with ⟨o, ho, he, _⟩ | hother
      · exact hobject o ho he
      · obtain ⟨g, hg, hgtoken⟩ := hjob hother
        exact hunqueued g hg hgtoken

theorem expected_of_ok {outcome : Outcome}
    (h : resolve storage id prepared schema metadata db = .ok outcome) :
    ∃ values, expected storage id prepared schema metadata db = .ok values := by
  simp only [resolve, bind_eq_ok] at h
  obtain ⟨values, hvalues, _⟩ := h
  exact ⟨values, hvalues⟩

theorem live_of_record {values : List (String × Value)} {record : Record}
    (hinstalled : db.Installed schema) (hrecord : Store.record db id false = .ok record)
    (hsame : record.token = .text prepared.token ∧ record.schemaName = schema.name ∧
      record.schemaVersion = schema.version ∧ Store.sameMetadata record.metadata values) :
    db.Live id (.text prepared.token) schema values record.state := by
  obtain ⟨b, o, p, m, hc, hshows, _⟩ := record_shows hrecord
  obtain ⟨htoken, hname, hversion, hmetadata⟩ := hsame
  have hname : b.schemaName = schema.name := hshows.schemaName.symm.trans hname
  have hversion : b.schemaVersion = schema.version := hshows.schemaVersion.symm.trans hversion
  obtain ⟨s, hdeclared, hfields⟩ := hshows.metadata
  have hschema : s.definition = schema := by
    have hinstalled := hinstalled.declared
    rw [← hname, ← hversion, hdeclared] at hinstalled
    exact Option.some.inj hinstalled
  rw [hfields, hschema] at hmetadata
  refine ⟨b, o, m, hc.blob, hc.blobId, hshows.state.symm, hname, hversion, hc.object, hc.objectBlob, ?_,
    hc.metadata, hc.metaTable.trans hname, hc.metaId, hc.sameVersion.trans hversion, hmetadata⟩
  rw [← hc.preparedToken, ← hshows.token, htoken]

-- The answer for a live blob is its record.
theorem answer_of_live (hs : db.Settled) {values : List (String × Value)} {outcome : Outcome}
    {state : BlobState} (hanswers : Answers prepared schema id values db outcome)
    (hlive : db.Live id (.text prepared.token) schema values state) :
    ∃ record, outcome = .live record ∧ record.state = state := by
  obtain ⟨b, o, m, hb, hid, hstate, _, _, ho, hobject, htoken, _⟩ := hlive
  cases hanswers with
  | retired prior hprior hrid _ => exact absurd (hid.trans hrid.symm) (hs.wf.retiredGone _ hprior b hb)
  | live record _ hrecord _ =>
      obtain ⟨b', _, _, _, hc, hshows, _⟩ := record_shows hrecord
      obtain rfl := hs.wf.blob_eq hc.blob hb (hc.blobId.trans hid.symm)
      exact ⟨record, rfl, hshows.state.trans hstate⟩
  | discarded _ hblob => exact absurd hid (hblob b hb)
  | unknown hjournal =>
      obtain ⟨p, hp, he⟩ := hs.wf.objectHasPrepared o ho
      exact absurd (he.trans htoken) (hjournal p hp)
  | prepared hblob => exact absurd hid (hblob b hb)

theorem answer_retired (hs : db.Settled) {values : List (String × Value)} {outcome : Outcome}
    (hanswers : Answers prepared schema id values db outcome) :
    (∃ retirement, outcome = .retired retirement) ↔ db.Retires id (.text prepared.token) := by
  constructor
  · rintro ⟨retirement, rfl⟩
    cases hanswers with
    | retired _ hprior hid htoken => exact ⟨_, hprior, hid, htoken⟩
  · rintro ⟨r, hr, hid, htoken⟩
    obtain ⟨g, hg, hgtoken, _⟩ := hs.ledger.retiredQueued r hr
    cases hanswers with
    | retired prior => exact ⟨prior, rfl⟩
    | live _ hretired => exact absurd hid (hretired r hr)
    | discarded hretired => exact absurd hid (hretired r hr)
    | unknown hjournal =>
        obtain ⟨p, hp, he⟩ := hs.wf.retiredHasPrepared r hr
        exact absurd (he.trans htoken) (hjournal p hp)
    | prepared _ _ hqueued => exact absurd (hgtoken.trans (by rw [htoken])) (hqueued g hg)

theorem answer_prepared (hs : db.Settled) {values : List (String × Value)} {outcome : Outcome}
    (hanswers : Answers prepared schema id values db outcome) :
    outcome = .prepared ↔ (∃ p ∈ db.prepared, p.token = .text prepared.token) ∧
      (∀ o ∈ db.objects, o.token ≠ .text prepared.token) ∧
      (∀ r ∈ db.retired, r.token ≠ .text prepared.token) ∧
      ¬db.situated (.text prepared.token) .discarded := by
  constructor
  · rintro rfl
    cases hanswers with
    | prepared hblob hobject hqueued hjournal =>
        refine ⟨hjournal, hobject, fun r hr he => ?_, fun hdiscarded => ?_⟩
        · obtain ⟨g, hg, hgtoken, _⟩ := hs.ledger.retiredQueued r hr
          exact hqueued g hg (by rw [hgtoken, he])
        · obtain ⟨g, hg, hgtoken, _⟩ := hdiscarded
          exact hqueued g hg hgtoken
  · rintro ⟨⟨p, hp, hptoken⟩, hobject, hretired, hdiscarded⟩
    cases hanswers with
    | retired prior hprior _ htoken => exact absurd htoken (hretired _ hprior)
    | live record _ hrecord hsame =>
        obtain ⟨_, o, _, _, hc, hshows, _⟩ := record_shows hrecord
        refine absurd ?_ (hobject o hc.object)
        rw [← hc.preparedToken, ← hshows.token, hsame.1]
    | discarded _ _ _ hjob =>
        obtain ⟨g, hg, htoken⟩ := hjob
        cases hreason : g.reason with
        | retired =>
            obtain ⟨r, hr, hrtoken, _⟩ := hs.ledger.retired_of_reason hg hreason htoken
            exact absurd hrtoken (hretired r hr)
        | discarded => exact absurd ⟨g, hg, htoken, hreason⟩ hdiscarded
        | orphan =>
            have hbacks := hs.ledger.backed g hg
            simp only [Catalog.Backs, hreason, htoken] at hbacks
            exact absurd hbacks.1 (by simp)
    | unknown hjournal => exact absurd hptoken (hjournal p hp)
    | prepared => rfl

theorem discarded_of_answer (hs : db.Settled) {values : List (String × Value)}
    (hvalues : expected storage id prepared schema metadata db = .ok values)
    (h : resolve storage id prepared schema metadata db = .ok .discarded)
    (hseen : ¬Overlooked storage id prepared schema metadata db) :
    db.situated (.text prepared.token) .discarded := by
  obtain ⟨s, hsituated⟩ := hs.ledger.situated_exists (.text prepared.token)
  obtain ⟨hmatches, hanswers⟩ := resolve_answers hs.ledger hvalues h
  cases hanswers with
  | discarded hretired hblob hobject hjob =>
      obtain ⟨g, hg, htoken⟩ := hjob
      cases s with
      | unbound => exact absurd htoken (hsituated.2 g hg)
      | bound other =>
          obtain ⟨⟨o, ho, he, _⟩, _⟩ := hsituated
          exact absurd he (hobject o ho)
      | retired other =>
          obtain ⟨r, hr, he, _⟩ := hsituated
          obtain ⟨p, hp, hptoken⟩ := hs.wf.retiredHasPrepared r hr
          have hsame := hmatches.resolve_right fun hnone => hnone p hp (hptoken.trans he)
          exact absurd ⟨⟨values, hvalues⟩, hsame, hblob, hretired, r, hr, he⟩ hseen
      | discarded => exact hsituated

-- The overlooked token reads as discarded.
theorem resolve_overlooked (hs : db.Settled) (h : Overlooked storage id prepared schema metadata db) :
    resolve storage id prepared schema metadata db = .ok .discarded := by
  obtain ⟨⟨values, hvalues⟩, hmatches, hblob, hretired, r, hr, htoken⟩ := h
  obtain ⟨g, hg, hgtoken, _⟩ := hs.ledger.retiredQueued r hr
  have hnone : Lifecycle.retired db id = none := by
    cases hfound : Lifecycle.retired db id with
    | none => rfl
    | some prior => exact absurd (retired_effect hfound).2 (hretired _ (retired_effect hfound).1)
  have hobject : ∀ o ∈ db.objects, o.token ≠ .text prepared.token :=
    fun o ho he => hs.wf.revoked g hg o ho (by rw [hgtoken, htoken, he])
  have hfree : ¬∃ b ∈ db.blobs, b.id = id := fun ⟨b, hb, hid⟩ => hblob b hb hid
  have hjob : ∃ g ∈ db.gc, g.token = some (.text prepared.token) := ⟨g, hg, by rw [hgtoken, htoken]⟩
  have hdescriptor : ¬((db.prepared.filter fun p => p.token = .text prepared.token) ≠ [] ∧
      Encodings.matches db prepared = false) := by simp [hmatches]
  simp only [resolve, hvalues, hnone, require, bind, Except.bind]
  rw [if_pos hdescriptor]
  simp only [if_neg hfree, if_pos hobject, if_pos hjob]
  rfl

end Cascade

theorem not_truthful_of_overlooked {storage id : String} {prepared : PreparedFile} {schema : BlobSchema}
    {metadata : BlobSchema.Metadata} {db : Catalog} (h : Reachable db)
    (hoverlooked : Overlooked storage id prepared schema metadata db) :
    ¬Truthful storage id prepared schema metadata db := by
  intro htruthful
  have hs := Reachable.settled h
  have hdiscarded := (wasRevoked_iff h _).mp (htruthful.discarded (resolve_overlooked hs hoverlooked))
  obtain ⟨_, _, _, _, r, hr, htoken⟩ := hoverlooked
  have hretired : db.situated (.text prepared.token) (.retired r.blobId) := ⟨r, hr, htoken, rfl⟩
  cases hs.ledger.situated_unique _ _ _ hdiscarded hretired

-- resolve reports what really happened exactly when it does not overlook that the
-- token was retired under another id.
theorem resolve_is_truthful_iff (db : Catalog) (h : Reachable db) (storage id : String)
    (prepared : PreparedFile) (schema : BlobSchema) (metadata : BlobSchema.Metadata) :
    Truthful storage id prepared schema metadata db ↔
      ¬Overlooked storage id prepared schema metadata db := by
  have hs := Reachable.settled h
  constructor
  · exact fun htruthful hoverlooked => not_truthful_of_overlooked h hoverlooked htruthful
  · intro hseen
    refine ⟨fun outcome values hok hvalues state => ?_, fun outcome hok => ?_, fun hok => ?_,
      fun outcome hok => ?_, fun hok => ?_, fun values other hvalues hne hbound => ?_⟩
    · have hanswers := (resolve_answers hs.ledger hvalues hok).2
      refine ⟨?_, answer_of_live hs hanswers⟩
      rintro ⟨record, rfl, rfl⟩
      cases hanswers with
      | live _ _ hrecord hsame => exact live_of_record (expected_effect hvalues) hrecord hsame
    · obtain ⟨values, hvalues⟩ := expected_of_ok hok
      exact answer_retired hs (resolve_answers hs.ledger hvalues hok).2
    · obtain ⟨values, hvalues⟩ := expected_of_ok hok
      exact (wasRevoked_iff h _).mpr (discarded_of_answer hs hvalues hok hseen)
    · obtain ⟨values, hvalues⟩ := expected_of_ok hok
      rw [wasJournaled_iff h, wasRevoked_iff h]
      exact answer_prepared hs (resolve_answers hs.ledger hvalues hok).2
    · obtain ⟨values, hvalues⟩ := expected_of_ok hok
      rw [wasJournaled_iff h]
      rintro ⟨p, hp, he⟩
      cases (resolve_answers hs.ledger hvalues hok).2 with
      | unknown hjournal => exact hjournal p hp he
    · cases hresult : resolve storage id prepared schema metadata db with
      | ok outcome => exact absurd hresult (resolve_refuses hs hvalues hne hbound hseen)
      | error raised =>
          have hconflict := resolve_fails hs hvalues raised hresult
          cases raised with
          | ConflictError message => exact ⟨message, rfl⟩
          | _ => cases hconflict

theorem resolve_is_truthful_for_b1 : Truthful "s" "b1" draft note [("title", .str "a")] published := by
  refine (resolve_is_truthful_iff published published_reachable _ _ _ _ _).mpr fun hoverlooked => ?_
  have hpresent : ∃ b ∈ published.blobs, b.id = "b1" := by decide
  obtain ⟨b, hb, hid⟩ := hpresent
  exact hoverlooked.2.2.1 b hb hid

-- The note is retired, and its token offered for another id.
def removed : Catalog := orElse (transact [.delete "s" "b1" 1] published) published

theorem resolve_overlooks_a_retired_token :
    Reachable removed ∧ Encodings.matches removed draft = true ∧
      resolve "s" "b2" draft note [("title", .str "a")] removed = .ok .discarded ∧
      ¬Truthful "s" "b2" draft note [("title", .str "a")] removed := by
  have hreachable : Reachable removed :=
    published_reachable.tail (.transaction _ _ (orElse_of_isOk (by decide) _))
  have hexpected : ∃ values, expected "s" "b2" draft note [("title", .str "a")] removed = .ok values :=
    ⟨_, rfl⟩
  have hoverlooked : Overlooked "s" "b2" draft note [("title", .str "a")] removed :=
    ⟨hexpected, by decide, by decide, by decide, by decide⟩
  exact ⟨hreachable, by decide, resolve_overlooked (Reachable.settled hreachable) hoverlooked,
    not_truthful_of_overlooked hreachable hoverlooked⟩

end Lifecycle

end MeldStore
