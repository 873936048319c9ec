import MeldStore.Resolution

namespace MeldStore

open Library Library.Checked Library.Keyed

-- The call that journaled a token, and what a record reports of it.

-- A committed _prepare_snapshot of this catalog.
def Catalog.Prepares (db : Catalog) (prepared : PreparedFile) : Prop :=
  ∃ before schema after, Reachable before ∧ prepared.Sealed ∧
    Store.journal before schema prepared = .ok after ∧ after.DeferredKeys ∧ Commits after db

-- The journal row and the encoding of a call, as long as they stand.
def Catalog.Bears (db : Catalog) (prepared : PreparedFile) : Prop :=
  Encodings.physical prepared ∈ db.prepared ∧
    Encodings.read db (.text prepared.token) = Encodings.logical prepared

-- The logical encoding of prepare and put, or the file passthrough of prepare_file
-- and import_file.
structure Record.Reports (r : Record) (prepared : PreparedFile) : Prop where
  token : r.token = .text prepared.token
  storageId : r.storageId = .text prepared.storageId
  objectKey : r.objectKey = .text prepared.objectKey
  byteSize : r.byteSize = prepared.byteSize
  digest : r.digest = .text prepared.digest
  hashAlgorithm : r.hashAlgorithm = "xxh3_128"
  passthrough : prepared.encoding = none →
    r.handlerId = .text "file" ∧ r.handlerVersion = 1 ∧ r.descriptor = none
  encoded : ∀ e, prepared.encoding = some e → r.handlerId = .text e.encodingId ∧
    r.handlerVersion = e.encodingVersion ∧
      ∃ tree, loadsDescriptor (.text e.descriptor) = .ok tree ∧ r.descriptor = some tree

variable {db after : Catalog} {prepared : PreparedFile}

theorem Journaled.bears {other : PreparedFile} (hbears : db.Bears prepared)
    (h : Journaled db other after) : after.Bears prepared := by
  obtain ⟨hmem, hread⟩ := hbears
  obtain ⟨_, _, htoken, _, _, _, _⟩ := h
  refine ⟨List.mem_append_left _ hmem, ?_⟩
  have hother : prepared.token ≠ other.token := by
    intro he
    refine htoken _ hmem ?_
    simp [Encodings.physical, he]
  cases hlogical : Encodings.logical prepared with
  | some e =>
      rw [hlogical] at hread
      simp only [Encodings.read, List.find?_append] at hread ⊢
      rw [hread, Option.some_or]
  | none =>
      rw [hlogical] at hread
      simp only [Encodings.read, List.find?_append] at hread ⊢
      rw [hread, Option.none_or, List.find?_eq_none]
      intro e he
      simp only [Encodings.logical, Option.mem_toList, Option.map_eq_some_iff] at he
      obtain ⟨_, _, rfl⟩ := he
      simpa using Ne.symm hother

-- A fresh journal row bears its call: no encoding was waiting for its token.
theorem Journaled.bears_new (hkeys : db.DeferredKeys) (h : Journaled db prepared after) :
    after.Bears prepared := by
  obtain ⟨_, _, htoken, _, _, _, _⟩ := h
  refine ⟨List.mem_append_right _ (List.mem_singleton.mpr rfl), ?_⟩
  have hnone : (db.encodings.find? fun e => e.token = .text prepared.token) = none := by
    refine List.find?_eq_none.mpr fun e he hsame => ?_
    obtain ⟨p, hp, hptoken⟩ := hkeys.2 e he
    exact htoken p hp (hptoken.trans (of_decide_eq_true hsame))
  simp only [Encodings.read, List.find?_append, hnone, Option.none_or]
  cases hlogical : Encodings.logical prepared with
  | none => rfl
  | some e =>
      have he : e.token = .text prepared.token := by
        simp only [Encodings.logical, Option.map_eq_some_iff] at hlogical
        obtain ⟨_, _, rfl⟩ := hlogical
        rfl
      simp [he]

theorem Commit.bears (hw : db.Wf) (hbears : db.Bears prepared) (h : Commit db after) :
    after.Bears prepared := by
  cases h with
  | transaction actions _ h =>
      obtain ⟨heffects, _⟩ := transact_effects hw h
      obtain ⟨hmem, hread⟩ := hbears
      refine ⟨heffects.prepared_kept ▸ hmem, ?_⟩
      rw [Encodings.read, heffects.encodings_kept]
      exact hread
  | journaling schema other _ _ h _ => exact (journal_effect h).bears hbears
  | recording job error _ h =>
      rcases recordCleanup_effect h with rfl | ⟨_, _, _, _, rfl, _⟩
      · exact hbears
      · exact hbears

theorem Commits.bears (hs : db.Settled) (hbears : db.Bears prepared) (h : Commits db after) :
    after.Bears prepared :=
  (Runs.invariant (fun db : Catalog => db.Settled ∧ db.Bears prepared)
    (fun _ _ hs h => ⟨h.settled hs.1, h.bears hs.1.wf hs.2⟩) h ⟨hs, hbears⟩).2

theorem Catalog.Prepares.bears (h : db.Prepares prepared) : db.Bears prepared ∧ prepared.Sealed := by
  obtain ⟨before, schema, journaled, hbefore, hsealed, hjournal, hkeys, hafter⟩ := h
  have hs := Reachable.settled hbefore
  have hcommit : Commit before journaled := .journaling schema prepared journaled hsealed hjournal hkeys
  exact ⟨Commits.bears (hcommit.settled hs) ((journal_effect hjournal).bears_new hs.keys) hafter, hsealed⟩

-- Every journal row is the one of a committed call.
theorem Reachable.prepares (h : Reachable db) : ∀ p ∈ db.prepared, ∃ prepared, db.Prepares prepared ∧
    p = Encodings.physical prepared := by
  intro p hp
  have hnone : p ∉ Catalog.empty.prepared := by simp [Catalog.empty]
  obtain ⟨before, journaled, hbefore, hcommit, hafter, hnot, hnow⟩ :=
    Runs.introduced (fun db : Catalog => p ∈ db.prepared) h hnone hp
  have hs : before.Settled := Reachable.settled hbefore
  cases hcommit with
  | transaction actions _ hrun => exact absurd ((transact_effects hs.wf hrun).1.prepared_kept ▸ hnow) hnot
  | journaling schema prepared _ hsealed hjournal hkeys =>
      refine ⟨prepared, ⟨before, schema, journaled, hbefore, hsealed, hjournal, hkeys, hafter⟩, ?_⟩
      obtain ⟨_, _, _, _, _, _, _⟩ := journal_effect hjournal
      rcases List.mem_append.mp hnow with hold | hnew
      · exact absurd hold hnot
      · exact List.mem_singleton.mp hnew
  | recording job error _ hrun =>
      rcases recordCleanup_effect hrun with rfl | ⟨_, _, _, _, rfl, _⟩
      · exact absurd hnow hnot
      · exact absurd hnow hnot

-- A record reports the call that journaled its token.
theorem Record.reports {id : String} {readyOnly : Bool} {r : Record} (hw : db.Wf)
    (hbears : db.Bears prepared) (hsealed : prepared.Sealed)
    (hobject : ∃ o ∈ db.objects, o.blobId = id ∧ o.token = .text prepared.token)
    (h : Store.record db id readyOnly = .ok r) : r.Reports prepared := by
  obtain ⟨o, ho, hid, htoken⟩ := hobject
  obtain ⟨b, o', p, m, hc, hshows, _⟩ := record_shows h
  obtain rfl := hw.object_eq hc.object ho (hc.objectBlob.trans hid.symm)
  have hp : p = Encodings.physical prepared :=
    hw.prepared_eq hc.prepared hbears.1 (hc.preparedToken.trans htoken)
  subst hp
  obtain ⟨⟨halgorithm, hhandler, hversion⟩, _⟩ := hsealed
  refine ⟨hshows.token, hshows.storageId, hshows.objectKey, hshows.byteSize, hshows.digest,
    hshows.hashAlgorithm.trans halgorithm, fun hnone => ?_, fun e he => ?_⟩
  · have hread : Encodings.read db (.text prepared.token) = none := by
      rw [hbears.2, Encodings.logical, hnone, Option.map_none]
    obtain ⟨hid, hversion', hdescriptor⟩ := hshows.passthrough hread
    refine ⟨hid.trans ?_, hversion'.trans hversion, hdescriptor⟩
    simp [Encodings.physical, hhandler]
  · have hread : Encodings.read db (.text prepared.token) = Encodings.logical prepared := hbears.2
    rw [Encodings.logical, he, Option.map_some] at hread
    exact hshows.encoded _ hread

-- While a blob lives, its id stays bound to one token.
theorem Commits.bound {b b' : BlobRow} {o : ObjectRow} (hs : db.Settled) (h : Commits db after)
    (hb : b ∈ db.blobs) (hb' : b' ∈ after.blobs) (hid : b'.id = b.id) (ho : o ∈ db.objects)
    (hobject : o.blobId = b.id) : ∃ o' ∈ after.objects, o'.blobId = b.id ∧ o'.token = o.token := by
  have hchanges := Commits.changes hs.wf h
  have hsAfter := Commits.settled hs h
  have hbound : db.situated o.token (.bound b.id) := ⟨⟨o, ho, rfl, hobject⟩, b, hb, rfl⟩
  obtain ⟨s, hnow⟩ := hsAfter.ledger.situated_exists o.token
  rcases Situation.follows_bound (hchanges.follows hs.ledger hbound hnow) with rfl | rfl
  · obtain ⟨⟨o', ho', htoken, hblob⟩, _⟩ := hnow
    exact ⟨o', ho', hblob, htoken⟩
  · obtain ⟨r, hr, _, hrid⟩ := hnow
    exact absurd (hid.trans hrid.symm) (hsAfter.wf.retiredGone r hr b' hb')

-- What find returns are the records that stat returns.
theorem find_records {schema : BlobSchema} {conditions : List (String × Codecs.Argument)}
    {predicates : List Query.Predicate} {orderBy : List Query.Order} {cursor : Query.After} {limit : Int}
    {records : List Record}
    (h : Store.find db schema conditions predicates orderBy cursor limit = .ok records) :
    ∀ r ∈ records, Store.record db r.id true = .ok r := by
  simp only [Store.find, bind_eq_ok] at h
  obtain ⟨_, _, compiled, _, ids, _, hrecords⟩ := h
  intro r hr
  obtain ⟨id, _, hid⟩ := mapM_mem_result _ _ _ hrecords r hr
  obtain ⟨b, _, _, _, hc, hshows, _⟩ := record_shows hid
  rw [hshows.id, hc.blobId]
  exact hid

theorem stat_record {id : String} {r : Record} (h : Store.stat db id = .ok r) :
    Store.record db id true = .ok r := by
  simp only [Store.stat, bind_eq_ok] at h
  obtain ⟨_, _, hrecord⟩ := h
  exact hrecord

-- A token of the journaled call's name that matches the journal is that call.
theorem eq_of_matches {given : PreparedFile} (hw : db.Wf) (hbears : db.Bears prepared)
    (htoken : given.token = prepared.token) (h : Encodings.matches db given = true) : given = prepared := by
  obtain ⟨hmem, hread⟩ := matches_effect h
  have hphysical : Encodings.physical given = Encodings.physical prepared :=
    hw.prepared_eq hmem hbears.1 (by simp [Encodings.physical, htoken])
  rw [htoken, hbears.2] at hread
  obtain ⟨token, storageId, objectKey, byteSize, digest, hashAlgorithm, handlerId, handlerVersion,
    schemaName, schemaVersion, encoding⟩ := given
  obtain ⟨token', storageId', objectKey', byteSize', digest', hashAlgorithm', handlerId', handlerVersion',
    schemaName', schemaVersion', encoding'⟩ := prepared
  simp only [Encodings.physical, PreparedRow.mk.injEq, TextCell.text.injEq] at hphysical
  obtain ⟨rfl, rfl, rfl, rfl, rfl, rfl, rfl, rfl, rfl, rfl⟩ := hphysical
  cases encoding with
  | none =>
      cases encoding' with
      | none => rfl
      | some e' => cases hread
  | some e =>
      cases encoding' with
      | none => cases hread
      | some e' =>
          obtain ⟨id, version, descriptor⟩ := e
          obtain ⟨id', version', descriptor'⟩ := e'
          simp only [Encodings.logical, Option.map_some, Option.some.injEq, EncodingRow.mk.injEq,
            TextCell.text.injEq] at hread
          obtain ⟨_, rfl, rfl, rfl⟩ := hread
          rfl

-- Every entry that takes a token compares it with the journal.
structure Refuses (db : Catalog) (given : PreparedFile) : Prop where
  finalize : ∀ storage schema metadata id result,
    Store.finalize storage given schema metadata id db ≠ .ok result
  create : ∀ storage call result, Store.retry storage call db = .ok none →
    Store.create storage call given db ≠ .ok result
  discard : ∀ storage result, Lifecycle.discard storage given db ≠ .ok result
  resolve : ∀ storage id schema metadata outcome,
    Lifecycle.resolve storage id given schema metadata db ≠ .ok outcome

theorem finalize_matches {storage id : String} {given : PreparedFile} {schema : BlobSchema}
    {metadata : BlobSchema.Metadata} {result : Record × Catalog}
    (h : Store.finalize storage given schema metadata id db = .ok result) :
    Encodings.matches db given = true := by
  simp only [Store.finalize, bind_eq_ok, require_eq_ok] at h
  obtain ⟨_, _, _, _, _, _, _, ⟨hmatches, _⟩, _⟩ := h
  exact hmatches

theorem refuses_altered {given : PreparedFile} (hs : db.Settled) (hbears : db.Bears prepared)
    (htoken : given.token = prepared.token) (hne : given ≠ prepared) : Refuses db given := by
  have hdiffers : Encodings.matches db given ≠ true :=
    fun h => hne (eq_of_matches hs.wf hbears htoken h)
  refine ⟨fun storage schema metadata id result h => hdiffers (finalize_matches h),
    fun storage call result hretry h => ?_, fun storage result h => ?_,
    fun storage id schema metadata outcome h => ?_⟩
  · rcases create_effect h with ⟨hfound, _⟩ | ⟨_, _, _, hfinalize, _⟩
    · rw [hretry] at hfound
      cases hfound
    · exact hdiffers (finalize_matches hfinalize)
  · exact hdiffers (discard_effect h).1.1
  · obtain ⟨values, hvalues⟩ := Lifecycle.expected_of_ok h
    rcases (Lifecycle.resolve_answers hs.ledger hvalues h).1 with hmatches | hnone
    · exact hdiffers hmatches
    · refine hnone _ hbears.1 ?_
      simp [Encodings.physical, htoken]

-- Payload identity is fixed for life.
theorem payload_identity_is_fixed (db : Catalog) (h : Reachable db) :
    (∀ b ∈ db.blobs, ∃ prepared, db.Prepares prepared ∧ ∀ after, Commits db after →
      (∀ b' ∈ after.blobs, b'.id = b.id → ∃ r, Store.record after b.id false = .ok r) ∧
      (∀ readyOnly r, Store.record after b.id readyOnly = .ok r → r.Reports prepared) ∧
      (∀ r, Store.stat after b.id = .ok r → r.Reports prepared) ∧
      ∀ schema conditions predicates orderBy cursor limit records,
        Store.find after schema conditions predicates orderBy cursor limit = .ok records →
          ∀ r ∈ records, r.id = b.id → r.Reports prepared) ∧
    ∀ prepared, db.Prepares prepared → ∀ given : PreparedFile, given.token = prepared.token →
      given ≠ prepared → Refuses db given := by
  have hs := Reachable.settled h
  refine ⟨fun b hb => ?_, fun prepared hprepares given htoken hne =>
    refuses_altered hs hprepares.bears.1 htoken hne⟩
  obtain ⟨o, p, m, hc⟩ := hs.complete hb
  obtain ⟨prepared, hprepares, rfl⟩ := Reachable.prepares h p hc.prepared
  obtain ⟨hbears, hsealed⟩ := hprepares.bears
  refine ⟨prepared, hprepares, fun after hrun => ?_⟩
  have hsAfter := Commits.settled hs hrun
  have hrecord : ∀ readyOnly r, Store.record after b.id readyOnly = .ok r → r.Reports prepared := by
    intro readyOnly r hr
    obtain ⟨b', _, _, _, hc', _⟩ := record_shows hr
    obtain ⟨o', ho', hblob, htoken⟩ := Commits.bound hs hrun hb hc'.blob hc'.blobId hc.object hc.objectBlob
    refine Record.reports hsAfter.wf (Commits.bears hs hbears hrun) hsealed ⟨o', ho', hblob, ?_⟩ hr
    rw [htoken, ← hc.preparedToken]
    rfl
  refine ⟨fun b' hb' hid => ?_, hrecord, fun r hr => hrecord true r (stat_record hr), ?_⟩
  · obtain ⟨_, _, _, hc'⟩ := hsAfter.complete hb'
    have hany : false = true → b'.state = .ready := nofun
    obtain ⟨r, hr, _⟩ := hsAfter.record hc' hany
    exact ⟨r, hid ▸ hr⟩
  · intro schema conditions predicates orderBy cursor limit records hfind r hr hid
    exact hrecord true r (hid ▸ find_records hfind r hr)

-- The note has got another title since.
def edited : Catalog :=
  orElse (transact [.updateMetadata "b1" note [("title", .str "b")] 1] published) published

theorem edited_note_reports_its_draft :
    (∃ prepared, published.Prepares prepared ∧ (∃ r, Store.stat edited "b1" = .ok r ∧ r.Reports prepared) ∧
      ∃ records, Store.find edited note [] [] [] .none 10 = .ok records ∧ records ≠ [] ∧
        ∀ r ∈ records, r.Reports prepared) ∧
    Refuses published { draft with digest := "0" } := by
  obtain ⟨hreported, hrefused⟩ := payload_identity_is_fixed published published_reachable
  constructor
  · have hedited : Commits published edited := .single (.transaction _ _ (orElse_of_isOk (by decide) _))
    obtain ⟨prepared, hprepares, hreports⟩ := hreported ⟨"b1", "note", 1, .ready⟩ (by decide)
    obtain ⟨-, -, hstat, hfind⟩ := hreports edited hedited
    obtain ⟨r, hr⟩ := exists_of_isOk (show (Store.stat edited "b1").isOk = true by decide)
    refine ⟨prepared, hprepares, ⟨r, hr, hstat r hr⟩, ?_⟩
    have hids : (Store.find edited note [] [] [] .none 10).map (List.map Record.id) = .ok ["b1"] := by decide
    cases hrecords : Store.find edited note [] [] [] .none 10 with
    | error raised =>
        rw [hrecords] at hids
        cases hids
    | ok records =>
        rw [hrecords] at hids
        have honly : records.map Record.id = ["b1"] := Except.ok.inj hids
        refine ⟨records, rfl, fun hnil => ?_,
          fun found hfound => hfind _ _ _ _ _ _ records hrecords found hfound ?_⟩
        · rw [hnil] at honly
          cases honly
        · exact List.mem_singleton.mp (honly ▸ List.mem_map_of_mem hfound)
  · have hprepares : published.Prepares draft :=
      ⟨installed, note, journaled, installed_reachable, by decide, orElse_of_isOk (by decide) _, by decide,
        .single (.transaction _ _ (orElse_of_isOk (by decide) _))⟩
    exact hrefused draft hprepares _ rfl (by decide)

end MeldStore
