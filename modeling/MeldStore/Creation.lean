import MeldStore.Identity
import MeldStore.Migrations.ExactlyOnce

namespace MeldStore

open Library Library.Checked Library.Keyed Library.Runs

-- put and import_file under a caller id, by any number of calls at once.

namespace Store

-- What a call has made of its arguments before its first retry check.
structure Creation.Accepted (call : Creation) : Prop where
  normalized : call.schema.normalizeMetadata call.metadata = .ok call.values
  sealed : ∀ e ∈ call.encoding, readsBack e.descriptor = true

-- The comparison of _retry as a whole.
structure Creation.Same (storage : String) (call : Creation) (r : Record) : Prop where
  agrees : call.agrees storage r = true
  descriptor : ∀ e ∈ call.encoding, ∀ wanted, loadsDescriptor (.text e.descriptor) = .ok wanted →
    sameDescriptor r.descriptor wanted = true

variable {db after : Catalog} {storage : String} {call : Creation} {r : Record}

theorem retry_found (h : retry storage call db = .ok (some r)) :
    record db call.id false = .ok r ∧ call.Same storage r := by
  simp only [retry, bind_eq_ok, require_eq_ok] at h
  obtain ⟨_, _, h⟩ := h
  split at h
  · cases h
  · split at h
    · cases h
    simp only [bind_eq_ok, require_eq_ok] at h
    obtain ⟨existing, hrecord, _, hagrees, h⟩ := h
    split at h
    · rename_i hencoding
      simp only [pure_eq_ok, Option.some.injEq] at h
      subst h
      exact ⟨hrecord, hagrees, by simp [hencoding]⟩
    · rename_i e hencoding
      simp only [bind_eq_ok, require_eq_ok, pure_eq_ok, Option.some.injEq] at h
      obtain ⟨wanted, hwanted, _, hsame, rfl⟩ := h
      refine ⟨hrecord, hagrees, fun e' he' wanted' hwanted' => ?_⟩
      rw [hencoding, Option.mem_some_iff] at he'
      subst he'
      rw [hwanted] at hwanted'
      rw [← Except.ok.inj hwanted']
      exact hsame

theorem retry_none (h : retry storage call db = .ok none) : ∀ b ∈ db.blobs, b.id ≠ call.id := by
  simp only [retry, bind_eq_ok, require_eq_ok] at h
  obtain ⟨_, _, h⟩ := h
  split at h
  · rename_i hnone
    exact hnone
  · split at h
    · cases h
    simp only [bind_eq_ok, require_eq_ok] at h
    obtain ⟨existing, _, _, _, h⟩ := h
    split at h
    · cases h
    · simp only [bind_eq_ok, pure_eq_ok] at h
      obtain ⟨_, _, _, _, h⟩ := h
      cases h

-- A call that differs from the record of its id conflicts.
theorem retry_conflicts (hs : db.Settled) (hcall : call.Accepted)
    (hrecord : record db call.id false = .ok r) (hdiffers : ¬call.Same storage r) :
    ∃ message, retry storage call db = .error (.ConflictError message) := by
  obtain ⟨b, o, p, m, hc, _⟩ := record_shows hrecord
  have hlive : ∀ r ∈ db.retired, r.blobId ≠ call.id :=
    fun gone hgone he => hs.wf.retiredGone gone hgone b hc.blob (hc.blobId.trans he.symm)
  have hpresent : ¬∀ b ∈ db.blobs, b.id ≠ call.id := fun hnone => hnone b hc.blob hc.blobId
  simp only [retry, require, if_pos hlive, if_neg hpresent, hrecord, bind, Except.bind]
  by_cases hagrees : call.agrees storage r = true
  · rw [if_pos hagrees]
    cases hencoding : call.encoding with
    | none => exact absurd ⟨hagrees, by simp [hencoding]⟩ hdiffers
    | some e =>
        obtain ⟨tree, htree, _⟩ := readsBack_eq_true (hcall.sealed e hencoding)
        have hdescriptor : ¬sameDescriptor r.descriptor tree = true := by
          intro hsame
          refine hdiffers ⟨hagrees, fun e' he' wanted hwanted => ?_⟩
          rw [hencoding, Option.mem_some_iff] at he'
          subst he'
          rw [htree] at hwanted
          rw [← Except.ok.inj hwanted]
          exact hsame
        simp only [htree, if_neg hdescriptor]
        exact ⟨_, rfl⟩
  · rw [if_neg hagrees]
    exact ⟨_, rfl⟩

-- The record of a creation is the one its own call would find.

theorem cellsOf_self (values : List (String × Value)) (h : (values.map Prod.fst).Nodup) :
    (values.map fun entry => (entry.1, cellsOf values entry.1)) = values := by
  have hcell : ∀ entry ∈ values, cellsOf values entry.1 = entry.2 := by
    intro entry hentry
    have hfound : (values.find? fun other => other.1 = entry.1) = some entry := by
      cases hf : values.find? fun other => other.1 = entry.1 with
      | none => exact absurd (decide_eq_true rfl) (List.find?_eq_none.mp hf entry hentry)
      | some other =>
          have hname : other.1 = entry.1 := by simpa using List.find?_some hf
          rw [List.inj_on_of_nodup_map h (List.mem_of_find?_eq_some hf) hentry hname]
    simp [cellsOf, hfound]
  calc values.map (fun entry => (entry.1, cellsOf values entry.1))
      = values.map id := List.map_congr_left fun entry hentry => by rw [hcell entry hentry]; rfl
    _ = values := List.map_id values

theorem cellsOf_normalized {schema : BlobSchema} {metadata : BlobSchema.Metadata}
    {values : List (String × Value)} (h : schema.normalizeMetadata metadata = .ok values) :
    (schema.fields.map fun field => (field.1, cellsOf values field.1)) = values := by
  simp only [BlobSchema.normalizeMetadata, bind_eq_ok] at h
  obtain ⟨_, _, h⟩ := h
  have hnames : values.map Prod.fst = schema.fields.map Prod.fst := by
    rw [mapM_eq_ok] at h
    revert h
    generalize schema.fields = fields
    intro h
    induction h with
    | nil => rfl
    | cons hfield _ ih =>
        simp only [bind_eq_ok, pure_eq_ok] at hfield
        obtain ⟨_, _, rfl⟩ := hfield
        simp [ih]
  have hnodup : (values.map Prod.fst).Nodup := hnames ▸ schema.names_nodup
  calc schema.fields.map (fun field => (field.1, cellsOf values field.1))
      = (schema.fields.map Prod.fst).map fun name => (name, cellsOf values name) := by
        rw [List.map_map]
        rfl
    _ = (values.map Prod.fst).map fun name => (name, cellsOf values name) := by rw [hnames]
    _ = values.map fun entry => (entry.1, cellsOf values entry.1) := by
        rw [List.map_map]
        rfl
    _ = values := cellsOf_self values hnodup

theorem sameMetadata_refl (values : List (String × Value)) : sameMetadata values values = true := by
  simp only [sameMetadata, beq_self_eq_true, Bool.true_and, List.all_eq_true, List.any_eq_true]
  intro entry hentry
  exact ⟨entry, hentry, by simp⟩

def Creation.blobRow (call : Creation) (state : BlobState) : BlobRow :=
  ⟨call.id, call.schema.name, call.schema.version, state⟩

-- The rows that finalize and publish leave for a fresh id.
structure Created (storage : String) (call : Creation) (prepared : PreparedFile) (db after : Catalog) :
    Prop where
  fresh : ∀ b ∈ db.blobs, b.id ≠ call.id
  installed : db.Installed call.schema
  journal : Encodings.physical prepared ∈ db.prepared ∧
    Encodings.read db (.text prepared.token) = Encodings.logical prepared
  blobs : ∀ b ∈ after.blobs, b ∈ db.blobs ∨ b = call.blobRow .ready
  metadata : ∃ m, after.metadata = db.metadata ++ [m] ∧ m.table = call.schema.name ∧
    m.id = .text call.id ∧
    m.fields = restrictTo (db.columns call.schema.name) (cellsOf call.values)
  objects : after.objects = db.objects ++ [{ blobId := call.id, token := .text prepared.token }]
  same : after.schemas = db.schemas ∧ after.prepared = db.prepared ∧ after.encodings = db.encodings

theorem create_cases {prepared : PreparedFile} (hs : db.Settled) (hcall : call.Accepted)
    (h : create storage call prepared db = .ok (r, after)) :
    (retry storage call db = .ok (some r) ∧ after = db) ∨
      (record after call.id true = .ok r ∧ Created storage call prepared db after) := by
  rcases create_effect h with hfound | ⟨created, mid, hnone, hfinalize, hpublish⟩
  · exact Or.inl hfound
  right
  have hfresh := retry_none hnone
  obtain ⟨hrecord, hpublished⟩ := publish_effect hpublish
  refine ⟨hrecord, ?_⟩
  have hinstalled : db.Installed call.schema := by
    simp only [finalize, bind_eq_ok, require_eq_ok] at hfinalize
    obtain ⟨_, _, _, hschema, _⟩ := hfinalize
    exact (schema_effect hschema).1
  rcases (finalize_effect hfinalize).2 with ⟨rfl, _⟩ | ⟨values, b, m, o, hvalues, rfl, hfields, rfl, hmatches,
    _, ⟨htable, hid, _, _⟩, rfl, _⟩
  · obtain ⟨b, _, _, _, hc, _⟩ := record_shows (finalize_effect hfinalize).1
    exact absurd hc.blobId (hfresh b hc.blob)
  obtain rfl : values = call.values := Except.ok.inj (hvalues.symm.trans hcall.normalized)
  have honly : ∀ b ∈ db.blobs ++ [call.blobRow .publishing], b.id = call.id → b = call.blobRow .publishing := by
    intro b hb hbid
    rcases List.mem_append.mp hb with hb | hb
    · exact absurd hbid (hfresh b hb)
    · exact List.mem_singleton.mp hb
  rcases hpublished with ⟨_, b, hb, hbid, hstate⟩ | ⟨b, hb, hbid, _, rfl, _⟩
  · rw [honly b hb hbid] at hstate
    cases hstate
  · refine ⟨hfresh, hinstalled, matches_effect hmatches, fun b' hb' => ?_, ⟨m, rfl, htable, hid, hfields⟩, rfl,
      rfl, rfl, rfl⟩
    rcases (mem_rewrite _ _ _ _).mp hb' with ⟨hold, hne⟩ | ⟨_, _, _, rfl⟩
    · rcases List.mem_append.mp hold with hold | hnew
      · exact Or.inl hold
      · rw [List.mem_singleton.mp hnew] at hne
        simp at hne
    · right
      rw [honly b hb hbid]
      rfl

theorem created_same {token key : String} (hs : after.Settled) (hcall : call.Accepted)
    (h : Created storage call (prepareSnapshot storage token key call.schema call.byteSize call.digest
      call.encoding) db after) (hrecord : record after call.id true = .ok r) : call.Same storage r := by
  obtain ⟨b, o, p, m, hc, hshows, hready⟩ := record_shows hrecord
  obtain ⟨hschemas, hprepared, hencodings⟩ := h.same
  have hb : b = call.blobRow .ready := by
    rcases h.blobs b hc.blob with hold | hnew
    · exact absurd hc.blobId (h.fresh b hold)
    · exact hnew
  obtain ⟨m', hmetadata, htable, hid, hfields⟩ := h.metadata
  have hm : m = m' := by
    refine hs.wf.meta_eq hc.metadata ?_ (hc.metaTable.trans (hb ▸ htable.symm)) (hc.metaId.trans hid.symm)
    rw [hmetadata]
    exact List.mem_append_right _ (List.mem_singleton.mpr rfl)
  have ho : o = { blobId := call.id, token := .text token } := by
    refine hs.wf.object_eq hc.object ?_ hc.objectBlob
    rw [h.objects]
    exact List.mem_append_right _ (List.mem_singleton.mpr rfl)
  have hp := hs.wf.prepared_eq hc.prepared (hprepared ▸ h.journal.1) (hc.preparedToken.trans (by rw [ho]; rfl))
  have hread := h.journal.2
  rw [Encodings.read, ← hencodings] at hread
  have hdeclared : (after.schema? call.schema.name call.schema.version).map (fun s => s.definition) =
      some call.schema := by
    have hdeclared := h.installed.declared
    rwa [Catalog.schema?, ← hschemas] at hdeclared
  have hmetadata : r.metadata = call.values := by
    obtain ⟨s, hfound, hlisted⟩ := hshows.metadata
    rw [show b.schemaName = call.schema.name from hb ▸ rfl,
      show b.schemaVersion = call.schema.version from hb ▸ rfl] at hfound
    rw [hfound] at hdeclared
    have hdefinition : s.definition = call.schema := Option.some.inj hdeclared
    rw [hlisted, hdefinition, hm, hfields, ← cellsOf_normalized hcall.normalized]
    refine List.map_congr_left fun field hfield => ?_
    rw [restrictTo_of_mem _ _ _ (List.mem_map_of_mem (mem_columns h.installed.mem_declarations hfield)),
      cellsOf_normalized hcall.normalized]
  subst hp
  have hhandler : r.handlerId = .text ((call.encoding.map fun e => e.encodingId).getD "file") ∧
      r.handlerVersion = (call.encoding.map fun e => e.encodingVersion).getD 1 ∧
      ∀ e ∈ call.encoding, ∃ tree, loadsDescriptor (.text e.descriptor) = .ok tree ∧
        r.descriptor = some tree := by
    cases hencoding : call.encoding with
    | none =>
        obtain ⟨hid, hversion, _⟩ := hshows.passthrough (by
          rw [Encodings.read]
          exact hread.trans (by simp [Encodings.logical, prepareSnapshot, hencoding]))
        exact ⟨hid, hversion, by simp⟩
    | some e =>
        obtain ⟨hid, hversion, tree, htree, hdescriptor⟩ := hshows.encoded ⟨.text token, .text e.encodingId,
          e.encodingVersion, .text e.descriptor⟩ (by
          rw [Encodings.read]
          exact hread.trans (by simp [Encodings.logical, prepareSnapshot, hencoding]))
        refine ⟨hid, hversion, fun e' he' => ?_⟩
        rw [Option.mem_some_iff] at he'
        subst he'
        exact ⟨tree, htree, hdescriptor⟩
  refine ⟨?_, fun e he wanted hwanted => ?_⟩
  · simp only [Creation.agrees, Bool.and_eq_true, decide_eq_true_eq]
    refine ⟨⟨⟨⟨⟨⟨⟨⟨?_, ?_⟩, ?_⟩, hshows.storageId⟩, hshows.byteSize⟩, hshows.digest⟩, hhandler.1⟩,
      hhandler.2.1⟩, hshows.state.trans (hready rfl)⟩
    · exact hshows.schemaName.trans (hb ▸ rfl)
    · exact hshows.schemaVersion.trans (hb ▸ rfl)
    · rw [hmetadata]
      exact sameMetadata_refl _
  · obtain ⟨tree, htree, hself⟩ := readsBack_eq_true (hcall.sealed e he)
    obtain ⟨tree', htree', hdescriptor⟩ := hhandler.2.2 e he
    obtain rfl := Except.ok.inj (htree.symm.trans htree')
    obtain rfl := Except.ok.inj (htree.symm.trans hwanted)
    rw [hdescriptor]
    exact hself

end Store

end MeldStore
