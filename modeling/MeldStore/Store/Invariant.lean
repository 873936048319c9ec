import MeldStore.Store.Effects
import MeldStore.Library.Runs

namespace MeldStore

open Library Library.Checked Library.Keyed

-- Every effect keeps the catalog well formed.

theorem hasSchema_append {db : Catalog} {rows : List SchemaRow} {name : String} {version : Int}
    (h : db.hasSchema name version) : { db with schemas := db.schemas ++ rows }.hasSchema name version := by
  obtain ⟨s, hs, heq⟩ := h
  exact ⟨s, List.mem_append_left _ hs, heq⟩

theorem schemaKey_append {db : Catalog} (hw : db.Wf) {schema : BlobSchema}
    (hfresh : ¬db.hasSchema schema.name schema.version) :
    UniqueOn (fun s : SchemaRow => some (s.name, s.version))
      (db.schemas ++ [{ name := schema.name, version := schema.version, definition := schema }]) := by
  refine hw.schemaKey.append _ fun other hother => Or.inr fun heq => ?_
  simp only [Option.some.injEq, Prod.mk.injEq] at heq
  exact hfresh ⟨other, hother, heq⟩

theorem schemaRow_append {db : Catalog} (hw : db.Wf) (schema : BlobSchema) :
    ∀ s ∈ db.schemas ++ [{ name := schema.name, version := schema.version, definition := schema }],
      s.definition.name = s.name ∧ s.definition.version = s.version := by
  intro s hs
  rcases List.mem_append.mp hs with hs | hs
  · exact hw.schemaRow s hs
  · obtain rfl := List.mem_singleton.mp hs
    exact ⟨rfl, rfl⟩

theorem Installs.wf {db after : Catalog} {schema : BlobSchema} (hw : db.Wf)
    (h : Installs db schema after) : after.Wf := by
  obtain ⟨schemas, guards, payload, rfl, hschemas, _⟩ := h
  rcases hschemas with ⟨rfl, _⟩ | ⟨rfl, hfresh, _⟩
  · simp only [List.append_nil]
    exact { hw with }
  · exact { hw with
      schemaKey := schemaKey_append hw hfresh
      schemaRow := schemaRow_append hw schema
      blobDeclared := fun b hb => hasSchema_append (hw.blobDeclared b hb) }

-- A new row of the journal.
theorem preparedInserted_wf {db : Catalog} (hw : db.Wf) {p : PreparedRow}
    (htoken : ∀ other ∈ db.prepared, other.token ≠ p.token)
    (hkey : ∀ other ∈ db.prepared, ¬(other.storageId = p.storageId ∧ other.objectKey = p.objectKey)) :
    { db with prepared := db.prepared ++ [p] }.Wf := by
  have hkept : ∀ token, (∃ q ∈ db.prepared, q.token = token) →
      ∃ q ∈ db.prepared ++ [p], q.token = token :=
    fun token ⟨q, hq, he⟩ => ⟨q, List.mem_append_left _ hq, he⟩
  exact { hw with
    preparedToken := hw.preparedToken.append _ fun other hother =>
      Or.inr (by simpa using htoken other hother)
    preparedKey := hw.preparedKey.append _ fun other hother =>
      Or.inr (by simpa using hkey other hother)
    objectHasPrepared := fun o ho => hkept _ (hw.objectHasPrepared o ho)
    retiredHasPrepared := fun r hr => hkept _ (hw.retiredHasPrepared r hr) }

theorem Journaled.wf {db after : Catalog} {prepared : PreparedFile} (hw : db.Wf)
    (h : Journaled db prepared after) : after.Wf := by
  obtain ⟨schema, _, htoken, hkey, _, _, _⟩ := h
  exact { preparedInserted_wf hw htoken hkey with }

theorem hasParent_append {db : Catalog} {m : MetaRow} (h : db.hasParent m) (b : BlobRow) :
    { db with blobs := db.blobs ++ [b] }.hasParent m := by
  obtain ⟨parent, hp, hchild⟩ := h
  exact ⟨parent, List.mem_append_left _ hp, hchild⟩

theorem finalized_wf {db : Catalog} (hw : db.Wf) {b : BlobRow} {m : MetaRow} {o : ObjectRow}
    {p : PreparedRow} {schema : BlobSchema} (hdeclared : db.hasSchema b.schemaName b.schemaVersion)
    (hblob : b.schemaName = schema.name ∧ b.schemaVersion = schema.version)
    (hfresh : ∀ other ∈ db.blobs, other.id ≠ b.id) (hretired : ∀ r ∈ db.retired, r.blobId ≠ b.id)
    (hmeta : m.table = schema.name ∧ m.id = .text b.id ∧ m.schemaVersion = schema.version)
    (hmetaFresh : ∀ other ∈ db.metadata, ¬(other.table = m.table ∧ other.id = m.id))
    (hobject : o.blobId = b.id ∧ o.token = p.token)
    (htoken : ∀ other ∈ db.objects, other.token ≠ o.token)
    (hrevoked : ∀ g ∈ db.gc, g.token ≠ some o.token) (hprepared : p ∈ db.prepared) :
    { db with blobs := db.blobs ++ [b], metadata := db.metadata ++ [m],
              objects := db.objects ++ [o] }.Wf := by
  have hfreshObject : ∀ other ∈ db.objects, other.blobId ≠ b.id := by
    intro other hother he
    obtain ⟨parent, hparent, hid⟩ := hw.objectHasBlob other hother
    exact hfresh parent hparent (hid.trans he)
  exact { hw with
    blobId := hw.blobId.append _ fun other hother => Or.inr (by simpa using hfresh other hother)
    objectBlob := hw.objectBlob.append _ fun other hother =>
      Or.inr (by simpa [hobject.1] using hfreshObject other hother)
    objectToken := hw.objectToken.append _ fun other hother =>
      Or.inr (by simpa using htoken other hother)
    metaKey := hw.metaKey.append _ fun other hother =>
      Or.inr (by simpa using hmetaFresh other hother)
    blobDeclared := by
      intro b' hb'
      rcases List.mem_append.mp hb' with hb' | hb'
      · exact hw.blobDeclared b' hb'
      · obtain rfl := List.mem_singleton.mp hb'
        exact hdeclared
    objectHasBlob := by
      intro o' ho'
      rcases List.mem_append.mp ho' with ho' | ho'
      · obtain ⟨parent, hp, hid⟩ := hw.objectHasBlob o' ho'
        exact ⟨parent, List.mem_append_left _ hp, hid⟩
      · obtain rfl := List.mem_singleton.mp ho'
        exact ⟨b, List.mem_append_right _ (List.mem_singleton.mpr rfl), hobject.1.symm⟩
    objectHasPrepared := by
      intro o' ho'
      rcases List.mem_append.mp ho' with ho' | ho'
      · exact hw.objectHasPrepared o' ho'
      · obtain rfl := List.mem_singleton.mp ho'
        exact ⟨p, hprepared, hobject.2.symm⟩
    metaHasParent := by
      intro m' hm'
      rcases List.mem_append.mp hm' with hm' | hm'
      · exact (hw.metaHasParent m' hm').imp_right fun h => hasParent_append h b
      · obtain rfl := List.mem_singleton.mp hm'
        refine Or.inr ⟨b, List.mem_append_right _ (List.mem_singleton.mpr rfl), ?_, hmeta.2.1, ?_⟩
        · rw [hmeta.1, hblob.1]
        · rw [hmeta.2.2, hblob.2]
    retiredGone := by
      intro r hr b' hb'
      rcases List.mem_append.mp hb' with hb' | hb'
      · exact hw.retiredGone r hr b' hb'
      · obtain rfl := List.mem_singleton.mp hb'
        exact (hretired r hr).symm
    revoked := by
      intro g hg o' ho'
      rcases List.mem_append.mp ho' with ho' | ho'
      · exact hw.revoked g hg o' ho'
      · obtain rfl := List.mem_singleton.mp ho'
        exact hrevoked g hg }

-- Replacing a blob row by one with the same id and schema name.
theorem rewriteBlob_wf {db : Catalog} (hw : db.Wf) {b new : BlobRow} (hb : b ∈ db.blobs)
    (hid : new.id = b.id) (hname : new.schemaName = b.schemaName)
    (hdeclared : db.hasSchema new.schemaName new.schemaVersion)
    (hparent : new.schemaVersion = b.schemaVersion ∨ db.evolved b.schemaName = true ∨
      ∀ m ∈ db.metadata, ¬m.childOf b) :
    { db with blobs := rewrite (fun other => other.id = b.id) (fun _ => new) db.blobs }.Wf := by
  have hmem : ∀ row, row ∈ rewrite (fun other : BlobRow => other.id = b.id) (fun _ => new) db.blobs ↔
      (row ∈ db.blobs ∧ row.id ≠ b.id) ∨ row = new := by
    intro row
    rw [mem_rewrite]
    constructor
    · rintro (⟨h, hs⟩ | ⟨old, _, _, rfl⟩)
      · exact Or.inl ⟨h, by simpa using hs⟩
      · exact Or.inr rfl
    · rintro (⟨h, hne⟩ | rfl)
      · exact Or.inl ⟨h, by simpa using hne⟩
      · exact Or.inr ⟨b, hb, by simp, rfl⟩
  exact { hw with
    blobId := hw.blobId.rewrite _ _ fun row _ hs => by simpa [hid] using (of_decide_eq_true hs).symm
    blobDeclared := by
      intro row hrow
      rcases (hmem row).mp hrow with ⟨h, _⟩ | rfl
      · exact hw.blobDeclared row h
      · exact hdeclared
    objectHasBlob := by
      intro o ho
      obtain ⟨parent, hp, he⟩ := hw.objectHasBlob o ho
      by_cases hsame : parent.id = b.id
      · exact ⟨new, (hmem new).mpr (Or.inr rfl), by rw [hid, ← hsame, he]⟩
      · exact ⟨parent, (hmem parent).mpr (Or.inl ⟨hp, hsame⟩), he⟩
    metaHasParent := by
      intro m hm
      rcases hw.metaHasParent m hm with hevolved | ⟨parent, hp, hchild⟩
      · exact Or.inl hevolved
      by_cases hsame : parent.id = b.id
      · obtain rfl := hw.blob_eq hp hb hsame
        rcases hparent with hversion | hevolved | hchildless
        · refine Or.inr ⟨new, (hmem new).mpr (Or.inr rfl), ?_⟩
          exact ⟨hchild.1.trans hname.symm, hchild.2.1.trans (by rw [hid]),
            hchild.2.2.trans hversion.symm⟩
        · exact Or.inl (hchild.1 ▸ hevolved)
        · exact absurd hchild (hchildless m hm)
      · exact Or.inr ⟨parent, (hmem parent).mpr (Or.inl ⟨hp, hsame⟩), hchild⟩
    retiredGone := by
      intro r hr row hrow
      rcases (hmem row).mp hrow with ⟨h, _⟩ | rfl
      · exact hw.retiredGone r hr row h
      · rw [hid]
        exact hw.retiredGone r hr b hb }

-- Replacing a metadata row by one with the same key, under its old parent or in
-- an evolved table.
theorem rewriteMeta_wf {db : Catalog} (hw : db.Wf) {old new : MetaRow} (hold : old ∈ db.metadata)
    (htable : new.table = old.table) (hid : new.id = old.id)
    (hparent : new.schemaVersion = old.schemaVersion ∨ db.evolved old.table = true) :
    { db with metadata := rewrite (fun m => m.sameKey old) (fun _ => new) db.metadata }.Wf :=
  { hw with
    metaKey := by
      refine hw.metaKey.rewrite _ _ fun m hm hs => ?_
      obtain ⟨h1, h2⟩ := (sameKey_iff m old).mp hs
      simp [htable, hid, h1, h2]
    metaHasParent := by
      intro m hm
      rcases (mem_rewrite _ _ _ _).mp hm with ⟨hm, _⟩ | ⟨_, _, _, rfl⟩
      · exact hw.metaHasParent m hm
      · rcases hw.metaHasParent old hold with hevolved | ⟨parent, hp, hchild⟩
        · exact Or.inl (by rw [htable]; exact hevolved)
        rcases hparent with hversion | hevolved
        · exact Or.inr ⟨parent, hp, htable.trans hchild.1, hid.trans hchild.2.1,
            hversion.trans hchild.2.2⟩
        · exact Or.inl (by rw [htable]; exact hevolved) }

theorem retired_wf {db : Catalog} (hw : db.Wf) {b : BlobRow} {o : ObjectRow} {p : PreparedRow}
    {m : MetaRow} {r : RetiredRow} {g : GcRow} (hcomplete : db.Complete b.id b o p m)
    (hfresh : ∀ other ∈ db.retired, other.blobId ≠ b.id)
    (htoken : ∀ other ∈ db.retired, other.token ≠ p.token)
    (hr : r.blobId = b.id ∧ r.token = p.token)
    (hg : g.token = some p.token ∧ g.blobId = some b.id) (hcollides : ∀ other ∈ db.gc, ¬g.collides other) :
    { db with blobs := db.blobs.filter fun other => other.id ≠ b.id,
              metadata := db.metadata.filter fun other => !other.sameKey m,
              objects := db.objects.filter fun other => other.blobId ≠ b.id,
              retired := db.retired ++ [r], gc := db.gc ++ [g] }.Wf := by
  have hcollision : ∀ other ∈ db.gc, ¬((other.storageId, other.objectKey) = (g.storageId, g.objectKey)) ∧
      other.token ≠ g.token ∧ other.blobId ≠ g.blobId := by
    intro other hother
    have := hcollides other hother
    simp only [GcRow.collides, hg.1, hg.2, not_or, not_and] at this ⊢
    grind
  exact { hw with
    blobId := hw.blobId.filter _
    metaKey := hw.metaKey.filter _
    objectBlob := hw.objectBlob.filter _
    objectToken := hw.objectToken.filter _
    retiredBlob := hw.retiredBlob.append _ fun other hother =>
      Or.inr (by simpa [hr.1] using hfresh other hother)
    retiredToken := hw.retiredToken.append _ fun other hother =>
      Or.inr (by simpa [hr.2] using htoken other hother)
    gcKey := hw.gcKey.append _ fun other hother => Or.inr (by simpa using (hcollision other hother).1)
    gcToken := hw.gcToken.append _ fun other hother => Or.inr (hcollision other hother).2.1
    gcBlob := hw.gcBlob.append _ fun other hother => Or.inr (hcollision other hother).2.2
    blobDeclared := fun b' hb' => hw.blobDeclared b' (List.mem_of_mem_filter hb')
    objectHasBlob := by
      intro o' ho'
      obtain ⟨ho', hne⟩ := List.mem_filter.mp ho'
      obtain ⟨parent, hp, he⟩ := hw.objectHasBlob o' ho'
      exact ⟨parent, List.mem_filter.mpr ⟨hp, by simpa [he] using hne⟩, he⟩
    objectHasPrepared := fun o' ho' => hw.objectHasPrepared o' (List.mem_of_mem_filter ho')
    retiredHasPrepared := by
      intro r' hr'
      rcases List.mem_append.mp hr' with hr' | hr'
      · exact hw.retiredHasPrepared r' hr'
      · obtain rfl := List.mem_singleton.mp hr'
        exact ⟨p, hcomplete.prepared, hr.2.symm⟩
    metaHasParent := by
      intro m' hm'
      obtain ⟨hm', hother⟩ := List.mem_filter.mp hm'
      rcases hw.metaHasParent m' hm' with hevolved | ⟨parent, hp, hchild⟩
      · exact Or.inl hevolved
      refine Or.inr ⟨parent, List.mem_filter.mpr ⟨hp, ?_⟩, hchild⟩
      -- The only child of the removed blob in its own table is the removed row.
      by_contra hsame
      have hid : parent.id = b.id := by simpa using hsame
      obtain rfl := hw.blob_eq hp hcomplete.blob hid
      have hkey := (sameKey_iff m' m).mpr ⟨hchild.1.trans hcomplete.metaTable.symm,
        hchild.2.1.trans hcomplete.metaId.symm⟩
      simp [hkey] at hother
    retiredGone := by
      intro r' hr' b' hb'
      obtain ⟨hb', hne⟩ := List.mem_filter.mp hb'
      rcases List.mem_append.mp hr' with hr' | hr'
      · exact hw.retiredGone r' hr' b' hb'
      · obtain rfl := List.mem_singleton.mp hr'
        simpa [hr.1] using hne
    revoked := by
      intro g' hg' o' hkept
      obtain ⟨ho', hne⟩ := List.mem_filter.mp hkept
      rcases List.mem_append.mp hg' with hg' | hg'
      · exact hw.revoked g' hg' o' ho'
      · rw [List.mem_singleton.mp hg', hg.1]
        intro he
        have htok : o.token = o'.token := by
          rw [← hcomplete.preparedToken]
          simpa using he
        obtain rfl := hw.object_eq_of_token hcomplete.object ho' htok
        simp [hcomplete.objectBlob] at hne }

-- A cleanup job for a token without a blob, or for no token.
theorem queued_wf {db : Catalog} (hw : db.Wf) {g : GcRow} (hcollides : ∀ other ∈ db.gc, ¬g.collides other)
    (hblob : g.blobId = none) (hunbound : ∀ o ∈ db.objects, g.token ≠ some o.token) :
    { db with gc := db.gc ++ [g] }.Wf := by
  have hcollision : ∀ other ∈ db.gc, ¬((other.storageId, other.objectKey) = (g.storageId, g.objectKey)) ∧
      (other.token = none ∨ other.token ≠ g.token) := by
    intro other hother
    have := hcollides other hother
    simp only [GcRow.collides, not_or, not_and] at this ⊢
    grind
  exact { hw with
    gcKey := hw.gcKey.append _ fun other hother => Or.inr (by simpa using (hcollision other hother).1)
    gcToken := hw.gcToken.append _ fun other hother => (hcollision other hother).2
    gcBlob := hw.gcBlob.append _ fun other _ => by
      cases h : other.blobId with
      | none => exact Or.inl rfl
      | some id => exact Or.inr (by simp [hblob])
    revoked := by
      intro g' hg' o ho
      rcases List.mem_append.mp hg' with hg' | hg'
      · exact hw.revoked g' hg' o ho
      · obtain rfl := List.mem_singleton.mp hg'
        exact hunbound o ho }

theorem Recorded.wf {db after : Catalog} (hw : db.Wf) (h : Recorded db after) : after.Wf := by
  obtain ⟨old, new, hold, _, hnew⟩ := h
  have hsame : ∀ g ∈ db.gc, g.sameKey old = true → new.storageId = g.storageId ∧
      new.objectKey = g.objectKey ∧ new.token = g.token ∧ new.blobId = g.blobId := by
    intro g hg hkey
    obtain rfl := hw.gc_eq hg hold hkey
    rw [hnew]
    exact ⟨rfl, rfl, rfl, rfl⟩
  exact { hw with
    gcKey := hw.gcKey.rewrite _ _ fun g hg hs => by
      obtain ⟨h1, h2, _⟩ := hsame g hg hs
      rw [h1, h2]
    gcToken := hw.gcToken.rewrite _ _ fun g hg hs => (hsame g hg hs).2.2.1
    gcBlob := hw.gcBlob.rewrite _ _ fun g hg hs => (hsame g hg hs).2.2.2
    revoked := by
      intro g hg o ho
      rcases (mem_rewrite _ _ _ _).mp hg with ⟨hg, _⟩ | ⟨g', hg', hs, rfl⟩
      · exact hw.revoked g hg o ho
      · rw [(hsame g' hg' hs).2.2.1]
        exact hw.revoked g' hg' o ho }

theorem started_wf {db : Catalog} (hw : db.Wf) (plan : MetadataMigration)
    (hname : ∀ j ∈ db.migrations, j.name ≠ plan.name)
    (hfresh : ¬db.hasSchema plan.target.name plan.target.version) :
    (Migrations.started plan db).Wf :=
  { hw with
    schemaKey := schemaKey_append hw hfresh
    schemaRow := schemaRow_append hw plan.target
    blobDeclared := fun b hb => hasSchema_append (hw.blobDeclared b hb)
    migrationName := hw.migrationName.append _ fun other hother =>
      Or.inr (by simpa [Migrations.newJob] using hname other hother)
    metaHasParent := by
      intro m hm
      rcases hw.metaHasParent m hm with hevolved | hparent
      · left
        rw [evolved_iff] at hevolved ⊢
        simp only [Migrations.started, Migrations.rebuilt]
        split
        · exact hevolved
        · exact List.mem_append_left _ hevolved
      · exact Or.inr hparent }

theorem Effect.wf {db after : Catalog} (hw : db.Wf) (h : Effect db after) : after.Wf := by
  cases h with
  | installed schema _ h => exact h.wf hw
  | enrolled name _ => exact { hw with }
  | rows _ h =>
      cases h with
      | finalized schema b m o p hinstalled _ hblob hfresh hretired hmeta _ hmetaFresh hobject htoken
          hrevoked hprepared _ =>
          obtain ⟨row, hrow, _⟩ := Option.map_eq_some_iff.mp hinstalled.declared
          obtain ⟨hmem, hname, hversion⟩ := mem_of_schema? hrow
          exact finalized_wf hw ⟨row, hmem, hname.trans hblob.1.symm, hversion.trans hblob.2.1.symm⟩
            ⟨hblob.1, hblob.2.1⟩ hfresh hretired ⟨hmeta.1, hmeta.2.1, hmeta.2.2.1⟩ hmetaFresh hobject
            htoken hrevoked hprepared
      | published b hb _ _ =>
          exact rewriteBlob_wf hw hb rfl rfl (hw.blobDeclared b hb) (Or.inl rfl)
      | edited schema old new _ hold _ _ hnew _ =>
          exact rewriteMeta_wf hw hold hnew.1 hnew.2.1 (Or.inl hnew.2.2.1)
      | retired b o p m r g hcomplete hfresh htoken _ hr hg hcollides =>
          exact retired_wf hw hcomplete hfresh htoken hr ⟨by rw [hg], by rw [hg]⟩ hcollides
      | discarded p g _ hg hunbound _ hcollides =>
          refine queued_wf hw hcollides (by rw [hg]) fun o ho => ?_
          rw [hg]
          simpa using (hunbound o ho).symm
      | orphaned g htoken hblob _ _ _ hcollides =>
          exact queued_wf hw hcollides hblob fun o _ => by simp [htoken]
  | migration _ h =>
      cases h with
      | initialized plan _ _ hname _ _ hfresh => exact started_wf hw plan hname hfresh
      | moved plan b old new hold hb hid htable hversion hnew _ hevolved _ hparent hschema =>
          have hmoved := rewriteMeta_wf hw hold hnew.1 hnew.2.1 (Or.inr hevolved)
          refine rewriteBlob_wf hmoved hb rfl rfl hschema ?_
          rcases hparent with hsame | hevolvedB | hchildless
          · exact Or.inl hsame
          · exact Or.inr (Or.inl hevolvedB)
          by_cases hname : b.schemaName = old.table
          · exact Or.inr (Or.inl (hname ▸ hevolved))
          refine Or.inr (Or.inr fun m hm hchild => ?_)
          rcases (mem_rewrite _ _ _ _).mp hm with ⟨hm, hother⟩ | ⟨_, _, _, rfl⟩
          · exact hchildless m hm (by simp [hother]) hchild
          · exact hname (hchild.1.symm.trans hnew.1)
      | progressed name moved lastId state _ =>
          exact { hw with migrationName := hw.migrationName.rewrite _ _ fun _ _ _ => rfl }

theorem Change.wf {db after : Catalog} (hw : db.Wf) (h : Change db after) : after.Wf :=
  h.rec (Effect.wf hw) (fun _ => Journaled.wf hw) (Recorded.wf hw)

theorem Changes.wf {db after : Catalog} (hw : db.Wf) (h : Changes db after) : after.Wf :=
  Runs.invariant Catalog.Wf (fun _ _ hw h => h.wf hw) h hw

theorem Effects.wf {db after : Catalog} (hw : db.Wf) (h : Effects db after) : after.Wf :=
  h.changes.wf hw

end MeldStore
