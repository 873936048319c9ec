import MeldStore.Store.Invariant

namespace MeldStore

open Library Library.Checked Library.Keyed

-- The single-row statements an application may run itself. An UPDATE or DELETE
-- names the key of its row; the new values are anything.
inductive Direct
  | insertBlob (new : BlobCells)
  | updateBlob (id : String) (new : BlobCells) (ofState : Bool)
  | deleteBlob (id : String)
  | insertObject (new : ObjectCells)
  | updateObject (blobId : String) (new : ObjectCells)
  | deleteObject (blobId : String)
  | insertPrepared (new : PreparedCells)
  | updatePrepared (token : TextCell) (new : PreparedCells)
  | deletePrepared (token : TextCell)
  | insertEncoding (new : EncodingCells)
  | updateEncoding (token : TextCell) (new : EncodingCells)
  | deleteEncoding (token : TextCell)
  | insertMeta (table : String) (new : MetaCells)
  | updateMeta (table : String) (id : TextCell) (new : MetaCells)
  | deleteMeta (table : String) (id : TextCell)

def Direct.exec (db : Catalog) : Direct → Except Error Catalog
  | insertBlob new => MeldStore.insertBlob db new
  | updateBlob id new ofState =>
      onRow db.blobs (fun b => b.id = id) (fun b => MeldStore.updateBlob db b new ofState) db
  | deleteBlob id => onRow db.blobs (fun b => b.id = id) (MeldStore.deleteBlob db) db
  | insertObject new => MeldStore.insertObject db new
  | updateObject blobId new =>
      onRow db.objects (fun o => o.blobId = blobId) (fun o => MeldStore.updateObject db o new) db
  | deleteObject blobId => onRow db.objects (fun o => o.blobId = blobId) (MeldStore.deleteObject db) db
  | insertPrepared new => MeldStore.insertPrepared db new
  | updatePrepared token new =>
      onRow db.prepared (fun p => p.token = token) (fun p => MeldStore.updatePrepared db p new) db
  | deletePrepared token =>
      onRow db.prepared (fun p => p.token = token) (MeldStore.deletePrepared db) db
  | insertEncoding new => MeldStore.insertEncoding db new
  | updateEncoding token new =>
      onRow db.encodings (fun e => e.token = token) (fun e => MeldStore.updateEncoding db e new) db
  | deleteEncoding token =>
      onRow db.encodings (fun e => e.token = token) (MeldStore.deleteEncoding db) db
  | insertMeta table new => MeldStore.insertMeta db table new
  | updateMeta table id new =>
      onRow db.metadata (fun m => m.table = table && m.id = id)
        (fun m => MeldStore.updateMeta db m new) db
  | deleteMeta table id =>
      onRow db.metadata (fun m => m.table = table && m.id = id) (MeldStore.deleteMeta db) db

-- What a direct statement can do to a well-formed catalog. Removing a blob or an
-- object association is not among it: both need a retirement, and the blobs of
-- retired ids are gone.
inductive DirectEffect (db : Catalog) : Catalog → Prop
  | nothing : DirectEffect db db
  | blobInserted (b : BlobRow) (hstate : b.state = .publishing)
      (hretired : ∀ r ∈ db.retired, r.blobId ≠ b.id) (hfresh : ∀ other ∈ db.blobs, other.id ≠ b.id)
      (hdeclared : db.hasSchema b.schemaName b.schemaVersion) :
      DirectEffect db { db with blobs := db.blobs ++ [b] }
  | blobUpdated (old new : BlobRow) (hold : old ∈ db.blobs) (hid : new.id = old.id)
      (hname : new.schemaName = old.schemaName) (hkept : old.state = .ready → new.state = .ready)
      (hguards : old.state ≠ .ready → new.state = .ready → ∀ guard ∈ db.guards,
        guard.schemaName = new.schemaName → Publishable db guard new)
      (hdeclared : db.hasSchema new.schemaName new.schemaVersion)
      (hparent : new.schemaVersion = old.schemaVersion ∨ db.evolved old.schemaName = true ∨
        ∀ m ∈ db.metadata, ¬m.childOf old) :
      DirectEffect db
        { db with blobs := rewrite (fun b => b.id = old.id) (fun _ => new) db.blobs }
  | objectInserted (o : ObjectRow) (hrevoked : ∀ g ∈ db.gc, g.token ≠ some o.token)
      (hfresh : ∀ other ∈ db.objects, other.blobId ≠ o.blobId)
      (htoken : ∀ other ∈ db.objects, other.token ≠ o.token)
      (hblob : ∃ b ∈ db.blobs, b.id = o.blobId) (hprepared : ∃ p ∈ db.prepared, p.token = o.token) :
      DirectEffect db { db with objects := db.objects ++ [o] }
  | preparedInserted (p : PreparedRow) (htoken : ∀ other ∈ db.prepared, other.token ≠ p.token)
      (hkey : ∀ other ∈ db.prepared,
        ¬(other.storageId = p.storageId ∧ other.objectKey = p.objectKey)) :
      DirectEffect db { db with prepared := db.prepared ++ [p] }
  | preparedDeleted (p : PreparedRow) (hobjects : ∀ o ∈ db.objects, o.token ≠ p.token)
      (hretired : ∀ r ∈ db.retired, r.token ≠ p.token) :
      DirectEffect db { db with prepared := db.prepared.filter fun other => other.token ≠ p.token }
  | encodingInserted (e : EncodingRow) (hfresh : ∀ other ∈ db.encodings, other.token ≠ e.token) :
      DirectEffect db { db with encodings := db.encodings ++ [e] }
  | metaInserted (m : MetaRow) (hfresh : ∀ other ∈ db.metadata, ¬(other.table = m.table ∧ other.id = m.id))
      (hparent : db.evolved m.table = true ∨ db.hasParent m) (hadmits : db.Admits m ∧ db.Narrow m) :
      DirectEffect db { db with metadata := db.metadata ++ [m] }
  | metaUpdated (old new : MetaRow) (hold : old ∈ db.metadata)
      (hnew : new.table = old.table ∧ new.id = old.id ∧ new.schemaVersion = old.schemaVersion)
      (hadmits : db.Admits new ∧ db.Narrow new) :
      DirectEffect db
        { db with metadata := rewrite (fun m => m.sameKey old) (fun _ => new) db.metadata }
  | metaDeleted (m : MetaRow)
      (hretired : m.table ∈ db.lifecycleSchemas → ∃ r ∈ db.retired, .text r.blobId = m.id) :
      DirectEffect db { db with metadata := db.metadata.filter fun other => !other.sameKey m }

theorem direct_effect {db after : Catalog} (hw : db.Wf) {statement : Direct}
    (h : statement.exec db = .ok after) : DirectEffect db after := by
  cases statement with
  | insertBlob new =>
      obtain ⟨b, _, hstate, hretired, hfresh, hdeclared, rfl⟩ := insertBlob_effect h
      exact .blobInserted b hstate hretired hfresh hdeclared
  | updateBlob id new ofState =>
      rcases onRow_effect h with ⟨old, _, hold, _, hupdate⟩ | ⟨_, rfl⟩
      swap
      · exact .nothing
      obtain ⟨row, _, hid, hname, _, hstate, hready, hguards, hdeclared, hparent, rfl⟩ :=
        updateBlob_effect hupdate
      have hlive : ¬∃ r ∈ db.retired, r.blobId = old.id := hw.not_retired hold
      refine .blobUpdated old row hold hid hname (fun ho => ?_) (fun hne hr => ?_) hdeclared hparent
      · rcases hstate with hs | ⟨hs, _⟩ | ⟨_, hs⟩
        · exact hs.trans ho
        · rw [ho] at hs
          cases hs
        · exact absurd hs hlive
      · rcases hready hr with hs | hs
        · exact absurd (hs.symm.trans hr) hne
        · exact hguards hs hr
  | deleteBlob id =>
      rcases onRow_effect h with ⟨old, _, hold, _, hdelete⟩ | ⟨_, rfl⟩
      · exact absurd (deleteBlob_effect hdelete).2.1 (hw.not_retired hold)
      · exact .nothing
  | insertObject new =>
      obtain ⟨o, _, _, hrevoked, hfresh, htoken, hblob, hprepared, rfl⟩ := insertObject_effect h
      exact .objectInserted o hrevoked hfresh htoken hblob hprepared
  | updateObject blobId new =>
      rcases onRow_effect h with ⟨_, _, _, _, hupdate⟩ | ⟨_, rfl⟩
      · cases hupdate
      · exact .nothing
  | deleteObject blobId =>
      rcases onRow_effect h with ⟨old, _, hold, _, hdelete⟩ | ⟨_, rfl⟩
      swap
      · exact .nothing
      obtain ⟨r, hr, hid, _⟩ := (deleteObject_effect hdelete).1
      obtain ⟨b, hb, hbid⟩ := hw.objectHasBlob old hold
      exact absurd ⟨r, hr, hid.trans hbid.symm⟩ (hw.not_retired hb)
  | insertPrepared new =>
      obtain ⟨p, _, _, htoken, hkey, _, rfl⟩ := insertPrepared_effect h
      exact .preparedInserted p htoken hkey
  | updatePrepared token new =>
      rcases onRow_effect h with ⟨_, _, _, _, hupdate⟩ | ⟨_, rfl⟩
      · cases hupdate
      · exact .nothing
  | deletePrepared token =>
      rcases onRow_effect h with ⟨old, _, _, _, hdelete⟩ | ⟨_, rfl⟩
      swap
      · exact .nothing
      obtain ⟨hobjects, hretired, _, rfl⟩ := deletePrepared_effect hdelete
      exact .preparedDeleted old hobjects hretired
  | insertEncoding new =>
      obtain ⟨e, _, _, hfresh, rfl⟩ := insertEncoding_effect h
      exact .encodingInserted e hfresh
  | updateEncoding token new =>
      rcases onRow_effect h with ⟨_, _, _, _, hupdate⟩ | ⟨_, rfl⟩
      · cases hupdate
      · exact .nothing
  | deleteEncoding token =>
      rcases onRow_effect h with ⟨_, _, _, _, hdelete⟩ | ⟨_, rfl⟩
      · cases hdelete
      · exact .nothing
  | insertMeta table new =>
      obtain ⟨m, htable, _, _, hfields, hadmits, _, _, hfresh, hparent, rfl⟩ := insertMeta_effect h
      refine .metaInserted m (by simpa [htable] using hfresh) ?_
        ⟨hadmits, narrow_of_restrictTo htable hfields⟩
      rw [htable]
      exact hparent
  | updateMeta table id new =>
      rcases onRow_effect h with ⟨old, _, hold, _, hupdate⟩ | ⟨_, rfl⟩
      swap
      · exact .nothing
      obtain ⟨row, _, _, htable, hid, _, _, hfields, hadmits, hkind, _, rfl⟩ := updateMeta_effect hupdate
      rcases hkind with ⟨hversion, _⟩ | ⟨_, _, s, hs, _⟩
      · exact .metaUpdated old row hold ⟨htable, hid, hversion⟩
          ⟨hadmits, narrow_of_restrictTo htable hfields⟩
      · -- No migration step is recorded outside of a batch.
        rw [hw.noSteps] at hs
        cases hs
  | deleteMeta table id =>
      rcases onRow_effect h with ⟨old, _, _, _, hdelete⟩ | ⟨_, rfl⟩
      · obtain ⟨hretired, rfl⟩ := deleteMeta_effect hdelete
        exact .metaDeleted old hretired
      · exact .nothing

theorem blobInserted_wf {db : Catalog} (hw : db.Wf) {b : BlobRow}
    (hretired : ∀ r ∈ db.retired, r.blobId ≠ b.id) (hfresh : ∀ other ∈ db.blobs, other.id ≠ b.id)
    (hdeclared : db.hasSchema b.schemaName b.schemaVersion) : { db with blobs := db.blobs ++ [b] }.Wf :=
  { hw with
    blobId := hw.blobId.append _ fun other hother => Or.inr (by simpa using hfresh other hother)
    blobDeclared := by
      intro b' hb'
      rcases List.mem_append.mp hb' with hb' | hb'
      · exact hw.blobDeclared b' hb'
      · obtain rfl := List.mem_singleton.mp hb'
        exact hdeclared
    objectHasBlob := by
      intro o ho
      obtain ⟨parent, hp, hid⟩ := hw.objectHasBlob o ho
      exact ⟨parent, List.mem_append_left _ hp, hid⟩
    metaHasParent := fun m hm => (hw.metaHasParent m hm).imp_right fun h => hasParent_append h b
    retiredGone := by
      intro r hr b' hb'
      rcases List.mem_append.mp hb' with hb' | hb'
      · exact hw.retiredGone r hr b' hb'
      · obtain rfl := List.mem_singleton.mp hb'
        exact (hretired r hr).symm }

theorem objectInserted_wf {db : Catalog} (hw : db.Wf) {o : ObjectRow}
    (hrevoked : ∀ g ∈ db.gc, g.token ≠ some o.token)
    (hfresh : ∀ other ∈ db.objects, other.blobId ≠ o.blobId)
    (htoken : ∀ other ∈ db.objects, other.token ≠ o.token)
    (hblob : ∃ b ∈ db.blobs, b.id = o.blobId) (hprepared : ∃ p ∈ db.prepared, p.token = o.token) :
    { db with objects := db.objects ++ [o] }.Wf :=
  { hw with
    objectBlob := hw.objectBlob.append _ fun other hother => Or.inr (by simpa using hfresh other hother)
    objectToken := hw.objectToken.append _ fun other hother => Or.inr (by simpa using htoken other hother)
    objectHasBlob := by
      intro o' ho'
      rcases List.mem_append.mp ho' with ho' | ho'
      · exact hw.objectHasBlob o' ho'
      · obtain rfl := List.mem_singleton.mp ho'
        exact hblob
    objectHasPrepared := by
      intro o' ho'
      rcases List.mem_append.mp ho' with ho' | ho'
      · exact hw.objectHasPrepared o' ho'
      · obtain rfl := List.mem_singleton.mp ho'
        exact hprepared
    revoked := by
      intro g hg o' ho'
      rcases List.mem_append.mp ho' with ho' | ho'
      · exact hw.revoked g hg o' ho'
      · obtain rfl := List.mem_singleton.mp ho'
        exact hrevoked g hg }

theorem preparedDeleted_wf {db : Catalog} (hw : db.Wf) {p : PreparedRow}
    (hobjects : ∀ o ∈ db.objects, o.token ≠ p.token) (hretired : ∀ r ∈ db.retired, r.token ≠ p.token) :
    { db with prepared := db.prepared.filter fun other => other.token ≠ p.token }.Wf := by
  have hkept : ∀ token, token ≠ p.token → (∃ q ∈ db.prepared, q.token = token) →
      ∃ q ∈ db.prepared.filter fun other => other.token ≠ p.token, q.token = token :=
    fun token hne ⟨q, hq, he⟩ => ⟨q, List.mem_filter.mpr ⟨hq, by simpa [he] using hne⟩, he⟩
  exact { hw with
    preparedToken := hw.preparedToken.filter _
    preparedKey := hw.preparedKey.filter _
    objectHasPrepared := fun o ho => hkept _ (hobjects o ho) (hw.objectHasPrepared o ho)
    retiredHasPrepared := fun r hr => hkept _ (hretired r hr) (hw.retiredHasPrepared r hr) }

theorem DirectEffect.wf {db after : Catalog} (hw : db.Wf) (h : DirectEffect db after) : after.Wf := by
  cases h with
  | nothing => exact hw
  | blobInserted b _ hretired hfresh hdeclared => exact blobInserted_wf hw hretired hfresh hdeclared
  | blobUpdated old new hold hid hname _ _ hdeclared hparent =>
      exact rewriteBlob_wf hw hold hid hname hdeclared hparent
  | objectInserted o hrevoked hfresh htoken hblob hprepared =>
      exact objectInserted_wf hw hrevoked hfresh htoken hblob hprepared
  | preparedInserted p htoken hkey => exact preparedInserted_wf hw htoken hkey
  | preparedDeleted p hobjects hretired => exact preparedDeleted_wf hw hobjects hretired
  | encodingInserted => exact { hw with }
  | metaInserted m hfresh hparent =>
      exact { hw with
        metaKey := hw.metaKey.append _ fun other hother => Or.inr (by simpa using hfresh other hother)
        metaHasParent := by
          intro m' hm'
          rcases List.mem_append.mp hm' with hm' | hm'
          · exact hw.metaHasParent m' hm'
          · obtain rfl := List.mem_singleton.mp hm'
            exact hparent }
  | metaUpdated old new hold hnew =>
      exact rewriteMeta_wf hw hold hnew.1 hnew.2.1 (Or.inl hnew.2.2)
  | metaDeleted m _ =>
      exact { hw with
        metaKey := hw.metaKey.filter _
        metaHasParent := fun m' hm' => hw.metaHasParent m' (List.mem_of_mem_filter hm') }

end MeldStore
