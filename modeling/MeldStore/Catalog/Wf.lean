import MeldStore.Catalog.Effects

namespace MeldStore

open Library.Checked Library.Keyed

-- The keys and immediate references of a catalog, and what the lifecycle
-- triggers keep: a retired id has no blob, a revoked token no object.
structure Catalog.Wf (db : Catalog) : Prop where
  schemaKey : UniqueOn (fun s => some (s.name, s.version)) db.schemas
  schemaRow : ∀ s ∈ db.schemas, s.definition.name = s.name ∧ s.definition.version = s.version
  blobId : UniqueOn (fun b => some b.id) db.blobs
  preparedToken : UniqueOn (fun p => some p.token) db.prepared
  preparedKey : UniqueOn (fun p => some (p.storageId, p.objectKey)) db.prepared
  objectBlob : UniqueOn (fun o => some o.blobId) db.objects
  objectToken : UniqueOn (fun o => some o.token) db.objects
  retiredBlob : UniqueOn (fun r => some r.blobId) db.retired
  retiredToken : UniqueOn (fun r => some r.token) db.retired
  gcKey : UniqueOn (fun g => some (g.storageId, g.objectKey)) db.gc
  gcToken : UniqueOn (fun g => g.token) db.gc
  gcBlob : UniqueOn (fun g => g.blobId) db.gc
  metaKey : UniqueOn (fun m => some (m.table, m.id)) db.metadata
  migrationName : UniqueOn (fun j => some j.name) db.migrations
  blobDeclared : ∀ b ∈ db.blobs, db.hasSchema b.schemaName b.schemaVersion
  objectHasBlob : ∀ o ∈ db.objects, ∃ b ∈ db.blobs, b.id = o.blobId
  objectHasPrepared : ∀ o ∈ db.objects, ∃ p ∈ db.prepared, p.token = o.token
  retiredHasPrepared : ∀ r ∈ db.retired, ∃ p ∈ db.prepared, p.token = r.token
  metaHasParent : ∀ m ∈ db.metadata, db.evolved m.table = true ∨ db.hasParent m
  retiredGone : ∀ r ∈ db.retired, ∀ b ∈ db.blobs, b.id ≠ r.blobId
  revoked : ∀ g ∈ db.gc, ∀ o ∈ db.objects, g.token ≠ some o.token
  noSteps : db.steps = []

namespace Catalog

theorem empty_wf : Catalog.empty.Wf := by
  constructor <;> simp [Catalog.empty]

variable {db : Catalog}

theorem Wf.blob_eq (hw : db.Wf) {a b : BlobRow} (ha : a ∈ db.blobs) (hb : b ∈ db.blobs)
    (hid : a.id = b.id) : a = b :=
  hw.blobId.eq_of_mem ha hb rfl (by rw [hid])

theorem Wf.prepared_eq (hw : db.Wf) {p q : PreparedRow} (hp : p ∈ db.prepared) (hq : q ∈ db.prepared)
    (htoken : p.token = q.token) : p = q :=
  hw.preparedToken.eq_of_mem hp hq rfl (by rw [htoken])

theorem Wf.prepared_eq_of_key (hw : db.Wf) {p q : PreparedRow} (hp : p ∈ db.prepared)
    (hq : q ∈ db.prepared) (hstorage : p.storageId = q.storageId) (hkey : p.objectKey = q.objectKey) :
    p = q :=
  hw.preparedKey.eq_of_mem hp hq rfl (by rw [hstorage, hkey])

theorem Wf.object_eq (hw : db.Wf) {o o' : ObjectRow} (ho : o ∈ db.objects) (ho' : o' ∈ db.objects)
    (hid : o.blobId = o'.blobId) : o = o' :=
  hw.objectBlob.eq_of_mem ho ho' rfl (by rw [hid])

theorem Wf.object_eq_of_token (hw : db.Wf) {o o' : ObjectRow} (ho : o ∈ db.objects)
    (ho' : o' ∈ db.objects) (htoken : o.token = o'.token) : o = o' :=
  hw.objectToken.eq_of_mem ho ho' rfl (by rw [htoken])

theorem Wf.meta_eq (hw : db.Wf) {m n : MetaRow} (hm : m ∈ db.metadata) (hn : n ∈ db.metadata)
    (htable : m.table = n.table) (hid : m.id = n.id) : m = n :=
  hw.metaKey.eq_of_mem hm hn rfl (by rw [htable, hid])

theorem Wf.gc_eq (hw : db.Wf) {g g' : GcRow} (hg : g ∈ db.gc) (hg' : g' ∈ db.gc)
    (hkey : g.sameKey g' = true) : g = g' := by
  simp only [GcRow.sameKey, Bool.and_eq_true, decide_eq_true_eq] at hkey
  exact hw.gcKey.eq_of_mem hg hg' rfl (by rw [hkey.1, hkey.2])

-- While retired ids have no blobs, no blob stays pending deletion.
theorem Wf.not_retired (hw : db.Wf) {b : BlobRow} (hb : b ∈ db.blobs) :
    ¬∃ r ∈ db.retired, r.blobId = b.id := by
  rintro ⟨r, hr, he⟩
  exact hw.retiredGone r hr b hb he.symm

end Catalog

theorem sameKey_iff (m n : MetaRow) : m.sameKey n = true ↔ m.table = n.table ∧ m.id = n.id := by
  simp [MetaRow.sameKey]

theorem evolved_iff (db : Catalog) (name : String) : db.evolved name = true ↔ name ∈ db.layouts := by
  simp [Catalog.evolved]

end MeldStore
