import MeldStore.Lifecycle

namespace MeldStore

open Library.Checked Library.Keyed

namespace Maintenance

-- CLEANUP_PATTERN: (?:objects|staging)/[0-9a-f]{32}
def cleanupKey (key : String) : Bool :=
  ["objects/", "staging/"].any fun start =>
    start.toList.isPrefixOf key.toList &&
      (key.toList.drop start.length).length == 32 && (key.toList.drop start.length).all isHexChar

def checkKeys (db : Catalog) : Except Error Unit :=
  require db.DeferredKeys
    (.IntegrityError "Catalog has foreign key violations; cleanup is unsafe")

def queueOrphan (storage : String) (db : Catalog) (key : String) : Except Error Catalog := do
  require (∀ p ∈ db.prepared, ¬(p.storageId = .text storage ∧ p.objectKey = .text key))
    (.ConflictError "Known prepared objects are protected; resolve or discard their token explicitly")
  insertOrIgnoreGc db { storageId := .text storage, objectKey := .text key, token := none,
                        blobId := none, reason := .orphan, state := .pending, lastError := none }

def queueOrphans (storage : String) (keys : List String) (db : Catalog) : Except Error Catalog := do
  require (1 ≤ keys.length ∧ keys.length ≤ 1000 ∧ keys.Nodup)
    (.ValidationError "Supply 1..1000 distinct exact keys from reconciliation")
  require (∀ key ∈ keys, cleanupKey key)
    (.ValidationError "Cleanup accepts only exact MeldStore object/staging keys")
  checkKeys db
  keys.foldlM (queueOrphan storage) db

-- The first transaction of cleanup: the jobs whose objects it then deletes.
def cleanupJobs (storage : String) (limit : Nat) (db : Catalog) : Except Error (List GcRow) := do
  require (1 ≤ limit ∧ limit ≤ 1000) (.ValidationError "Bound must be an integer between 1 and 1000")
  checkKeys db
  let pending := db.gc.filter fun g => g.storageId = .text storage && g.state = .pending
  let jobs := (pending.insertionSort fun a b => a.objectKey ≤ b.objectKey).take limit
  require (∀ job ∈ jobs, ¬(∃ p ∈ db.prepared, ∃ o ∈ db.objects, o.token = p.token ∧
      p.storageId = job.storageId ∧ p.objectKey = job.objectKey) ∧
      ∀ id ∈ job.blobId, id ≠ "" → ∀ b ∈ db.blobs, b.id ≠ id)
    (.ConflictError "Queued object still has a live catalog reference")
  pure jobs

-- str(exc) of a failed deletion; an empty text would count as no error.
def jobState (error : Option String) : JobState :=
  if error = none ∨ error = some "" then .done else .pending

-- The transaction that records the outcome of one deletion.
def recordCleanup (job : GcRow) (error : Option String) (db : Catalog) : Except Error Catalog :=
  onRow db.gc (fun g => g.sameKey job && g.state = .pending)
    (fun g => updateGc db g { g with state := jobState error, lastError := error }) db

end Maintenance

end MeldStore
