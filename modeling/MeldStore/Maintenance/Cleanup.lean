import MeldStore.Backup.Sound
import MeldStore.Deletion
import MeldStore.Library.Batches

namespace MeldStore

open Library Library.Checked Library.Keyed Library.Batches

namespace Maintenance

structure CleanupResult where
  objectKey : TextCell
  state : JobState
  error : Option String
deriving DecidableEq, Repr

-- cleanup: `deleteObject` gives the text of what delete_object raises for a key.
def cleanup (storage : String) (limit : Nat) (deleteObject : TextCell → Option String) (db : Catalog) :
    Except Error (List CleanupResult × Catalog) := do
  let jobs ← cleanupJobs storage limit db
  let db ← jobs.foldlM (fun db job => recordCleanup job (deleteObject job.objectKey) db) db
  let results := jobs.map fun job =>
    { objectKey := job.objectKey, state := jobState (deleteObject job.objectKey),
      error := deleteObject job.objectKey }
  pure (results, db)

-- Calls one after the other; the storage may fail differently each time.
def cleanups (storage : String) (limit : Nat) :
    (ℕ → TextCell → Option String) → ℕ → Catalog → Except Error Catalog
  | _, 0, db => pure db
  | deleteObject, n + 1, db => do
      let (_, db) ← cleanup storage limit (deleteObject 0) db
      cleanups storage limit (fun i => deleteObject (i + 1)) n db

def isPending (storage : String) (g : GcRow) : Bool := g.storageId = .text storage && g.state = .pending

def pendingKeys (storage : String) (db : Catalog) : List TextCell :=
  ((db.gc.filter (isPending storage)).insertionSort fun a b => a.objectKey ≤ b.objectKey).map GcRow.objectKey

-- What a call makes of a job.
def settle (storage : String) (limit : Nat) (deleteObject : TextCell → Option String)
    (db : Catalog) (g : GcRow) : GcRow :=
  if isPending storage g ∧ g.objectKey ∈ tried limit (pendingKeys storage db) then
    { g with state := jobState (deleteObject g.objectKey), lastError := deleteObject g.objectKey }
  else g

def called (storage : String) (limit : Nat) (deleteObject : TextCell → Option String)
    (db : Catalog) : Catalog :=
  { db with gc := db.gc.map (settle storage limit deleteObject db) }

variable {db : Catalog} {storage : String} {limit : Nat}

theorem isPending_iff {g : GcRow} :
    isPending storage g = true ↔ g.storageId = .text storage ∧ g.state = .pending := by
  simp [isPending]

theorem mem_pendingKeys {key : TextCell} :
    key ∈ pendingKeys storage db ↔ ∃ g ∈ db.gc, isPending storage g = true ∧ g.objectKey = key := by
  simp only [pendingKeys, List.mem_map, List.mem_insertionSort, List.mem_filter, and_assoc]

theorem length_pendingKeys : (pendingKeys storage db).length = (db.gc.filter (isPending storage)).length := by
  rw [pendingKeys, List.length_map, List.length_insertionSort]

theorem pendingKeys_sorted (storage : String) (hw : db.Wf) : (pendingKeys storage db).Pairwise (· < ·) := by
  have hunique : ((db.gc.filter (isPending storage)).map GcRow.objectKey).Nodup := by
    refine List.pairwise_map.mpr ((hw.gcKey.filter (isPending storage)).imp_of_mem ?_)
    intro a b ha hb hab hkey
    have ha := isPending_iff.mp (List.mem_filter.mp ha).2
    have hb := isPending_iff.mp (List.mem_filter.mp hb).2
    rcases hab with hnone | hne
    · cases hnone
    · exact hne (by simp only [ha.1, hb.1, hkey])
  have hnodup : (pendingKeys storage db).Nodup :=
    ((List.perm_insertionSort (fun a b : GcRow => a.objectKey ≤ b.objectKey) _).map
      GcRow.objectKey).nodup_iff.mpr hunique
  have hsorted : (pendingKeys storage db).Pairwise (· ≤ ·) :=
    List.pairwise_map.mpr (List.pairwise_insertionSort (fun a b : GcRow => a.objectKey ≤ b.objectKey) _)
  exact (hsorted.and hnodup).imp fun h => lt_of_le_of_ne h.1 h.2

def selected (storage : String) (limit : Nat) (db : Catalog) : List GcRow :=
  ((db.gc.filter (isPending storage)).insertionSort fun a b => a.objectKey ≤ b.objectKey).take limit

theorem mem_of_selected {g : GcRow} (h : g ∈ selected storage limit db) :
    g ∈ db.gc ∧ isPending storage g = true := by
  have hmem := List.mem_of_mem_take h
  rw [List.mem_insertionSort] at hmem
  exact List.mem_filter.mp hmem

theorem keys_selected :
    (selected storage limit db).map GcRow.objectKey = tried limit (pendingKeys storage db) := by
  rw [selected, tried, pendingKeys, List.map_take]

theorem mem_selected (hw : db.Wf) {g : GcRow} (hg : g ∈ db.gc) :
    g ∈ selected storage limit db ↔ isPending storage g = true ∧
    g.objectKey ∈ tried limit (pendingKeys storage db) := by
  constructor
  · intro h
    exact ⟨(mem_of_selected h).2, keys_selected ▸ List.mem_map_of_mem h⟩
  · rintro ⟨hpending, hkey⟩
    rw [← keys_selected] at hkey
    obtain ⟨other, hother, hsame⟩ := List.mem_map.mp hkey
    obtain ⟨hmem, hpending'⟩ := mem_of_selected hother
    obtain rfl : g = other := by
      refine hw.gcKey.eq_of_mem hg hmem rfl ?_
      rw [(isPending_iff.mp hpending).1, (isPending_iff.mp hpending').1, hsame]
    exact hother

theorem selected_distinct (hw : db.Wf) :
    (selected storage limit db).Pairwise fun a b => b.sameKey a = false := by
  have hsorted := (pendingKeys_sorted storage hw).sublist (List.take_sublist limit _)
  rw [show (pendingKeys storage db).take limit = (selected storage limit db).map GcRow.objectKey from
    keys_selected.symm] at hsorted
  refine (List.pairwise_map.mp hsorted).imp fun hlt => ?_
  simp [GcRow.sameKey, hlt.ne']

-- The first transaction of a call always passes.
theorem cleanupJobs_eq (h : Backup.Operated db) (hlimit : 1 ≤ limit ∧ limit ≤ 1000) (storage : String) :
    cleanupJobs storage limit db = .ok (selected storage limit db) := by
  have hs := h.sound
  have hsafe : ∀ job ∈ selected storage limit db, ¬(∃ p ∈ db.prepared, ∃ o ∈ db.objects, o.token = p.token ∧
        p.storageId = job.storageId ∧ p.objectKey = job.objectKey) ∧
        ∀ id ∈ job.blobId, id ≠ "" → ∀ b ∈ db.blobs, b.id ≠ id := by
    intro job hjob
    have hgc := (mem_of_selected hjob).1
    refine ⟨?_, fun id hid _ b hb => ?_⟩
    · rintro ⟨p, hp, o, ho, htoken, hstorage, hkey⟩
      obtain ⟨b, hb, hbid⟩ := hs.settled.wf.objectHasBlob o ho
      refine hs.settled.ledger.unprotected ⟨job, hgc, rfl, rfl⟩ hstorage hkey ⟨hp, Or.inl ⟨b.id, ?_⟩⟩
      exact ⟨⟨o, ho, htoken, hbid.symm⟩, b, hb, rfl⟩
    · obtain ⟨r, hr, hrid⟩ := hs.registered.gc job hgc id hid
      rw [← hrid]
      exact hs.settled.wf.retiredGone r hr b hb
  simp only [cleanupJobs, bind_eq_ok, require_eq_ok, pure_eq_ok, checkKeys]
  exact ⟨⟨⟩, hlimit, ⟨⟩, hs.settled.keys, ⟨⟩, hsafe, rfl⟩

-- The transaction that records a job still pending.
theorem recordCleanup_eq (hkeys : UniqueOn (fun g => some (g.storageId, g.objectKey)) db.gc) {job : GcRow}
    (hjob : job ∈ db.gc) (hpending : job.state = .pending) (error : Option String) :
    recordCleanup job error db = .ok { db with
      gc := rewrite (fun g => g.sameKey job)
        (fun _ => { job with state := jobState error, lastError := error }) db.gc } := by
  have hsame : ∀ g : GcRow, g.sameKey job = true → some (g.storageId, g.objectKey) =
      some (job.storageId, job.objectKey) := by
    intro g hg
    simp only [GcRow.sameKey, Bool.and_eq_true, decide_eq_true_eq] at hg
    rw [hg.1, hg.2]
  have hfound : (db.gc.find? fun g => g.sameKey job && g.state = .pending) = some job := by
    refine hkeys.find?_eq_some hjob rfl _ ?_ fun other _ hother => ?_
    · simp [System.sameKey_refl, hpending]
    · exact hsame other ((Bool.and_eq_true _ _).mp hother).1
  simp [recordCleanup, onRow, hfound, updateGc, msGcIdentity, Truth.or, anyHolds, Truth.holds,
    Value.isNot, require, bind, Except.bind, pure, Except.pure, hpending]

def outcome (deleteObject : TextCell → Option String) (g : GcRow) : GcRow :=
  { g with state := jobState (deleteObject g.objectKey), lastError := deleteObject g.objectKey }

theorem recordings_eq (deleteObject : TextCell → Option String) (jobs : List GcRow) (db : Catalog)
    (hkeys : UniqueOn (fun g => some (g.storageId, g.objectKey)) db.gc)
    (hjobs : ∀ job ∈ jobs, job ∈ db.gc ∧ job.state = .pending)
    (hdistinct : jobs.Pairwise fun a b => b.sameKey a = false) :
    jobs.foldlM (fun db job => recordCleanup job (deleteObject job.objectKey) db) db =
      .ok { db with gc := db.gc.map fun g => if g ∈ jobs then outcome deleteObject g else g } := by
  induction jobs generalizing db with
  | nil => simp [pure, Except.pure]
  | cons job rest ih =>
      obtain ⟨hfirst, hrest⟩ := List.pairwise_cons.mp hdistinct
      obtain ⟨hmem, hpending⟩ := hjobs job List.mem_cons_self
      have hsame : ∀ g ∈ db.gc, g.sameKey job = true → g = job := by
        intro g hg hkey
        simp only [GcRow.sameKey, Bool.and_eq_true, decide_eq_true_eq] at hkey
        exact hkeys.eq_of_mem hg hmem rfl (by rw [hkey.1, hkey.2])
      rw [List.foldlM_cons, recordCleanup_eq hkeys hmem hpending]
      have hkeys' : UniqueOn (fun g => some (g.storageId, g.objectKey))
          (rewrite (fun g => g.sameKey job) (fun _ => outcome deleteObject job) db.gc) :=
        hkeys.rewrite _ _ fun g hg hkey => by rw [hsame g hg hkey]; rfl
      have hrest' : ∀ other ∈ rest, other ∈ rewrite (fun g => g.sameKey job)
          (fun _ => outcome deleteObject job) db.gc ∧ other.state = .pending := by
        intro other hother
        obtain ⟨hold, hstate⟩ := hjobs other (List.mem_cons_of_mem _ hother)
        exact ⟨(mem_rewrite _ _ _ _).mpr (Or.inl ⟨hold, hfirst other hother⟩), hstate⟩
      have hnext :=
        ih { db with gc := rewrite (fun g => g.sameKey job) (fun _ => outcome deleteObject job) db.gc }
        hkeys' hrest' hrest
      refine hnext.trans ?_
      simp only [rewrite, List.map_map]
      congr 2
      refine List.map_congr_left fun g hg => ?_
      rw [Function.comp_apply]
      cases hkey : g.sameKey job with
      | true =>
          obtain rfl := hsame g hg hkey
          have hout : outcome deleteObject g ∉ rest := fun hin => by
            have hne := hfirst _ hin
            rw [show (outcome deleteObject g).sameKey g = true from System.sameKey_refl g] at hne
            cases hne
          simp only [if_true, if_neg hout, List.mem_cons_self]
      | false =>
          have hne : g ≠ job := by
            rintro rfl
            rw [System.sameKey_refl] at hkey
            cases hkey
          simp [hne]

theorem cleanup_eq (h : Backup.Operated db) (hlimit : 1 ≤ limit ∧ limit ≤ 1000) (storage : String)
    (deleteObject : TextCell → Option String) :
    ∃ results, cleanup storage limit deleteObject db = .ok (results, called storage limit deleteObject db) := by
  have hw := h.sound.settled.wf
  have hloop := recordings_eq deleteObject (selected storage limit db) db hw.gcKey
    (fun job hjob => ⟨(mem_of_selected hjob).1, (isPending_iff.mp (mem_of_selected hjob).2).2⟩)
      (selected_distinct hw)
  have hsettle : (db.gc.map fun g => if g ∈ selected storage limit db then outcome deleteObject g else g) =
      db.gc.map (settle storage limit deleteObject db) := by
    refine List.map_congr_left fun g hg => ?_
    simp only [settle, mem_selected hw hg]
    rfl
  simp only [cleanup, cleanupJobs_eq h hlimit storage, except_ok_bind, hloop, hsettle]
  exact ⟨_, rfl⟩

theorem cleanup_operated (h : Backup.Operated db) {deleteObject : TextCell → Option String}
    {results : List CleanupResult} {after : Catalog}
    (hcleanup : cleanup storage limit deleteObject db = .ok (results, after)) : Backup.Operated after := by
  simp only [cleanup, bind_eq_ok, pure_eq_ok, Prod.mk.injEq] at hcleanup
  obtain ⟨jobs, _, final, hloop, _, rfl⟩ := hcleanup
  refine foldlM_invariant Backup.Operated _ jobs db final hloop h fun job _ before after hbefore hrecord => ?_
  obtain ⟨schema, first, hfirst, hrun⟩ := hbefore
  exact ⟨schema, first, hfirst, hrun.tail (.recording job (deleteObject job.objectKey) after hrecord)⟩

-- The storage keeps refusing to delete some keys, and deletes the others.
def Refuses (refused : TextCell → Bool) (deleteObject : TextCell → Option String) : Prop :=
  ∀ key, if refused key then ∃ message ∈ System.deletionErrors, deleteObject key = some message
    else deleteObject key = none

variable {refused : TextCell → Bool} {deleteObject : TextCell → Option String}

theorem jobState_refused (h : Refuses refused deleteObject) (key : TextCell) :
    jobState (deleteObject key) = .pending ↔ refused key = true := by
  have hkey := h key
  cases hr : refused key with
  | true =>
      simp only [hr, if_true] at hkey
      obtain ⟨message, hmem, hmessage⟩ := hkey
      have hall : ∀ message ∈ System.deletionErrors, jobState (some message) = .pending := by decide
      simp [hmessage, hall message hmem]
  | false =>
      simp only [hr, Bool.false_eq_true, if_false] at hkey
      simp [hkey, jobState]

theorem settle_key (storage : String) (limit : Nat) (deleteObject : TextCell → Option String) (db : Catalog)
    (g : GcRow) : (settle storage limit deleteObject db g).storageId = g.storageId ∧
      (settle storage limit deleteObject db g).objectKey = g.objectKey := by
  unfold settle
  split <;> exact ⟨rfl, rfl⟩

theorem isPending_settle (storage : String) (limit : Nat) (h : Refuses refused deleteObject) (db : Catalog)
    (g : GcRow) :
    isPending storage (settle storage limit deleteObject db g) = true ↔ isPending storage g = true ∧
      (refused g.objectKey = true ∨ g.objectKey ∉ tried limit (pendingKeys storage db)) := by
  unfold settle
  by_cases htried : isPending storage g = true ∧ g.objectKey ∈ tried limit (pendingKeys storage db)
  · obtain ⟨hpending, hkey⟩ := htried
    rw [if_pos ⟨hpending, hkey⟩, isPending_iff]
    simp only [(isPending_iff.mp hpending).1, true_and, jobState_refused h, hpending, hkey,
      not_true_eq_false, or_false]
  · rw [if_neg htried]
    exact ⟨fun hpending => ⟨hpending, Or.inr fun hkey => htried ⟨hpending, hkey⟩⟩, And.left⟩

theorem sorted_ext {a b : List TextCell} (ha : a.Pairwise (· < ·)) (hb : b.Pairwise (· < ·))
    (h : ∀ key, key ∈ a ↔ key ∈ b) : a = b := by
  have hnodup : ∀ {l : List TextCell}, l.Pairwise (· < ·) → l.Nodup := fun hl => hl.imp fun hlt => hlt.ne
  exact ((List.perm_ext_iff_of_nodup (hnodup ha) (hnodup hb)).mpr h).eq_of_pairwise
    (fun x y _ _ hxy hyx => absurd (hxy.trans hyx) (lt_irrefl _)) ha hb

-- A call is a round over the keys of the pending jobs.
theorem pendingKeys_settle (hw : db.Wf) (h : Refuses refused deleteObject)
    (hw' : (called storage limit deleteObject db).Wf) :
    pendingKeys storage (called storage limit deleteObject db) =
    round refused limit (pendingKeys storage db) := by
  refine sorted_ext (pendingKeys_sorted storage hw') (round_sorted (pendingKeys_sorted storage hw))
    fun key => ?_
  rw [mem_pendingKeys, mem_round, mem_pendingKeys]
  constructor
  · rintro ⟨g', hg', hpending, rfl⟩
    obtain ⟨g, hg, rfl⟩ := List.mem_map.mp hg'
    obtain ⟨hpending, hkept⟩ := (isPending_settle storage limit h db g).mp hpending
    rw [(settle_key storage limit deleteObject db g).2]
    exact ⟨⟨g, hg, hpending, rfl⟩, hkept⟩
  · rintro ⟨⟨g, hg, hpending, rfl⟩, hkept⟩
    exact ⟨_, List.mem_map_of_mem hg, (isPending_settle storage limit h db g).mpr ⟨hpending, hkept⟩,
      (settle_key storage limit deleteObject db g).2⟩

-- What n calls leave of a pending job.
structure Attempts (storage : String) (limit : Nat) (refused : TextCell → Bool)
    (deleteObject : ℕ → TextCell → Option String) (n : ℕ) (keys : List TextCell) (g g' : GcRow) : Prop where
  sameKey : g'.sameKey g = true
  pending : isPending storage g' = true ↔ g.objectKey ∈ rounds refused limit n keys
  untried : (∀ i < n, g.objectKey ∉ tried limit (rounds refused limit i keys)) → g'.lastError = g.lastError
  recorded : refused g.objectKey = true → ∀ i < n, g.objectKey ∈ tried limit (rounds refused limit i keys) →
    ∃ j < n, g'.lastError = deleteObject j g.objectKey

variable {errors : ℕ → TextCell → Option String} {keys : List TextCell} {g g' : GcRow} {n : ℕ}

-- The call before: it has settled the job, and the others go on from there.
theorem Attempts.deferred
    (h : Attempts storage limit refused (fun i => errors (i + 1)) n (round refused limit keys) g g')
    (huntried : g.objectKey ∉ tried limit keys) : Attempts storage limit refused errors (n + 1) keys g g' where
  sameKey := h.sameKey
  pending := h.pending
  untried hnone := h.untried fun i hi => hnone (i + 1) (by omega)
  recorded hrefused i hi htried := by
    cases i with
    | zero => exact absurd htried huntried
    | succ i =>
        obtain ⟨j, hj, hrecorded⟩ := h.recorded hrefused i (by omega) htried
        exact ⟨j + 1, by omega, hrecorded⟩

theorem Attempts.retried {old : GcRow}
    (h : Attempts storage limit refused (fun i => errors (i + 1)) n (round refused limit keys) g g')
    (hsame : g.sameKey old = true) (herror : g.lastError = errors 0 old.objectKey)
    (htried : old.objectKey ∈ tried limit keys) : Attempts storage limit refused errors
      (n + 1) keys old g' := by
  have hkey : g.storageId = old.storageId ∧ g.objectKey = old.objectKey := by simpa [GcRow.sameKey] using hsame
  have hsame' := h.sameKey
  simp only [GcRow.sameKey, Bool.and_eq_true, decide_eq_true_eq] at hsame'
  refine ⟨?_, hkey.2 ▸ h.pending, fun hnone => absurd htried (hnone 0 (by omega)), fun hrefused i hi _ => ?_⟩
  · simp [GcRow.sameKey, hsame'.1.trans hkey.1, hsame'.2.trans hkey.2]
  · rw [← hkey.2] at hrefused htried ⊢
    by_cases hagain : ∃ j < n, g.objectKey ∈ tried limit (rounds refused limit j (round refused limit keys))
    · obtain ⟨j, hj, hagain⟩ := hagain
      obtain ⟨k, hk, hrecorded⟩ := h.recorded hrefused j hj hagain
      exact ⟨k + 1, by omega, hrecorded⟩
    · push Not at hagain
      exact ⟨0, by omega, (h.untried hagain).trans (hkey.2 ▸ herror)⟩

theorem cleanups_attempts (h : Backup.Operated db) (hlimit : 1 ≤ limit ∧ limit ≤ 1000)
    (hrefuses : ∀ i, Refuses refused (errors i)) (storage : String) (n : ℕ) :
    ∃ after, cleanups storage limit errors n db = .ok after ∧ Backup.Operated after ∧
      ∀ g ∈ db.gc, ∃ g' ∈ after.gc, (isPending storage g = true →
        Attempts storage limit refused errors n (pendingKeys storage db) g g') ∧
          (isPending storage g = false → g' = g) := by
  induction n generalizing db errors with
  | zero =>
      refine ⟨db, rfl, h, fun g hg => ⟨g, hg, fun hpending => ?_, fun _ => rfl⟩⟩
      refine ⟨System.sameKey_refl g, ?_, fun _ => rfl, by simp⟩
      exact ⟨fun _ => mem_pendingKeys.mpr ⟨g, hg, hpending, rfl⟩, fun _ => hpending⟩
  | succ n ih =>
      obtain ⟨results, hcleanup⟩ := cleanup_eq h hlimit storage (errors 0)
      have hnext := cleanup_operated h hcleanup
      have hw := h.sound.settled.wf
      have hkeys := pendingKeys_settle hw (hrefuses 0) hnext.sound.settled.wf
      have hlater : ∀ i, Refuses refused ((fun i => errors (i + 1)) i) := fun i => hrefuses (i + 1)
      obtain ⟨after, hafter, hoperated, hrows⟩ := ih hnext hlater
      rw [hkeys] at hrows
      refine ⟨after, ?_, hoperated, fun g hg => ?_⟩
      · simp only [cleanups, hcleanup, except_ok_bind, hafter]
      obtain ⟨g', hg', hpending', hdone'⟩ := hrows _ (List.mem_map_of_mem hg)
      refine ⟨g', hg', fun hpending => ?_, fun hidle => ?_⟩
      · by_cases htried : g.objectKey ∈ tried limit (pendingKeys storage db)
        · have hsettle : settle storage limit (errors 0) db g = outcome (errors 0) g := by
            rw [settle, if_pos ⟨hpending, htried⟩]
            rfl
          cases hr : refused g.objectKey with
          | true =>
              have hstill := (isPending_settle storage limit (hrefuses 0) db g).mpr ⟨hpending, Or.inl hr⟩
              have hattempts := hpending' hstill
              rw [hsettle] at hattempts
              exact hattempts.retried (System.sameKey_refl g) rfl htried
          | false =>
              have hgone : isPending storage (settle storage limit (errors 0) db g) = false := by
                rw [← Bool.not_eq_true, isPending_settle storage limit (hrefuses 0) db g]
                simp [hr, htried]
              obtain rfl := hdone' hgone
              refine ⟨?_, ?_, fun hnone => absurd htried (hnone 0 (by omega)), fun hrefused => ?_⟩
              · rw [hsettle]
                exact System.sameKey_refl g
              · rw [hgone]
                refine ⟨Bool.false_ne_true.elim, fun hmem => ?_⟩
                have hround := (mem_round.mp (mem_of_rounds hmem)).2
                simp [hr, htried] at hround
              · rw [hr] at hrefused
                cases hrefused
        · have hsettle : settle storage limit (errors 0) db g = g := by
            rw [settle, if_neg fun hboth => htried hboth.2]
          rw [hsettle] at hpending'
          exact (hpending' hpending).deferred htried
      · have hsettle : settle storage limit (errors 0) db g = g := by
          rw [settle, if_neg fun hboth => by rw [hidle] at hboth; cases hboth.1]
        rw [hsettle] at hdone'
        exact hdone' hidle

-- After as many calls as there were pending jobs, the others are done and the refused
-- ones keep an error of theirs.
def Progresses (storage : String) (limit : Nat) (refused : TextCell → Bool)
    (errors : ℕ → TextCell → Option String) (db : Catalog) : Prop :=
  ∃ after, cleanups storage limit errors (db.gc.filter (isPending storage)).length db = .ok after ∧
    ∀ g ∈ db.gc, isPending storage g = true → ∃ g' ∈ after.gc, g'.sameKey g = true ∧
      (refused g.objectKey = false → g'.state = .done) ∧
      (refused g.objectKey = true → g'.state = .pending ∧ ∃ message, g'.lastError = some message ∧
        (g.lastError = some message ∨ ∃ i < (db.gc.filter (isPending storage)).length,
          errors i g.objectKey = some message))

-- Fewer than `limit` refused keys sort before the key of each pending job, unless the
-- job is refused itself and has kept an error of earlier calls.
def Reaches (storage : String) (limit : Nat) (refused : TextCell → Bool) (db : Catalog) : Prop :=
  ∀ g ∈ db.gc, isPending storage g = true →
    ((db.gc.filter (isPending storage)).countP fun other =>
        refused other.objectKey && other.objectKey < g.objectKey) < limit ∨
      (refused g.objectKey = true ∧ g.lastError ≠ none)

theorem ahead_pendingKeys (storage : String) (refused : TextCell → Bool) (db : Catalog) (key : TextCell) :
    ahead refused (pendingKeys storage db) key = (db.gc.filter (isPending storage)).countP fun other =>
      refused other.objectKey && other.objectKey < key := by
  rw [ahead, pendingKeys, List.countP_map]
  exact (List.perm_insertionSort (fun a b : GcRow => a.objectKey ≤ b.objectKey) _).countP_eq _

theorem progresses_of_reaches (h : Backup.Operated db) (hlimit : 1 ≤ limit ∧ limit ≤ 1000)
    (hrefuses : ∀ i, Refuses refused (errors i)) (hreaches : Reaches storage limit refused db) :
    Progresses storage limit refused errors db := by
  obtain ⟨after, hafter, hoperated, hrows⟩ :=
    cleanups_attempts h hlimit hrefuses storage (db.gc.filter (isPending storage)).length
  have hsorted := pendingKeys_sorted storage h.sound.settled.wf
  have hserved : ∀ key ∈ pendingKeys storage db, refused key = false →
      ahead refused (pendingKeys storage db) key < limit := by
    intro key hkey hfree
    obtain ⟨g, hg, hpending, rfl⟩ := mem_pendingKeys.mp hkey
    rw [ahead_pendingKeys]
    refine (hreaches g hg hpending).resolve_right fun hkept => ?_
    rw [hfree] at hkept
    cases hkept.1
  refine ⟨after, hafter, fun g hg hpending => ?_⟩
  obtain ⟨g', hg', hattempts, _⟩ := hrows g hg
  obtain ⟨hsame, hstill, huntried, hrecorded⟩ := hattempts hpending
  have hroot : g'.storageId = .text storage := by
    simp only [GcRow.sameKey, Bool.and_eq_true, decide_eq_true_eq] at hsame
    rw [hsame.1, (isPending_iff.mp hpending).1]
  have hmem : g.objectKey ∈ pendingKeys storage db := mem_pendingKeys.mpr ⟨g, hg, hpending, rfl⟩
  refine ⟨g', hg', hsame, fun hfree => ?_, fun hrefused => ?_⟩
  · cases hstate : g'.state with
    | done => rfl
    | pending =>
        have hleft := hstill.mp (isPending_iff.mpr ⟨hroot, hstate⟩)
        rw [← length_pendingKeys] at hleft
        rw [served hsorted hserved _ hleft] at hfree
        cases hfree
  · refine ⟨(isPending_iff.mp (hstill.mpr (mem_rounds_of_refused hmem hrefused _))).2, ?_⟩
    have hmessage : ∀ i, ∃ message, errors i g.objectKey = some message := by
      intro i
      have hkey := hrefuses i g.objectKey
      rw [if_pos hrefused] at hkey
      obtain ⟨message, _, hmessage⟩ := hkey
      exact ⟨message, hmessage⟩
    by_cases hagain : ∃ i < (db.gc.filter (isPending storage)).length,
        g.objectKey ∈ tried limit (rounds refused limit i (pendingKeys storage db))
    · obtain ⟨i, hi, htried⟩ := hagain
      obtain ⟨j, hj, hlast⟩ := hrecorded hrefused i hi htried
      obtain ⟨message, hmessage⟩ := hmessage j
      exact ⟨message, hlast.trans hmessage, Or.inr ⟨j, hj, hmessage⟩⟩
    · push Not at hagain
      have hkept : g.lastError ≠ none := by
        rcases hreaches g hg hpending with hahead | ⟨_, hkept⟩
        · rw [← ahead_pendingKeys] at hahead
          obtain ⟨i, hi, htried⟩ := tried_of_refused hsorted hserved hmem hrefused hahead
          exact absurd htried (hagain i (length_pendingKeys ▸ hi))
        · exact hkept
      obtain ⟨message, hlast⟩ := Option.ne_none_iff_exists'.mp hkept
      exact ⟨message, (huntried hagain).trans hlast, Or.inl hlast⟩

theorem reaches_of_progresses (h : Backup.Operated db) (hlimit : 1 ≤ limit ∧ limit ≤ 1000)
    (hrefuses : ∀ i, Refuses refused (errors i)) (hprogresses : Progresses storage limit refused errors db) :
    Reaches storage limit refused db := by
  intro g hg hpending
  obtain ⟨after, hafter, hoperated, hrows⟩ :=
    cleanups_attempts h hlimit hrefuses storage (db.gc.filter (isPending storage)).length
  obtain ⟨other, hother, hjobs⟩ := hprogresses
  obtain rfl : after = other := Except.ok.inj (hafter.symm.trans hother)
  by_cases hahead : ahead refused (pendingKeys storage db) g.objectKey < limit
  · exact Or.inl (ahead_pendingKeys storage refused db g.objectKey ▸ hahead)
  right
  have hsorted := pendingKeys_sorted storage h.sound.settled.wf
  have hmem : g.objectKey ∈ pendingKeys storage db := mem_pendingKeys.mpr ⟨g, hg, hpending, rfl⟩
  have hstarved := starved hsorted hmem (not_lt.mp hahead)
  obtain ⟨g', hg', hattempts, _⟩ := hrows g hg
  obtain ⟨hsame, hstill, huntried, _⟩ := hattempts hpending
  obtain ⟨last, hlast, hlastSame, hdone, hkept⟩ := hjobs g hg hpending
  obtain rfl : g' = last := by
    simp only [GcRow.sameKey, Bool.and_eq_true, decide_eq_true_eq] at hsame hlastSame
    refine hoperated.sound.settled.wf.gcKey.eq_of_mem hg' hlast rfl ?_
    rw [hsame.1, hsame.2, hlastSame.1, hlastSame.2]
  have hleft := (isPending_iff.mp (hstill.mpr (hstarved _).1)).2
  cases hr : refused g.objectKey with
  | false =>
      rw [hdone hr] at hleft
      cases hleft
  | true =>
      obtain ⟨message, hmessage, _⟩ := (hkept hr).2
      rw [huntried fun i _ => (hstarved i).2] at hmessage
      exact ⟨rfl, by simp [hmessage]⟩

-- Repeated cleanup starves the jobs behind `limit` refused keys, and only these.
theorem cleanup_progresses_iff (db : Catalog) (h : Backup.Operated db) (storage : String) (limit : Nat)
    (hlimit : 1 ≤ limit ∧ limit ≤ 1000) (refused : TextCell → Bool) (errors : ℕ → TextCell → Option String)
    (hrefuses : ∀ i, Refuses refused (errors i)) :
    Progresses storage limit refused errors db ↔ Reaches storage limit refused db :=
  ⟨reaches_of_progresses h hlimit hrefuses, progresses_of_reaches h hlimit hrefuses⟩

-- Two queued orphans, of which the storage refuses the first.

def stuckKey : String := "objects/0123456789abcdef0123456789abcdef"

def freeKey : String := "staging/0123456789abcdef0123456789abcdef"

def queued : Catalog := orElse (transact [.queueOrphans "s" [stuckKey, freeKey]] installed) installed

def isStuck (key : TextCell) : Bool := key = .text stuckKey

def stuckErrors (_ : ℕ) (key : TextCell) : Option String :=
  if isStuck key then some "Object deletion failed; cleanup remains pending" else none

theorem queued_operated : Backup.Operated queued := by
  have hqueued : Backup.Operates installed queued :=
    .writes [.queueOrphans "s" [stuckKey, freeKey]] queued (by decide) (orElse_of_isOk (by decide) _)
  exact ⟨note, installed, orElse_of_isOk (by decide) _, .single hqueued⟩

theorem stuckErrors_refuse (i : ℕ) : Refuses isStuck (stuckErrors i) := by
  intro key
  cases hstuck : isStuck key with
  | true => exact ⟨"Object deletion failed; cleanup remains pending", by decide, by simp [stuckErrors, hstuck]⟩
  | false => simp [stuckErrors, hstuck]

theorem stuck_cleanup_starves : Backup.Operated queued ∧ (∀ i, Refuses isStuck (stuckErrors i)) ∧
    ¬Progresses "s" 1 isStuck stuckErrors queued := by
  refine ⟨queued_operated, stuckErrors_refuse, fun hprogresses => ?_⟩
  have hreaches := reaches_of_progresses queued_operated (by decide) stuckErrors_refuse hprogresses
  revert hreaches
  unfold Reaches
  decide

-- Two at a time, the call gets past the refused key.
theorem queued_progresses_iff :
    (¬Reaches "s" 1 isStuck queued ∧ ¬Progresses "s" 1 isStuck stuckErrors queued) ∧
      Reaches "s" 2 isStuck queued ∧ Progresses "s" 2 isStuck stuckErrors queued := by
  have hone :=
    cleanup_progresses_iff queued queued_operated "s" 1 (by decide) isStuck stuckErrors stuckErrors_refuse
  have htwo :=
    cleanup_progresses_iff queued queued_operated "s" 2 (by decide) isStuck stuckErrors stuckErrors_refuse
  have hstuck : ¬Reaches "s" 1 isStuck queued := by
    unfold Reaches
    decide
  have hfree : Reaches "s" 2 isStuck queued := by
    unfold Reaches
    decide
  exact ⟨⟨hstuck, fun hprogresses => hstuck (hone.mp hprogresses)⟩, hfree, htwo.mpr hfree⟩

end Maintenance

end MeldStore
