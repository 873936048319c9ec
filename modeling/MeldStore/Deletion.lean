import MeldStore.Library.Hashing
import MeldStore.Tokens

namespace MeldStore

open Library Library.Checked Library.Hashing Library.Keyed Library.Runs

-- A catalog, the objects of its storage roots, and the processes that work on
-- them. Each SQL transaction is one step, and so is each call into the storage;
-- a process may stop between any two of its steps.

-- Where a process is between two steps.
inductive Process
  | idle
  | uploaded (schema : BlobSchema) (prepared : PreparedFile)
  | cleaning (storage : String) (jobs : List GcRow)
  | recording (storage : String) (job : GcRow) (error : Option String) (rest : List GcRow)

-- `deletions` is the history of the delete_object calls that returned.
structure System where
  catalog : Catalog
  objects : TextCell → TextCell → Option Bytes
  processes : ℕ → Process
  deletions : List (TextCell × TextCell)

namespace System

def start : System :=
  { catalog := Catalog.empty, objects := fun _ _ => none, processes := fun _ => .idle, deletions := [] }

def setObject (objects : TextCell → TextCell → Option Bytes) (storage key : TextCell)
    (bytes : Option Bytes) : TextCell → TextCell → Option Bytes :=
  fun s k => if s = storage ∧ k = key then bytes else objects s k

def setProcess (processes : ℕ → Process) (i : ℕ) (process : Process) : ℕ → Process :=
  fun j => if j = i then process else processes j

-- What delete_object raises as a StorageError or ValidationError.
def deletionErrors : List String :=
  ["Cleanup accepts only exact MeldStore object/staging keys",
    "Cleanup will not follow symlinks or junctions",
    "Cleanup target must be a regular file",
    "Object deletion failed; cleanup remains pending"]

inductive Step (s : System) : System → Prop
  -- Every transaction but the ones below, committed; a rollback is no step.
  | transaction (actions : List Action) (after : Catalog)
      (h : transact actions s.catalog = .ok after) : Step s { s with catalog := after }
  -- upload promotes to a key that does not exist.
  | upload (i : ℕ) (schema : BlobSchema) (prepared : PreparedFile) (bytes : Bytes)
      (hidle : s.processes i = .idle)
      (hfresh : s.objects (.text prepared.storageId) (.text prepared.objectKey) = none) :
      Step s { s with
        objects := setObject s.objects (.text prepared.storageId) (.text prepared.objectKey) (some bytes),
        processes := setProcess s.processes i (.uploaded schema prepared) }
  -- A failed upload may leave a staged or promoted object behind.
  | leftover (storage key : TextCell) (bytes : Bytes) (hfresh : s.objects storage key = none) :
      Step s { s with objects := setObject s.objects storage key (some bytes) }
  | journal (i : ℕ) (schema : BlobSchema) (prepared : PreparedFile) (after : Catalog)
      (hprocess : s.processes i = .uploaded schema prepared)
      (h : Store.journal s.catalog schema prepared = .ok after) (hkeys : after.DeferredKeys) :
      Step s { s with catalog := after, processes := setProcess s.processes i .idle }
  | select (i : ℕ) (storage : String) (limit : ℕ) (jobs : List GcRow)
      (hidle : s.processes i = .idle)
      (h : Maintenance.cleanupJobs storage limit s.catalog = .ok jobs) :
      Step s { s with processes := setProcess s.processes i (.cleaning storage jobs) }
  | deleted (i : ℕ) (storage : String) (job : GcRow) (rest : List GcRow)
      (hprocess : s.processes i = .cleaning storage (job :: rest)) :
      Step s { s with
        objects := setObject s.objects (.text storage) job.objectKey none,
        processes := setProcess s.processes i (.recording storage job none rest),
        deletions := s.deletions ++ [(.text storage, job.objectKey)] }
  -- A deletion that raised may or may not have removed the object.
  | deletionFailed (i : ℕ) (storage : String) (job : GcRow) (rest : List GcRow) (error : String)
      (removed : Bool) (hprocess : s.processes i = .cleaning storage (job :: rest))
      (herror : error ∈ deletionErrors) :
      Step s { s with
        objects := if removed then setObject s.objects (.text storage) job.objectKey none else s.objects,
        processes := setProcess s.processes i (.recording storage job (some error) rest) }
  | record (i : ℕ) (storage : String) (job : GcRow) (error : Option String) (rest : List GcRow)
      (after : Catalog) (hprocess : s.processes i = .recording storage job error rest)
      (h : Maintenance.recordCleanup job error s.catalog = .ok after) :
      Step s { s with catalog := after,
                      processes := setProcess s.processes i (.cleaning storage rest) }
  | stop (i : ℕ) : Step s { s with processes := setProcess s.processes i .idle }

def Reachable (s : System) : Prop := Run Step start s

-- The call delete_object(key) a process is about to make on a storage root.
def Deletes (s : System) (storage key : TextCell) : Prop :=
  ∃ i name job rest, s.processes i = .cleaning name (job :: rest) ∧ storage = .text name ∧
    key = job.objectKey

end System

-- A journaled object that must survive: associated with a live blob, or unbound
-- and never discarded.
def Catalog.Protected (db : Catalog) (p : PreparedRow) : Prop :=
  p ∈ db.prepared ∧ ((∃ id, db.situated p.token (.bound id)) ∨ db.situated p.token .unbound)

def Catalog.Queued (db : Catalog) (storage key : TextCell) : Prop :=
  ∃ g ∈ db.gc, g.storageId = storage ∧ g.objectKey = key

-- A queued object is retired, discarded or unknown to the journal.
theorem Catalog.Ledger.unprotected {db : Catalog} (hl : db.Ledger) {storage key : TextCell}
    (hqueued : db.Queued storage key) {p : PreparedRow} (hstorage : p.storageId = storage)
    (hkey : p.objectKey = key) : ¬db.Protected p := by
  rintro ⟨hp, hsituation⟩
  obtain ⟨g, hg, hgs, hgk⟩ := hqueued
  have htoken : g.token = some p.token := by
    have hb := hl.backed g hg
    cases hreason : g.reason with
    | retired =>
        simp only [Catalog.Backs, hreason] at hb
        obtain ⟨r, _, hrtoken, _, q, hq, hqtoken, hqs, hqk⟩ := hb
        obtain rfl := hl.wf.prepared_eq_of_key hq hp (by rw [hqs, hgs, hstorage])
          (by rw [hqk, hgk, hkey])
        rw [hrtoken, hqtoken]
    | discarded =>
        simp only [Catalog.Backs, hreason] at hb
        obtain ⟨q, hq, hqtoken, hqs, hqk, _⟩ := hb
        obtain rfl := hl.wf.prepared_eq_of_key hq hp (by rw [hqs, hgs, hstorage])
          (by rw [hqk, hgk, hkey])
        exact hqtoken
    | orphan =>
        simp only [Catalog.Backs, hreason] at hb
        exact absurd ⟨by rw [hstorage, hgs], by rw [hkey, hgk]⟩ (hb.2 p hp)
  rcases hsituation with ⟨id, ⟨o, ho, he, _⟩, _⟩ | hunbound
  · exact hl.not_bound hg htoken ho he
  · exact hunbound.2 g hg htoken

theorem Effect.queued_mono {db after : Catalog} (h : Effect db after)
    {storage key : TextCell} (hqueued : db.Queued storage key) : after.Queued storage key := by
  obtain ⟨g, hg, hs, hk⟩ := hqueued
  cases h with
  | installed schema _ h =>
      obtain ⟨_, _, _, rfl, _⟩ := h.rows
      exact ⟨g, hg, hs, hk⟩
  | enrolled => exact ⟨g, hg, hs, hk⟩
  | rows _ h =>
      cases h with
      | retired => exact ⟨g, List.mem_append_left _ hg, hs, hk⟩
      | discarded => exact ⟨g, List.mem_append_left _ hg, hs, hk⟩
      | orphaned => exact ⟨g, List.mem_append_left _ hg, hs, hk⟩
      | _ => exact ⟨g, hg, hs, hk⟩
  | migration _ h =>
      cases h <;> exact ⟨g, hg, hs, hk⟩

theorem Recorded.queued_mono {db after : Catalog} (hw : db.Wf) (h : Recorded db after)
    {storage key : TextCell} (hqueued : db.Queued storage key) : after.Queued storage key := by
  obtain ⟨g, hg, hs, hk⟩ := hqueued
  obtain ⟨old, new, hold, _, hnew⟩ := h
  by_cases hkey : g.sameKey old = true
  · obtain rfl := hw.gc_eq hg hold hkey
    refine ⟨new, (mem_rewrite _ _ _ _).mpr (Or.inr ⟨g, hg, hkey, rfl⟩), ?_, ?_⟩
    · rw [hnew]
      exact hs
    · rw [hnew]
      exact hk
  · exact ⟨g, (mem_rewrite _ _ _ _).mpr (Or.inl ⟨hg, by simpa using hkey⟩), hs, hk⟩

theorem Changes.queued_mono {db after : Catalog} (hw : db.Wf) (h : Changes db after)
    {storage key : TextCell} (hqueued : db.Queued storage key) : after.Queued storage key := by
  refine (Runs.invariant (fun db => db.Wf ∧ db.Queued storage key) ?_ h ⟨hw, hqueued⟩).2
  rintro _ _ ⟨hw, hqueued⟩ hstep
  refine ⟨hstep.wf hw, ?_⟩
  rcases hstep with h | ⟨_, _, _, _, _, _, _, _⟩ | h
  · exact h.queued_mono hqueued
  · exact hqueued
  · exact h.queued_mono hw hqueued

-- Protection is never gained.
theorem Changes.protected_before {db after : Catalog} (hl : db.Ledger) (h : Changes db after)
    {p : PreparedRow} (hp : p ∈ db.prepared) (hprotected : after.Protected p) : db.Protected p := by
  refine ⟨hp, ?_⟩
  obtain ⟨s, hs⟩ := hl.situated_exists p.token
  have hnot : ∀ t, after.situated p.token t → (∀ id, t ≠ .retired id) ∧ t ≠ .discarded := by
    intro t ht
    have hunique := (h.ledger hl).situated_unique p.token t
    rcases hprotected.2 with ⟨id, hbound⟩ | hunbound
    · rw [hunique _ ht hbound]
      exact ⟨by simp, by simp⟩
    · rw [hunique _ ht hunbound]
      exact ⟨by simp, by simp⟩
  cases s with
  | unbound => exact Or.inr hs
  | bound id => exact Or.inl ⟨id, hs⟩
  | retired id =>
      obtain ⟨t, ht⟩ := (h.ledger hl).situated_exists p.token
      exact absurd (Situation.follows_retired (h.follows hl hs ht)) ((hnot t ht).1 id)
  | discarded =>
      obtain ⟨t, ht⟩ := (h.ledger hl).situated_exists p.token
      exact absurd (Situation.follows_discarded (h.follows hl hs ht)) (hnot t ht).2

theorem mem_of_recorded {gc : List GcRow} {old new g : GcRow}
    (h : g ∈ rewrite (fun other : GcRow => other.sameKey old) (fun _ => new) gc) : g ∈ gc ∨ g = new := by
  rcases (mem_rewrite _ _ _ _).mp h with ⟨hg, _⟩ | ⟨_, _, _, rfl⟩
  · exact Or.inl hg
  · exact Or.inr rfl

-- A journal row is added at the end, for a key no job has.
theorem journal_rows {db after : Catalog} {schema : BlobSchema} {prepared : PreparedFile}
    (h : Store.journal db schema prepared = .ok after) :
    after.prepared = db.prepared ++ [Encodings.physical prepared] ∧
      ¬db.Queued (.text prepared.storageId) (.text prepared.objectKey) ∧ after.gc = db.gc := by
  obtain ⟨_, _, _, _, hqueued, _, _⟩ := journal_effect h
  refine ⟨rfl, ?_, rfl⟩
  rintro ⟨g, hg, hs, hk⟩
  exact hqueued g hg ⟨hs, hk⟩

theorem jobState_done {error : Option String} (hdone : Maintenance.jobState error = .done)
    (herror : ∀ text, error = some text → text ∈ System.deletionErrors) : error = none := by
  cases error with
  | none => rfl
  | some text =>
      have hmem := herror text rfl
      have hempty : text = "" := by
        by_contra hne
        simp [Maintenance.jobState, hne] at hdone
      rw [hempty] at hmem
      exact absurd hmem (by decide)

theorem cleanupJobs_effect {db : Catalog} {storage : String} {limit : ℕ} {jobs : List GcRow}
    (h : Maintenance.cleanupJobs storage limit db = .ok jobs) :
    ∀ job ∈ jobs, job ∈ db.gc ∧ job.storageId = .text storage ∧ job.state = .pending := by
  simp only [Maintenance.cleanupJobs, bind_eq_ok, require_eq_ok, pure_eq_ok] at h
  obtain ⟨_, _, _, _, _, _, rfl⟩ := h
  intro job hjob
  have hmem := (List.mem_insertionSort _).mp (List.mem_of_mem_take hjob)
  simpa [and_assoc] using hmem

namespace System

-- A job in the hands of a process of a storage root.
def Held (s : System) (storage : String) (job : GcRow) : Prop :=
  job.storageId = .text storage ∧ s.catalog.Queued (.text storage) job.objectKey

structure Safe (s : System) : Prop where
  ledger : s.catalog.Ledger
  cleaning : ∀ i storage jobs, s.processes i = .cleaning storage jobs →
    ∀ job ∈ jobs, s.Held storage job
  recording : ∀ i storage job error rest, s.processes i = .recording storage job error rest →
    (∀ other ∈ job :: rest, s.Held storage other) ∧
      (error = none → (.text storage, job.objectKey) ∈ s.deletions) ∧
      ∀ text, error = some text → text ∈ deletionErrors
  uploaded : ∀ i schema prepared, s.processes i = .uploaded schema prepared →
    s.objects (.text prepared.storageId) (.text prepared.objectKey) ≠ none ∨
      s.catalog.Queued (.text prepared.storageId) (.text prepared.objectKey)
  present : ∀ p, s.catalog.Protected p → s.objects p.storageId p.objectKey ≠ none
  done : ∀ g ∈ s.catalog.gc, g.state = .done → (g.storageId, g.objectKey) ∈ s.deletions

theorem start_safe : start.Safe where
  ledger := Catalog.empty_ledger
  cleaning := fun i storage jobs h => by simp [start] at h
  recording := fun i storage job error rest h => by simp [start] at h
  uploaded := fun i schema prepared h => by simp [start] at h
  present := fun p hp => by simp [start, Catalog.Protected, Catalog.empty] at hp
  done := fun g hg => by simp [start, Catalog.empty] at hg

theorem setProcess_cases {processes : ℕ → Process} {i j : ℕ} {process result : Process}
    (h : setProcess processes i process j = result) : result = process ∨ processes j = result := by
  unfold setProcess at h
  split at h
  · exact Or.inl h.symm
  · exact Or.inr h

theorem setObject_some_ne_none {objects : TextCell → TextCell → Option Bytes} {storage key s k : TextCell}
    {bytes : Bytes} (h : objects s k ≠ none) : setObject objects storage key (some bytes) s k ≠ none := by
  unfold setObject
  split
  · simp
  · exact h

-- A step of the catalog keeps what processes hold.
theorem held_of_changes {s : System} {after : Catalog} (hw : s.catalog.Wf)
    (h : Changes s.catalog after) {storage : String} {job : GcRow} (hheld : s.Held storage job)
    (processes : ℕ → Process) : { s with catalog := after, processes := processes }.Held storage job :=
  ⟨hheld.1, h.queued_mono hw hheld.2⟩

-- Unprotected keys may lose their object; every other object stays.
theorem present_of_delete {s : System} (hs : s.Safe) {storage : String} {job : GcRow}
    (hheld : s.Held storage job) {p : PreparedRow} (hp : s.catalog.Protected p) :
    setObject s.objects (.text storage) job.objectKey none p.storageId p.objectKey =
      s.objects p.storageId p.objectKey := by
  unfold setObject
  split
  · rename_i hkey
    exact absurd hp (hs.ledger.unprotected hheld.2 hkey.1 hkey.2)
  · rfl

-- What a process may be set to.
structure Admissible (s : System) (process : Process) : Prop where
  cleaning : ∀ storage jobs, process = .cleaning storage jobs → ∀ job ∈ jobs, s.Held storage job
  recording : ∀ storage job error rest, process = .recording storage job error rest →
    (∀ other ∈ job :: rest, s.Held storage other) ∧
      (error = none → (.text storage, job.objectKey) ∈ s.deletions) ∧
      ∀ text, error = some text → text ∈ deletionErrors
  uploaded : ∀ schema prepared, process = .uploaded schema prepared →
    s.objects (.text prepared.storageId) (.text prepared.objectKey) ≠ none ∨
      s.catalog.Queued (.text prepared.storageId) (.text prepared.objectKey)

theorem idle_admissible (s : System) : s.Admissible .idle where
  cleaning := fun _ _ h => by cases h
  recording := fun _ _ _ _ h => by cases h
  uploaded := fun _ _ h => by cases h

theorem process_safe {s : System} (hs : s.Safe) (i : ℕ) {process : Process}
    (h : s.Admissible process) : { s with processes := setProcess s.processes i process }.Safe :=
  { hs with
    cleaning := fun j storage jobs hj => (setProcess_cases hj).elim
      (fun he => h.cleaning storage jobs he.symm) fun he => hs.cleaning j storage jobs he
    recording := fun j storage job error rest hj => (setProcess_cases hj).elim
      (fun he => h.recording storage job error rest he.symm)
      fun he => hs.recording j storage job error rest he
    uploaded := fun j schema prepared hj => (setProcess_cases hj).elim
      (fun he => h.uploaded schema prepared he.symm) fun he => hs.uploaded j schema prepared he }

theorem added_safe {s : System} (hs : s.Safe) (storage key : TextCell) (bytes : Bytes) :
    { s with objects := setObject s.objects storage key (some bytes) }.Safe :=
  { hs with
    uploaded := fun i schema prepared hi =>
      (hs.uploaded i schema prepared hi).imp_left setObject_some_ne_none
    present := fun p hp => setObject_some_ne_none (hs.present p hp) }

-- Deleting the object of a queued job harms no protected object, and an upload
-- whose object it was cannot be journaled any more.
theorem removed_safe {s : System} (hs : s.Safe) {storage : String} {job : GcRow}
    (hheld : s.Held storage job) :
    { s with objects := setObject s.objects (.text storage) job.objectKey none }.Safe :=
  { hs with
    uploaded := fun i schema prepared hi => by
      rcases hs.uploaded i schema prepared hi with hobject | hqueued
      · by_cases hkey : TextCell.text prepared.storageId = .text storage ∧
            TextCell.text prepared.objectKey = job.objectKey
        · right
          rw [hkey.1, hkey.2]
          exact hheld.2
        · left
          simp only [setObject, if_neg hkey]
          exact hobject
      · exact Or.inr hqueued
    present := fun p hp => by
      have hkept := present_of_delete hs hheld hp
      exact fun hnone => hs.present p hp (hkept.symm.trans hnone) }

theorem catalog_safe {s : System} {after : Catalog} (hs : s.Safe) (hchanges : Changes s.catalog after)
    (hpresent : ∀ p, p ∉ s.catalog.prepared → after.Protected p →
      s.objects p.storageId p.objectKey ≠ none)
    (hdone : ∀ g ∈ after.gc, g.state = .done → g ∈ s.catalog.gc ∨
      (g.storageId, g.objectKey) ∈ s.deletions) : { s with catalog := after }.Safe where
  ledger := hchanges.ledger hs.ledger
  cleaning := fun i storage jobs hi job hjob =>
    held_of_changes hs.ledger.wf hchanges (hs.cleaning i storage jobs hi job hjob) s.processes
  recording := fun i storage job error rest hi =>
    ⟨fun other hother => held_of_changes hs.ledger.wf hchanges
      ((hs.recording i storage job error rest hi).1 other hother) s.processes,
      (hs.recording i storage job error rest hi).2⟩
  uploaded := fun i schema prepared hi =>
    (hs.uploaded i schema prepared hi).imp_right fun hq => hchanges.queued_mono hs.ledger.wf hq
  present := fun p hp => by
    by_cases hold : p ∈ s.catalog.prepared
    · exact hs.present p (hchanges.protected_before hs.ledger hold hp)
    · exact hpresent p hold hp
  done := fun g hg hstate => (hdone g hg hstate).elim (fun hold => hs.done g hold hstate) id

theorem transaction_safe {s : System} {after : Catalog} {actions : List Action} (hs : s.Safe)
    (h : transact actions s.catalog = .ok after) : { s with catalog := after }.Safe := by
  have heffects := (transact_effects hs.ledger.wf h).1
  refine catalog_safe hs heffects.changes (fun p hnew hp => ?_) fun g hg hdone => ?_
  · exact absurd (heffects.prepared_kept ▸ hp.1) hnew
  · rcases heffects.gc_effect.2 g hg with hold | hpending
    · exact Or.inl hold
    · rw [hpending] at hdone
      cases hdone

-- A journal row appears only for an object that is there: had it been queued, the
-- trigger would have refused the row.
theorem journal_safe {s : System} {after : Catalog} {i : ℕ} {schema : BlobSchema}
    {prepared : PreparedFile} (hs : s.Safe) (hprocess : s.processes i = .uploaded schema prepared)
    (h : Store.journal s.catalog schema prepared = .ok after) : { s with catalog := after }.Safe := by
  have hchanges : Changes s.catalog after :=
    Relation.ReflTransGen.single (.journaled prepared (journal_effect h))
  obtain ⟨hrow, hunqueued⟩ : after.prepared = s.catalog.prepared ++ [Encodings.physical prepared] ∧
      ¬s.catalog.Queued (.text prepared.storageId) (.text prepared.objectKey) ∧
      after.gc = s.catalog.gc := journal_rows h
  refine catalog_safe hs hchanges (fun p hnew hp => ?_) fun g hg _ => Or.inl (hunqueued.2 ▸ hg)
  have hmem := hp.1
  rw [hrow, List.mem_append, List.mem_singleton] at hmem
  have hphysical := hmem.resolve_left hnew
  subst hphysical
  exact (hs.uploaded i schema prepared hprocess).resolve_right hunqueued.1

theorem record_safe {s : System} {after : Catalog} {i : ℕ} {storage : String} {job : GcRow}
    {error : Option String} {rest : List GcRow} (hs : s.Safe)
    (hprocess : s.processes i = .recording storage job error rest)
    (h : Maintenance.recordCleanup job error s.catalog = .ok after) :
    { s with catalog := after }.Safe := by
  obtain ⟨hheld, hdeleted, herrors⟩ := hs.recording i storage job error rest hprocess
  rcases recordCleanup_effect h with rfl | ⟨old, _, hkey, _, rfl, hrecorded⟩
  · exact hs
  refine catalog_safe hs (recordCleanup_changes h) (fun p hnew hp => absurd hp.1 hnew)
    fun g hg hdone => ?_
  rcases mem_of_recorded hg with hold | rfl
  · exact Or.inl hold
  right
  have hnone := jobState_done hdone herrors
  simp only [GcRow.sameKey, Bool.and_eq_true, decide_eq_true_eq] at hkey
  change (old.storageId, old.objectKey) ∈ s.deletions
  rw [hkey.1, hkey.2, (hheld job List.mem_cons_self).1]
  exact hdeleted hnone

theorem Step.safe {s s' : System} (hs : s.Safe) (h : Step s s') : s'.Safe := by
  cases h with
  | transaction actions after h => exact transaction_safe hs h
  | upload i schema prepared bytes hidle hfresh =>
      refine process_safe (added_safe hs _ _ bytes) i
        { cleaning := fun _ _ h => by cases h
          recording := fun _ _ _ _ h => by cases h
          uploaded := fun schema' prepared' hu => ?_ }
      cases hu
      left
      simp [setObject]
  | leftover storage key bytes hfresh => exact added_safe hs storage key bytes
  | journal i schema prepared after hprocess h hkeys =>
      exact process_safe (journal_safe hs hprocess h) i (idle_admissible _)
  | select i storage limit jobs hidle h =>
      refine process_safe hs i
        { cleaning := fun name rest hc job hjob => ?_
          recording := fun _ _ _ _ h => by cases h
          uploaded := fun _ _ h => by cases h }
      cases hc
      obtain ⟨hmem, hstorage, _⟩ := cleanupJobs_effect h job hjob
      exact ⟨hstorage, job, hmem, hstorage, rfl⟩
  | deleted i storage job rest hprocess =>
      have hheld := hs.cleaning i storage (job :: rest) hprocess
      have hremoved := removed_safe hs (hheld job List.mem_cons_self)
      have hlogged : System.Safe { s with
          objects := setObject s.objects (.text storage) job.objectKey none,
          deletions := s.deletions ++ [(.text storage, job.objectKey)] } :=
        { hremoved with
          recording := fun j name other error rest' hj =>
            ⟨(hremoved.recording j name other error rest' hj).1, fun hnone => List.mem_append_left _
              ((hremoved.recording j name other error rest' hj).2.1 hnone),
              (hremoved.recording j name other error rest' hj).2.2⟩
          done := fun g hg hdone => List.mem_append_left _ (hremoved.done g hg hdone) }
      refine process_safe hlogged i
        { cleaning := fun _ _ h => by cases h
          recording := fun name other error rest' hr => ?_
          uploaded := fun _ _ h => by cases h }
      cases hr
      exact ⟨hheld, fun _ => List.mem_append_right _ (List.mem_singleton.mpr rfl), by simp⟩
  | deletionFailed i storage job rest error removed hprocess herror =>
      have hheld := hs.cleaning i storage (job :: rest) hprocess
      have hremoved : System.Safe { s with
          objects := if removed then setObject s.objects (.text storage) job.objectKey none
            else s.objects } := by
        cases removed with
        | true => exact removed_safe hs (hheld job List.mem_cons_self)
        | false => exact hs
      refine process_safe hremoved i
        { cleaning := fun _ _ h => by cases h
          recording := fun name other error' rest' hr => ?_
          uploaded := fun _ _ h => by cases h }
      cases hr
      refine ⟨hheld, by simp, fun text he => ?_⟩
      rw [← Option.some.inj he]
      exact herror
  | record i storage job error rest after hprocess h =>
      have hheld := (hs.recording i storage job error rest hprocess).1
      refine process_safe (record_safe hs hprocess h) i
        { cleaning := fun name jobs hc other hother => ?_
          recording := fun _ _ _ _ h => by cases h
          uploaded := fun _ _ h => by cases h }
      cases hc
      exact held_of_changes hs.ledger.wf (recordCleanup_changes h)
        (hheld other (List.mem_cons_of_mem _ hother)) s.processes
  | stop i => exact process_safe hs i (idle_admissible _)

theorem Reachable.safe {s : System} (h : Reachable s) : s.Safe :=
  Runs.invariant Safe (fun _ _ hs h => h.safe hs) h start_safe

-- An object that is there stays as it is when another key gets one.
theorem setObject_fresh {objects : TextCell → TextCell → Option Bytes} {storage key s k : TextCell}
    {bytes : Bytes} (hfresh : objects storage key = none) (hpresent : objects s k ≠ none) :
    setObject objects storage key (some bytes) s k = objects s k := by
  unfold setObject
  split
  · rename_i hsame
    rw [hsame.1, hsame.2] at hpresent
    exact absurd hfresh hpresent
  · rfl

theorem Step.object_kept {s s' : System} (hs : s.Safe) (h : Step s s') {p : PreparedRow}
    (hp : s.catalog.Protected p) :
    s'.objects p.storageId p.objectKey = s.objects p.storageId p.objectKey := by
  have hpresent := hs.present p hp
  cases h with
  | upload i schema prepared bytes _ hfresh => exact setObject_fresh hfresh hpresent
  | leftover storage key bytes hfresh => exact setObject_fresh hfresh hpresent
  | deleted i storage job rest hprocess =>
      exact present_of_delete hs (hs.cleaning i storage _ hprocess job List.mem_cons_self) hp
  | deletionFailed i storage job rest error removed hprocess herror =>
      have hheld := hs.cleaning i storage _ hprocess job List.mem_cons_self
      cases removed with
      | true => exact present_of_delete hs hheld hp
      | false => rfl
  | _ => rfl

-- A job leaves the pending state only when its own process records a deletion
-- that returned.
def Recorded (s : System) (g g' : GcRow) : Prop :=
  g'.sameKey g = true ∧ (g' = g ∨ (g.state = .pending ∧ (g'.state = .done →
    ∃ i storage job rest, s.processes i = .recording storage job none rest ∧ job.sameKey g = true)))

theorem sameKey_refl (g : GcRow) : g.sameKey g = true := by simp [GcRow.sameKey]

theorem Step.job_kept {s s' : System} (hs : s.Safe) (h : Step s s') {g : GcRow}
    (hg : g ∈ s.catalog.gc) : ∃ g' ∈ s'.catalog.gc, s.Recorded g g' := by
  cases h with
  | transaction actions after h =>
      have hkept := (transact_effects hs.ledger.wf h).1.gc_effect.1 g hg
      exact ⟨g, hkept, sameKey_refl g, Or.inl rfl⟩
  | journal i schema prepared after _ h _ =>
      exact ⟨g, (journal_rows h).2.2 ▸ hg, sameKey_refl g, Or.inl rfl⟩
  | record i storage job error rest after hprocess h =>
      rcases recordCleanup_effect h with rfl | ⟨old, hold, hkey, hpending, rfl, _⟩
      · exact ⟨g, hg, sameKey_refl g, Or.inl rfl⟩
      by_cases hsame : g.sameKey old = true
      · obtain rfl := hs.ledger.wf.gc_eq hg hold hsame
        refine ⟨_, (mem_rewrite _ _ _ _).mpr (Or.inr ⟨g, hg, hsame, rfl⟩), sameKey_refl g,
          Or.inr ⟨hpending, fun hdone => ?_⟩⟩
        obtain rfl := jobState_done hdone (hs.recording i storage job error rest hprocess).2.2
        refine ⟨i, storage, job, rest, hprocess, ?_⟩
        simp only [GcRow.sameKey, Bool.and_eq_true, decide_eq_true_eq] at hkey ⊢
        exact ⟨hkey.1.symm, hkey.2.symm⟩
      · exact ⟨g, (mem_rewrite _ _ _ _).mpr (Or.inl ⟨hg, by simpa using hsame⟩), sameKey_refl g,
          Or.inl rfl⟩
  | _ => exact ⟨g, hg, sameKey_refl g, Or.inl rfl⟩

-- In every run: a deletion concerns no protected object, whose bytes therefore stay;
-- a job is done only after its deletion returned, and stays done.
theorem physical_deletion_is_safe (s : System) (h : s.Reachable) :
    (∀ storage key, s.Deletes storage key → ∀ p ∈ s.catalog.prepared, p.storageId = storage →
      p.objectKey = key →
        (¬∃ o ∈ s.catalog.objects, o.token = p.token ∧ ∃ b ∈ s.catalog.blobs, b.id = o.blobId) ∧
        ¬s.catalog.situated p.token .unbound) ∧
      (∀ p, s.catalog.Protected p → s.objects p.storageId p.objectKey ≠ none) ∧
      (∀ s', Step s s' → ∀ p, s.catalog.Protected p →
        s'.objects p.storageId p.objectKey = s.objects p.storageId p.objectKey) ∧
      (∀ g ∈ s.catalog.gc, g.state = .done → (g.storageId, g.objectKey) ∈ s.deletions) ∧
      ∀ s', Step s s' → ∀ g ∈ s.catalog.gc, ∃ g' ∈ s'.catalog.gc, s.Recorded g g' := by
  have hs := h.safe
  refine ⟨?_, hs.present, fun s' hstep p hp => hstep.object_kept hs hp, hs.done,
    fun s' hstep g hg => hstep.job_kept hs hg⟩
  rintro storage key ⟨i, name, job, rest, hprocess, rfl, rfl⟩ p hp hstorage hkey
  have hheld := hs.cleaning i name _ hprocess job List.mem_cons_self
  have hunprotected := hs.ledger.unprotected hheld.2 hstorage hkey
  refine ⟨?_, fun hunbound => hunprotected ⟨hp, Or.inr hunbound⟩⟩
  rintro ⟨o, ho, htoken, hblob⟩
  exact hunprotected ⟨hp, Or.inl ⟨o.blobId, ⟨o, ho, htoken, rfl⟩, hblob⟩⟩

-- The object of the draft is uploaded, journaled and published.
def stored : System :=
  { catalog := published,
    objects := setObject (fun _ _ => none) (.text draft.storageId) (.text draft.objectKey) (some [1, 2, 3]),
    processes := setProcess (setProcess (fun _ => .idle) 0 (.uploaded note draft)) 0 .idle,
    deletions := [] }

theorem stored_reachable : stored.Reachable := by
  have hinstalled : Step start { start with catalog := installed } :=
    .transaction [.installSchema note] installed (orElse_of_isOk (by decide) _)
  have huploaded := Step.upload (s := { start with catalog := installed }) 0 note draft [1, 2, 3] rfl rfl
  exact .tail (.tail (.tail (.single hinstalled) huploaded)
    (.journal 0 note draft journaled rfl (orElse_of_isOk (by decide) _) (by decide)))
    (.transaction _ published (orElse_of_isOk (by decide) _))

-- Beside it, another process uploads and journals a second object, discards its token, and a third
-- one cleans up.
def spare : PreparedFile :=
  { draft with token := "t2", objectKey := "objects/fedcba9876543210fedcba9876543210" }

def spareJournaled : Catalog := orElse (Store.journal published note spare) published

def spareDiscarded : Catalog := orElse (transact [.discardPrepared "s" spare] spareJournaled) spareJournaled

def spareJob : GcRow :=
  { storageId := .text "s", objectKey := .text spare.objectKey, token := some (.text "t2"), blobId := none,
    reason := .discarded, state := .pending, lastError := none }

def spareRecorded : Catalog := orElse (Maintenance.recordCleanup spareJob none spareDiscarded) spareDiscarded

def cleaning : System :=
  { catalog := spareDiscarded,
    objects := setObject stored.objects (.text spare.storageId) (.text spare.objectKey) (some [4, 5, 6]),
    processes := setProcess (setProcess (setProcess stored.processes 1 (.uploaded note spare)) 1 .idle) 2
      (.cleaning "s" [spareJob]),
    deletions := [] }

def removed : System :=
  { cleaning with
    objects := setObject cleaning.objects (.text "s") spareJob.objectKey none,
    processes := setProcess cleaning.processes 2 (.recording "s" spareJob none []),
    deletions := [(.text "s", spareJob.objectKey)] }

def cleaned : System :=
  { removed with catalog := spareRecorded, processes := setProcess removed.processes 2 (.cleaning "s" []) }

theorem cleaning_reachable : cleaning.Reachable := by
  have huploaded := Step.upload (s := stored) 1 note spare [4, 5, 6] rfl rfl
  exact (((stored_reachable.tail huploaded).tail
    (.journal 1 note spare spareJournaled rfl (orElse_of_isOk (by decide) _) (by decide))).tail
    (.transaction [.discardPrepared "s" spare] spareDiscarded (orElse_of_isOk (by decide) _))).tail
    (.select 2 "s" 10 [spareJob] rfl (by decide))

theorem cleaning_deletes : Step cleaning removed := .deleted 2 "s" spareJob [] rfl

theorem cleaned_reachable : cleaned.Reachable :=
  (cleaning_reachable.tail cleaning_deletes).tail
    (.record 2 "s" spareJob none [] spareRecorded rfl (orElse_of_isOk (by decide) _))

theorem stored_object_outlasts_a_cleanup :
    (cleaning.Deletes (.text "s") (.text spare.objectKey) ∧
      ∀ p ∈ cleaning.catalog.prepared, p.storageId = .text "s" → p.objectKey = .text spare.objectKey →
        ¬cleaning.catalog.situated p.token .unbound) ∧
    (removed.objects (.text "s") (.text spare.objectKey) = none ∧
      removed.objects (.text "s") (.text draft.objectKey) =
      cleaning.objects (.text "s") (.text draft.objectKey)) ∧
    (cleaned.catalog.Protected (Encodings.physical draft) ∧
      cleaned.objects (.text "s") (.text draft.objectKey) ≠ none) ∧
    ∃ g ∈ cleaned.catalog.gc, g.state = .done ∧ (g.storageId, g.objectKey) ∈ cleaned.deletions := by
  have hdeletes : cleaning.Deletes (.text "s") (.text spare.objectKey) := ⟨2, "s", spareJob, [], rfl, rfl, rfl⟩
  have hlive : cleaning.catalog.Protected (Encodings.physical draft) :=
    ⟨by decide, Or.inl ⟨"b1", by decide, by decide⟩⟩
  have hprotected : cleaned.catalog.Protected (Encodings.physical draft) :=
    ⟨by decide, Or.inl ⟨"b1", by decide, by decide⟩⟩
  have hdone : ∃ g ∈ cleaned.catalog.gc, g.state = .done := by decide
  obtain ⟨hunprotected, -, hkept, -, -⟩ := physical_deletion_is_safe cleaning cleaning_reachable
  obtain ⟨-, hpresent, -, hrecorded, -⟩ := physical_deletion_is_safe cleaned cleaned_reachable
  obtain ⟨g, hg, hstate⟩ := hdone
  exact ⟨⟨hdeletes, fun p hp hstorage hkey => (hunprotected _ _ hdeletes p hp hstorage hkey).2⟩,
    ⟨rfl, hkept removed cleaning_deletes _ hlive⟩, ⟨hprotected, hpresent _ hprotected⟩, g, hg, hstate,
      hrecorded g hg hstate⟩

end System

end MeldStore
