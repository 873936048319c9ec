import MeldStore.Creation

namespace MeldStore

open Library Library.Checked Library.Keyed Library.Runs

namespace Creations

-- One call of put or import_file, by a process whose store has its own storage.
structure Request where
  storage : String
  call : Store.Creation

inductive Phase
  | waiting
  | checked
  | uploaded (prepared : PreparedFile)
  | journaled (prepared : PreparedFile)
  | answered (r : Record)
  | returned (r : Record)
  | raised (e : Error)
  | stopped

-- `journaled` outlives the call: what it has committed of its own.
structure Progress where
  phase : Phase
  journaled : Option PreparedFile

structure System (ι : Type*) where
  catalog : Catalog
  progress : ι → Progress

inductive Event (ι : Type*)
  | check (i : ι)
  | upload (i : ι) (token key : String)
  | journal (i : ι)
  | commit (i : ι)
  | answer (i : ι)
  | fail (i : ι) (e : Error)
  | stop (i : ι)
  | other

def Event.call? {ι : Type*} : Event ι → Option ι
  | check i => some i
  | upload i _ _ => some i
  | journal i => some i
  | commit i => some i
  | answer i => some i
  | fail i _ => some i
  | stop i => some i
  | other => none

def Phase.Ended : Phase → Prop
  | returned _ => True
  | raised _ => True
  | stopped => True
  | _ => False

-- An operation on other ids. It has no token that a call has drawn.
structure Spares (id : String) (drawn : String → Prop) (db after : Catalog) : Prop where
  blobs : ∀ b : BlobRow, b.id = id → (b ∈ after.blobs ↔ b ∈ db.blobs)
  metadata : ∀ m : MetaRow, m.id = .text id → (m ∈ after.metadata ↔ m ∈ db.metadata)
  objects : ∀ o : ObjectRow, o.blobId = id → (o ∈ after.objects ↔ o ∈ db.objects)
  tokens : ∀ o ∈ after.objects, o ∈ db.objects ∨ ∀ token, drawn token → o.token ≠ .text token

variable {ι : Type*} [DecidableEq ι]

def System.moved (s : System ι) (i : ι) (phase : Phase) : System ι :=
  { s with progress := Function.update s.progress i { s.progress i with phase := phase } }

def System.drawn (s : System ι) (token : String) : Prop :=
  ∃ i p, (s.progress i).journaled = some p ∧ p.token = token

-- A transaction whose COMMIT succeeds answers; the process may still stop before
-- the call returns. A call fails or stops at any step.
inductive Step (requests : ι → Request) (id : String) : Event ι → System ι → System ι → Prop
  | found (s : System ι) (i : ι) (r : Record) (hphase : (s.progress i).phase = .waiting)
      (h : Store.retry (requests i).storage (requests i).call s.catalog = .ok (some r)) :
      Step requests id (.check i) s (s.moved i (.answered r))
  | missing (s : System ι) (i : ι) (hphase : (s.progress i).phase = .waiting)
      (h : Store.retry (requests i).storage (requests i).call s.catalog = .ok none) :
      Step requests id (.check i) s (s.moved i .checked)
  | refused (s : System ι) (i : ι) (e : Error) (hphase : (s.progress i).phase = .waiting)
      (h : Store.retry (requests i).storage (requests i).call s.catalog = .error e) :
      Step requests id (.check i) s (s.moved i (.raised e))
  | upload (s : System ι) (i : ι) (token key : String) (hphase : (s.progress i).phase = .checked) :
      Step requests id (.upload i token key) s (s.moved i (.uploaded
        (Store.prepareSnapshot (requests i).storage token key (requests i).call.schema
          (requests i).call.byteSize (requests i).call.digest (requests i).call.encoding)))
  | journal (s : System ι) (i : ι) (prepared : PreparedFile) (after : Catalog)
      (hphase : (s.progress i).phase = .uploaded prepared)
      (h : Store.journal s.catalog (requests i).call.schema prepared = .ok after)
      (hkeys : after.DeferredKeys) :
      Step requests id (.journal i) s
        ⟨after, Function.update s.progress i ⟨.journaled prepared, some prepared⟩⟩
  | create (s : System ι) (i : ι) (prepared : PreparedFile) (r : Record) (after : Catalog)
      (hphase : (s.progress i).phase = .journaled prepared)
      (h : Migrations.transaction
        (Store.create (requests i).storage (requests i).call prepared) s.catalog = .ok (r, after)) :
      Step requests id (.commit i) s ({ s with catalog := after }.moved i (.answered r))
  | aborted (s : System ι) (i : ι) (prepared : PreparedFile) (e : Error)
      (hphase : (s.progress i).phase = .journaled prepared)
      (h : Migrations.transaction
        (Store.create (requests i).storage (requests i).call prepared) s.catalog = .error e) :
      Step requests id (.commit i) s (s.moved i (.raised e))
  | answer (s : System ι) (i : ι) (r : Record) (hphase : (s.progress i).phase = .answered r) :
      Step requests id (.answer i) s (s.moved i (.returned r))
  | fail (s : System ι) (i : ι) (e : Error) (hphase : ¬(s.progress i).phase.Ended) :
      Step requests id (.fail i e) s (s.moved i (.raised e))
  | stop (s : System ι) (i : ι) (hphase : ¬(s.progress i).phase.Ended) :
      Step requests id (.stop i) s (s.moved i .stopped)
  | other (s : System ι) (after : Catalog) (h : Commit s.catalog after)
      (hspares : Spares id s.drawn s.catalog after) :
      Step requests id .other s { s with catalog := after }

abbrev Runs (requests : ι → Request) (id : String) : System ι → System ι → Prop :=
  Run fun s t => ∃ event, Step requests id event s t

structure Request.Accepted (request : Request) (id : String) : Prop where
  named : request.call.id = id
  accepted : request.call.Accepted

-- Before the first call: no blob of the id is between finalize and publish.
structure System.Fresh (s : System ι) (id : String) : Prop where
  reachable : Reachable s.catalog
  published : ∀ b ∈ s.catalog.blobs, b.id = id → b.state = .ready
  waiting : ∀ i, s.progress i = ⟨.waiting, none⟩

variable {requests : ι → Request} {id : String} {s t : System ι}

def Request.Prepared (request : Request) (p : PreparedFile) : Prop :=
  ∃ token key, p = Store.prepareSnapshot request.storage token key request.call.schema
    request.call.byteSize request.call.digest request.call.encoding

-- Where a call stands: its answer is the record of the id and of its own content, and
-- a token it has journaled is bound to that record or to nothing.
structure Stands (request : Request) (id : String) (db : Catalog) (progress : Progress) : Prop where
  answers : ∀ r, progress.phase = .answered r ∨ progress.phase = .returned r →
    Store.record db id true = .ok r ∧ request.call.Same request.storage r
  uploads : ∀ p, progress.phase = .uploaded p → request.Prepared p
  journals : ∀ p, progress.phase = .journaled p → progress.journaled = some p
  bears : ∀ p, progress.journaled = some p → db.Bears p ∧ request.Prepared p
  unbound : ∀ p, progress.journaled = some p → (∀ o ∈ db.objects, o.token ≠ .text p.token) ∨
    ∃ r, Store.record db id true = .ok r ∧ r.token = .text p.token ∧ request.call.Same request.storage r

structure Sound (requests : ι → Request) (id : String) (s : System ι) : Prop where
  reachable : Reachable s.catalog
  published : ∀ b ∈ s.catalog.blobs, b.id = id → b.state = .ready
  stands : ∀ i, Stands (requests i) id s.catalog (s.progress i)
  distinct : ∀ i j p q, (s.progress i).journaled = some p → (s.progress j).journaled = some q →
    p.token = q.token → i = j

omit [DecidableEq ι] in
theorem System.Fresh.sound (h : s.Fresh id) : Sound requests id s := by
  refine ⟨h.reachable, h.published, fun i => ?_, fun i j p q hi => ?_⟩
  · rw [h.waiting i]
    constructor <;> simp
  · rw [h.waiting i] at hi
    cases hi

theorem Request.Prepared.sealed {request : Request} {p : PreparedFile} (hcall : request.call.Accepted)
    (h : request.Prepared p) : p.Sealed := by
  obtain ⟨token, key, rfl⟩ := h
  exact ⟨⟨rfl, rfl, rfl⟩, hcall.sealed⟩

variable {db after : Catalog} {drawn : String → Prop} {r : Record}

-- The read of an id finds the same record after an operation on other ids.
theorem record_spared (hr : Reachable db) (h : Commit db after) (hspares : Spares id drawn db after)
    (hrecord : Store.record db id true = .ok r) : Store.record after id true = .ok r := by
  have hs := Reachable.settled hr
  have hsAfter := h.settled hs
  have hmono : ∀ s ∈ db.schemas, s ∈ after.schemas := fun _ => (h.changes hs.wf).schemas_mono
  obtain ⟨b, o, p, m, hc, hshows, hready⟩ := record_shows hrecord
  have hid := hc.blobId
  subst hid
  have hb : b ∈ after.blobs := (hspares.blobs b rfl).mpr hc.blob
  obtain ⟨o', p', m', hc'⟩ := hsAfter.complete hb
  obtain rfl := hs.wf.object_eq ((hspares.objects o' hc'.objectBlob).mp hc'.object) hc.object
    (hc'.objectBlob.trans hc.objectBlob.symm)
  obtain rfl := hs.wf.meta_eq ((hspares.metadata m' hc'.metaId).mp hc'.metadata) hc.metadata
    (hc'.metaTable.trans hc.metaTable.symm) (hc'.metaId.trans hc.metaId.symm)
  obtain ⟨prepared, hprepares, rfl⟩ := Reachable.prepares hr p hc.prepared
  have hbears := hprepares.bears.1
  have hbearsAfter := h.bears hs.wf hbears
  obtain rfl := hsAfter.wf.prepared_eq hc'.prepared hbearsAfter.1
    (hc'.preparedToken.trans hc.preparedToken.symm)
  obtain ⟨r', hr', hshows'⟩ := hsAfter.record hc' hready
  rw [hshows.unique hshows' (fun _ => schema?_kept hsAfter.wf hmono) (hbearsAfter.2.trans hbears.2.symm)] at hr'
  exact hr'

-- A call journals without touching a blob.
theorem journal_spares {prepared : PreparedFile} (h : Journaled db prepared after) :
    Spares id drawn db after := by
  obtain ⟨_, _, _, _, _, _, _⟩ := h
  exact ⟨fun _ _ => Iff.rfl, fun _ _ => Iff.rfl, fun _ _ => Iff.rfl, fun _ ho => Or.inl ho⟩

-- The last transaction of a call, as one of the catalog's.
theorem create_commit {storage : String} {call : Store.Creation} {prepared : PreparedFile}
    (h : Migrations.transaction (Store.create storage call prepared) db = .ok (r, after)) :
    Commit db after := by
  obtain ⟨hcreate, hkeys⟩ := Migrations.transaction_eq_ok h
  refine .transaction [.create storage call prepared] _ ?_
  have hexec : Action.exec db (.create storage call prepared) = .ok after := by
    simp [Action.exec, hcreate, Except.map]
  simp [transact, hexec, require, hkeys]

theorem record_of_id (h : Store.record db id true = .ok r) : ∃ b ∈ db.blobs, b.id = id := by
  obtain ⟨b, _, _, _, hc, _⟩ := record_shows h
  exact ⟨b, hc.blob, hc.blobId⟩

-- What a step does to the catalog: nothing, an operation on other rows, or the one
-- creation of the id.
inductive Effect (requests : ι → Request) (id : String) (s : System ι) : System ι → Prop
  | silent (t : System ι) (h : t.catalog = s.catalog) : Effect requests id s t
  | spared (t : System ι) (h : Commit s.catalog t.catalog)
      (hspares : Spares id s.drawn s.catalog t.catalog) : Effect requests id s t
  | created (i : ι) (p : PreparedFile) (r : Record) (after : Catalog)
      (hphase : (s.progress i).phase = .journaled p) (hcommit : Commit s.catalog after)
      (hrecord : Store.record after id true = .ok r)
      (hcreated : Store.Created (requests i).storage (requests i).call p s.catalog after) :
      Effect requests id s ({ s with catalog := after }.moved i (.answered r))

theorem Step.effect {event : Event ι} (hcalls : ∀ i, (requests i).Accepted id)
    (hsound : Sound requests id s) (h : Step requests id event s t) : Effect requests id s t := by
  have hs := Reachable.settled hsound.reachable
  cases h with
  | journal _ i prepared after hphase h hkeys =>
      have hsealed := ((hsound.stands i).uploads prepared hphase).sealed (hcalls i).accepted
      exact .spared _ (.journaling _ prepared after hsealed h hkeys) (journal_spares (journal_effect h))
  | create _ i prepared r after hphase h =>
      rcases Store.create_cases hs (hcalls i).accepted (Migrations.transaction_eq_ok h).1 with
        ⟨_, rfl⟩ | ⟨hrecord, hcreated⟩
      · exact .silent _ rfl
      · exact .created i prepared r after hphase (create_commit h) ((hcalls i).named ▸ hrecord) hcreated
  | other _ after h hspares => exact .spared _ h hspares
  | _ => exact .silent _ rfl

theorem Effect.reachable (hr : Reachable s.catalog) (h : Effect requests id s t) : Reachable t.catalog := by
  cases h with
  | silent _ h => exact h ▸ hr
  | spared _ h _ => exact hr.tail h
  | created i p r after _ h _ _ => exact hr.tail h

-- A record of the id stays.
theorem Effect.record_kept (hcalls : ∀ i, (requests i).Accepted id) (hsound : Sound requests id s)
    (h : Effect requests id s t) (hrecord : Store.record s.catalog id true = .ok r) :
    Store.record t.catalog id true = .ok r := by
  cases h with
  | silent _ h => exact h ▸ hrecord
  | spared _ h hspares => exact record_spared hsound.reachable h hspares hrecord
  | created i p r' after _ _ _ hcreated =>
      obtain ⟨b, hb, hid⟩ := record_of_id hrecord
      exact absurd (hid.trans (hcalls i).named.symm) (hcreated.fresh b hb)

theorem Effect.bears {p : PreparedFile} (hsound : Sound requests id s) (hbears : s.catalog.Bears p)
    (h : Effect requests id s t) : t.catalog.Bears p := by
  have hw := (Reachable.settled hsound.reachable).wf
  cases h with
  | silent _ h => exact h ▸ hbears
  | spared _ h _ => exact h.bears hw hbears
  | created i _ _ after _ h _ _ => exact h.bears hw hbears

theorem Effect.published (hsound : Sound requests id s)
    (h : Effect requests id s t) : ∀ b ∈ t.catalog.blobs, b.id = id → b.state = .ready := by
  intro b hb hid
  cases h with
  | silent _ h => exact hsound.published b (h ▸ hb) hid
  | spared _ _ hspares => exact hsound.published b ((hspares.blobs b hid).mp hb) hid
  | created i p r' after _ _ _ hcreated =>
      rcases hcreated.blobs b hb with hold | rfl
      · exact hsound.published b hold hid
      · rfl

omit [DecidableEq ι] in
-- The record of a creation bears the token and the content of its own call.
theorem created_record {i : ι} {p : PreparedFile} (hcalls : ∀ i, (requests i).Accepted id)
    (hsound : Sound requests id s) (hphase : (s.progress i).phase = .journaled p)
    (hcommit : Commit s.catalog after) (hrecord : Store.record after id true = .ok r)
    (hcreated : Store.Created (requests i).storage (requests i).call p s.catalog after) :
    r.token = .text p.token ∧ (requests i).call.Same (requests i).storage r := by
  have hs := Reachable.settled hsound.reachable
  have hsAfter := hcommit.settled hs
  obtain ⟨hbears, hprepared⟩ := (hsound.stands i).bears p ((hsound.stands i).journals p hphase)
  have hsealed := hprepared.sealed (hcalls i).accepted
  have hobject : ∃ o ∈ after.objects, o.blobId = id ∧ o.token = .text p.token := by
    refine ⟨⟨(requests i).call.id, .text p.token⟩, ?_, (hcalls i).named, rfl⟩
    rw [hcreated.objects]
    exact List.mem_append_right _ (List.mem_singleton.mpr rfl)
  refine ⟨(Record.reports hsAfter.wf (hcommit.bears hs.wf hbears) hsealed hobject hrecord).token, ?_⟩
  obtain ⟨token, key, rfl⟩ := hprepared
  refine Store.created_same hsAfter (hcalls i).accepted hcreated ?_
  rwa [(hcalls i).named]

-- A call that does not move stands as before.
theorem Effect.stands (hcalls : ∀ i, (requests i).Accepted id) (hsound : Sound requests id s)
    (h : Effect requests id s t) (j : ι) : Stands (requests j) id t.catalog (s.progress j) := by
  have hstands := hsound.stands j
  refine ⟨fun r hr => ?_, hstands.uploads, hstands.journals, fun p hp => ?_, fun p hp => ?_⟩
  · exact ⟨h.record_kept hcalls hsound (hstands.answers r hr).1, (hstands.answers r hr).2⟩
  · exact ⟨h.bears hsound (hstands.bears p hp).1, (hstands.bears p hp).2⟩
  rcases hstands.unbound p hp with hnone | ⟨r, hr, htoken, hsame⟩
  · cases h with
    | silent _ h => exact Or.inl (h ▸ hnone)
    | spared _ _ hspares =>
        refine Or.inl fun o ho => ?_
        rcases hspares.tokens o ho with hold | hnew
        · exact hnone o hold
        · exact hnew p.token ⟨j, p, hp, rfl⟩
    | created i q r after hphase hcommit hrecord hcreated =>
        by_cases htoken : p.token = q.token
        · have hij := hsound.distinct j i p q hp ((hsound.stands i).journals q hphase) htoken
          subst hij
          obtain ⟨hrtoken, hsame⟩ := created_record hcalls hsound hphase hcommit hrecord hcreated
          exact Or.inr ⟨r, hrecord, htoken ▸ hrtoken, hsame⟩
        · refine Or.inl fun o ho hsame => ?_
          have ho : o ∈ after.objects := ho
          rw [hcreated.objects] at ho
          rcases List.mem_append.mp ho with hold | hnew
          · exact hnone o hold hsame
          · rw [List.mem_singleton.mp hnew] at hsame
            exact htoken (TextCell.text.inj hsame).symm
  · exact Or.inr ⟨r, h.record_kept hcalls hsound hr, htoken, hsame⟩

-- A call that moves on keeps what it has journaled; the other calls stand.
theorem stands_moved (hkept : ∀ j, Stands (requests j) id db (s.progress j)) (i : ι) (phase : Phase)
    (hanswers : ∀ r, phase = .answered r ∨ phase = .returned r →
      Store.record db id true = .ok r ∧ (requests i).call.Same (requests i).storage r)
    (huploads : ∀ p, phase = .uploaded p → (requests i).Prepared p) (hjournals : ∀ p, phase ≠ .journaled p)
    (j : ι) : Stands (requests j) id db ((s.moved i phase).progress j) := by
  by_cases hj : j = i
  · subst hj
    simp only [System.moved, Function.update_self]
    exact ⟨hanswers, huploads, fun p hp => absurd hp (hjournals p), (hkept j).bears, (hkept j).unbound⟩
  · simp only [System.moved, Function.update_of_ne hj]
    exact hkept j

omit [DecidableEq ι] in
theorem found_stands {i : ι} (hcalls : ∀ i, (requests i).Accepted id) (hsound : Sound requests id s)
    (h : Store.retry (requests i).storage (requests i).call s.catalog = .ok (some r)) :
    Store.record s.catalog id true = .ok r ∧ (requests i).call.Same (requests i).storage r := by
  have hs := Reachable.settled hsound.reachable
  obtain ⟨hrecord, hsame⟩ := Store.retry_found h
  rw [(hcalls i).named] at hrecord
  obtain ⟨b, _, _, _, hc, hshows, _⟩ := record_shows hrecord
  have hready := hshows.state.trans (hsound.published b hc.blob hc.blobId)
  exact ⟨record_ready hs hrecord hready, hsame⟩

theorem Step.stands {event : Event ι} (hcalls : ∀ i, (requests i).Accepted id)
    (hsound : Sound requests id s) (h : Step requests id event s t) (j : ι) :
    Stands (requests j) id t.catalog (t.progress j) := by
  have hs := Reachable.settled hsound.reachable
  have hkept := (h.effect hcalls hsound).stands hcalls hsound
  cases h with
  | found _ i r hphase h =>
      have hfound := found_stands hcalls hsound h
      refine stands_moved hkept i _ (fun r' hr' => ?_) (by simp) (by simp) j
      obtain rfl : r = r' := by simpa using hr'
      exact hfound
  | missing _ i | refused _ i | aborted _ i | fail _ i | stop _ i =>
      exact stands_moved hkept i _ (by simp) (by simp) (by simp) j
  | upload _ i token key hphase =>
      refine stands_moved hkept i _ (by simp) (fun p hp => ?_) (by simp) j
      exact ⟨token, key, (Phase.uploaded.inj hp).symm⟩
  | journal _ i prepared after hphase h hkeys =>
      by_cases hj : j = i
      · subst hj
        have hjournaled := journal_effect h
        simp only [Function.update_self]
        refine ⟨by simp, by simp, fun p hp => by simpa using hp, fun p hp => ?_, fun p hp => ?_⟩
        · obtain rfl := Option.some.inj hp
          exact ⟨hjournaled.bears_new hs.keys, (hsound.stands j).uploads _ hphase⟩
        · obtain rfl := Option.some.inj hp
          obtain ⟨_, _, htoken, _, _, _, _⟩ := hjournaled
          refine Or.inl fun o ho hsame => ?_
          obtain ⟨q, hq, hqtoken⟩ := hs.wf.objectHasPrepared o ho
          exact htoken q hq (hqtoken.trans hsame)
      · simp only [Function.update_of_ne hj]
        exact hkept j
  | create _ i prepared r after hphase h =>
      have hanswer : Store.record after id true = .ok r ∧
          (requests i).call.Same (requests i).storage r := by
        rcases Store.create_cases hs (hcalls i).accepted (Migrations.transaction_eq_ok h).1 with
          ⟨hfound, rfl⟩ | ⟨hrecord, hcreated⟩
        · exact found_stands hcalls hsound hfound
        · rw [(hcalls i).named] at hrecord
          exact ⟨hrecord, (created_record hcalls hsound hphase (create_commit h) hrecord hcreated).2⟩
      refine stands_moved (s := { s with catalog := after }) hkept i _ (fun r' hr' => ?_) (by simp) (by simp) j
      obtain rfl : r = r' := by simpa using hr'
      exact hanswer
  | answer _ i r hphase =>
      refine stands_moved hkept i _ (fun r' hr' => ?_) (by simp) (by simp) j
      obtain rfl : r = r' := by simpa using hr'
      exact (hsound.stands i).answers r (Or.inl hphase)
  | other _ after h hspares => exact hkept j

@[simp] theorem moved_journaled (s : System ι) (i : ι) (phase : Phase) (j : ι) :
    ((s.moved i phase).progress j).journaled = (s.progress j).journaled := by
  by_cases hj : j = i
  · subst hj
    simp [System.moved]
  · simp [System.moved, hj]

theorem Step.distinct {event : Event ι} (hsound : Sound requests id s) (h : Step requests id event s t) :
    ∀ i j p q, (t.progress i).journaled = some p → (t.progress j).journaled = some q →
      p.token = q.token → i = j := by
  cases h with
  | journal _ k prepared after hphase h hkeys =>
      obtain ⟨_, _, htoken, _, _, _, _⟩ := journal_effect h
      -- No call has a journal row of this token so far.
      have hfresh : ∀ (i : ι) (p : PreparedFile), (s.progress i).journaled = some p →
          p.token ≠ prepared.token := fun i p hp hsame =>
        htoken _ ((hsound.stands i).bears p hp).1.1 (by simp [Encodings.physical, hsame])
      intro i j p q hp hq hsame
      by_cases hi : i = k <;> by_cases hj : j = k
      · exact hi.trans hj.symm
      · rw [hi] at hp
        simp only [Function.update_self, Option.some.injEq] at hp
        simp only [Function.update_of_ne hj] at hq
        exact absurd (hp ▸ hsame).symm (hfresh j q hq)
      · rw [hj] at hq
        simp only [Function.update_self, Option.some.injEq] at hq
        simp only [Function.update_of_ne hi] at hp
        exact absurd (hq ▸ hsame) (hfresh i p hp)
      · simp only [Function.update_of_ne hi] at hp
        simp only [Function.update_of_ne hj] at hq
        exact hsound.distinct i j p q hp hq hsame
  | other => exact hsound.distinct
  | _ => simpa using hsound.distinct

theorem Step.sound {event : Event ι} (hcalls : ∀ i, (requests i).Accepted id)
    (hsound : Sound requests id s) (h : Step requests id event s t) : Sound requests id t :=
  have heffect := h.effect hcalls hsound
  ⟨heffect.reachable hsound.reachable, heffect.published hsound, h.stands hcalls hsound, h.distinct hsound⟩

theorem Runs.sound (hcalls : ∀ i, (requests i).Accepted id) (hsound : Sound requests id s)
    (h : Runs requests id s t) : Sound requests id t :=
  invariant (Sound requests id) (fun _ _ hsound ⟨_, h⟩ => h.sound hcalls hsound) h hsound

theorem Runs.record_kept (hcalls : ∀ i, (requests i).Accepted id) (hsound : Sound requests id s)
    (h : Runs requests id s t) (hrecord : Store.record s.catalog id true = .ok r) :
    Store.record t.catalog id true = .ok r :=
  (invariant (fun s => Sound requests id s ∧ Store.record s.catalog id true = .ok r)
    (fun _ _ hs ⟨_, h⟩ => ⟨h.sound hcalls hs.1, (h.effect hcalls hs.1).record_kept hcalls hs.1 hs.2⟩) h
    ⟨hsound, hrecord⟩).2

theorem differing_conflicts {event : Event ι} {i : ι} (hcalls : ∀ i, (requests i).Accepted id)
    (hsound : Sound requests id s) (hrecord : Store.record s.catalog id true = .ok r)
    (hdiffers : ¬(requests i).call.Same (requests i).storage r)
    (hevent : event = .check i ∨ event = .commit i) (h : Step requests id event s t) :
    t.catalog = s.catalog ∧ ∃ message, (t.progress i).phase = .raised (.ConflictError message) := by
  have hs := Reachable.settled hsound.reachable
  obtain ⟨message, hretry⟩ := Store.retry_conflicts hs (hcalls i).accepted
    ((hcalls i).named ▸ (record_any hs hrecord).1) hdiffers
  have hcreate : ∀ prepared, Migrations.transaction
      (Store.create (requests i).storage (requests i).call prepared) s.catalog =
        .error (.ConflictError message) := by
    intro prepared
    simp [Migrations.transaction, Store.create, hretry, bind, Except.bind]
  rcases hevent with rfl | rfl
  · cases h with
    | found _ _ _ _ h => rw [hretry] at h; cases h
    | missing _ _ _ h => rw [hretry] at h; cases h
    | refused _ _ e _ h =>
        rw [hretry] at h
        exact ⟨rfl, message, by simp [System.moved, ← Except.error.inj h]⟩
  · cases h with
    | create _ _ prepared _ _ _ h => rw [hcreate] at h; cases h
    | aborted _ _ prepared e _ h =>
        rw [hcreate] at h
        exact ⟨rfl, message, by simp [System.moved, ← Except.error.inj h]⟩

-- A call that writes the rows of blobs creates the record of the id.
theorem call_writes {event : Event ι} {i : ι} (hcalls : ∀ i, (requests i).Accepted id)
    (hsound : Sound requests id s) (hcall : event.call? = some i) (h : Step requests id event s t) :
    (t.catalog.blobs = s.catalog.blobs ∧ t.catalog.metadata = s.catalog.metadata ∧
      t.catalog.objects = s.catalog.objects) ∨
    ∃ r, (t.progress i).phase = .answered r ∧ Store.record t.catalog id true = .ok r ∧
      (requests i).call.Same (requests i).storage r := by
  have hs := Reachable.settled hsound.reachable
  cases h with
  | journal _ j prepared after _ h _ =>
      obtain ⟨_, _, _, _, _, _, _⟩ := journal_effect h
      exact Or.inl ⟨rfl, rfl, rfl⟩
  | create _ j prepared r after hphase h =>
      rcases Store.create_cases hs (hcalls j).accepted (Migrations.transaction_eq_ok h).1 with
        ⟨_, rfl⟩ | ⟨hrecord, hcreated⟩
      · exact Or.inl ⟨rfl, rfl, rfl⟩
      · obtain rfl : j = i := Option.some.inj hcall
        rw [(hcalls j).named] at hrecord
        exact Or.inr ⟨r, by simp [System.moved], hrecord,
          (created_record hcalls hsound hphase (create_commit h) hrecord hcreated).2⟩
  | other => cases hcall
  | _ => exact Or.inl ⟨rfl, rfl, rfl⟩

-- What holds in every state of every interleaving.
structure ExactlyOnce (requests : ι → Request) (id : String) (s : System ι) : Prop where
  one : (s.catalog.blobs.filter fun b => b.id = id).length ≤ 1
  whole : (∀ b ∈ s.catalog.blobs, b.id ≠ id) ∨ ∃ r b o p m, Store.record s.catalog id true = .ok r ∧
    s.catalog.Complete id b o p m ∧ b.state = .ready
  stays : ∀ r t, Store.record s.catalog id true = .ok r → Runs requests id s t →
    Store.record t.catalog id true = .ok r
  returns : ∀ i r, (s.progress i).phase = .returned r → Store.record s.catalog id true = .ok r ∧
    (requests i).call.Same (requests i).storage r
  conflicts : ∀ i r event t, Store.record s.catalog id true = .ok r →
    ¬(requests i).call.Same (requests i).storage r → event = .check i ∨ event = .commit i →
    Step requests id event s t →
      t.catalog = s.catalog ∧ ∃ message, (t.progress i).phase = .raised (.ConflictError message)
  writes : ∀ i event t, event.call? = some i → Step requests id event s t →
    (t.catalog.blobs = s.catalog.blobs ∧ t.catalog.metadata = s.catalog.metadata ∧
      t.catalog.objects = s.catalog.objects) ∨
    ∃ r, (t.progress i).phase = .answered r ∧ Store.record t.catalog id true = .ok r ∧
      (requests i).call.Same (requests i).storage r
  -- Also the steps before the creation.
  excluded : ∀ i event t u r, event.call? = some i → Step requests id event s t → Runs requests id t u →
    Store.record u.catalog id true = .ok r → ¬(requests i).call.Same (requests i).storage r →
      t.catalog.blobs = s.catalog.blobs ∧ t.catalog.metadata = s.catalog.metadata ∧
        t.catalog.objects = s.catalog.objects ∧ ∀ r', (u.progress i).phase ≠ .returned r'
  leaves : ∀ i p, (s.progress i).journaled = some p → s.catalog.Bears p ∧
    ((∀ o ∈ s.catalog.objects, o.token ≠ .text p.token) ∨ ∃ r, Store.record s.catalog id true = .ok r ∧
      r.token = .text p.token ∧ (requests i).call.Same (requests i).storage r)
  distinct : ∀ i j p q, (s.progress i).journaled = some p → (s.progress j).journaled = some q →
    p.token = q.token → i = j

-- Creation under a caller id is exactly-once.
theorem creation_is_exactly_once (requests : ι → Request) (id : String) (start s : System ι)
    (hcalls : ∀ i, (requests i).Accepted id) (hstart : start.Fresh id) (hrun : Runs requests id start s) :
    ExactlyOnce requests id s := by
  have hsound := Runs.sound hcalls hstart.sound hrun
  have hs := Reachable.settled hsound.reachable
  have hone : ∀ b ∈ s.catalog.blobs, b.id = id → (s.catalog.blobs.filter fun b => b.id = id) = [b] :=
    fun b hb hid => hs.wf.blobId.filter_eq_singleton hb rfl _ (decide_eq_true hid) fun other _ hother => by
      rw [of_decide_eq_true hother, hid]
  refine ⟨?_, ?_, fun r t hrecord h => h.record_kept hcalls hsound hrecord,
    fun i r hr => (hsound.stands i).answers r (Or.inr hr),
    fun i r event t hrecord hdiffers hevent h => differing_conflicts hcalls hsound hrecord hdiffers hevent h,
    fun i event t hcall h => call_writes hcalls hsound hcall h,
    fun i event t u r hcall h hlater hrecord hdiffers => ?_,
    fun i p hp => ⟨((hsound.stands i).bears p hp).1, (hsound.stands i).unbound p hp⟩, hsound.distinct⟩
  · by_cases hsome : ∃ b ∈ s.catalog.blobs, b.id = id
    · obtain ⟨b, hb, hid⟩ := hsome
      simp [hone b hb hid]
    · have hnone : (s.catalog.blobs.filter fun b => b.id = id) = [] := by
        simpa [List.filter_eq_nil_iff] using hsome
      simp [hnone]
  · by_cases hsome : ∃ b ∈ s.catalog.blobs, b.id = id
    · obtain ⟨b, hb, hid⟩ := hsome
      obtain ⟨o, p, m, hc⟩ := hs.complete hb
      have hready := hsound.published b hb hid
      obtain ⟨r, hr, _⟩ := hs.record hc fun _ : true = true => hready
      rw [hid] at hr hc
      exact Or.inr ⟨r, b, o, p, m, hr, hc, hready⟩
    · exact Or.inl fun b hb hid => hsome ⟨b, hb, hid⟩
  · have hsoundNext := h.sound hcalls hsound
    have hsoundLater := Runs.sound hcalls hsoundNext hlater
    rcases call_writes hcalls hsound hcall h with ⟨hblobs, hmetadata, hobjects⟩ | ⟨r', _, hr', hsame⟩
    · refine ⟨hblobs, hmetadata, hobjects, fun r' hr' => ?_⟩
      obtain ⟨hrecord', hsame⟩ := (hsoundLater.stands i).answers r' (Or.inr hr')
      rw [hrecord] at hrecord'
      exact hdiffers (Except.ok.inj hrecord' ▸ hsame)
    · have hrecord' := Runs.record_kept hcalls hsoundNext hlater hr'
      rw [hrecord] at hrecord'
      exact absurd (Except.ok.inj hrecord' ▸ hsame) hdiffers

-- Two calls under one id, of different titles.
def offers (first : Bool) : Request :=
  let title := if first then "a" else "b"
  { storage := "s",
    call := { id := "b1", schema := note, metadata := [("title", .str title)],
              values := [("title", .text title)], byteSize := 3,
              digest := "0123456789abcdef0123456789abcdef", encoding := none } }

def waiting : System Bool := ⟨installed, fun _ => ⟨.waiting, none⟩⟩

def uploading : System Bool := (waiting.moved true .checked).moved true (.uploaded draft)

def committing : System Bool :=
  ⟨journaled, Function.update uploading.progress true ⟨.journaled draft, some draft⟩⟩

theorem offers_accepted (first : Bool) : (offers first).Accepted "b1" := by
  cases first <;> exact ⟨rfl, by decide, by simp [offers]⟩

theorem waiting_fresh : waiting.Fresh "b1" := ⟨installed_reachable, by decide, fun _ => rfl⟩

theorem waiting_commits : Runs offers "b1" waiting committing := by
  have hcheck : Step offers "b1" (.check true) waiting (waiting.moved true .checked) :=
    .missing _ true rfl rfl
  have hupload : Step offers "b1" (.upload true "t1" "0123456789abcdef0123456789abcdef")
    (waiting.moved true .checked) uploading :=
    .upload _ true "t1" "0123456789abcdef0123456789abcdef" rfl
  have hjournal : Step offers "b1" (.journal true) uploading committing :=
    .journal _ true draft journaled rfl (orElse_of_isOk (by decide) _) (by decide)
  exact ((Relation.ReflTransGen.single ⟨_, hcheck⟩).tail ⟨_, hupload⟩).tail ⟨_, hjournal⟩

-- The first call goes all the way while the other waits.
theorem note_is_created_once : ∃ s, (∃ r, (s.progress true).phase = .returned r) ∧
    (s.progress false).phase = .waiting ∧ ExactlyOnce offers "b1" s := by
  have hcreated : (Migrations.transaction (Store.create "s" (offers true).call draft) journaled).isOk := by
    decide
  obtain ⟨⟨r, after⟩, hafter⟩ := exists_of_isOk hcreated
  have hcommit : Step offers "b1" (.commit true) committing
      ({ committing with catalog := after }.moved true (.answered r)) :=
    .create _ true draft r after rfl hafter
  have hanswer : Step offers "b1" (.answer true)
      ({ committing with catalog := after }.moved true (.answered r))
      (({ committing with catalog := after }.moved true (.answered r)).moved true (.returned r)) :=
    .answer _ true r rfl
  refine ⟨_, ⟨r, rfl⟩, rfl, creation_is_exactly_once offers "b1" waiting _ offers_accepted waiting_fresh
    ((waiting_commits.tail ⟨_, hcommit⟩).tail ⟨_, hanswer⟩)⟩

end Creations

end MeldStore
