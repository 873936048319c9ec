import MeldStore.Transactions
import MeldStore.Library.Runs

namespace MeldStore

open Library Library.Keyed Library.Runs

-- What the catalog is for: each journaled token belongs to at most one thing, and
-- each blob id lives at most once.

inductive Situation
  | unbound
  | bound (id : String)
  | retired (id : String)
  | discarded

inductive Situation.Step : Situation → Situation → Prop
  | bind (id : String) : Step .unbound (.bound id)
  | retire (id : String) : Step (.bound id) (.retired id)
  | discard : Step .unbound .discarded

def Situation.Follows : Situation → Situation → Prop := Relation.ReflTransGen Situation.Step

theorem Situation.follows_retired {id : String} {s : Situation}
    (h : Situation.Follows (.retired id) s) : s = .retired id := by
  induction h with
  | refl => rfl
  | tail _ hstep ih =>
      subst ih
      cases hstep

theorem Situation.follows_discarded {s : Situation} (h : Situation.Follows .discarded s) :
    s = .discarded := by
  induction h with
  | refl => rfl
  | tail _ hstep ih =>
      subst ih
      cases hstep

theorem Situation.follows_bound {id : String} {s : Situation} (h : Situation.Follows (.bound id) s) :
    s = .bound id ∨ s = .retired id := by
  induction h with
  | refl => exact Or.inl rfl
  | tail _ hstep ih =>
      rcases ih with rfl | rfl
      · cases hstep
        exact Or.inr rfl
      · cases hstep

inductive Life
  | absent
  | publishing
  | ready
  | removed

inductive Life.Step : Life → Life → Prop
  | create : Step .absent .publishing
  | publish : Step .publishing .ready
  | removeUnpublished : Step .publishing .removed
  | remove : Step .ready .removed

def Life.Follows : Life → Life → Prop := Relation.ReflTransGen Life.Step

namespace Catalog

def situated (db : Catalog) (token : TextCell) : Situation → Prop
  | .unbound => (∀ o ∈ db.objects, o.token ≠ token) ∧ ∀ g ∈ db.gc, g.token ≠ some token
  | .bound id => (∃ o ∈ db.objects, o.token = token ∧ o.blobId = id) ∧ ∃ b ∈ db.blobs, b.id = id
  | .retired id => ∃ r ∈ db.retired, r.token = token ∧ r.blobId = id
  | .discarded => ∃ g ∈ db.gc, g.token = some token ∧ g.reason = .discarded

def lives (db : Catalog) (id : String) : Life → Prop
  | .absent => (∀ b ∈ db.blobs, b.id ≠ id) ∧ ∀ r ∈ db.retired, r.blobId ≠ id
  | .publishing => ∃ b ∈ db.blobs, b.id = id ∧ b.state = .publishing
  | .ready => ∃ b ∈ db.blobs, b.id = id ∧ b.state = .ready
  | .removed => ∃ r ∈ db.retired, r.blobId = id

-- Why a cleanup job may delete its object.
def Backs (db : Catalog) (g : GcRow) : Prop :=
  match g.reason with
  | .retired => ∃ r ∈ db.retired, g.token = some r.token ∧ g.blobId = some r.blobId ∧
      ∃ p ∈ db.prepared, p.token = r.token ∧ p.storageId = g.storageId ∧ p.objectKey = g.objectKey
  | .discarded => ∃ p ∈ db.prepared, g.token = some p.token ∧ p.storageId = g.storageId ∧
      p.objectKey = g.objectKey ∧ ∀ r ∈ db.retired, r.token ≠ p.token
  | .orphan => g.token = none ∧
      ∀ p ∈ db.prepared, ¬(p.storageId = g.storageId ∧ p.objectKey = g.objectKey)

-- What the store's own operations keep beyond the constraints: the application's
-- direct SQL could also delete journal rows.
structure Ledger (db : Catalog) : Prop where
  wf : db.Wf
  retiredQueued : ∀ r ∈ db.retired, ∃ g ∈ db.gc, g.token = some r.token ∧ g.reason = .retired
  backed : ∀ g ∈ db.gc, db.Backs g
  live : ∀ b ∈ db.blobs, b.state = .publishing ∨ b.state = .ready

theorem empty_ledger : Catalog.empty.Ledger :=
  ⟨empty_wf, by simp [empty], by simp [empty], by simp [empty]⟩

end Catalog

namespace Effect

variable {db after : Catalog}

-- Only uploads add to the journal.
theorem prepared_kept (h : Effect db after) : after.prepared = db.prepared := by
  cases h with
  | installed schema _ h =>
      obtain ⟨_, _, _, rfl, _⟩ := h.rows
      rfl
  | enrolled => rfl
  | rows _ h =>
      cases h <;> rfl
  | migration _ h =>
      cases h <;> rfl

theorem retired_mono (h : Effect db after) {r : RetiredRow} (hr : r ∈ db.retired) :
    r ∈ after.retired := by
  cases h with
  | installed schema _ h =>
      obtain ⟨_, _, _, rfl, _⟩ := h.rows
      exact hr
  | enrolled => exact hr
  | rows _ h =>
      cases h with
      | retired => exact List.mem_append_left _ hr
      | _ => exact hr
  | migration _ h =>
      cases h <;> exact hr

end Effect

-- A job keeps its reason while the journal and the retirements grow.
theorem backs_mono {db after : Catalog} {g : GcRow} (h : db.Backs g)
    (hprepared : ∀ p ∈ db.prepared, p ∈ after.prepared)
    (hretired : ∀ r ∈ db.retired, r ∈ after.retired)
    (hnewPrepared : ∀ p ∈ after.prepared, p ∈ db.prepared ∨
      ¬(p.storageId = g.storageId ∧ p.objectKey = g.objectKey))
    (hnewRetired : ∀ r ∈ after.retired, r ∈ db.retired ∨ g.token ≠ some r.token) :
    after.Backs g := by
  unfold Catalog.Backs at h ⊢
  cases hreason : g.reason with
  | retired =>
      simp only [hreason] at h ⊢
      obtain ⟨r, hr, htoken, hblob, p, hp, hrest⟩ := h
      exact ⟨r, hretired r hr, htoken, hblob, p, hprepared p hp, hrest⟩
  | discarded =>
      simp only [hreason] at h ⊢
      obtain ⟨p, hp, htoken, hstorage, hkey, hnone⟩ := h
      refine ⟨p, hprepared p hp, htoken, hstorage, hkey, fun r hr he => ?_⟩
      rcases hnewRetired r hr with hold | hother
      · exact hnone r hold he
      · exact hother (by rw [htoken, he])
  | orphan =>
      simp only [hreason] at h ⊢
      refine ⟨h.1, fun p hp hsame => ?_⟩
      rcases hnewPrepared p hp with hold | hother
      · exact h.2 p hold hsame
      · exact hother hsame

theorem Effect.ledger {db after : Catalog} (hl : db.Ledger) (h : Effect db after) : after.Ledger := by
  have hwf := h.wf hl.wf
  cases h with
  | installed schema _ h =>
      obtain ⟨_, _, _, rfl, _⟩ := h.rows
      exact { hl with wf := hwf }
  | enrolled => exact { hl with wf := hwf }
  | rows _ h =>
      cases h with
      | finalized schema b m o p _ _ hblob _ _ _ _ _ _ _ _ _ _ =>
          exact { hl with
            wf := hwf
            live := fun b' hb' => by
              rcases List.mem_append.mp hb' with hb' | hb'
              · exact hl.live b' hb'
              · rw [List.mem_singleton.mp hb']
                exact Or.inl hblob.2.2 }
      | published b hb _ _ =>
          exact { hl with
            wf := hwf
            live := fun b' hb' => by
              rcases (mem_rewrite _ _ _ _).mp hb' with ⟨hb', _⟩ | ⟨_, _, _, rfl⟩
              · exact hl.live b' hb'
              · exact Or.inr rfl }
      | edited => exact { hl with wf := hwf }
      | retired b o p m r g hcomplete _ _ _ hr hg _ =>
          exact {
            wf := hwf
            retiredQueued := fun r' hr' => by
              rcases List.mem_append.mp hr' with hr' | hr'
              · obtain ⟨g', hg', hrest⟩ := hl.retiredQueued r' hr'
                exact ⟨g', List.mem_append_left _ hg', hrest⟩
              · rw [List.mem_singleton.mp hr']
                refine ⟨g, List.mem_append_right _ (List.mem_singleton.mpr rfl), ?_, by rw [hg]⟩
                rw [hg, hr.2]
            backed := fun g' hg' => by
              rcases List.mem_append.mp hg' with hg' | hg'
              · refine backs_mono (hl.backed g' hg') (fun _ hp => hp) (fun _ hr => List.mem_append_left _ hr)
                  (fun _ hp => Or.inl hp) fun r' hr' => ?_
                rcases List.mem_append.mp hr' with hr' | hr'
                · exact Or.inl hr'
                -- The token of the retired blob was bound, so no earlier job has it.
                · rw [List.mem_singleton.mp hr', hr.2, hcomplete.preparedToken]
                  exact Or.inr (hl.wf.revoked g' hg' o hcomplete.object)
              · rw [List.mem_singleton.mp hg', hg]
                exact ⟨r, List.mem_append_right _ (List.mem_singleton.mpr rfl), by simp [hr.2],
                  by simp [hr.1], p, hcomplete.prepared, hr.2.symm, rfl, rfl⟩
            live := fun b' hb' => hl.live b' (List.mem_of_mem_filter hb') }
      | discarded p g hp hg _ hretired _ =>
          exact { hl with
            wf := hwf
            retiredQueued := fun r hr => by
              obtain ⟨g', hg', hrest⟩ := hl.retiredQueued r hr
              exact ⟨g', List.mem_append_left _ hg', hrest⟩
            backed := fun g' hg' => by
              rcases List.mem_append.mp hg' with hg' | hg'
              · exact hl.backed g' hg'
              · rw [List.mem_singleton.mp hg', hg]
                exact ⟨p, hp, rfl, rfl, rfl, hretired⟩ }
      | orphaned g htoken _ hreason _ hunknown _ =>
          exact { hl with
            wf := hwf
            retiredQueued := fun r hr => by
              obtain ⟨g', hg', hrest⟩ := hl.retiredQueued r hr
              exact ⟨g', List.mem_append_left _ hg', hrest⟩
            backed := fun g' hg' => by
              rcases List.mem_append.mp hg' with hg' | hg'
              · exact hl.backed g' hg'
              · rw [List.mem_singleton.mp hg']
                unfold Catalog.Backs
                rw [hreason]
                exact ⟨htoken, hunknown⟩ }
  | migration _ h =>
      cases h with
      | initialized => exact { hl with wf := hwf }
      | moved plan b old new _ hb _ _ _ _ _ _ _ _ _ =>
          exact { hl with
            wf := hwf
            live := fun b' hb' => by
              rcases (mem_rewrite _ _ _ _).mp hb' with ⟨hb', _⟩ | ⟨_, _, _, rfl⟩
              · exact hl.live b' hb'
              · exact hl.live b hb }
      | progressed => exact { hl with wf := hwf }

theorem Journaled.ledger {db after : Catalog} {prepared : PreparedFile} (hl : db.Ledger)
    (h : Journaled db prepared after) : after.Ledger := by
  have hwf := h.wf hl.wf
  obtain ⟨schema, _, _, _, hqueued, _, _⟩ := h
  exact { hl with
    wf := hwf
    backed := fun g hg => by
      refine backs_mono (hl.backed g hg) (fun _ hp => List.mem_append_left _ hp) (fun _ hr => hr)
        (fun p hp => ?_) fun _ hr => Or.inl hr
      rcases List.mem_append.mp hp with hp | hp
      · exact Or.inl hp
      · rw [List.mem_singleton.mp hp]
        exact Or.inr fun ⟨hs, hk⟩ => hqueued g hg ⟨hs.symm, hk.symm⟩ }

theorem Recorded.ledger {db after : Catalog} (hl : db.Ledger) (h : Recorded db after) :
    after.Ledger := by
  have hwf := h.wf hl.wf
  obtain ⟨old, new, hold, hstate, hnew⟩ := h
  exact { hl with
    wf := hwf
    retiredQueued := fun r hr => by
      obtain ⟨g, hg, htoken, hreason⟩ := hl.retiredQueued r hr
      by_cases hkey : g.sameKey old = true
      · obtain rfl := hl.wf.gc_eq hg hold hkey
        refine ⟨new, (mem_rewrite _ _ _ _).mpr (Or.inr ⟨g, hg, hkey, rfl⟩), ?_, ?_⟩
        · rw [hnew]
          exact htoken
        · rw [hnew]
          exact hreason
      · exact ⟨g, (mem_rewrite _ _ _ _).mpr (Or.inl ⟨hg, by simpa using hkey⟩), htoken, hreason⟩
    backed := fun g hg => by
      rcases (mem_rewrite _ _ _ _).mp hg with ⟨hg, _⟩ | ⟨_, _, _, rfl⟩
      · exact hl.backed g hg
      · rw [hnew]
        exact hl.backed old hold }

theorem Change.ledger {db after : Catalog} (hl : db.Ledger) (h : Change db after) : after.Ledger :=
  h.rec (Effect.ledger hl) (fun _ => Journaled.ledger hl) (Recorded.ledger hl)

namespace Catalog.Ledger

variable {db : Catalog}

-- The job of a token is one row, so it has one reason.
theorem reason_eq (hl : db.Ledger) {g g' : GcRow} (hg : g ∈ db.gc) (hg' : g' ∈ db.gc)
    {token : TextCell} (htoken : g.token = some token) (htoken' : g'.token = some token) : g = g' :=
  hl.wf.gcToken.eq_of_mem hg hg' htoken htoken'

theorem retired_of_reason (hl : db.Ledger) {g : GcRow} (hg : g ∈ db.gc) (hreason : g.reason = .retired)
    {token : TextCell} (htoken : g.token = some token) :
    ∃ r ∈ db.retired, r.token = token ∧ g.blobId = some r.blobId := by
  have hb := hl.backed g hg
  simp only [Catalog.Backs, hreason] at hb
  obtain ⟨r, hr, hrtoken, hblob, _⟩ := hb
  exact ⟨r, hr, Option.some.inj (hrtoken.symm.trans htoken), hblob⟩

theorem situated_exists (hl : db.Ledger) (token : TextCell) : ∃ s, db.situated token s := by
  by_cases hobject : ∃ o ∈ db.objects, o.token = token
  · obtain ⟨o, ho, htoken⟩ := hobject
    obtain ⟨b, hb, hid⟩ := hl.wf.objectHasBlob o ho
    exact ⟨.bound o.blobId, ⟨o, ho, htoken, rfl⟩, b, hb, hid⟩
  by_cases hjob : ∃ g ∈ db.gc, g.token = some token
  · obtain ⟨g, hg, htoken⟩ := hjob
    cases hreason : g.reason with
    | retired =>
        obtain ⟨r, hr, hrtoken, _⟩ := hl.retired_of_reason hg hreason htoken
        exact ⟨.retired r.blobId, r, hr, hrtoken, rfl⟩
    | discarded => exact ⟨.discarded, g, hg, htoken, hreason⟩
    | orphan =>
        have hb := hl.backed g hg
        simp only [Catalog.Backs, hreason, htoken] at hb
        exact absurd hb.1 (by simp)
  · push Not at hobject hjob
    exact ⟨.unbound, hobject, hjob⟩

-- A token with a cleanup job is in no live situation.
theorem not_bound (hl : db.Ledger) {g : GcRow} (hg : g ∈ db.gc) {token : TextCell}
    (htoken : g.token = some token) {o : ObjectRow} (ho : o ∈ db.objects) : o.token ≠ token :=
  fun he => hl.wf.revoked g hg o ho (by rw [htoken, he])

theorem job_of_retired (hl : db.Ledger) {token : TextCell} {id : String}
    (h : db.situated token (.retired id)) :
    ∃ g ∈ db.gc, g.token = some token ∧ g.reason = .retired := by
  obtain ⟨r, hr, rfl, _⟩ := h
  exact hl.retiredQueued r hr

theorem situated_unique (hl : db.Ledger) (token : TextCell) (s s' : Situation)
    (h : db.situated token s) (h' : db.situated token s') : s = s' := by
  cases s with
  | unbound =>
      cases s' with
      | unbound => rfl
      | bound id =>
          obtain ⟨⟨o, ho, he, _⟩, _⟩ := h'
          exact absurd he (h.1 o ho)
      | retired id =>
          obtain ⟨g, hg, he, _⟩ := hl.job_of_retired h'
          exact absurd he (h.2 g hg)
      | discarded =>
          obtain ⟨g, hg, he, _⟩ := h'
          exact absurd he (h.2 g hg)
  | bound id =>
      obtain ⟨⟨o, ho, he, hid⟩, _⟩ := h
      cases s' with
      | unbound => exact absurd he (h'.1 o ho)
      | bound id' =>
          obtain ⟨⟨o', ho', he', hid'⟩, _⟩ := h'
          obtain rfl := hl.wf.object_eq_of_token ho ho' (he.trans he'.symm)
          rw [← hid, ← hid']
      | retired id' =>
          obtain ⟨g, hg, hg', _⟩ := hl.job_of_retired h'
          exact absurd he (hl.not_bound hg hg' ho)
      | discarded =>
          obtain ⟨g, hg, hg', _⟩ := h'
          exact absurd he (hl.not_bound hg hg' ho)
  | retired id =>
      obtain ⟨g, hg, hgtoken, hreason⟩ := hl.job_of_retired h
      cases s' with
      | unbound => exact absurd hgtoken (h'.2 g hg)
      | bound id' =>
          obtain ⟨⟨o, ho, he, _⟩, _⟩ := h'
          exact absurd he (hl.not_bound hg hgtoken ho)
      | retired id' =>
          obtain ⟨r, hr, he, hid⟩ := h
          obtain ⟨r', hr', he', hid'⟩ := h'
          have : r = r' := hl.wf.retiredToken.eq_of_mem hr hr' rfl (by rw [he, he'])
          rw [← hid, ← hid', this]
      | discarded =>
          obtain ⟨g', hg', he', hreason'⟩ := h'
          obtain rfl := hl.reason_eq hg hg' hgtoken he'
          exact absurd (hreason.symm.trans hreason') (by simp)
  | discarded =>
      obtain ⟨g, hg, he, hreason⟩ := h
      cases s' with
      | unbound => exact absurd he (h'.2 g hg)
      | bound id' =>
          obtain ⟨⟨o, ho, ho', _⟩, _⟩ := h'
          exact absurd ho' (hl.not_bound hg he ho)
      | retired id' =>
          obtain ⟨g', hg', he', hreason'⟩ := hl.job_of_retired h'
          obtain rfl := hl.reason_eq hg hg' he he'
          exact absurd (hreason.symm.trans hreason') (by simp)
      | discarded => rfl

end Catalog.Ledger

-- A situation lasts while the associations, the blobs of its ids, the jobs' tokens
-- and the retirements it speaks of are kept and nothing is added for its token.
theorem situated_kept {db after : Catalog} {token : TextCell} {s : Situation}
    (h : db.situated token s)
    (hobjects : ∀ o ∈ db.objects, o.token = token → o ∈ after.objects)
    (hnewObjects : ∀ o ∈ after.objects, o ∈ db.objects ∨ o.token ≠ token)
    (hblobs : ∀ o ∈ db.objects, o.token = token → (∃ b ∈ db.blobs, b.id = o.blobId) →
      ∃ b ∈ after.blobs, b.id = o.blobId)
    (hjobs : ∀ g ∈ db.gc, ∃ g' ∈ after.gc, g'.token = g.token ∧ g'.reason = g.reason)
    (hnewJobs : ∀ g ∈ after.gc, (∃ g' ∈ db.gc, g'.token = g.token) ∨ g.token ≠ some token)
    (hretired : ∀ r ∈ db.retired, r ∈ after.retired) : after.situated token s := by
  cases s with
  | unbound =>
      refine ⟨fun o ho he => ?_, fun g hg he => ?_⟩
      · rcases hnewObjects o ho with hold | hother
        · exact h.1 o hold he
        · exact hother he
      · rcases hnewJobs g hg with ⟨g', hg', he'⟩ | hother
        · exact h.2 g' hg' (he'.trans he)
        · exact hother he
  | bound id =>
      obtain ⟨⟨o, ho, he, rfl⟩, hblob⟩ := h
      exact ⟨⟨o, hobjects o ho he, he, rfl⟩, hblobs o ho he hblob⟩
  | retired id =>
      obtain ⟨r, hr, hrest⟩ := h
      exact ⟨r, hretired r hr, hrest⟩
  | discarded =>
      obtain ⟨g, hg, he, hreason⟩ := h
      obtain ⟨g', hg', ht, hr⟩ := hjobs g hg
      exact ⟨g', hg', ht.trans he, hr.trans hreason⟩

-- The same for the effects that leave associations, jobs and retirements alone.
theorem situated_same {db after : Catalog} {token : TextCell} {s : Situation}
    (h : db.situated token s) (hobjects : after.objects = db.objects) (hgc : after.gc = db.gc)
    (hretired : after.retired = db.retired)
    (hblobs : ∀ b ∈ db.blobs, ∃ b' ∈ after.blobs, b'.id = b.id) : after.situated token s := by
  refine situated_kept h ?_ ?_ ?_ ?_ ?_ ?_
  · rw [hobjects]
    exact fun _ ho _ => ho
  · rw [hobjects]
    exact fun _ ho => Or.inl ho
  · rintro o _ _ ⟨b, hb, hid⟩
    obtain ⟨b', hb', hid'⟩ := hblobs b hb
    exact ⟨b', hb', hid'.trans hid⟩
  · rw [hgc]
    exact fun g hg => ⟨g, hg, rfl, rfl⟩
  · rw [hgc]
    exact fun g hg => Or.inl ⟨g, hg, rfl⟩
  · rw [hretired]
    exact fun _ hr => hr

theorem rewrite_keeps_id {blobs : List BlobRow} (old new : BlobRow) (hid : new.id = old.id) :
    ∀ b ∈ blobs, ∃ b' ∈ rewrite (fun other : BlobRow => other.id = old.id) (fun _ => new) blobs,
      b'.id = b.id := by
  intro b hb
  by_cases hsame : b.id = old.id
  · exact ⟨new, (mem_rewrite _ _ _ _).mpr (Or.inr ⟨b, hb, by simpa using hsame, rfl⟩),
      hid.trans hsame.symm⟩
  · exact ⟨b, (mem_rewrite _ _ _ _).mpr (Or.inl ⟨hb, by simpa using hsame⟩), rfl⟩

theorem queued_situated {db : Catalog} {token : TextCell} {s : Situation} {g : GcRow}
    (h : db.situated token s) (htoken : g.token ≠ some token) :
    { db with gc := db.gc ++ [g] }.situated token s := by
  refine situated_kept h (fun _ ho _ => ho) (fun _ ho => Or.inl ho) (fun _ _ _ hb => hb) ?_ ?_
    fun _ hr => hr
  · exact fun g' hg' => ⟨g', List.mem_append_left _ hg', rfl, rfl⟩
  · intro g' hg'
    rcases List.mem_append.mp hg' with hg' | hg'
    · exact Or.inl ⟨g', hg', rfl⟩
    · rw [List.mem_singleton.mp hg']
      exact Or.inr htoken

theorem Effect.situated {db after : Catalog} (hl : db.Ledger) (h : Effect db after) (token : TextCell)
    (s : Situation) (hs : db.situated token s) :
    ∃ s', after.situated token s' ∧ (s' = s ∨ s.Step s') := by
  have hsame : ∀ b ∈ db.blobs, ∃ b' ∈ db.blobs, b'.id = b.id := fun b hb => ⟨b, hb, rfl⟩
  cases h with
  | installed schema _ h =>
      obtain ⟨_, _, _, rfl, _⟩ := h.rows
      exact ⟨s, situated_same hs rfl rfl rfl hsame, Or.inl rfl⟩
  | enrolled => exact ⟨s, situated_same hs rfl rfl rfl hsame, Or.inl rfl⟩
  | rows _ h =>
      cases h with
      | edited => exact ⟨s, situated_same hs rfl rfl rfl hsame, Or.inl rfl⟩
      | published b hb _ _ =>
          exact ⟨s, situated_same hs rfl rfl rfl (rewrite_keeps_id b { b with state := .ready } rfl),
            Or.inl rfl⟩
      | finalized schema b m o p _ _ _ _ _ _ _ _ hobject htoken hrevoked _ _ =>
          by_cases hown : token = o.token
          · subst hown
            -- The token was in no object and no job, so it was unbound.
            have hunbound := hl.situated_unique o.token s .unbound hs ⟨htoken, hrevoked⟩
            subst hunbound
            refine ⟨.bound b.id, ⟨⟨o, List.mem_append_right _ (List.mem_singleton.mpr rfl), rfl, hobject.1⟩,
              b, List.mem_append_right _ (List.mem_singleton.mpr rfl), rfl⟩, Or.inr (.bind b.id)⟩
          · refine ⟨s, situated_kept hs (fun _ ho _ => List.mem_append_left _ ho) ?_ ?_
              (fun g hg => ⟨g, hg, rfl, rfl⟩) (fun g hg => Or.inl ⟨g, hg, rfl⟩) (fun _ hr => hr), Or.inl rfl⟩
            · intro o' ho'
              rcases List.mem_append.mp ho' with ho' | ho'
              · exact Or.inl ho'
              · rw [List.mem_singleton.mp ho']
                exact Or.inr (Ne.symm hown)
            · rintro _ _ _ ⟨b', hb', hid⟩
              exact ⟨b', List.mem_append_left _ hb', hid⟩
      | retired b o p m r g hcomplete _ _ _ hr hg _ =>
          by_cases hown : token = p.token
          · subst hown
            have hbound := hl.situated_unique p.token s (.bound b.id) hs
              ⟨⟨o, hcomplete.object, hcomplete.preparedToken.symm, hcomplete.objectBlob⟩, b,
                hcomplete.blob, rfl⟩
            subst hbound
            exact ⟨.retired b.id, ⟨r, List.mem_append_right _ (List.mem_singleton.mpr rfl), hr.2, hr.1⟩,
              Or.inr (.retire b.id)⟩
          · have hotherBlob : ∀ o' ∈ db.objects, o'.token = token → o'.blobId ≠ b.id := by
              intro o' ho' he hid
              obtain rfl := hl.wf.object_eq ho' hcomplete.object (hid.trans hcomplete.objectBlob.symm)
              exact hown (he.symm.trans hcomplete.preparedToken.symm)
            refine ⟨s, situated_kept hs ?_ (fun o' ho' => Or.inl (List.mem_of_mem_filter ho')) ?_ ?_ ?_
              (fun _ hr => List.mem_append_left _ hr), Or.inl rfl⟩
            · exact fun o' ho' he => List.mem_filter.mpr ⟨ho', by simpa using hotherBlob o' ho' he⟩
            · rintro o' ho' he ⟨b', hb', hid⟩
              exact ⟨b', List.mem_filter.mpr ⟨hb', by simpa [hid] using hotherBlob o' ho' he⟩, hid⟩
            · exact fun g' hg' => ⟨g', List.mem_append_left _ hg', rfl, rfl⟩
            · intro g' hg'
              rcases List.mem_append.mp hg' with hg' | hg'
              · exact Or.inl ⟨g', hg', rfl⟩
              · rw [List.mem_singleton.mp hg', hg]
                exact Or.inr (by simpa using Ne.symm hown)
      | discarded p g _ hg hunbound hretired hcollides =>
          by_cases hown : token = p.token
          · subst hown
            have hnoJob : ∀ g' ∈ db.gc, g'.token ≠ some p.token := by
              intro g' hg' he
              have := hcollides g' hg'
              simp only [GcRow.collides, hg, not_or, not_and] at this
              exact this.2.1 (by simp) he.symm
            have hfree := hl.situated_unique p.token s .unbound hs ⟨hunbound, hnoJob⟩
            subst hfree
            exact ⟨.discarded, ⟨g, List.mem_append_right _ (List.mem_singleton.mpr rfl), by rw [hg],
              by rw [hg]⟩, Or.inr .discard⟩
          · refine ⟨s, queued_situated hs ?_, Or.inl rfl⟩
            rw [hg]
            simpa using Ne.symm hown
      | orphaned g htoken _ _ _ _ _ =>
          exact ⟨s, queued_situated hs (by simp [htoken]), Or.inl rfl⟩
  | migration _ h =>
      cases h with
      | initialized => exact ⟨s, situated_same hs rfl rfl rfl hsame, Or.inl rfl⟩
      | progressed => exact ⟨s, situated_same hs rfl rfl rfl hsame, Or.inl rfl⟩
      | moved plan b old new _ hb _ _ _ _ _ _ _ _ _ =>
          exact ⟨s, situated_same hs rfl rfl rfl
            (rewrite_keeps_id b { b with schemaVersion := plan.target.version } rfl), Or.inl rfl⟩

theorem Recorded.situated {db after : Catalog} (hw : db.Wf) (h : Recorded db after) {token : TextCell}
    {s : Situation} (hs : db.situated token s) : after.situated token s := by
  obtain ⟨old, new, hold, _, hnew⟩ := h
  have hidentity : new.token = old.token ∧ new.reason = old.reason := by
    rw [hnew]
    exact ⟨rfl, rfl⟩
  refine situated_kept hs (fun _ ho _ => ho) (fun _ ho => Or.inl ho) (fun _ _ _ hb => hb) ?_ ?_
    fun _ hr => hr
  · intro g hg
    by_cases hkey : g.sameKey old = true
    · obtain rfl := hw.gc_eq hg hold hkey
      exact ⟨new, (mem_rewrite _ _ _ _).mpr (Or.inr ⟨g, hg, hkey, rfl⟩), hidentity⟩
    · exact ⟨g, (mem_rewrite _ _ _ _).mpr (Or.inl ⟨hg, by simpa using hkey⟩), rfl, rfl⟩
  · intro g hg
    rcases (mem_rewrite _ _ _ _).mp hg with ⟨hg, _⟩ | ⟨_, _, _, rfl⟩
    · exact Or.inl ⟨g, hg, rfl⟩
    · exact Or.inl ⟨old, hold, hidentity.1.symm⟩

theorem Change.situated {db after : Catalog} (hl : db.Ledger) (h : Change db after) (token : TextCell)
    (s : Situation) (hs : db.situated token s) :
    ∃ s', after.situated token s' ∧ (s' = s ∨ s.Step s') := by
  cases h with
  | effect h => exact h.situated hl token s hs
  | journaled _ h =>
      obtain ⟨_, _, _, _, _, _, _⟩ := h
      exact ⟨s, situated_same hs rfl rfl rfl fun b hb => ⟨b, hb, rfl⟩, Or.inl rfl⟩
  | recorded h => exact ⟨s, h.situated hl.wf hs, Or.inl rfl⟩

namespace Catalog.Ledger

variable {db : Catalog}

theorem lives_exists (hl : db.Ledger) (id : String) : ∃ a, db.lives id a := by
  by_cases hretired : ∃ r ∈ db.retired, r.blobId = id
  · exact ⟨.removed, hretired⟩
  by_cases hblob : ∃ b ∈ db.blobs, b.id = id
  · obtain ⟨b, hb, hid⟩ := hblob
    rcases hl.live b hb with hstate | hstate
    · exact ⟨.publishing, b, hb, hid, hstate⟩
    · exact ⟨.ready, b, hb, hid, hstate⟩
  · push Not at hretired hblob
    exact ⟨.absent, hblob, hretired⟩

theorem lives_unique (hl : db.Ledger) (id : String) (a a' : Life) (h : db.lives id a)
    (h' : db.lives id a') : a = a' := by
  have hgone : ∀ b ∈ db.blobs, ∀ r ∈ db.retired, b.id = id → r.blobId ≠ id := by
    rintro b hb r hr rfl he
    exact hl.wf.retiredGone r hr b hb he.symm
  have hstates : ∀ b ∈ db.blobs, ∀ b' ∈ db.blobs, b.id = id → b'.id = id → b.state = b'.state := by
    rintro b hb b' hb' rfl he
    rw [hl.wf.blob_eq hb hb' he.symm]
  cases a with
  | absent =>
      cases a' with
      | absent => rfl
      | publishing =>
          obtain ⟨b, hb, he, _⟩ := h'
          exact absurd he (h.1 b hb)
      | ready =>
          obtain ⟨b, hb, he, _⟩ := h'
          exact absurd he (h.1 b hb)
      | removed =>
          obtain ⟨r, hr, he⟩ := h'
          exact absurd he (h.2 r hr)
  | publishing =>
      obtain ⟨b, hb, hid, hstate⟩ := h
      cases a' with
      | absent => exact absurd hid (h'.1 b hb)
      | publishing => rfl
      | ready =>
          obtain ⟨b', hb', hid', hstate'⟩ := h'
          have := hstates b hb b' hb' hid hid'
          simp [hstate, hstate'] at this
      | removed =>
          obtain ⟨r, hr, he⟩ := h'
          exact absurd he (hgone b hb r hr hid)
  | ready =>
      obtain ⟨b, hb, hid, hstate⟩ := h
      cases a' with
      | absent => exact absurd hid (h'.1 b hb)
      | publishing =>
          obtain ⟨b', hb', hid', hstate'⟩ := h'
          have := hstates b hb b' hb' hid hid'
          simp [hstate, hstate'] at this
      | ready => rfl
      | removed =>
          obtain ⟨r, hr, he⟩ := h'
          exact absurd he (hgone b hb r hr hid)
  | removed =>
      obtain ⟨r, hr, he⟩ := h
      cases a' with
      | absent => exact absurd he (h'.2 r hr)
      | publishing =>
          obtain ⟨b, hb, hid, _⟩ := h'
          exact absurd he (hgone b hb r hr hid)
      | ready =>
          obtain ⟨b, hb, hid, _⟩ := h'
          exact absurd he (hgone b hb r hr hid)
      | removed => rfl

end Catalog.Ledger

-- A life lasts while no blob is added or removed, states stay and nothing retires.
theorem lives_same {db after : Catalog} {id : String} {a : Life} (h : db.lives id a)
    (hblobs : ∀ b ∈ db.blobs, ∃ b' ∈ after.blobs, b'.id = b.id ∧ b'.state = b.state)
    (hback : ∀ b ∈ after.blobs, ∃ b' ∈ db.blobs, b'.id = b.id)
    (hretired : after.retired = db.retired) : after.lives id a := by
  cases a with
  | absent =>
      refine ⟨fun b hb he => ?_, by rw [hretired]; exact h.2⟩
      obtain ⟨b', hb', hid⟩ := hback b hb
      exact h.1 b' hb' (hid.trans he)
  | publishing =>
      obtain ⟨b, hb, hid, hstate⟩ := h
      obtain ⟨b', hb', hid', hstate'⟩ := hblobs b hb
      exact ⟨b', hb', hid'.trans hid, hstate'.trans hstate⟩
  | ready =>
      obtain ⟨b, hb, hid, hstate⟩ := h
      obtain ⟨b', hb', hid', hstate'⟩ := hblobs b hb
      exact ⟨b', hb', hid'.trans hid, hstate'.trans hstate⟩
  | removed =>
      unfold Catalog.lives
      rw [hretired]
      exact h

-- The same for one id when the changed rows have another.
theorem lives_other {db after : Catalog} {id : String} {a : Life} (h : db.lives id a)
    (hblobs : ∀ b, b.id = id → (b ∈ after.blobs ↔ b ∈ db.blobs))
    (hretired : ∀ r, r.blobId = id → (r ∈ after.retired ↔ r ∈ db.retired)) : after.lives id a := by
  cases a with
  | absent =>
      exact ⟨fun b hb he => h.1 b ((hblobs b he).mp hb) he, fun r hr he => h.2 r ((hretired r he).mp hr) he⟩
  | publishing =>
      obtain ⟨b, hb, hid, hstate⟩ := h
      exact ⟨b, (hblobs b hid).mpr hb, hid, hstate⟩
  | ready =>
      obtain ⟨b, hb, hid, hstate⟩ := h
      exact ⟨b, (hblobs b hid).mpr hb, hid, hstate⟩
  | removed =>
      obtain ⟨r, hr, hid⟩ := h
      exact ⟨r, (hretired r hid).mpr hr, hid⟩

theorem Effect.lives {db after : Catalog} (hl : db.Ledger) (h : Effect db after) (id : String)
    (a : Life) (ha : db.lives id a) : ∃ a', after.lives id a' ∧ (a' = a ∨ a.Step a') := by
  have hsame : ∀ b ∈ db.blobs, ∃ b' ∈ db.blobs, b'.id = b.id ∧ b'.state = b.state :=
    fun b hb => ⟨b, hb, rfl, rfl⟩
  have hback : ∀ b ∈ db.blobs, ∃ b' ∈ db.blobs, b'.id = b.id := fun b hb => ⟨b, hb, rfl⟩
  cases h with
  | installed schema _ h =>
      obtain ⟨_, _, _, rfl, _⟩ := h.rows
      exact ⟨a, lives_same ha hsame hback rfl, Or.inl rfl⟩
  | enrolled => exact ⟨a, lives_same ha hsame hback rfl, Or.inl rfl⟩
  | rows _ h =>
      cases h with
      | edited => exact ⟨a, lives_same ha hsame hback rfl, Or.inl rfl⟩
      | discarded => exact ⟨a, lives_same ha hsame hback rfl, Or.inl rfl⟩
      | orphaned => exact ⟨a, lives_same ha hsame hback rfl, Or.inl rfl⟩
      | finalized schema b m o p _ _ hblob hfresh hretired _ _ _ _ _ _ _ _ =>
          by_cases hown : b.id = id
          · subst hown
            have habsent := hl.lives_unique b.id a .absent ha ⟨hfresh, hretired⟩
            subst habsent
            exact ⟨.publishing, ⟨b, List.mem_append_right _ (List.mem_singleton.mpr rfl), rfl, hblob.2.2⟩,
              Or.inr .create⟩
          · refine ⟨a, lives_other ha (fun b' hb' => ?_) (fun _ _ => Iff.rfl), Or.inl rfl⟩
            rw [List.mem_append, List.mem_singleton]
            exact or_iff_left (fun he => hown (by rw [← he, hb']))
      | published b hb hstate _ =>
          by_cases hown : b.id = id
          · subst hown
            have hpublishing := hl.lives_unique b.id a .publishing ha ⟨b, hb, rfl, hstate⟩
            subst hpublishing
            exact ⟨.ready, ⟨{ b with state := .ready }, (mem_rewrite _ _ _ _).mpr
              (Or.inr ⟨b, hb, by simp, rfl⟩), rfl, rfl⟩, Or.inr .publish⟩
          · refine ⟨a, lives_other ha (fun b' hb' => ?_) (fun _ _ => Iff.rfl), Or.inl rfl⟩
            rw [mem_rewrite]
            constructor
            · rintro (⟨h, _⟩ | ⟨_, _, _, rfl⟩)
              · exact h
              · exact absurd hb' hown
            · exact fun h => Or.inl ⟨h, by simpa [hb'] using Ne.symm hown⟩
      | retired b o p m r g hcomplete _ _ _ hr _ _ =>
          by_cases hown : b.id = id
          · subst hown
            refine ⟨.removed, ⟨r, List.mem_append_right _ (List.mem_singleton.mpr rfl), hr.1⟩, Or.inr ?_⟩
            rcases hl.live b hcomplete.blob with hstate | hstate
            · obtain rfl := hl.lives_unique b.id a .publishing ha ⟨b, hcomplete.blob, rfl, hstate⟩
              exact .removeUnpublished
            · obtain rfl := hl.lives_unique b.id a .ready ha ⟨b, hcomplete.blob, rfl, hstate⟩
              exact .remove
          · refine ⟨a, lives_other ha (fun b' hb' => ?_) (fun r' hr' => ?_), Or.inl rfl⟩
            · rw [List.mem_filter]
              exact and_iff_left (by simpa [hb'] using Ne.symm hown)
            · rw [List.mem_append, List.mem_singleton]
              exact or_iff_left (fun he => hown (by rw [← hr', he, hr.1]))
  | migration _ h =>
      cases h with
      | initialized => exact ⟨a, lives_same ha hsame hback rfl, Or.inl rfl⟩
      | progressed => exact ⟨a, lives_same ha hsame hback rfl, Or.inl rfl⟩
      | moved plan b old new _ hb _ _ _ _ _ _ _ _ _ =>
          refine ⟨a, lives_same ha (fun b' hb' => ?_) (fun b' hb' => ?_) rfl, Or.inl rfl⟩
          · by_cases hid : b'.id = b.id
            · obtain rfl := hl.wf.blob_eq hb' hb hid
              exact ⟨_, (mem_rewrite _ _ _ _).mpr (Or.inr ⟨b', hb', by simp, rfl⟩), rfl, rfl⟩
            · exact ⟨b', (mem_rewrite _ _ _ _).mpr (Or.inl ⟨hb', by simpa using hid⟩), rfl, rfl⟩
          · rcases (mem_rewrite _ _ _ _).mp hb' with ⟨hb', _⟩ | ⟨_, _, _, rfl⟩
            · exact ⟨b', hb', rfl⟩
            · exact ⟨b, hb, rfl⟩

theorem Change.lives {db after : Catalog} (hl : db.Ledger) (h : Change db after) (id : String)
    (a : Life) (ha : db.lives id a) : ∃ a', after.lives id a' ∧ (a' = a ∨ a.Step a') := by
  rcases h with h | ⟨_, _, _, _, _, _, _, _⟩ | ⟨_, _, _, _, _⟩
  · exact h.lives hl id a ha
  · exact ⟨a, lives_same ha (fun b hb => ⟨b, hb, rfl, rfl⟩) (fun b hb => ⟨b, hb, rfl⟩) rfl, Or.inl rfl⟩
  · exact ⟨a, lives_same ha (fun b hb => ⟨b, hb, rfl, rfl⟩) (fun b hb => ⟨b, hb, rfl⟩) rfl, Or.inl rfl⟩

theorem Change.prepared_mono {db after : Catalog} (h : Change db after) {p : PreparedRow}
    (hp : p ∈ db.prepared) : p ∈ after.prepared := by
  rcases h with h | ⟨_, _, _, _, _, _, _, _⟩ | ⟨_, _, _, _, _⟩
  · exact h.prepared_kept ▸ hp
  · exact List.mem_append_left _ hp
  · exact hp

theorem Change.retired_mono {db after : Catalog} (h : Change db after) {r : RetiredRow}
    (hr : r ∈ db.retired) : r ∈ after.retired := by
  rcases h with h | ⟨_, _, _, _, _, _, _, _⟩ | ⟨_, _, _, _, _⟩
  · exact h.retired_mono hr
  · exact hr
  · exact hr

-- The ledger along whole runs.

theorem Changes.ledger {db after : Catalog} (hl : db.Ledger) (h : Changes db after) : after.Ledger :=
  Runs.invariant Catalog.Ledger (fun _ _ hl h => h.ledger hl) h hl

theorem Changes.follows {db after : Catalog} (hl : db.Ledger) (h : Changes db after) {token : TextCell}
    {s s' : Situation} (hs : db.situated token s) (hs' : after.situated token s') : s.Follows s' := by
  obtain ⟨t, ht, hfollows⟩ := Runs.observes Catalog.Ledger (fun db => db.situated token) Situation.Step
    (fun _ _ hl h => h.ledger hl) (fun _ _ s hl h hs => h.situated hl token s hs) h hl hs
  obtain rfl := (h.ledger hl).situated_unique token s' t hs' ht
  exact hfollows

theorem Changes.livesOn {db after : Catalog} (hl : db.Ledger) (h : Changes db after) {id : String}
    {a a' : Life} (ha : db.lives id a) (ha' : after.lives id a') : a.Follows a' := by
  obtain ⟨t, ht, hfollows⟩ := Runs.observes Catalog.Ledger (fun db => db.lives id) Life.Step
    (fun _ _ hl h => h.ledger hl) (fun _ _ a hl h ha => h.lives hl id a ha) h hl ha
  obtain rfl := (h.ledger hl).lives_unique id a' t ha' ht
  exact hfollows

theorem Changes.prepared_mono {db after : Catalog} (h : Changes db after) {p : PreparedRow}
    (hp : p ∈ db.prepared) : p ∈ after.prepared :=
  Runs.invariant (fun db => p ∈ db.prepared) (fun _ _ hp h => h.prepared_mono hp) h hp

theorem Changes.retired_mono {db after : Catalog} (h : Changes db after) {r : RetiredRow}
    (hr : r ∈ db.retired) : r ∈ after.retired :=
  Runs.invariant (fun db => r ∈ db.retired) (fun _ _ hr h => h.retired_mono hr) h hr

-- Cleanup jobs are only added, as pending ones, outside of cleanup itself.
theorem Effect.gc_effect {db after : Catalog} (h : Effect db after) :
    (∀ g ∈ db.gc, g ∈ after.gc) ∧ ∀ g ∈ after.gc, g ∈ db.gc ∨ g.state = .pending := by
  have happend : ∀ g' : GcRow, g'.state = .pending →
      (∀ g ∈ db.gc, g ∈ db.gc ++ [g']) ∧ ∀ g ∈ db.gc ++ [g'], g ∈ db.gc ∨ g.state = .pending := by
    intro g' hpending
    refine ⟨fun g hg => List.mem_append_left _ hg, fun g hg => ?_⟩
    rcases List.mem_append.mp hg with hg | hg
    · exact Or.inl hg
    · rw [List.mem_singleton.mp hg]
      exact Or.inr hpending
  cases h with
  | installed schema _ h =>
      obtain ⟨_, _, _, rfl, _⟩ := h.rows
      exact ⟨fun _ hg => hg, fun _ hg => Or.inl hg⟩
  | enrolled => exact ⟨fun _ hg => hg, fun _ hg => Or.inl hg⟩
  | rows _ h =>
      cases h with
      | retired b o p m r g _ _ _ _ _ hg _ => exact happend g (by rw [hg])
      | discarded p g _ hg _ _ _ => exact happend g (by rw [hg])
      | orphaned g _ _ _ hstate _ _ => exact happend g hstate
      | _ => exact ⟨fun _ hg => hg, fun _ hg => Or.inl hg⟩
  | migration _ h =>
      cases h <;> exact ⟨fun _ hg => hg, fun _ hg => Or.inl hg⟩

theorem Effects.prepared_kept {db after : Catalog} (h : Effects db after) :
    after.prepared = db.prepared :=
  Runs.invariant (fun mid => mid.prepared = db.prepared) (fun _ _ hp h => h.prepared_kept.trans hp) h rfl

theorem Effects.gc_effect {db after : Catalog} (h : Effects db after) :
    (∀ g ∈ db.gc, g ∈ after.gc) ∧ ∀ g ∈ after.gc, g ∈ db.gc ∨ g.state = .pending := by
  refine Runs.relates (fun _ => True) (fun db after : Catalog => (∀ g ∈ db.gc, g ∈ after.gc) ∧
    ∀ g ∈ after.gc, g ∈ db.gc ∨ g.state = .pending) (fun _ _ _ _ => trivial)
    (fun _ => ⟨fun _ hg => hg, fun _ hg => Or.inl hg⟩) ?_ (fun _ _ _ h => h.gc_effect) h trivial
  rintro _ _ _ ⟨hkept, hback⟩ ⟨hkept', hback'⟩
  refine ⟨fun g hg => hkept' g (hkept g hg), fun g hg => ?_⟩
  rcases hback' g hg with hmid | hpending
  · exact hback g hmid
  · exact Or.inr hpending

theorem Reachable.ledger {db : Catalog} (h : Reachable db) : db.Ledger :=
  h.changes.ledger Catalog.empty_ledger

theorem Reachable.tail {db after : Catalog} (h : Reachable db) (hcommit : Commit db after) :
    Reachable after :=
  Relation.ReflTransGen.tail h hcommit

-- A retired id: no blob row, no association, and no other token.
def Catalog.Gone (db : Catalog) (r : RetiredRow) : Prop :=
  r ∈ db.retired ∧ (∀ b ∈ db.blobs, b.id ≠ r.blobId) ∧ (∀ o ∈ db.objects, o.blobId ≠ r.blobId) ∧
    ∀ r' ∈ db.retired, r'.blobId = r.blobId → r'.token = r.token

theorem Catalog.Wf.gone {db : Catalog} (hw : db.Wf) {r : RetiredRow} (hr : r ∈ db.retired) :
    db.Gone r := by
  refine ⟨hr, hw.retiredGone r hr, fun o ho he => ?_, fun r' hr' he => ?_⟩
  · obtain ⟨b, hb, hid⟩ := hw.objectHasBlob o ho
    exact hw.retiredGone r hr b hb (hid.trans he)
  · rw [hw.retiredBlob.eq_of_mem hr' hr rfl (by rw [he])]

-- In every committed state each journaled token is in exactly one situation; each
-- commit moves it, and each id, only forward; a retired id stays gone for ever.
theorem tokens_and_ids_are_exclusive (db : Catalog) (h : Reachable db) :
    (∀ p ∈ db.prepared, ∃! s, db.situated p.token s) ∧
      (∀ after, Commit db after → ∀ p ∈ db.prepared, p ∈ after.prepared ∧
        ∀ s s', db.situated p.token s → after.situated p.token s' → s.Follows s') ∧
      (∀ after, Commit db after → ∀ id a a', db.lives id a → after.lives id a' → a.Follows a') ∧
      ((∀ id, ∃! a, db.lives id a) ∧
        ∀ after, Commits db after → ∀ r ∈ db.retired, after.Gone r) := by
  have hl := h.ledger
  refine ⟨fun p _ => ?_, fun after hcommit p hp => ?_, fun after hcommit id a a' ha ha' => ?_,
    fun id => ?_, fun after hrun r hr => ?_⟩
  · obtain ⟨s, hs⟩ := hl.situated_exists p.token
    exact ⟨s, hs, fun s' hs' => hl.situated_unique p.token s' s hs' hs⟩
  · have hchanges := hcommit.changes hl.wf
    exact ⟨hchanges.prepared_mono hp, fun s s' hs hs' => hchanges.follows hl hs hs'⟩
  · exact (hcommit.changes hl.wf).livesOn hl ha ha'
  · obtain ⟨a, ha⟩ := hl.lives_exists id
    exact ⟨a, ha, fun a' ha' => hl.lives_unique id a' a ha' ha⟩
  · have hchanges := hrun.changes hl.wf
    exact (hchanges.wf hl.wf).gone (hchanges.retired_mono hr)

theorem published_token_is_bound : ∃! s, published.situated (.text draft.token) s :=
  (tokens_and_ids_are_exclusive published published_reachable).1 (Encodings.physical draft) (by decide)

end MeldStore
