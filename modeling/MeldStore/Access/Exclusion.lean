import Mathlib.Data.List.Nodup
import MeldStore.Access.Gates
import MeldStore.Library.Runs

namespace MeldStore

open Library Library.Runs

namespace Access

-- The leases of a handle, and which of them it relies on

structure Part where
  lease : ℕ
  gate : String
  held : Bool

def Handle.standing (handle : Handle) (h : ℕ) : List Part :=
  { lease := h, gate := accessGate handle.path, held := true }
    :: handle.bound.map fun bound => { lease := bound.2, gate := rootGate bound.1, held := true }

def Handle.parts (handle : Handle) (h : ℕ) : List Part :=
  match handle.doing with
  | .opening => [{ lease := h, gate := accessGate handle.path, held := false }]
  | .binding root id => handle.standing h ++ [{ lease := id, gate := rootGate root, held := false }]
  | _ => handle.standing h

def Handle.Has (handle : Handle) (h : ℕ) (w : Leases) (part : Part) : Prop :=
  ∃ lease, w.leases part.lease = some lease ∧ lease.holder = some h ∧ lease.process = handle.process ∧
    lease.gate = part.gate
    ∧ lease.owner = handle.path ∧ lease.exclusive = handle.exclusive ∧ (part.held = true → lease.stage = .held)

structure Handle.Attached (handle : Handle) (h : ℕ) (w : Leases) : Prop where
  opening : handle.doing = .opening → handle.bound = []
  distinct : ((handle.parts h).map Part.lease).Nodup
  has : ∀ part ∈ handle.parts h, handle.Has h w part

structure World.Wf (w : World) : Prop where
  leases : w.leases.Wf
  attached : ∀ h handle, w.handles h = some handle → handle.Attached h w.leases
  owned : ∀ id lease h, w.leases.leases id = some lease → lease.holder = some h →
    ∃ handle, w.handles h = some handle ∧ id ∈ (handle.parts h).map Part.lease

theorem mem_parts_self (handle : Handle) (h : ℕ) : h ∈ (handle.parts h).map Part.lease := by
  cases hdoing : handle.doing <;> simp [Handle.parts, Handle.standing, hdoing]

theorem parts_idle {handle : Handle} (hdoing : handle.doing = .idle) (h : ℕ) :
    handle.parts h = handle.standing h := by
  rw [Handle.parts, hdoing]

theorem parts_closing {handle : Handle} (hdoing : handle.doing = .closing) (h : ℕ) :
    handle.parts h = handle.standing h := by
  rw [Handle.parts, hdoing]

theorem parts_opening {handle : Handle} (hdoing : handle.doing = .opening) (h : ℕ) :
    handle.parts h = [{ lease := h, gate := accessGate handle.path, held := false }] := by
  rw [Handle.parts, hdoing]

theorem parts_binding {handle : Handle} {root : String} {id : ℕ} (hdoing : handle.doing = .binding root id)
    (h : ℕ) :
    handle.parts h = handle.standing h ++ [{ lease := id, gate := rootGate root, held := false }] := by
  rw [Handle.parts, hdoing]

-- A handle's leases have the process of the handle.
theorem World.Wf.process {w : World} (hw : w.Wf) {id h : ℕ} {lease : Lease}
    (hlease : w.leases.leases id = some lease) (hholder : lease.holder = some h) :
    ∃ handle, w.handles h = some handle ∧ id ∈ (handle.parts h).map Part.lease ∧
      lease.process = handle.process := by
  obtain ⟨handle, hhandle, hmem⟩ := hw.owned id lease h hlease hholder
  obtain ⟨part, hpart, rfl⟩ := List.mem_map.mp hmem
  obtain ⟨found, hfound, -, hprocess, -⟩ := (hw.attached h handle hhandle).has part hpart
  rw [hlease] at hfound
  obtain rfl := Option.some.inj hfound
  exact ⟨handle, hhandle, hmem, hprocess⟩

theorem World.Wf.lt_next {w : World} (hw : w.Wf) {h : ℕ} {handle : Handle}
    (hhandle : w.handles h = some handle) :
    h < w.leases.next := by
  obtain ⟨part, hpart, hsame⟩ := List.mem_map.mp (mem_parts_self handle h)
  obtain ⟨lease, hlease, -⟩ := (hw.attached h handle hhandle).has part hpart
  rw [hsame] at hlease
  exact hw.leases.fresh h lease hlease

-- What other participants do to a lease: it may get further, and it stays held.
def Kept (lease : Lease) (after : Option Lease) : Prop :=
  ∃ stage, after = some { lease with stage := stage } ∧ (lease.stage = .held → stage = .held)

theorem kept_same (lease : Lease) : Kept lease (some lease) := ⟨lease.stage, rfl, id⟩

theorem Handle.Has.kept {handle : Handle} {h : ℕ} {w after : Leases} {part : Part} (hhas : handle.Has h w part)
    (hkept : ∀ lease, w.leases part.lease = some lease → lease.holder = some h →
      lease.process = handle.process →
      Kept lease (after.leases part.lease)) : handle.Has h after part := by
  obtain ⟨lease, hlease, hholder, hprocess, hgate, howner, hexclusive, hheld⟩ := hhas
  obtain ⟨stage, hafter, hstage⟩ := hkept lease hlease hholder hprocess
  exact ⟨_, hafter, hholder, hprocess, hgate, howner, hexclusive, fun h => hstage (hheld h)⟩

-- Steps that change no handle, except that they end handles.
theorem World.Wf.others {w : World} (hw : w.Wf) {after : World} (hleases : after.leases.Wf)
    (hhandles : ∀ h handle, after.handles h = some handle → w.handles h = some handle)
    (hkept : ∀ h handle, after.handles h = some handle → ∀ id lease, w.leases.leases id = some lease →
      lease.holder = some h →
      lease.process = handle.process → Kept lease (after.leases.leases id))
    (howned : ∀ id lease h, after.leases.leases id = some lease → lease.holder = some h →
      ∃ before, w.leases.leases id = some before ∧ before.holder = some h
        ∧ ∀ handle, w.handles h = some handle → before.process = handle.process →
          after.handles h = some handle) :
    after.Wf := by
  refine { leases := hleases, attached := fun h handle hhandle => ?_,
           owned := fun id lease h hlease hholder => ?_ }
  · have hattached := hw.attached h handle (hhandles h handle hhandle)
    exact { opening := hattached.opening, distinct := hattached.distinct,
            has := fun part hpart => (hattached.has part hpart).kept fun lease =>
              hkept h handle hhandle part.lease lease }
  · obtain ⟨before, hbefore, hsame, hlives⟩ := howned id lease h hlease hholder
    obtain ⟨handle, hhandle, hmem, hprocess⟩ := hw.process hbefore hsame
    exact ⟨handle, hlives handle hhandle hprocess, hmem⟩

-- Steps of one handle: the leases of the others stay.
theorem World.Wf.changed {w : World} (hw : w.Wf) {leases : Leases} {h : ℕ} {handle : Option Handle}
    (hleases : leases.Wf)
    (hkept : ∀ id lease, lease.holder ≠ some h → w.leases.leases id = some lease →
      leases.leases id = some lease)
    (hback : ∀ id lease, lease.holder ≠ some h → leases.leases id = some lease →
      w.leases.leases id = some lease)
    (hattached : ∀ n ∈ handle, n.Attached h leases)
    (howned : ∀ id lease, leases.leases id = some lease → lease.holder = some h →
      ∃ n ∈ handle, id ∈ (n.parts h).map Part.lease) :
    (w.handle leases h handle).Wf := by
  refine { leases := hleases, attached := fun other found hfound => ?_,
           owned := fun id lease other hlease hholder => ?_ }
  · rw [World.handle] at hfound ⊢
    dsimp only at hfound ⊢
    rcases eq_or_ne other h with rfl | hne
    · rw [Function.update_self] at hfound
      exact hattached found hfound
    · rw [Function.update_of_ne hne] at hfound
      have hother := hw.attached other found hfound
      refine { opening := hother.opening, distinct := hother.distinct,
               has := fun part hpart => (hother.has part hpart).kept fun lease hlease hholder _ => ?_ }
      rw [hkept part.lease lease (hholder ▸ fun hsame => hne (Option.some.inj hsame)) hlease]
      exact kept_same lease
  · rw [World.handle] at hlease ⊢
    dsimp only at hlease ⊢
    rcases eq_or_ne other h with rfl | hne
    · obtain ⟨n, hn, hmem⟩ := howned id lease hlease hholder
      exact ⟨n, by rw [Function.update_self]; exact hn, hmem⟩
    · rw [Function.update_of_ne hne]
      have hbefore := hback id lease (hholder ▸ fun hsame => hne (Option.some.inj hsame)) hlease
      exact hw.owned id lease other hbefore hholder

-- The handle does something else with the leases it has.
theorem World.Wf.relabelled {w : World} (hw : w.Wf) {h : ℕ} {handle n : Handle}
    (hhandle : w.handles h = some handle)
    (hattached : n.Attached h w.leases) (hsame : (n.parts h).map Part.lease = (handle.parts h).map Part.lease) :
    (w.handle w.leases h (some n)).Wf := by
  refine hw.changed hw.leases (fun _ _ _ hlease => hlease) (fun _ _ _ hlease => hlease) ?_ ?_
  · intro other hother
    rw [← Option.some.inj hother]
    exact hattached
  · intro id lease hlease hholder
    obtain ⟨found, hfound, hmem⟩ := hw.owned id lease h hlease hholder
    rw [hhandle] at hfound
    obtain rfl := Option.some.inj hfound
    exact ⟨n, rfl, hsame ▸ hmem⟩

theorem retain_ne {w : Leases} {id other : ℕ} (hne : other ≠ id) :
    (w.retain fun other => other ≠ id).leases other = w.leases other :=
  if_pos (decide_eq_true hne)

theorem of_retain {w : Leases} {keep : ℕ → Bool} {id : ℕ} {lease : Lease}
    (h : (w.retain keep).leases id = some lease) :
    keep id = true ∧ w.leases id = some lease := by
  rw [Leases.retain] at h
  dsimp only at h
  split_ifs at h with hkeep
  exact ⟨hkeep, h⟩

-- The handle closes one of its leases.
theorem World.Wf.dropped {w : World} (hw : w.Wf) {h id : ℕ} {handle : Handle} {after : Option Handle}
    (hhandle : w.handles h = some handle) (hid : id ∈ (handle.parts h).map Part.lease)
    (hattached : ∀ n ∈ after, n.Attached h (w.leases.retain fun other => other ≠ id))
    (hrest : ∀ other ∈ (handle.parts h).map Part.lease, other ≠ id →
      ∃ n ∈ after, other ∈ (n.parts h).map Part.lease) :
    (w.handle (w.leases.retain fun other => other ≠ id) h after).Wf := by
  obtain ⟨part, hpart, rfl⟩ := List.mem_map.mp hid
  obtain ⟨own, hown, hholder, -⟩ := (hw.attached h handle hhandle).has part hpart
  refine hw.changed (retain_wf hw.leases _) (fun other lease hother hlease => ?_)
    (fun _ _ _ hlease => (of_retain hlease).2)
    hattached fun other lease hlease hsame => ?_
  · have hne : other ≠ part.lease := by
      rintro rfl
      rw [hown] at hlease
      rw [← Option.some.inj hlease] at hother
      exact hother hholder
    rw [retain_ne hne]
    exact hlease
  · obtain ⟨hne, hbefore⟩ := of_retain hlease
    obtain ⟨found, hfound, hmem⟩ := hw.owned other lease h hbefore hsame
    rw [hhandle] at hfound
    obtain rfl := Option.some.inj hfound
    exact hrest other hmem (of_decide_eq_true hne)

theorem Handle.Has.retain {handle : Handle} {h id : ℕ} {w : Leases} {part : Part} (hhas : handle.Has h w part)
    (hne : part.lease ≠ id) : handle.Has h (w.retain fun other => other ≠ id) part :=
  hhas.kept fun lease hlease _ _ => by
    rw [retain_ne hne, hlease]
    exact kept_same lease

theorem connect_ne {w : Leases} {id : ℕ} (hne : id ≠ w.next) (process : ℕ) (holder : Option ℕ)
    (gate owner : String)
    (exclusive : Bool) : (w.connect process holder gate owner exclusive).leases id = w.leases id :=
  Function.update_of_ne hne _ _

theorem connect_next (w : Leases) (process : ℕ) (holder : Option ℕ) (gate owner : String) (exclusive : Bool) :
    (w.connect process holder gate owner exclusive).leases w.next =
      some { process := process, holder := holder, gate := gate, owner := owner, exclusive := exclusive,
             stage := .connected } :=
  Function.update_self _ _ _

-- A connection leaves the others as they are.
theorem kept_connect {w : Leases} (hw : w.Wf) {id : ℕ} {lease : Lease} (hlease : w.leases id = some lease)
    (process : ℕ) (holder : Option ℕ) (gate owner : String) (exclusive : Bool) :
    (w.connect process holder gate owner exclusive).leases id = some lease := by
  rw [connect_ne (hw.lt hlease), hlease]

-- A lease of another holder was there before a connection.
theorem of_connect {w : Leases} {id process : ℕ} {lease : Lease} {holder : Option ℕ} {gate owner : String}
    {exclusive : Bool} (h : (w.connect process holder gate owner exclusive).leases id = some lease)
    (hother : lease.holder ≠ holder) : w.leases id = some lease := by
  have hne : id ≠ w.next := by
    rintro rfl
    rw [connect_next] at h
    exact hother (Option.some.inj h ▸ rfl)
  rwa [connect_ne hne] at h

theorem Handle.Has.connect {handle : Handle} {h : ℕ} {w : Leases} (hw : w.Wf) {part : Part}
    (hhas : handle.Has h w part)
    (process : ℕ) (holder : Option ℕ) (gate owner : String) (exclusive : Bool) :
    handle.Has h (w.connect process holder gate owner exclusive) part :=
  hhas.kept fun lease hlease _ _ => by
    rw [kept_connect hw hlease]
    exact kept_same lease

theorem openCatalog_wf {w : World} (hw : w.Wf) (process : ℕ) (path : String) (exclusive : Bool) :
    (w.handle (w.leases.connect process (some w.leases.next) (accessGate path) path exclusive) w.leases.next
      (some { process := process, path := path, exclusive := exclusive, bound := [], readers := 0,
              doing := .opening })).Wf := by
  refine hw.changed (connect_wf hw.leases _ _ _ _ _)
    (fun id lease _ hlease => kept_connect hw.leases hlease _ _ _ _ _)
    (fun id lease hother hlease => of_connect hlease hother) ?_ fun id lease hlease hholder => ?_
  · intro n hn
    obtain rfl := Option.some.inj hn
    refine { opening := fun _ => rfl, distinct := List.nodup_singleton _, has := fun part hpart => ?_ }
    rw [List.mem_singleton.mp hpart]
    exact ⟨_, connect_next _ _ _ _ _ _, rfl, rfl, rfl, rfl, rfl, nofun⟩
  · rcases eq_or_ne id w.leases.next with rfl | hne
    · exact ⟨_, rfl, List.mem_cons_self⟩
    · rw [connect_ne hne] at hlease
      obtain ⟨handle, hhandle, -⟩ := hw.owned id lease _ hlease hholder
      exact absurd (hw.lt_next hhandle) (Nat.lt_irrefl _)

theorem visit_wf {w : World} (hw : w.Wf) (process : ℕ) (gate owner : String) (exclusive : Bool) :
    ({ w with leases := w.leases.connect process none gate owner exclusive } : World).Wf := by
  refine hw.others (connect_wf hw.leases _ _ _ _ _) (fun _ _ hhandle => hhandle)
    (fun _ _ _ id lease hlease _ _ => ?_)
    fun id lease h hlease hholder => ?_
  · rw [kept_connect hw.leases hlease]
    exact kept_same lease
  · have hvisit : lease.holder ≠ none := by
      rw [hholder]
      nofun
    exact ⟨lease, of_connect hlease hvisit, hholder, fun _ hhandle _ => hhandle⟩

theorem advance_wf {w : World} (hw : w.Wf) {id : ℕ} {lease after : Lease} {gate : Gate}
    (hlease : w.leases.leases id = some lease)
    (hstep : lease.step (w.leases.gates lease.gate) id = some (after, gate)) :
    ({ w with leases := w.leases.put id after gate } : World).Wf := by
  obtain ⟨⟨stage, rfl⟩, hnot, -, -⟩ := step_sound hstep (hw.leases.sound id lease hlease)
  refine hw.others (put_wf hw.leases hlease hstep) (fun _ _ hhandle => hhandle)
    (fun _ _ _ other found hfound _ _ => ?_)
    fun other found h hfound hholder => ?_
  · rw [Leases.put]
    dsimp only
    rcases eq_or_ne other id with rfl | hne
    · rw [hlease] at hfound
      obtain rfl := Option.some.inj hfound
      exact ⟨stage, Function.update_self _ _ _, fun hheld => absurd hheld hnot⟩
    · rw [Function.update_of_ne hne, hfound]
      exact kept_same found
  · rw [Leases.put] at hfound
    dsimp only at hfound
    rcases eq_or_ne other id with rfl | hne
    · rw [Function.update_self] at hfound
      obtain rfl := Option.some.inj hfound
      exact ⟨lease, hlease, hholder, fun _ hhandle _ => hhandle⟩
    · rw [Function.update_of_ne hne] at hfound
      exact ⟨found, hfound, hholder, fun _ hhandle _ => hhandle⟩

theorem leave_wf {w : World} (hw : w.Wf) {id : ℕ} {lease : Lease} (hlease : w.leases.leases id = some lease)
    (hvisit : lease.holder = none) :
    ({ w with leases := w.leases.retain fun other => other ≠ id } : World).Wf := by
  refine hw.others (retain_wf hw.leases _) (fun _ _ hhandle => hhandle)
    (fun _ _ _ other found hfound hholder _ => ?_)
    fun other found h hfound hholder => ?_
  · have hne : other ≠ id := by
      rintro rfl
      rw [hlease] at hfound
      rw [← Option.some.inj hfound, hvisit] at hholder
      cases hholder
    rw [retain_ne hne, hfound]
    exact kept_same found
  · exact ⟨found, (of_retain hfound).2, hholder, fun _ hhandle _ => hhandle⟩

theorem die_wf {w : World} (hw : w.Wf) (process : ℕ) :
    ({ leases := w.leases.retain fun id => (w.leases.leases id).all fun lease => lease.process ≠ process
       handles := fun h => (w.handles h).filter fun handle => handle.process ≠ process } : World).Wf := by
  refine hw.others (retain_wf hw.leases _) (fun h handle hhandle => (Option.filter_eq_some_iff.mp hhandle).1)
    (fun h handle hhandle id lease hlease _ hprocess => ?_) fun id lease h hlease hholder => ?_
  · have hlives : lease.process ≠ process :=
      hprocess ▸ of_decide_eq_true (Option.filter_eq_some_iff.mp hhandle).2
    have hkeep : ((w.leases.leases id).all fun lease => decide (lease.process ≠ process)) = true := by
      rw [hlease]
      exact decide_eq_true hlives
    rw [Leases.retain]
    dsimp only
    rw [if_pos hkeep, hlease]
    exact kept_same lease
  · obtain ⟨hkeep, hbefore⟩ := of_retain hlease
    rw [hbefore] at hkeep
    refine ⟨lease, hbefore, hholder, fun handle hhandle hprocess => ?_⟩
    exact Option.filter_eq_some_iff.mpr ⟨hhandle, decide_eq_true (hprocess ▸ of_decide_eq_true hkeep)⟩

theorem opened_wf {w : World} (hw : w.Wf) {h : ℕ} {handle : Handle} {lease : Lease}
    (hhandle : w.handles h = some handle)
    (hdoing : handle.doing = .opening) (hlease : w.leases.leases h = some lease) (hheld : lease.stage = .held) :
    (w.handle w.leases h (some { handle with doing := .idle })).Wf := by
  have hattached := hw.attached h handle hhandle
  have hparts := parts_opening hdoing h
  have hbound := hattached.opening hdoing
  have hnew : ({ handle with doing := .idle } : Handle).parts h =
    [{ lease := h, gate := accessGate handle.path, held := true }] := by
    rw [parts_idle rfl, Handle.standing, hbound]
    rfl
  refine hw.relabelled hhandle { opening := nofun, distinct := ?_, has := fun part hpart => ?_ } ?_
  · rw [hnew]
    exact List.nodup_singleton _
  · rw [hnew] at hpart
    rw [List.mem_singleton.mp hpart]
    obtain ⟨found, hfound, hholder, hprocess, hgate, howner, hexclusive, -⟩ :=
      hattached.has _ (by rw [hparts]; exact List.mem_singleton_self _)
    dsimp only at hfound
    rw [hlease] at hfound
    obtain rfl := Option.some.inj hfound
    exact ⟨lease, hlease, hholder, hprocess, hgate, howner, hexclusive, fun _ => hheld⟩
  · rw [hnew, hparts]
    rfl

-- Another label on the same leases
theorem relabel_wf {w : World} (hw : w.Wf) {h : ℕ} {handle : Handle} (hhandle : w.handles h = some handle)
    (hdoing : handle.doing = .idle) (readers : ℕ) {doing : Doing} (hafter : doing = .idle ∨ doing = .closing) :
    (w.handle w.leases h (some { handle with readers := readers, doing := doing })).Wf := by
  have hattached := hw.attached h handle hhandle
  have hparts : ({ handle with readers := readers, doing := doing } : Handle).parts h = handle.parts h := by
    rw [parts_idle hdoing]
    rcases hafter with rfl | rfl
    · exact parts_idle rfl h
    · exact parts_closing rfl h
  refine hw.relabelled hhandle { opening := fun hopening => ?_, distinct := hparts ▸ hattached.distinct,
                                 has := fun part hpart => ?_ } (congrArg (List.map Part.lease) hparts)
  · dsimp only at hopening
    rw [hopening] at hafter
    rcases hafter with hafter | hafter <;> cases hafter
  · exact hattached.has part (hparts ▸ hpart)

theorem bind_wf {w : World} (hw : w.Wf) {h : ℕ} {handle : Handle} (root : String)
    (hhandle : w.handles h = some handle) (hdoing : handle.doing = .idle) :
    (w.handle (w.leases.connect handle.process (some h) (rootGate root) handle.path handle.exclusive) h
      (some { handle with doing := .binding root w.leases.next })).Wf := by
  have hattached := hw.attached h handle hhandle
  have hparts := parts_idle hdoing h
  have hnew : ({ handle with doing := .binding root w.leases.next } : Handle).parts h =
      handle.parts h ++ [{ lease := w.leases.next, gate := rootGate root, held := false }] := by
    rw [parts_binding rfl, hparts]
    rfl
  refine hw.changed (connect_wf hw.leases _ _ _ _ _)
    (fun id lease _ hlease => kept_connect hw.leases hlease _ _ _ _ _)
    (fun id lease hother hlease => of_connect hlease hother) ?_ fun id lease hlease hholder => ?_
  · intro n hn
    obtain rfl := Option.some.inj hn
    refine { opening := nofun, distinct := ?_, has := fun part hpart => ?_ }
    · rw [hnew, List.map_append, List.nodup_append]
      refine ⟨hattached.distinct, List.nodup_singleton _, fun a ha b hb => ?_⟩
      obtain ⟨part, hpart, rfl⟩ := List.mem_map.mp ha
      obtain ⟨lease, hlease, -⟩ := hattached.has part hpart
      rw [List.mem_singleton.mp hb]
      exact hw.leases.lt hlease
    · rw [hnew] at hpart
      rcases List.mem_append.mp hpart with hold | hlast
      · exact (hattached.has part hold).connect hw.leases _ _ _ _ _
      · rw [List.mem_singleton.mp hlast]
        exact ⟨_, connect_next _ _ _ _ _ _, rfl, rfl, rfl, rfl, rfl, nofun⟩
  · refine ⟨_, rfl, ?_⟩
    rw [hnew, List.map_append, List.mem_append]
    rcases eq_or_ne id w.leases.next with rfl | hne
    · exact .inr List.mem_cons_self
    · rw [connect_ne hne] at hlease
      obtain ⟨found, hfound, hmem⟩ := hw.owned id lease h hlease hholder
      rw [hhandle] at hfound
      obtain rfl := Option.some.inj hfound
      exact .inl hmem

theorem failBind_wf {w : World} (hw : w.Wf) {h id : ℕ} {handle : Handle} {root : String}
    (hhandle : w.handles h = some handle) (hdoing : handle.doing = .binding root id) :
    (w.handle (w.leases.retain fun other => other ≠ id) h (some { handle with doing := .idle })).Wf := by
  have hattached := hw.attached h handle hhandle
  have hparts := parts_binding hdoing h
  have hnew : ({ handle with doing := .idle } : Handle).parts h = handle.standing h := parts_idle rfl h
  have hdistinct := hattached.distinct
  rw [hparts, List.map_append, List.nodup_append] at hdistinct
  obtain ⟨hstanding, -, hapart⟩ := hdistinct
  refine hw.dropped hhandle ?_ ?_ fun other hother hne => ⟨_, rfl, ?_⟩
  · rw [hparts, List.map_append, List.mem_append]
    exact .inr List.mem_cons_self
  · intro n hn
    obtain rfl := Option.some.inj hn
    refine { opening := nofun, distinct := hnew ▸ hstanding, has := fun part hpart => ?_ }
    rw [hnew] at hpart
    have hold : handle.Has h w.leases part :=
      hattached.has part (by rw [hparts]; exact List.mem_append_left _ hpart)
    exact hold.retain (hapart _ (List.mem_map_of_mem hpart) _ List.mem_cons_self)
  · rw [hparts, List.map_append, List.mem_append] at hother
    rw [hnew]
    exact hother.resolve_right fun hlast => hne (List.mem_singleton.mp hlast)

theorem bound_wf {w : World} (hw : w.Wf) {h id : ℕ} {handle : Handle} {root : String} {lease : Lease}
    (hhandle : w.handles h = some handle) (hdoing : handle.doing = .binding root id)
    (hlease : w.leases.leases id = some lease) (hheld : lease.stage = .held) :
    (w.handle w.leases h (some { handle with bound := handle.bound ++ [(root, id)], doing := .idle })).Wf := by
  have hattached := hw.attached h handle hhandle
  have hparts := parts_binding hdoing h
  have hnew : ({ handle with bound := handle.bound ++ [(root, id)], doing := .idle } : Handle).parts h =
      handle.standing h ++ [{ lease := id, gate := rootGate root, held := true }] := by
    rw [parts_idle rfl, Handle.standing, Handle.standing, List.map_append]
    rfl
  have hsame :
      (handle.standing h ++ [({ lease := id, gate := rootGate root, held := true } : Part)]).map Part.lease =
        (handle.parts h).map Part.lease := by
    rw [hparts, List.map_append, List.map_append]
    rfl
  refine hw.relabelled hhandle { opening := nofun, distinct := ?_, has := fun part hpart => ?_ } ?_
  · rw [hnew, hsame]
    exact hattached.distinct
  · rw [hnew] at hpart
    rcases List.mem_append.mp hpart with hold | hlast
    · exact hattached.has part (by rw [hparts]; exact List.mem_append_left _ hold)
    · rw [List.mem_singleton.mp hlast]
      obtain ⟨found, hfound, hholder, hprocess, hgate, howner, hexclusive, -⟩ :=
        hattached.has _ (by rw [hparts]; exact List.mem_append_right _ (List.mem_singleton_self _))
      dsimp only at hfound
      rw [hlease] at hfound
      obtain rfl := Option.some.inj hfound
      exact ⟨lease, hlease, hholder, hprocess, hgate, howner, hexclusive, fun _ => hheld⟩
  · rw [hnew, hsame]

theorem release_wf {w : World} (hw : w.Wf) {h id : ℕ} {handle : Handle} {root : String}
    {rest : List (String × ℕ)}
    (hhandle : w.handles h = some handle) (hdoing : handle.doing = .closing)
    (hbound : handle.bound = (root, id) :: rest) :
    (w.handle (w.leases.retain fun other => other ≠ id) h (some { handle with bound := rest })).Wf := by
  have hattached := hw.attached h handle hhandle
  have hparts := parts_closing hdoing h
  have hbefore : handle.parts h = { lease := h, gate := accessGate handle.path, held := true }
      :: { lease := id, gate := rootGate root, held := true }
      :: rest.map fun bound => { lease := bound.2, gate := rootGate bound.1, held := true } := by
    rw [hparts, Handle.standing, hbound, List.map_cons]
  have hafter : ({ handle with bound := rest } : Handle).parts h =
    { lease := h, gate := accessGate handle.path, held := true }
      :: rest.map fun bound => { lease := bound.2, gate := rootGate bound.1, held := true } := by
    rw [@parts_closing { handle with bound := rest } hdoing, Handle.standing]
  have hdistinct := hattached.distinct
  rw [hbefore, List.map_cons, List.map_cons, List.nodup_cons, List.nodup_cons] at hdistinct
  obtain ⟨hself, hid, hrest⟩ := hdistinct
  refine hw.dropped hhandle ?_ ?_ fun other hother hne => ⟨_, rfl, ?_⟩
  · rw [hbefore]
    exact List.mem_cons_of_mem _ List.mem_cons_self
  · intro n hn
    obtain rfl := Option.some.inj hn
    refine { opening := fun hopening => ?_, distinct := ?_, has := fun part hpart => ?_ }
    · dsimp only at hopening
      rw [hdoing] at hopening
      cases hopening
    · rw [hafter, List.map_cons, List.nodup_cons]
      exact ⟨fun hmem => hself (List.mem_cons_of_mem _ hmem), hrest⟩
    · rw [hafter] at hpart
      have hold : handle.Has h w.leases part := by
        refine hattached.has part ?_
        rw [hbefore]
        exact (List.mem_cons.mp hpart).elim (fun hsame => hsame ▸ List.mem_cons_self) fun hmem =>
          List.mem_cons_of_mem _ (List.mem_cons_of_mem _ hmem)
      refine hold.retain fun hsame => ?_
      rcases List.mem_cons.mp hpart with rfl | hmem
      · exact hself (hsame ▸ List.mem_cons_self)
      · exact hid (List.mem_map.mpr ⟨part, hmem, hsame⟩)
  · rw [hbefore, List.map_cons, List.map_cons] at hother
    rw [hafter, List.map_cons]
    rcases List.mem_cons.mp hother with rfl | hother
    · exact List.mem_cons_self
    · exact List.mem_cons_of_mem _ ((List.mem_cons.mp hother).resolve_left hne)

-- A handle that ends had only its lease on the catalog path.
theorem ended_wf {w : World} (hw : w.Wf) {h : ℕ} {handle : Handle} (hhandle : w.handles h = some handle)
    (honly : (handle.parts h).map Part.lease = [h]) :
    (w.handle (w.leases.retain fun other => other ≠ h) h none).Wf := by
  refine hw.dropped hhandle (mem_parts_self handle h) nofun fun other hother hne => ?_
  rw [honly] at hother
  exact absurd (List.mem_singleton.mp hother) hne

theorem failOpen_wf {w : World} (hw : w.Wf) {h : ℕ} {handle : Handle} (hhandle : w.handles h = some handle)
    (hdoing : handle.doing = .opening) : (w.handle (w.leases.retain fun other => other ≠ h) h none).Wf :=
  ended_wf hw hhandle (by rw [parts_opening hdoing]; rfl)

theorem closed_wf {w : World} (hw : w.Wf) {h : ℕ} {handle : Handle} (hhandle : w.handles h = some handle)
    (hdoing : handle.doing = .closing) (hbound : handle.bound = []) :
    (w.handle (w.leases.retain fun other => other ≠ h) h none).Wf :=
  ended_wf hw hhandle (by rw [parts_closing hdoing, Handle.standing, hbound]; rfl)

-- One step of any process
theorem step_wf {w after : World} (hw : w.Wf) (h : Step w after) : after.Wf := by
  cases h with
  | openCatalog process path exclusive => exact openCatalog_wf hw process path exclusive
  | visit process gate owner exclusive => exact visit_wf hw process gate owner exclusive
  | advance id lease after gate hlease hstep => exact advance_wf hw hlease hstep
  | leave id lease hlease hvisit => exact leave_wf hw hlease hvisit
  | failOpen h handle hhandle hdoing => exact failOpen_wf hw hhandle hdoing
  | opened h handle lease hhandle hdoing hlease hheld => exact opened_wf hw hhandle hdoing hlease hheld
  | bind h handle root hhandle hdoing hroot => exact bind_wf hw root hhandle hdoing
  | failBind h handle root id hhandle hdoing => exact failBind_wf hw hhandle hdoing
  | bound h handle root id lease hhandle hdoing hlease hheld => exact bound_wf hw hhandle hdoing hlease hheld
  | read h handle hhandle hdoing => exact relabel_wf hw hhandle hdoing _ (.inl hdoing)
  | unread h handle hhandle hdoing hreaders => exact relabel_wf hw hhandle hdoing _ (.inl hdoing)
  | close h handle hhandle hdoing hreaders => exact relabel_wf hw hhandle hdoing _ (.inr rfl)
  | release h handle root id rest hhandle hdoing hbound => exact release_wf hw hhandle hdoing hbound
  | closed h handle hhandle hdoing hbound => exact closed_wf hw hhandle hdoing hbound
  | die process => exact die_wf hw process

-- Before any process has opened anything. Gate files may stand from earlier.
structure World.Initial (w : World) : Prop where
  unlocked : ∀ name id, ¬(w.leases.gates name).locks.Holds id
  leases : ∀ id, w.leases.leases id = none
  handles : ∀ h, w.handles h = none

theorem World.Initial.wf {w : World} (h : w.Initial) : w.Wf :=
  { leases :=
      { fresh := fun id lease hlease => by rw [h.leases] at hlease; cases hlease
        locked := fun name id hholds => absurd hholds (h.unlocked name id)
        sound := fun id lease hlease => by rw [h.leases] at hlease; cases hlease }
    attached := fun k handle hhandle => by rw [h.handles] at hhandle; cases hhandle
    owned := fun id lease k hlease => by rw [h.leases] at hlease; cases hlease }

def World.Reached (w : World) : Prop := ∃ start : World, start.Initial ∧ Run Step start w

theorem World.Reached.wf {w : World} (h : w.Reached) : w.Wf := by
  obtain ⟨start, hstart, hrun⟩ := h
  exact invariant World.Wf (fun _ _ => step_wf) hrun hstart.wf

-- A maintenance handle on fresh files

def Lease.steps (id : ℕ) : ℕ → Lease → Gate → Option (Lease × Gate)
  | 0, lease, gate => some (lease, gate)
  | n + 1, lease, gate => (lease.step gate id).bind fun (after, next) => Lease.steps id n after next

theorem run_steps {w : World} {id : ℕ} : ∀ (n : ℕ) {lease after : Lease} {before gate : Gate},
    ({ w with leases := w.leases.put id lease before } : World).Wf → Lease.steps id n lease before =
    some (after, gate) →
    Run Step { w with leases := w.leases.put id lease before } { w with leases := w.leases.put id after gate }
  | 0, lease, after, before, gate, _, hsteps => by
      obtain ⟨rfl, rfl⟩ := Prod.mk.inj (Option.some.inj hsteps)
      exact .refl
  | n + 1, lease, after, before, gate, hw, hsteps => by
      obtain ⟨⟨middle, next⟩, hstep, hsteps⟩ := Option.bind_eq_some_iff.mp hsteps
      have hlease : (w.leases.put id lease before).leases id = some lease := Function.update_self _ _ _
      have hbefore : (w.leases.put id lease before).gates lease.gate = before := Function.update_self _ _ _
      have hsound : lease.Sound before id := hbefore ▸ hw.leases.sound id lease hlease
      obtain ⟨⟨stage, rfl⟩, -, -, -⟩ := step_sound hstep hsound
      have hput : (w.leases.put id lease before).put id { lease with stage := stage } next =
          w.leases.put id { lease with stage := stage } next := by
        rw [Leases.put, Leases.put, Leases.put]
        dsimp only
        rw [Function.update_idem, Function.update_idem]
      have hfirst : Step { w with leases := w.leases.put id lease before }
          { w with leases := w.leases.put id { lease with stage := stage } next } := by
        rw [← hput]
        refine .advance id lease _ next hlease ?_
        dsimp only
        rw [hbefore]
        exact hstep
      exact Relation.ReflTransGen.head hfirst (run_steps n (step_wf hw hfirst) hsteps)

-- A gate that accepts leases of this owner, and the leases that may have locks on it
@[mk_iff] structure Gate.Serves (gate : Gate) (owner : String) (ids : List ℕ) : Prop where
  deleteMode : gate.deleteMode = true
  locked : ∀ id, gate.locks.Holds id → id ∈ ids
  owners : gate.owners = none ∨ gate.owners = some [owner]

theorem Gate.Serves.retain {gate : Gate} {owner : String} {ids : List ℕ} (h : gate.Serves owner ids)
    (keep : ℕ → Bool) :
    ({ gate with locks := gate.locks.retain keep } : Gate).Serves owner (ids.filter keep) := by
  refine { deleteMode := h.deleteMode, locked := fun id hholds => ?_, owners := h.owners }
  obtain ⟨hbefore, hkeep⟩ := Locks.holds_retain.mp hholds
  exact List.mem_filter.mpr ⟨h.locked id hbefore, hkeep⟩

-- All statements of a lease on a gate that no one has locked: its file is not there yet, or has its owner.
theorem steps_serves (id : ℕ) {lease : Lease} {gate : Gate} (hstage : lease.stage = .connected)
    (h : gate.Serves lease.owner []) :
    ∃ n after, Lease.steps id n lease gate = some ({ lease with stage := .held }, after) ∧
      after.Serves lease.owner [id] := by
  obtain ⟨process, holder, name, owner, exclusive, stage⟩ := lease
  obtain ⟨owners, deleteMode, locks⟩ := gate
  obtain ⟨hdelete, hlocked, howners⟩ := h
  dsimp only at hstage hdelete hlocked howners ⊢
  obtain rfl := Locks.eq_free fun id hholds => List.not_mem_nil (hlocked id hholds)
  subst hstage hdelete
  rcases howners with rfl | rfl
  · refine ⟨8, ?_⟩
    cases exclusive <;>
      simp [Lease.steps, Lease.step, Locks.share, Locks.exclude, Locks.free, Locks.retain,
        Gate.serves_iff, Locks.Holds]
  · refine ⟨4, ?_⟩
    cases exclusive <;>
      simp [Lease.steps, Lease.step, Locks.share, Locks.exclude, Locks.free, Gate.serves_iff, Locks.Holds]

theorem run_acquires {w : World} (hw : w.Wf) {id : ℕ} {lease : Lease} (hlease : w.leases.leases id = some lease)
    (hstage : lease.stage = .connected) (hgate : (w.leases.gates lease.gate).Serves lease.owner []) :
    ∃ gate : Gate, gate.Serves lease.owner [id]
      ∧ Run Step w { w with leases := w.leases.put id { lease with stage := .held } gate } := by
  obtain ⟨n, gate, hsteps, hserves⟩ := steps_serves id hstage hgate
  have hput : w.leases.put id lease (w.leases.gates lease.gate) = w.leases := by
    rw [Leases.put, ← hlease, Function.update_eq_self, Function.update_eq_self]
  have hrun := run_steps n (by rw [hput]; exact hw) hsteps
  rw [hput] at hrun
  exact ⟨gate, hserves, hrun⟩

-- Whole calls, where no one is in the way: Catalog(path), bind_storage, and close with one root bound

theorem run_opens {w : World} (hw : w.Wf) (process : ℕ) {path : String} (exclusive : Bool)
    (hgate : (w.leases.gates (accessGate path)).Serves path []) :
    ∃ gate : Gate, gate.Serves path [w.leases.next] ∧ Run Step w
      { leases :=
          { gates := Function.update w.leases.gates (accessGate path) gate
            leases := Function.update w.leases.leases w.leases.next
              (some { process := process, holder := some w.leases.next, gate := accessGate path, owner := path,
                      exclusive := exclusive, stage := .held })
            next := w.leases.next + 1 }
        handles := Function.update w.handles w.leases.next
          (some { process := process, path := path, exclusive := exclusive, bound := [], readers := 0,
                  doing := .idle }) } := by
  have hopen := Step.openCatalog (w := w) process path exclusive
  obtain ⟨gate, hserves, hrun⟩ := run_acquires (step_wf hw hopen) (connect_next _ _ _ _ _ _) rfl hgate
  have hopened := (Relation.ReflTransGen.head hopen hrun).tail
    (.opened w.leases.next _ _ (Function.update_self _ _ _) rfl (Function.update_self _ _ _) rfl)
  refine ⟨gate, hserves, ?_⟩
  simpa only [World.handle, Leases.put, Leases.connect, Function.update_idem] using hopened

theorem run_binds {w : World} (hw : w.Wf) {h : ℕ} {handle : Handle} {root : String}
    (hhandle : w.handles h = some handle)
    (hdoing : handle.doing = .idle) (hroot : root ∉ handle.bound.map Prod.fst)
    (hgate : (w.leases.gates (rootGate root)).Serves handle.path []) :
    ∃ gate : Gate, gate.Serves handle.path [w.leases.next] ∧ Run Step w
      { leases :=
          { gates := Function.update w.leases.gates (rootGate root) gate
            leases := Function.update w.leases.leases w.leases.next
              (some { process := handle.process, holder := some h, gate := rootGate root, owner := handle.path,
                      exclusive := handle.exclusive, stage := .held })
            next := w.leases.next + 1 }
        handles := Function.update w.handles h
          (some { handle with bound := handle.bound ++ [(root, w.leases.next)], doing := .idle }) } := by
  have hbind := Step.bind h handle root hhandle hdoing hroot
  obtain ⟨gate, hserves, hrun⟩ := run_acquires (step_wf hw hbind) (connect_next _ _ _ _ _ _) rfl hgate
  have hbound := (Relation.ReflTransGen.head hbind hrun).tail
    (.bound h _ root w.leases.next _ (Function.update_self _ _ _) rfl (Function.update_self _ _ _) rfl)
  refine ⟨gate, hserves, ?_⟩
  simpa only [World.handle, Leases.put, Leases.connect, Function.update_idem] using hbound

theorem run_closes {w : World} {h id : ℕ} {handle : Handle} {root : String}
    (hhandle : w.handles h = some handle)
    (hdoing : handle.doing = .idle) (hreaders : handle.readers = 0) (hbound : handle.bound = [(root, id)]) :
    Run Step w
      { leases := (w.leases.retain fun other => other ≠ id).retain fun other => other ≠ h
        handles := Function.update w.handles h none } := by
  have hclose := Relation.ReflTransGen.single (Step.close h handle hhandle hdoing hreaders)
  have hrelease := hclose.tail (.release h _ root id [] (Function.update_self _ _ _) rfl hbound)
  have hclosed := hrelease.tail (.closed h _ (Function.update_self _ _ _) rfl rfl)
  simpa only [World.handle, Function.update_idem] using hclosed

def vacant : World :=
  { leases := { gates := fun _ => { owners := none, deleteMode := true, locks := .free },
                leases := fun _ => none, next := 0 }
    handles := fun _ => none }

theorem vacant_initial : vacant.Initial :=
  { unlocked := fun _ => Locks.not_holds_free, leases := fun _ => rfl, handles := fun _ => rfl }

theorem vacant_serves (name owner : String) : (vacant.leases.gates name).Serves owner [] :=
  { deleteMode := rfl, locked := fun id hholds => absurd hholds (Locks.not_holds_free id), owners := .inl rfl }

-- Three processes: one for maintenance, one elsewhere, and one that comes after the first.

def maintaining : Handle :=
  { process := 7, path := "catalog", exclusive := true, bound := [("blobs", 1)], readers := 0, doing := .idle }

def archiving : Handle :=
  { process := 8, path := "archive", exclusive := false, bound := [], readers := 0, doing := .idle }

def following : Handle :=
  { process := 9, path := "catalog", exclusive := false, bound := [("blobs", 4)], readers := 0, doing := .idle }

def Handle.lease (handle : Handle) (h : ℕ) (gate : String) : Lease :=
  { process := handle.process, holder := some h, gate := gate, owner := handle.path,
    exclusive := handle.exclusive, stage := .held }

theorem maintaining_reached : ∃ w : World, w.Reached ∧ w.leases.next = 3
    ∧ w.handles 0 = some maintaining ∧ w.handles 2 = some archiving
    ∧ w.leases.leases 0 = some (maintaining.lease 0 (accessGate "catalog"))
    ∧ w.leases.leases 1 = some (maintaining.lease 0 (rootGate "blobs"))
    ∧ w.leases.leases 2 = some (archiving.lease 2 (accessGate "archive"))
    ∧ (w.leases.gates (accessGate "catalog")).Serves "catalog" [0]
    ∧ (w.leases.gates (rootGate "blobs")).Serves "catalog" [1] := by
  have hroot : rootGate "blobs" ≠ accessGate "catalog" := by decide
  have hother : accessGate "archive" ≠ accessGate "catalog" ∧
    accessGate "archive" ≠ rootGate "blobs" := by decide
  obtain ⟨gate, hgate, hopen⟩ :=
    run_opens vacant_initial.wf 7 true (vacant_serves (accessGate "catalog") "catalog")
  have hopened := invariant World.Wf (fun _ _ => step_wf) hopen vacant_initial.wf
  obtain ⟨root, hbound, hbind⟩ := @run_binds _ hopened 0 _ "blobs" rfl rfl List.not_mem_nil (by
    dsimp only
    rw [Function.update_of_ne hroot]
    exact vacant_serves _ _)
  have hwf := invariant World.Wf (fun _ _ => step_wf) hbind hopened
  obtain ⟨archive, -, hbeside⟩ := @run_opens _ hwf 8 "archive" false (by
    dsimp only
    rw [Function.update_of_ne hother.2, Function.update_of_ne hother.1]
    exact vacant_serves _ _)
  refine ⟨_, ⟨vacant, vacant_initial, (hopen.trans hbind).trans hbeside⟩, rfl, rfl, rfl, rfl, rfl, rfl, ?_, ?_⟩
  · dsimp only
    rw [Function.update_of_ne hother.1.symm, Function.update_of_ne hroot.symm, Function.update_self]
    exact hgate
  · dsimp only
    rw [Function.update_of_ne hother.2.symm, Function.update_self]
    exact hbound

-- The maintenance handle is closed, and another process opens the catalog and binds the root.
theorem following_takes_over {w : World} (hw : w.Wf) (hnext : w.leases.next = 3)
    (hhandle : w.handles 0 = some maintaining) (harchiving : w.handles 2 = some archiving)
    (hgate : (w.leases.gates (accessGate "catalog")).Serves "catalog" [0])
    (hroot : (w.leases.gates (rootGate "blobs")).Serves "catalog" [1]) :
    ∃ after : World, Run Step w after ∧ after.handles 0 = none ∧ after.handles 2 = some archiving
      ∧ after.handles 3 = some following ∧ after.leases.leases 1 = none
      ∧ after.leases.leases 4 = some (following.lease 3 (rootGate "blobs")) := by
  obtain ⟨⟨gates, leases, next⟩, handles⟩ := w
  dsimp only at hnext hhandle harchiving hgate hroot ⊢
  subst hnext
  have hclose := @run_closes ⟨⟨gates, leases, 3⟩, handles⟩ 0 1 maintaining "blobs" hhandle rfl rfl rfl
  have hclosed := invariant World.Wf (fun _ _ => step_wf) hclose hw
  obtain ⟨gate, -, hopen⟩ := @run_opens _ hclosed 9 "catalog" false ((hgate.retain _).retain _)
  have hopened := invariant World.Wf (fun _ _ => step_wf) hopen hclosed
  obtain ⟨root, -, hbind⟩ := @run_binds _ hopened 3 _ "blobs" rfl rfl List.not_mem_nil (by
    have hapart : rootGate "blobs" ≠ accessGate "catalog" := by decide
    dsimp only
    rw [Function.update_of_ne hapart]
    exact (hroot.retain _).retain _)
  exact ⟨_, (hclose.trans hopen).trans hbind, rfl, harchiving, rfl, rfl, rfl⟩

-- A lease that is held, on the gate of an exclusive one that is held, is that one.
theorem Leases.Wf.alone {w : Leases} (hw : w.Wf) {id other : ℕ} {lease found : Lease}
    (hlease : w.leases id = some lease)
    (hheld : lease.stage = .held) (hexclusive : lease.exclusive = true) (hfound : w.leases other = some found)
    (hother : found.stage = .held) (hgate : found.gate = lease.gate) : other = id := by
  have hsound := hw.sound id lease hlease
  have hothers := hw.sound other found hfound
  rw [Lease.Sound, hheld] at hsound
  rw [Lease.Sound, hother, hgate] at hothers
  exact Locks.eq_of_exclusive (hsound.2.1 hexclusive) hothers.1

theorem standing_subset {handle : Handle} (hdoing : handle.doing ≠ .opening) (h : ℕ) :
    handle.standing h ⊆ handle.parts h := by
  cases hcase : handle.doing with
  | opening => exact absurd hcase hdoing
  | idle => rw [parts_idle hcase]; exact List.Subset.refl _
  | closing => rw [parts_closing hcase]; exact List.Subset.refl _
  | binding root id => rw [parts_binding hcase]; exact List.subset_append_left _ _

-- A handle that is open holds its lease on the catalog path, and those on the roots that are bound.
theorem Handle.Attached.path {handle : Handle} {h : ℕ} {w : Leases} (hattached : handle.Attached h w)
    (hdoing : handle.doing ≠ .opening) :
    handle.Has h w { lease := h, gate := accessGate handle.path, held := true } :=
  hattached.has _ (standing_subset hdoing h List.mem_cons_self)

theorem Handle.Attached.root {handle : Handle} {h : ℕ} {w : Leases} (hattached : handle.Attached h w)
    (hdoing : handle.doing ≠ .opening) {root : String} {id : ℕ} (hbound : (root, id) ∈ handle.bound) :
    handle.Has h w { lease := id, gate := rootGate root, held := true } :=
  hattached.has _ (standing_subset hdoing h (List.mem_cons_of_mem _ (List.mem_map.mpr ⟨_, hbound, rfl⟩)))

-- What holds a gate along with a part of an exclusive handle is that part.
theorem Handle.Has.alone {handle : Handle} {h : ℕ} {w : Leases} (hw : w.Wf) {part : Part}
    (hhas : handle.Has h w part)
    (hheld : part.held = true) (hexclusive : handle.exclusive = true) {other : ℕ} {found : Lease}
    (hfound : w.leases other = some found) (hother : found.stage = .held) (hgate : found.gate = part.gate) :
    found.holder = some h := by
  obtain ⟨lease, hlease, hholder, -, hsame, -, hflag, hstage⟩ := hhas
  have heq := hw.alone hlease (hstage hheld) (hflag.trans hexclusive) hfound hother (hgate.trans hsame.symm)
  rw [heq, hlease] at hfound
  rw [← Option.some.inj hfound]
  exact hholder

theorem Handle.requireMaintenance_eq_true {handle : Handle} {root : String}
    (h : handle.requireMaintenance root = true) :
    handle.doing = .idle ∧ handle.exclusive = true ∧ (∃ id, (root, id) ∈ handle.bound) ∧
      handle.readers = 0 := by
  rw [Handle.requireMaintenance, Bool.and_eq_true, Bool.and_eq_true, Bool.and_eq_true, decide_eq_true_eq,
    decide_eq_true_eq, List.contains_iff_mem] at h
  obtain ⟨⟨⟨hdoing, hexclusive⟩, hroot⟩, hreaders⟩ := h
  obtain ⟨⟨_, id⟩, hbound, rfl⟩ := List.mem_map.mp hroot
  exact ⟨hdoing, hexclusive, ⟨id, hbound⟩, hreaders⟩

-- Whenever require_maintenance passes, no one else takes part: no payload is being read, the leases
-- that are held on the catalog path and on the root are the handle's, and no other handle on that
-- path, or bound to that root, is open.
theorem maintenance_excludes_everyone (w : World) (hw : w.Reached) (h : ℕ) (handle : Handle) (root : String)
    (hhandle : w.handles h = some handle) (hmaintenance : handle.requireMaintenance root = true) :
    handle.readers = 0
      ∧ (∀ id lease, w.leases.leases id = some lease → lease.stage = .held →
          lease.gate = accessGate handle.path ∨ lease.gate = rootGate root → lease.holder = some h)
      ∧ ∀ other found, w.handles other = some found → found.doing ≠ .opening →
          found.path = handle.path ∨ root ∈ found.bound.map Prod.fst → other = h := by
  have hwf := hw.wf
  obtain ⟨hdoing, hexclusive, ⟨bound, hbound⟩, hreaders⟩ := Handle.requireMaintenance_eq_true hmaintenance
  have hopen : handle.doing ≠ .opening := hdoing ▸ nofun
  have hattached := hwf.attached h handle hhandle
  have hleases : ∀ id lease, w.leases.leases id = some lease → lease.stage = .held →
      lease.gate = accessGate handle.path ∨ lease.gate = rootGate root → lease.holder = some h := by
    intro id lease hlease hheld hgate
    rcases hgate with hgate | hgate
    · exact (hattached.path hopen).alone hwf.leases rfl hexclusive hlease hheld hgate
    · exact (hattached.root hopen hbound).alone hwf.leases rfl hexclusive hlease hheld hgate
  refine ⟨hreaders, hleases, fun other found hfound hother hshared => ?_⟩
  have hstands := hwf.attached other found hfound
  have hsame : ∀ part : Part, found.Has other w.leases part → part.held = true →
      part.gate = accessGate handle.path ∨ part.gate = rootGate root → other = h := by
    rintro part ⟨lease, hlease, hholder, -, hgate, -, -, hstage⟩ hheld hshared
    have hmine := hleases part.lease lease hlease (hstage hheld) (hgate ▸ hshared)
    exact Option.some.inj (hholder.symm.trans hmine)
  rcases hshared with hpath | hroot
  · exact hsame _ (hstands.path hother) rfl (.inl (congrArg accessGate hpath))
  · obtain ⟨⟨_, id⟩, hmem, rfl⟩ := List.mem_map.mp hroot
    exact hsame _ (hstands.root hother hmem) rfl (.inr rfl)

theorem maintaining_excludes_everyone :
    ∃ w : World, w.handles 0 = some maintaining ∧ w.handles 2 = some archiving
    ∧ maintaining.requireMaintenance "blobs" = true
    ∧ (∀ id lease, w.leases.leases id = some lease → lease.stage = .held →
        lease.gate = accessGate "catalog" ∨ lease.gate = rootGate "blobs" → lease.holder = some 0)
    ∧ ∀ other found, w.handles other = some found → found.doing ≠ .opening →
        found.path = "catalog" ∨ "blobs" ∈ found.bound.map Prod.fst → other = 0 := by
  obtain ⟨w, hw, -, hhandle, harchiving, -⟩ := maintaining_reached
  exact ⟨w, hhandle, harchiving, by decide,
    (maintenance_excludes_everyone w hw 0 maintaining "blobs" hhandle (by decide)).2⟩

-- The owner of a gate is the owner of every lease it has ever accepted.

theorem step_owned {w after : World} (hw : w.Wf) (h : Step w after) {name owner : String}
    (howner : (w.leases.gates name).owners = some [owner]) :
    (after.leases.gates name).owners = some [owner] := by
  cases h with
  | advance id lease found gate hlease hstep =>
      obtain ⟨⟨stage, rfl⟩, -, hmoves, -⟩ := step_sound hstep (hw.leases.sound id lease hlease)
      rw [Leases.put]
      dsimp only
      rcases eq_or_ne name lease.gate with rfl | hne
      · rw [Function.update_self]
        exact hmoves.owned howner
      · rw [Function.update_of_ne hne]
        exact howner
  | _ => exact howner

theorem Leases.Wf.owner {w : Leases} (hw : w.Wf) {id : ℕ} {lease : Lease} (hlease : w.leases id = some lease)
    (hheld : lease.stage = .held) : (w.gates lease.gate).owners = some [lease.owner] := by
  have hsound := hw.sound id lease hlease
  rw [Lease.Sound, hheld] at hsound
  exact hsound.2.2

-- Whatever happens in between, by whatever processes, a gate accepts leases of one owner.
theorem gates_accept_one_owner (w after : World) (hw : w.Reached) (hrun : Run Step w after) (id other : ℕ)
    (lease found : Lease)
    (hlease : w.leases.leases id = some lease) (hheld : lease.stage = .held)
    (hfound : after.leases.leases other = some found)
    (hother : found.stage = .held) (hgate : found.gate = lease.gate) : found.owner = lease.owner := by
  have hafter : after.Wf := invariant World.Wf (fun _ _ => step_wf) hrun hw.wf
  have hstays : (after.leases.gates lease.gate).owners = some [lease.owner] := by
    have hboth := invariant (fun s : World => s.Wf ∧ (s.leases.gates lease.gate).owners = some [lease.owner])
      (fun s t hs hstep => ⟨step_wf hs.1 hstep, step_owned hs.1 hstep hs.2⟩) hrun
        ⟨hw.wf, hw.wf.leases.owner hlease hheld⟩
    exact hboth.2
  have hlast := hafter.leases.owner hfound hother
  rw [hgate, hstays] at hlast
  exact (List.cons.inj (Option.some.inj hlast)).1.symm

theorem root_keeps_its_owner : ∃ w after : World, Run Step w after
    ∧ w.leases.leases 1 = some (maintaining.lease 0 (rootGate "blobs")) ∧ after.leases.leases 1 = none
    ∧ after.leases.leases 4 = some (following.lease 3 (rootGate "blobs"))
    ∧ ∀ other found, after.leases.leases other = some found → found.stage = .held →
      found.gate = rootGate "blobs" →
        found.owner = "catalog" := by
  obtain ⟨w, hw, hnext, hhandle, harchiving, -, hlease, -, hgate, hroot⟩ := maintaining_reached
  obtain ⟨after, hrun, -, -, -, hgone, hnew⟩ := following_takes_over hw.wf hnext hhandle harchiving hgate hroot
  exact ⟨w, after, hrun, hlease, hgone, hnew, fun other found =>
    gates_accept_one_owner w after hw hrun 1 other (maintaining.lease 0 (rootGate "blobs")) found hlease rfl⟩

-- A lease of an idle handle is held, on the catalog path or on a root that is bound.
theorem World.Wf.idle {w : World} (hw : w.Wf) {h id : ℕ} {handle : Handle} {lease : Lease}
    (hhandle : w.handles h = some handle)
    (hdoing : handle.doing = .idle) (hlease : w.leases.leases id = some lease)
    (hholder : lease.holder = some h) :
    lease.stage = .held ∧ lease.process = handle.process ∧ lease.owner = handle.path ∧
    lease.exclusive = handle.exclusive
      ∧ (id = h ∧ lease.gate = accessGate handle.path ∨ ∃ root, (root, id) ∈ handle.bound ∧
        lease.gate = rootGate root) := by
  obtain ⟨found, hfound, hmem⟩ := hw.owned id lease h hlease hholder
  rw [hhandle] at hfound
  obtain rfl := Option.some.inj hfound
  obtain ⟨part, hpart, rfl⟩ := List.mem_map.mp hmem
  obtain ⟨own, hown, -, hprocess, hgate, howner, hexclusive, hheld⟩ :=
    (hw.attached h handle hhandle).has part hpart
  rw [hlease] at hown
  obtain rfl := Option.some.inj hown
  rw [parts_idle hdoing, Handle.standing] at hpart
  rcases List.mem_cons.mp hpart with rfl | hbound
  · exact ⟨hheld rfl, hprocess, howner, hexclusive, .inl ⟨rfl, hgate⟩⟩
  · obtain ⟨⟨root, _⟩, hroot, rfl⟩ := List.mem_map.mp hbound
    exact ⟨hheld rfl, hprocess, howner, hexclusive, .inr ⟨root, hroot, hgate⟩⟩

-- Nothing is left behind: every lock is that of a lease which is a visit, or belongs to a handle of a
-- living process, and a handle that is open has its lease on the catalog path and those on the roots
-- that are bound and, whatever has failed before, no other. All of these are held.
theorem nothing_is_left_behind (w : World) (hw : w.Reached) :
    (∀ name id, (w.leases.gates name).locks.Holds id → ∃ lease, w.leases.leases id = some lease ∧
      lease.gate = name
        ∧ ∀ h, lease.holder = some h → ∃ handle, w.handles h = some handle ∧ lease.process = handle.process)
      ∧ ∀ h handle, w.handles h = some handle → handle.doing = .idle →
          (∀ id, (∃ lease, w.leases.leases id = some lease ∧ lease.holder = some h) ↔
            id = h ∨ id ∈ handle.bound.map Prod.snd)
          ∧ ∀ id lease, w.leases.leases id = some lease → lease.holder = some h →
              lease.stage = .held ∧ lease.process = handle.process ∧ lease.owner = handle.path
              ∧ lease.exclusive = handle.exclusive
              ∧ (id = h ∧ lease.gate = accessGate handle.path
                  ∨ ∃ root, (root, id) ∈ handle.bound ∧ lease.gate = rootGate root) := by
  have hwf := hw.wf
  refine ⟨fun name id hholds => ?_, fun h handle hhandle hdoing =>
    ⟨fun id => ?_, fun id lease => hwf.idle hhandle hdoing⟩⟩
  · obtain ⟨lease, hlease, hgate⟩ := hwf.leases.locked name id hholds
    refine ⟨lease, hlease, hgate, fun h hholder => ?_⟩
    obtain ⟨handle, hhandle, -, hprocess⟩ := hwf.process hlease hholder
    exact ⟨handle, hhandle, hprocess⟩
  · have hmem : id ∈ (handle.parts h).map Part.lease ↔ id = h ∨ id ∈ handle.bound.map Prod.snd := by
      rw [parts_idle hdoing, Handle.standing, List.map_cons, List.mem_cons, List.map_map]
      rfl
    rw [← hmem]
    refine ⟨fun ⟨lease, hlease, hholder⟩ => ?_, fun hpart => ?_⟩
    · obtain ⟨found, hfound, hpart⟩ := hwf.owned id lease h hlease hholder
      rw [hhandle] at hfound
      exact Option.some.inj hfound ▸ hpart
    · obtain ⟨part, hown, rfl⟩ := List.mem_map.mp hpart
      obtain ⟨lease, hlease, hholder, -⟩ := (hwf.attached h handle hhandle).has part hown
      exact ⟨lease, hlease, hholder⟩

theorem following_leaves_nothing_behind : ∃ w : World, w.handles 0 = none ∧ w.handles 2 = some archiving
    ∧ w.handles 3 = some following
    ∧ (∀ id, (∃ lease, w.leases.leases id = some lease ∧ lease.holder = some 2) ↔
      id = 2 ∨ id ∈ archiving.bound.map Prod.snd)
    ∧ (∀ id, (∃ lease, w.leases.leases id = some lease ∧ lease.holder = some 3) ↔
      id = 3 ∨ id ∈ following.bound.map Prod.snd)
    ∧ ∀ id, (w.leases.gates (rootGate "blobs")).locks.Holds id → ∃ lease, w.leases.leases id = some lease
        ∧ lease.gate = rootGate "blobs"
        ∧ ∀ h, lease.holder = some h → ∃ handle, w.handles h = some handle ∧
          lease.process = handle.process := by
  obtain ⟨before, hbefore, hnext, hhandle, harchiving, -, -, -, hgate, hroot⟩ := maintaining_reached
  obtain ⟨w, hrun, hgone, hbeside, hfollowing, -⟩ :=
    following_takes_over hbefore.wf hnext hhandle harchiving hgate hroot
  obtain ⟨start, hstart, hreached⟩ := hbefore
  have hnothing := nothing_is_left_behind w ⟨start, hstart, hreached.trans hrun⟩
  exact ⟨w, hgone, hbeside, hfollowing, (hnothing.2 2 archiving hbeside rfl).1,
    (hnothing.2 3 following hfollowing rfl).1, hnothing.1 (rootGate "blobs")⟩

end Access

end MeldStore
