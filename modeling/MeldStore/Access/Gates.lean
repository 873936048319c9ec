import MeldStore.Access

namespace MeldStore

open Library

namespace Access

-- What a lease in the middle of its statements has of its gate.
def Lease.Sound (gate : Gate) (id : ℕ) (lease : Lease) : Prop :=
  match lease.stage with
  | .creating => gate.locks.exclusive = some id
  | .created owners => gate.locks.exclusive = some id ∧ owners = gate.owners.getD []
  | .written owners =>
      gate.locks.exclusive = some id ∧ (gate.owners.getD [] = [] ∨ owners = gate.owners.getD [])
  | .begun => lease.exclusive = true → gate.locks.exclusive = some id
  | .held => gate.locks.Holds id ∧ (lease.exclusive = true → gate.locks.exclusive = some id) ∧
      gate.owners = some [lease.owner]
  | _ => True

-- A lease that holds no lock relies on nothing.
theorem Lease.Sound.of_not_holds {gate : Gate} {id : ℕ} {lease : Lease} (h : lease.Sound gate id)
    (hnot : ¬gate.locks.Holds id) (after : Gate) : lease.Sound after id := by
  rw [Lease.Sound] at h ⊢
  cases hstage : lease.stage <;> rw [hstage] at h <;> dsimp only at h ⊢
  case creating => exact absurd (.inr h) hnot
  case created owners => exact absurd (.inr h.1) hnot
  case written owners => exact absurd (.inr h.1) hnot
  case begun => exact fun hexclusive => absurd (.inr (h hexclusive)) hnot
  case held => exact absurd h.1 hnot

-- Locks that still hold, on the same rows
theorem Lease.Sound.mono {gate after : Gate} {id : ℕ} {lease : Lease} (h : lease.Sound gate id)
    (howners : after.owners = gate.owners)
    (hexclusive : gate.locks.exclusive = some id → after.locks.exclusive = some id)
    (hholds : gate.locks.Holds id → after.locks.Holds id) : lease.Sound after id := by
  rw [Lease.Sound] at h ⊢
  cases hstage : lease.stage <;> rw [hstage] at h <;> dsimp only at h ⊢
  case creating => exact hexclusive h
  case created owners => exact ⟨hexclusive h.1, howners ▸ h.2⟩
  case written owners => exact ⟨hexclusive h.1, howners ▸ h.2⟩
  case begun => exact fun hx => hexclusive (h hx)
  case held => exact ⟨hholds h.1, fun hx => hexclusive (h.2.1 hx), howners ▸ h.2.2⟩

-- What a statement does to the gate: nothing, or it excludes others, reads along with them, or
-- commits what is written.
inductive Moves (gate : Gate) (id : ℕ) : Gate → Prop
  | nothing : Moves gate id gate
  | excludes (locks : Locks ℕ) (h : gate.locks.exclude id = some locks) :
      Moves gate id { gate with locks := locks }
  | reads (locks : Locks ℕ) (h : gate.locks.share id = some locks) : Moves gate id { gate with locks := locks }
  | commits (owners : List String) (hexclusive : gate.locks.exclusive = some id)
      (howners : gate.owners.getD [] = [] ∨ owners = gate.owners.getD []) :
      Moves gate id { gate with owners := some owners, locks := gate.locks.retain fun other => other ≠ id }

-- One statement: the lease stays who it is, and what it has is sound.
theorem step_sound {gate gate' : Gate} {id : ℕ} {lease after : Lease}
    (h : lease.step gate id = some (after, gate')) (hsound : lease.Sound gate id) :
    (∃ stage, after = { lease with stage := stage }) ∧ lease.stage ≠ .held ∧ Moves gate id gate' ∧
      after.Sound gate' id := by
  rw [Lease.step] at h
  rw [Lease.Sound] at hsound
  cases hstage : lease.stage <;> rw [hstage] at h hsound <;> dsimp only at h hsound
  case connected =>
    obtain ⟨_, -, h⟩ := Option.bind_eq_some_iff.mp h
    split_ifs at h
    obtain ⟨rfl, rfl⟩ := Prod.mk.inj (Option.some.inj h)
    exact ⟨⟨_, rfl⟩, nofun, .nothing, trivial⟩
  case checked =>
    obtain ⟨_, -, h⟩ := Option.bind_eq_some_iff.mp h
    obtain ⟨rfl, rfl⟩ := Prod.mk.inj (Option.some.inj h)
    refine ⟨⟨_, rfl⟩, nofun, .nothing, ?_⟩
    cases hfound : gate.owners.isSome <;> exact trivial
  case absent =>
    obtain ⟨locks, hlocks, h⟩ := Option.bind_eq_some_iff.mp h
    obtain ⟨rfl, rfl⟩ := Prod.mk.inj (Option.some.inj h)
    exact ⟨⟨_, rfl⟩, nofun, .excludes locks hlocks, (Locks.exclude_eq_some hlocks).1⟩
  case creating =>
    obtain ⟨rfl, rfl⟩ := Prod.mk.inj (Option.some.inj h)
    exact ⟨⟨_, rfl⟩, nofun, .nothing, hsound, rfl⟩
  case created owners =>
    obtain ⟨rfl, rfl⟩ := Prod.mk.inj (Option.some.inj h)
    obtain ⟨hexclusive, rfl⟩ := hsound
    refine ⟨⟨_, rfl⟩, nofun, .nothing, hexclusive, ?_⟩
    cases hempty : (gate.owners.getD []).isEmpty with
    | true => exact .inl (List.isEmpty_iff.mp hempty)
    | false => exact .inr (if_neg Bool.false_ne_true)
  case written owners =>
    obtain ⟨rfl, rfl⟩ := Prod.mk.inj (Option.some.inj h)
    exact ⟨⟨_, rfl⟩, nofun, .commits owners hsound.1 hsound.2, trivial⟩
  case ready =>
    cases hexclusive : lease.exclusive with
    | true =>
        rw [hexclusive, if_pos rfl] at h
        obtain ⟨locks, hlocks, h⟩ := Option.bind_eq_some_iff.mp h
        obtain ⟨rfl, rfl⟩ := Prod.mk.inj (Option.some.inj h)
        exact ⟨⟨_, rfl⟩, nofun, .excludes locks hlocks, fun _ => (Locks.exclude_eq_some hlocks).1⟩
    | false =>
        rw [hexclusive, if_neg Bool.false_ne_true] at h
        obtain ⟨locks, hlocks, h⟩ := Option.bind_eq_some_iff.mp h
        obtain rfl := Option.some.inj hlocks
        obtain ⟨rfl, rfl⟩ := Prod.mk.inj (Option.some.inj h)
        refine ⟨⟨_, rfl⟩, nofun, .nothing, fun hx => ?_⟩
        cases hx
  case begun =>
    obtain ⟨locks, hlocks, h⟩ := Option.bind_eq_some_iff.mp h
    split_ifs at h with howner
    obtain ⟨rfl, rfl⟩ := Prod.mk.inj (Option.some.inj h)
    obtain ⟨hsame, hshared⟩ := Locks.share_eq_some hlocks
    refine ⟨⟨_, rfl⟩, nofun, .reads locks hlocks, .inl ?_, fun hx => hsame.trans (hsound hx), howner⟩
    rw [hshared]
    exact List.mem_cons_self
  case held => cases h

-- Others keep what they have.
theorem Moves.others {gate after : Gate} {id other : ℕ} {lease : Lease} (h : Moves gate id after)
    (hne : other ≠ id) (hsound : lease.Sound gate other) : lease.Sound after other := by
  cases h with
  | nothing => exact hsound
  | excludes locks hlocks =>
      refine hsound.of_not_holds (fun hholds => hne ?_) _
      exact (Locks.exclude_eq_some hlocks).2.2 other hholds
  | reads locks hlocks =>
      obtain ⟨hexclusive, hshared⟩ := Locks.share_eq_some hlocks
      refine hsound.mono rfl (fun hx => hexclusive.trans hx) fun hholds => ?_
      rcases hholds with hmem | hx
      · exact .inl (by rw [hshared]; exact List.mem_cons_of_mem _ hmem)
      · exact .inr (hexclusive.trans hx)
  | commits owners hexclusive howners =>
      exact hsound.of_not_holds (fun hholds => hne (Locks.eq_of_exclusive hexclusive hholds)) _

theorem Moves.holds {gate after : Gate} {id other : ℕ} (h : Moves gate id after)
    (hholds : after.locks.Holds other) :
    other = id ∨ gate.locks.Holds other := by
  cases h with
  | nothing => exact .inr hholds
  | excludes locks hlocks =>
      obtain ⟨hexclusive, -, -⟩ := Locks.exclude_eq_some hlocks
      exact .inl (Locks.eq_of_exclusive hexclusive hholds)
  | reads locks hlocks =>
      obtain ⟨hexclusive, hshared⟩ := Locks.share_eq_some hlocks
      rcases hholds with hmem | hx
      · dsimp only at hmem
        rw [hshared] at hmem
        exact (List.mem_cons.mp hmem).imp_right .inl
      · exact .inr (.inr (hexclusive.symm.trans hx))
  | commits owners hexclusive howners => exact .inr (Locks.holds_retain.mp hholds).1

-- The owner of a gate stays.
theorem Moves.owned {gate after : Gate} {id : ℕ} {owner : String} (h : Moves gate id after)
    (howner : gate.owners = some [owner]) :
    after.owners = some [owner] := by
  cases h with
  | commits owners hexclusive howners =>
      rw [howner, Option.getD_some] at howners
      rcases howners with hempty | rfl
      · cases hempty
      · rfl
  | _ => exact howner

-- The leases of all processes

structure Leases.Wf (w : Leases) : Prop where
  fresh : ∀ id lease, w.leases id = some lease → id < w.next
  locked : ∀ name id, (w.gates name).locks.Holds id → ∃ lease, w.leases id = some lease ∧ lease.gate = name
  sound : ∀ id lease, w.leases id = some lease → lease.Sound (w.gates lease.gate) id

theorem Leases.Wf.lt {w : Leases} (hw : w.Wf) {id : ℕ} {lease : Lease}
    (h : w.leases id = some lease) : id ≠ w.next :=
  Nat.ne_of_lt (hw.fresh id lease h)

theorem connect_wf {w : Leases} (hw : w.Wf) (process : ℕ) (holder : Option ℕ) (gate owner : String)
    (exclusive : Bool) :
    (w.connect process holder gate owner exclusive).Wf := by
  have hcases : ∀ id lease, (w.connect process holder gate owner exclusive).leases id = some lease →
      (id = w.next ∧ lease.stage = .connected) ∨ (w.leases id = some lease) := by
    intro id lease h
    rw [Leases.connect] at h
    dsimp only at h
    rcases eq_or_ne id w.next with rfl | hne
    · rw [Function.update_self] at h
      exact .inl ⟨rfl, by rw [← Option.some.inj h]⟩
    · rw [Function.update_of_ne hne] at h
      exact .inr h
  refine { fresh := fun id lease h => ?_, locked := fun name id h => ?_, sound := fun id lease h => ?_ }
  · rcases hcases id lease h with ⟨rfl, -⟩ | hold
    · exact Nat.lt_succ_self _
    · exact Nat.lt_trans (hw.fresh id lease hold) (Nat.lt_succ_self _)
  · obtain ⟨lease, hlease, hgate⟩ := hw.locked name id h
    refine ⟨lease, ?_, hgate⟩
    rw [Leases.connect]
    dsimp only
    rw [Function.update_of_ne (hw.lt hlease)]
    exact hlease
  · rcases hcases id lease h with ⟨rfl, hstage⟩ | hold
    · rw [Lease.Sound, hstage]
      trivial
    · exact hw.sound id lease hold

theorem retain_wf {w : Leases} (hw : w.Wf) (keep : ℕ → Bool) : (w.retain keep).Wf := by
  have hkept : ∀ id lease, (w.retain keep).leases id = some lease → keep id = true ∧
    w.leases id = some lease := by
    intro id lease h
    rw [Leases.retain] at h
    dsimp only at h
    split_ifs at h with hkeep
    exact ⟨hkeep, h⟩
  refine { fresh := fun id lease h => hw.fresh id lease (hkept id lease h).2, locked := fun name id h => ?_,
           sound := fun id lease h => ?_ }
  · obtain ⟨hholds, hkeep⟩ := Locks.holds_retain.mp h
    obtain ⟨lease, hlease, hgate⟩ := hw.locked name id hholds
    exact ⟨lease, by rw [Leases.retain]; dsimp only; rw [if_pos hkeep, hlease], hgate⟩
  · obtain ⟨hkeep, hlease⟩ := hkept id lease h
    refine (hw.sound id lease hlease).mono rfl (fun hx => Locks.exclusive_retain hx hkeep) fun hholds => ?_
    exact Locks.holds_retain.mpr ⟨hholds, hkeep⟩

theorem put_wf {w : Leases} (hw : w.Wf) {id : ℕ} {lease after : Lease} {gate : Gate}
    (hlease : w.leases id = some lease)
    (h : lease.step (w.gates lease.gate) id = some (after, gate)) : (w.put id after gate).Wf := by
  obtain ⟨⟨stage, rfl⟩, -, hmoves, hafter⟩ := step_sound h (hw.sound id lease hlease)
  refine { fresh := fun other l hl => ?_, locked := fun name other hholds => ?_, sound := fun other l hl => ?_ }
  · rw [Leases.put] at hl ⊢
    dsimp only at hl ⊢
    rcases eq_or_ne other id with rfl | hne
    · exact hw.fresh other lease hlease
    · rw [Function.update_of_ne hne] at hl
      exact hw.fresh other l hl
  · have hbefore : other = id ∧ name = lease.gate ∨ (w.gates name).locks.Holds other := by
      rw [Leases.put] at hholds
      dsimp only at hholds
      rcases eq_or_ne name lease.gate with rfl | hname
      · rw [Function.update_self] at hholds
        exact (hmoves.holds hholds).imp_left fun hsame => ⟨hsame, rfl⟩
      · rw [Function.update_of_ne hname] at hholds
        exact .inr hholds
    rw [Leases.put]
    dsimp only
    rcases eq_or_ne other id with rfl | hne
    · refine ⟨_, Function.update_self _ _ _, ?_⟩
      rcases hbefore with ⟨-, rfl⟩ | hholds
      · rfl
      · obtain ⟨l, hl, hgate⟩ := hw.locked name other hholds
        rw [hlease] at hl
        rw [← hgate, ← Option.some.inj hl]
    · obtain ⟨l, hl, hgate⟩ := hw.locked name other (hbefore.resolve_left fun h => hne h.1)
      exact ⟨l, by rw [Function.update_of_ne hne, hl], hgate⟩
  · rw [Leases.put] at hl ⊢
    dsimp only at hl ⊢
    rcases eq_or_ne other id with rfl | hne
    · rw [Function.update_self] at hl
      rw [← Option.some.inj hl, Function.update_self]
      exact hafter
    · rw [Function.update_of_ne hne] at hl
      have hsound := hw.sound other l hl
      rcases eq_or_ne l.gate lease.gate with hgate | hgate
      · rw [hgate, Function.update_self]
        rw [hgate] at hsound
        exact hmoves.others hne hsound
      · rw [Function.update_of_ne hgate]
        exact hsound

end Access

end MeldStore
