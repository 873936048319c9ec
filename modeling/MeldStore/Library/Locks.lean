import Mathlib.Tactic.Common

namespace Library

-- The locks of connections on one file: any number of them may read it, or one excludes all others.
structure Locks (κ : Type) where
  shared : List κ
  exclusive : Option κ
  sound : ∀ k, exclusive = some k → ∀ other ∈ shared, other = k

namespace Locks

variable {κ : Type}

def Holds (locks : Locks κ) (k : κ) : Prop := k ∈ locks.shared ∨ locks.exclusive = some k

def free : Locks κ := { shared := [], exclusive := none, sound := fun _ _ _ h => absurd h List.not_mem_nil }

theorem not_holds_free (k : κ) : ¬(free : Locks κ).Holds k := by
  rintro (h | h)
  · exact List.not_mem_nil h
  · cases h

theorem eq_free {locks : Locks κ} (h : ∀ k, ¬locks.Holds k) : locks = free := by
  obtain ⟨shared, exclusive, sound⟩ := locks
  have hshared : shared = [] := List.eq_nil_iff_forall_not_mem.mpr fun k hk => h k (.inl hk)
  have hexclusive : exclusive = none := Option.eq_none_iff_forall_ne_some.mpr fun k hk => h k (.inr hk)
  subst hshared hexclusive
  rfl

theorem eq_of_exclusive {locks : Locks κ} {k other : κ} (h : locks.exclusive = some k)
    (hother : locks.Holds other) :
    other = k := by
  rcases hother with hshared | hexclusive
  · exact locks.sound k h other hshared
  · exact Option.some.inj (hexclusive.symm.trans h)

section

variable [DecidableEq κ]

-- A reader waits for no one but the connection that excludes it.
def share (locks : Locks κ) (k : κ) : Option (Locks κ) :=
  if h : ∀ other ∈ locks.exclusive, other = k then
    some { shared := k :: locks.shared, exclusive := locks.exclusive,
           sound := fun l hl other hother => by
             rcases List.mem_cons.mp hother with rfl | hother
             · exact (h l hl).symm
             · exact locks.sound l hl other hother }
  else none

def exclude (locks : Locks κ) (k : κ) : Option (Locks κ) :=
  if h : (∀ other ∈ locks.exclusive, other = k) ∧ ∀ other ∈ locks.shared, other = k then
    some { shared := locks.shared, exclusive := some k,
           sound := fun _ hl other hother => (h.2 other hother).trans (Option.some.inj hl) }
  else none

theorem share_eq_some {locks after : Locks κ} {k : κ} (h : locks.share k = some after) :
    after.exclusive = locks.exclusive ∧ after.shared = k :: locks.shared := by
  rw [share] at h
  split_ifs at h
  rw [← Option.some.inj h]
  exact ⟨rfl, rfl⟩

theorem exclude_eq_some {locks after : Locks κ} {k : κ} (h : locks.exclude k = some after) :
    after.exclusive = some k ∧ after.shared = locks.shared ∧ ∀ other, locks.Holds other → other = k := by
  rw [exclude] at h
  split_ifs at h with hfree
  rw [← Option.some.inj h]
  refine ⟨rfl, rfl, fun other hother => ?_⟩
  rcases hother with hshared | hexclusive
  · exact hfree.2 other hshared
  · exact hfree.1 other hexclusive

end

-- The locks of the connections that are kept
def retain (locks : Locks κ) (keep : κ → Bool) : Locks κ :=
  { shared := locks.shared.filter keep, exclusive := locks.exclusive.filter keep,
    sound := fun k hk other hother =>
      locks.sound k (Option.filter_eq_some_iff.mp hk).1 other ((List.mem_filter.mp hother).1) }

theorem holds_retain {locks : Locks κ} {keep : κ → Bool} {k : κ} :
    (locks.retain keep).Holds k ↔ locks.Holds k ∧ keep k = true := by
  rw [Holds, Holds, retain]
  dsimp only
  rw [List.mem_filter, Option.filter_eq_some_iff, or_and_right]

theorem exclusive_retain {locks : Locks κ} {keep : κ → Bool} {k : κ} (h : locks.exclusive = some k)
    (hkeep : keep k = true) :
    (locks.retain keep).exclusive = some k :=
  Option.filter_eq_some_iff.mpr ⟨h, hkeep⟩

end Locks

end Library
