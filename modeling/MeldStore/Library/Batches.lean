import Mathlib.Data.List.Count
import Mathlib.Data.List.Sort
import Mathlib.Order.Basic
import Mathlib.Tactic.Common

namespace Library.Batches

-- Rounds over a sorted list of items: each round tries the first `limit` of them, and
-- only those that are refused stay.

variable {κ : Type*} [LinearOrder κ]

def tried (limit : ℕ) (items : List κ) : List κ := items.take limit

def round (refused : κ → Bool) (limit : ℕ) (items : List κ) : List κ :=
  items.filter fun item => refused item || item ∉ tried limit items

def rounds (refused : κ → Bool) (limit : ℕ) : ℕ → List κ → List κ
  | 0, items => items
  | n + 1, items => rounds refused limit n (round refused limit items)

-- The refused items before an item.
def ahead (refused : κ → Bool) (items : List κ) (item : κ) : ℕ :=
  items.countP fun other => refused other && other < item

def remaining (refused : κ → Bool) (items : List κ) : ℕ := items.countP fun item => !refused item

variable {refused : κ → Bool} {limit : ℕ} {items : List κ} {item : κ}

theorem mem_tried_iff (hsorted : items.Pairwise (· < ·)) :
    item ∈ tried limit items ↔ item ∈ items ∧ (items.countP fun other => other < item) < limit := by
  unfold tried
  induction items generalizing limit with
  | nil => simp
  | cons first rest ih =>
      obtain ⟨hfirst, hrest⟩ := List.pairwise_cons.mp hsorted
      cases limit with
      | zero => simp
      | succ limit =>
          rw [List.take_succ_cons, List.mem_cons, List.mem_cons, ih hrest, List.countP_cons]
          by_cases hlt : first < item
          · have hne : item ≠ first := hlt.ne'
            simp [hne, hlt]
          · have hnone : (rest.countP fun other => other < item) = 0 := by
              refine List.countP_eq_zero.mpr fun other hother => ?_
              have hother := hfirst other hother
              simpa using (not_lt.mp hlt).trans hother.le
            by_cases he : item = first
            · subst he
              simp [hnone]
            · have hout : item ∉ rest := fun hmem => hlt (hfirst item hmem)
              simp [he, hout]

theorem round_sorted (hsorted : items.Pairwise (· < ·)) : (round refused limit items).Pairwise (· < ·) :=
  hsorted.filter _

theorem mem_round : item ∈ round refused limit items ↔
    item ∈ items ∧ (refused item = true ∨ item ∉ tried limit items) := by
  simp [round]

-- Refused items keep their places.
theorem ahead_round : ahead refused (round refused limit items) item = ahead refused items item := by
  rw [ahead, round, List.countP_filter, ahead]
  refine List.countP_congr fun other _ => ?_
  simp only [Bool.and_eq_true, Bool.or_eq_true]
  exact ⟨fun h => h.1, fun h => ⟨h, Or.inl h.1⟩⟩

theorem ahead_le (refused : κ → Bool) (items : List κ) (item : κ) : ahead refused items item ≤
    items.countP fun other => other < item :=
  List.countP_mono_left fun _ _ h => ((Bool.and_eq_true _ _).mp h).2

-- An item behind `limit` refused ones is never tried.
theorem starved (hsorted : items.Pairwise (· < ·)) (hmem : item ∈ items)
    (hahead : limit ≤ ahead refused items item) (n : ℕ) :
    item ∈ rounds refused limit n items ∧ item ∉ tried limit (rounds refused limit n items) := by
  induction n generalizing items with
  | zero =>
      refine ⟨hmem, fun htried => ?_⟩
      have hcount := ((mem_tried_iff hsorted).mp htried).2
      have hle := ahead_le refused items item
      omega
  | succ n ih =>
      have hout : item ∉ tried limit items := by
        intro htried
        have hcount := ((mem_tried_iff hsorted).mp htried).2
        have hle := ahead_le refused items item
        omega
      exact ih (round_sorted hsorted) (mem_round.mpr ⟨hmem, Or.inr hout⟩) (by rwa [ahead_round])

theorem exists_first_open (hsorted : items.Pairwise (· < ·)) (hopen : remaining refused items ≠ 0) :
    ∃ first ∈ items, refused first = false ∧ ∀ other ∈ items, other < first → refused other = true := by
  induction items with
  | nil => exact absurd rfl hopen
  | cons head rest ih =>
      obtain ⟨hhead, hrest⟩ := List.pairwise_cons.mp hsorted
      cases hr : refused head with
      | false =>
          refine ⟨head, List.mem_cons_self, hr, fun other hother hlt => ?_⟩
          rcases List.mem_cons.mp hother with rfl | hother
          · exact absurd hlt (lt_irrefl _)
          · exact absurd (hlt.trans (hhead other hother)) (lt_irrefl _)
      | true =>
          rw [remaining, List.countP_cons] at hopen
          simp only [hr, Bool.not_true, Bool.false_eq_true, if_false, Nat.add_zero] at hopen
          obtain ⟨first, hmem, hfree, hleast⟩ := ih hrest hopen
          refine ⟨first, List.mem_cons_of_mem _ hmem, hfree, fun other hother hlt => ?_⟩
          rcases List.mem_cons.mp hother with rfl | hother
          · exact hr
          · exact hleast other hother hlt

theorem tried_of_ahead (refused : κ → Bool) (hsorted : items.Pairwise (· < ·)) (hmem : item ∈ items)
    (hahead : ahead refused items item < limit)
    (hbefore : ∀ other ∈ items, other < item → refused other = true) : item ∈ tried limit items := by
  refine (mem_tried_iff hsorted).mpr ⟨hmem, lt_of_le_of_lt ?_ hahead⟩
  refine List.countP_mono_left fun other hother hlt => ?_
  rw [Bool.and_eq_true]
  exact ⟨hbefore other hother (of_decide_eq_true hlt), hlt⟩

-- With few refused items before each one, a round tries the first that is not refused.
theorem open_round (hsorted : items.Pairwise (· < ·))
    (hserved : ∀ item ∈ items, refused item = false → ahead refused items item < limit)
    (hopen : remaining refused items ≠ 0) :
    remaining refused (round refused limit items) < remaining refused items := by
  obtain ⟨first, hfirst, hfree, hleast⟩ := exists_first_open hsorted hopen
  have htried := tried_of_ahead refused hsorted hfirst (hserved first hfirst hfree) hleast
  have hleft : remaining refused (round refused limit items) =
      ((items.filter fun item => !refused item).filter fun item => item ∉ tried limit items).length := by
    rw [remaining, round, List.countP_filter, List.filter_filter, List.countP_eq_length_filter]
    congr 1
    refine List.filter_congr fun other _ => ?_
    cases refused other <;> simp
  rw [hleft, remaining, List.countP_eq_length_filter]
  refine List.length_filter_lt_length_iff_exists.mpr ⟨first, List.mem_filter.mpr ⟨hfirst, ?_⟩, ?_⟩
  · rw [hfree]
    rfl
  · simpa using htried

omit [LinearOrder κ] in
theorem refused_of_remaining (h : remaining refused items = 0) : ∀ item ∈ items, refused item = true := by
  intro item hitem
  simpa using List.countP_eq_zero.mp h item hitem

theorem rounds_sorted (hsorted : items.Pairwise (· < ·)) (n : ℕ) :
    (rounds refused limit n items).Pairwise (· < ·) := by
  induction n generalizing items with
  | zero => exact hsorted
  | succ n ih => exact ih (round_sorted hsorted)

theorem ahead_rounds (n : ℕ) :
    ahead refused (rounds refused limit n items) item = ahead refused items item := by
  induction n generalizing items with
  | zero => rfl
  | succ n ih => rw [rounds, ih, ahead_round]

theorem mem_of_rounds {n : ℕ} (h : item ∈ rounds refused limit n items) : item ∈ items := by
  induction n generalizing items with
  | zero => exact h
  | succ n ih => exact (mem_round.mp (ih h)).1

theorem mem_rounds_of_refused (hmem : item ∈ items) (hrefused : refused item = true) (n : ℕ) :
    item ∈ rounds refused limit n items := by
  induction n generalizing items with
  | zero => exact hmem
  | succ n ih => exact ih (mem_round.mpr ⟨hmem, Or.inl hrefused⟩)

-- Each round serves one more, until only refused items are left.
theorem open_rounds (hsorted : items.Pairwise (· < ·))
    (hserved : ∀ item ∈ items, refused item = false → ahead refused items item < limit)
    (n : ℕ) : remaining refused (rounds refused limit n items) ≤ remaining refused items - n := by
  induction n generalizing items with
  | zero => exact le_of_eq rfl
  | succ n ih =>
      have hnext : ∀ item ∈ round refused limit items, refused item = false →
          ahead refused (round refused limit items) item < limit := by
        intro item hitem hfree
        rw [ahead_round]
        exact hserved item (mem_round.mp hitem).1 hfree
      have hrest := ih (round_sorted hsorted) hnext
      have hle : remaining refused (round refused limit items) ≤ remaining refused items :=
        List.Sublist.countP_le List.filter_sublist
      rw [rounds]
      by_cases hopen : remaining refused items = 0
      · omega
      · have hless := open_round hsorted hserved hopen
        omega

omit [LinearOrder κ] in
theorem remaining_le (refused : κ → Bool) (items : List κ) : remaining refused items ≤ items.length :=
    List.countP_le_length

theorem served (hsorted : items.Pairwise (· < ·))
    (hserved : ∀ item ∈ items, refused item = false → ahead refused items item < limit) :
    ∀ item ∈ rounds refused limit items.length items, refused item = true := by
  have hle := open_rounds hsorted hserved items.length
  have hlength := remaining_le refused items
  exact refused_of_remaining (by omega)

-- Then the refused ones are tried too.
theorem tried_of_refused (hsorted : items.Pairwise (· < ·))
    (hserved : ∀ item ∈ items, refused item = false → ahead refused items item < limit) (hmem : item ∈ items)
    (hrefused : refused item = true) (hahead : ahead refused items item < limit) :
    ∃ n < items.length, item ∈ tried limit (rounds refused limit n items) := by
  have hlength : remaining refused items < items.length := by
    rw [remaining, List.countP_eq_length_filter]
    exact List.length_filter_lt_length_iff_exists.mpr ⟨item, hmem, by simp [hrefused]⟩
  have hle := open_rounds hsorted hserved (remaining refused items)
  have hnone : remaining refused (rounds refused limit (remaining refused items) items) = 0 := by omega
  have hall := refused_of_remaining hnone
  refine ⟨remaining refused items, hlength, tried_of_ahead refused (rounds_sorted hsorted _)
    (mem_rounds_of_refused hmem hrefused _) ?_ fun other hother _ => hall other hother⟩
  rwa [ahead_rounds]

end Library.Batches
