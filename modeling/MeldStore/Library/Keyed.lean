import Mathlib.Data.List.Pairwise
import Mathlib.Data.List.Nodup
import Mathlib.Tactic.Common

namespace Library.Keyed

variable {α κ : Type*}

-- A uniqueness constraint over a list of rows. A row without a key is not
-- constrained, as with NULL in a UNIQUE column.
def UniqueOn (key : α → Option κ) (rows : List α) : Prop :=
  rows.Pairwise fun a b => key a = none ∨ key a ≠ key b

variable {key : α → Option κ} {rows : List α}

@[simp] theorem UniqueOn.nil : UniqueOn key ([] : List α) := List.Pairwise.nil

private theorem distinct_symm (key : α → Option κ) {a b : α}
    (h : key a = none ∨ key a ≠ key b) : key b = none ∨ key b ≠ key a := by
  rcases h with ha | hne
  · cases hb : key b with
    | none => exact Or.inl rfl
    | some k => exact Or.inr (by simp [ha])
  · exact Or.inr (Ne.symm hne)

theorem UniqueOn.eq_of_mem (h : UniqueOn key rows) {a b : α} (ha : a ∈ rows) (hb : b ∈ rows)
    {k : κ} (hka : key a = some k) (hkb : key b = some k) : a = b := by
  by_contra hne
  have : Std.Symm fun a b => key a = none ∨ key a ≠ key b := ⟨fun _ _ => distinct_symm key⟩
  rcases List.Pairwise.forall h ha hb hne with hn | hn
  · simp [hka] at hn
  · exact hn (hka.trans hkb.symm)

theorem UniqueOn.append (h : UniqueOn key rows) (row : α)
    (hfresh : ∀ other ∈ rows, key other = none ∨ key other ≠ key row) :
    UniqueOn key (rows ++ [row]) := by
  refine List.pairwise_append.mpr ⟨h, List.pairwise_singleton _ _, ?_⟩
  intro other hother new hnew
  rw [List.mem_singleton.mp hnew]
  exact hfresh other hother

theorem UniqueOn.filter (h : UniqueOn key rows) (keep : α → Bool) :
    UniqueOn key (rows.filter keep) :=
  List.Pairwise.filter keep h

theorem UniqueOn.map (h : UniqueOn key rows) (change : α → α)
    (hkey : ∀ row ∈ rows, key (change row) = key row) : UniqueOn key (rows.map change) := by
  refine List.pairwise_map.mpr (List.Pairwise.imp_of_mem ?_ h)
  intro a b ha hb hab
  rwa [hkey a ha, hkey b hb]

theorem UniqueOn.find?_eq_some (h : UniqueOn key rows) {row : α} (hrow : row ∈ rows)
    {k : κ} (hkey : key row = some k) (select : α → Bool) (hselect : select row = true)
    (honly : ∀ other ∈ rows, select other = true → key other = some k) :
    rows.find? select = some row := by
  cases hfind : rows.find? select with
  | none => exact absurd hselect (List.find?_eq_none.mp hfind row hrow)
  | some other =>
      have hother := List.mem_of_find?_eq_some hfind
      have hk := honly other hother (List.find?_some hfind)
      rw [h.eq_of_mem hother hrow hk hkey]

-- The rows selected by the key of a present row are that row alone.
theorem UniqueOn.filter_eq_singleton (h : UniqueOn key rows) {row : α} (hrow : row ∈ rows)
    {k : κ} (hkey : key row = some k) (select : α → Bool) (hselect : select row = true)
    (honly : ∀ other ∈ rows, select other = true → key other = some k) :
    rows.filter select = [row] := by
  induction rows with
  | nil => simp at hrow
  | cons head tail ih =>
      have htail : UniqueOn key tail := (List.pairwise_cons.mp h).2
      have hhead := (List.pairwise_cons.mp h).1
      rcases List.mem_cons.mp hrow with rfl | hmem
      · have hnone : tail.filter select = [] := by
          refine List.filter_eq_nil_iff.mpr fun other hother hs => ?_
          have hk := honly other (List.mem_cons_of_mem _ hother) hs
          rcases hhead other hother with hn | hn
          · simp [hkey] at hn
          · exact hn (hkey.trans hk.symm)
        simp [hselect, hnone]
      · have hskip : select head = false := by
          cases hs : select head with
          | false => rfl
          | true =>
              have hk := honly head List.mem_cons_self hs
              rcases hhead row hmem with hn | hn
              · simp [hk] at hn
              · exact absurd (hk.trans hkey.symm) hn
        simp only [List.filter_cons, hskip]
        exact ih htail hmem fun other hother =>
          honly other (List.mem_cons_of_mem _ hother)

-- Replace the rows a condition selects, in place.
def rewrite (select : α → Bool) (change : α → α) (rows : List α) : List α :=
  rows.map fun row => if select row then change row else row

theorem mem_rewrite (select : α → Bool) (change : α → α) (rows : List α) (row : α) :
    row ∈ rewrite select change rows ↔
      (row ∈ rows ∧ select row = false) ∨ ∃ old ∈ rows, select old = true ∧ change old = row := by
  simp only [rewrite, List.mem_map]
  constructor
  · rintro ⟨old, hold, he⟩
    cases hs : select old with
    | true => exact Or.inr ⟨old, hold, hs, by simpa [hs] using he⟩
    | false =>
        have heq : old = row := by simpa [hs] using he
        exact Or.inl (heq ▸ ⟨hold, hs⟩)
  · rintro (⟨hmem, hs⟩ | ⟨old, hold, hs, rfl⟩)
    · exact ⟨row, hmem, by simp [hs]⟩
    · exact ⟨old, hold, by simp [hs]⟩

-- Rewriting rows that a filter drops, before and after, does not show in it.
theorem filter_rewrite (select : α → Bool) (change : α → α) (keep : α → Bool) (rows : List α)
    (hbefore : ∀ row ∈ rows, select row = true → keep row = false)
    (hafter : ∀ row ∈ rows, select row = true → keep (change row) = false) :
    (rewrite select change rows).filter keep = rows.filter keep := by
  induction rows with
  | nil => rfl
  | cons row rows ih =>
      have hrest := ih (fun r hr => hbefore r (List.mem_cons_of_mem _ hr))
        fun r hr => hafter r (List.mem_cons_of_mem _ hr)
      simp only [rewrite, List.map_cons, List.filter_cons] at hrest ⊢
      cases hs : select row with
      | false => simp [hrest]
      | true => simp [hbefore row List.mem_cons_self hs, hafter row List.mem_cons_self hs, hrest]

-- Rewriting rows into rows that a filter drops removes them from it.
theorem filter_rewrite_gone (select : α → Bool) (change : α → α) (keep : α → Bool) (rows : List α)
    (hafter : ∀ row, select row = true → keep (change row) = false) :
    (rewrite select change rows).filter keep = (rows.filter keep).filter fun row => !select row := by
  induction rows with
  | nil => rfl
  | cons row rows ih =>
      simp only [rewrite, List.map_cons, List.filter_cons] at ih ⊢
      cases hs : select row with
      | false => cases hk : keep row <;> simp [hs, hk, ih]
      | true => cases keep row <;> simp [hs, hafter row hs, ih]

theorem UniqueOn.rewrite (h : UniqueOn key rows) (select : α → Bool) (change : α → α)
    (hkey : ∀ row ∈ rows, select row = true → key (change row) = key row) :
    UniqueOn key (rewrite select change rows) := by
  apply h.map
  intro row hrow
  split
  · exact hkey row hrow (by assumption)
  · rfl

end Library.Keyed
