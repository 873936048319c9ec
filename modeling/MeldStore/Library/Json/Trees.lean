import Mathlib.Algebra.Order.BigOperators.Group.List
import Mathlib.Data.List.Sort
import MeldStore.Library.Json

namespace Library.Json

mutual

-- A predicate on the strings and keys of a tree and one on its numbers.
def Tree.all (str : Str → Bool) (num : List Char → Bool) : Tree → Bool
  | .num lexeme => num lexeme
  | .str s => str s
  | .arr items => allItems str num items
  | .obj members => allMembers str num members
  | _ => true

def allItems (str : Str → Bool) (num : List Char → Bool) : List Tree → Bool
  | [] => true
  | item :: items => item.all str num && allItems str num items

def allMembers (str : Str → Bool) (num : List Char → Bool) : List (Str × Tree) → Bool
  | [] => true
  | (key, item) :: members => str key && item.all str num && allMembers str num members

end

mutual

def Tree.map (str : Str → Str) (num : List Char → List Char) : Tree → Tree
  | .num lexeme => .num (num lexeme)
  | .str s => .str (str s)
  | .arr items => .arr (mapItems str num items)
  | .obj members => .obj (mapMembers str num members)
  | tree => tree

def mapItems (str : Str → Str) (num : List Char → List Char) : List Tree → List Tree
  | [] => []
  | item :: items => item.map str num :: mapItems str num items

def mapMembers (str : Str → Str) (num : List Char → List Char) : List (Str × Tree) → List (Str × Tree)
  | [] => []
  | (key, item) :: members => (str key, item.map str num) :: mapMembers str num members

end

mutual

-- No object has a key twice.
def Tree.distinct : Tree → Bool
  | .arr items => distinctItems items
  | .obj members => (members.map Prod.fst).Nodup && distinctMembers members
  | _ => true

def distinctItems : List Tree → Bool
  | [] => true
  | item :: items => item.distinct && distinctItems items

def distinctMembers : List (Str × Tree) → Bool
  | [] => true
  | (_, item) :: members => item.distinct && distinctMembers members

end

theorem size_mem_items {item : Tree} {items : List Tree} (h : item ∈ items) : size item < sizeItems items := by
  induction items with
  | nil => cases h
  | cons head items ih =>
      rw [sizeItems]
      rcases List.mem_cons.mp h with rfl | h
      · omega
      · have := ih h
        omega

theorem size_mem_members {member : Str × Tree} {members : List (Str × Tree)} (h : member ∈ members) :
    size member.2 < sizeMembers members := by
  induction members with
  | nil => cases h
  | cons head members ih =>
      rw [sizeMembers]
      rcases List.mem_cons.mp h with rfl | h
      · omega
      · have := ih h
        omega

theorem Tree.induction {motive : Tree → Prop} (null : motive .null) (bool : ∀ b, motive (.bool b))
    (num : ∀ lexeme, motive (.num lexeme)) (str : ∀ s, motive (.str s))
    (arr : ∀ items : List Tree, (∀ item ∈ items, motive item) → motive (.arr items))
    (obj : ∀ members : List (Str × Tree), (∀ member ∈ members, motive member.2) → motive (.obj members))
    (tree : Tree) : motive tree := by
  induction hsize : size tree using Nat.strong_induction_on generalizing tree with
  | _ n ih =>
      subst hsize
      match tree with
      | .null => exact null
      | .bool b => exact bool b
      | .num lexeme => exact num lexeme
      | .str s => exact str s
      | .arr items =>
          refine arr items fun item hitem => ih _ ?_ item rfl
          have := size_mem_items hitem
          rw [size]
          omega
      | .obj members =>
          refine obj members fun member hmember => ih _ ?_ member.2 rfl
          have := size_mem_members hmember
          rw [size]
          omega

section

variable {str : Str → Bool} {num : List Char → Bool}

theorem allItems_iff {items : List Tree} :
    allItems str num items = true ↔ ∀ item ∈ items, item.all str num = true := by
  induction items with
  | nil => simp [allItems]
  | cons item items ih => simp [allItems, ih]

theorem allMembers_iff {members : List (Str × Tree)} :
    allMembers str num members = true ↔
      ∀ member ∈ members, str member.1 = true ∧ member.2.all str num = true := by
  induction members with
  | nil => simp [allMembers]
  | cons member members ih => simp [allMembers, ih]

end

theorem distinctItems_iff {items : List Tree} :
    distinctItems items = true ↔ ∀ item ∈ items, item.distinct = true := by
  induction items with
  | nil => simp [distinctItems]
  | cons item items ih => simp [distinctItems, ih]

theorem distinctMembers_iff {members : List (Str × Tree)} :
    distinctMembers members = true ↔ ∀ member ∈ members, member.2.distinct = true := by
  induction members with
  | nil => simp [distinctMembers]
  | cons member members ih => simp [distinctMembers, ih]

theorem mapItems_eq (str : Str → Str) (num : List Char → List Char) (items : List Tree) :
    mapItems str num items = items.map fun item => item.map str num := by
  induction items with
  | nil => rfl
  | cons item items ih => rw [mapItems, ih, List.map_cons]

theorem mapMembers_eq (str : Str → Str) (num : List Char → List Char) (members : List (Str × Tree)) :
    mapMembers str num members = members.map fun member => (str member.1, member.2.map str num) := by
  induction members with
  | nil => rfl
  | cons member members ih => rw [mapMembers, ih, List.map_cons]

theorem sortItems_eq (items : List Tree) : sortItems items = items.map sortKeys := by
  induction items with
  | nil => rfl
  | cons item items ih => rw [sortItems, ih, List.map_cons]

theorem sortMembers_eq (members : List (Str × Tree)) :
    sortMembers members = members.map fun member => (member.1, sortKeys member.2) := by
  induction members with
  | nil => rfl
  | cons member members ih => rw [sortMembers, ih, List.map_cons]

theorem Tree.map_eq_self {str : Str → Str} {num : List Char → List Char} {tree : Tree}
    (h : tree.all (fun s => str s == s) (fun lexeme => num lexeme == lexeme) = true) :
    tree.map str num = tree := by
  induction tree using Tree.induction with
  | null => rfl
  | bool b => rfl
  | num lexeme => exact congrArg Tree.num (beq_iff_eq.mp h)
  | str s => exact congrArg Tree.str (beq_iff_eq.mp h)
  | arr items ih =>
      have hitems := allItems_iff.mp h
      rw [Tree.map, mapItems_eq, List.map_congr_left fun item hitem => ih item hitem (hitems item hitem),
        List.map_id']
  | obj members ih =>
      have hmembers := allMembers_iff.mp h
      have heach : ∀ member ∈ members, (str member.1, member.2.map str num) = member := fun member hmember =>
        Prod.ext (beq_iff_eq.mp (hmembers member hmember).1) (ih member hmember (hmembers member hmember).2)
      rw [Tree.map, mapMembers_eq, List.map_congr_left heach, List.map_id']

theorem Tree.all_map {str : Str → Bool} {num : List Char → Bool} {f : Str → Str} {g : List Char → List Char}
    (tree : Tree) :
    (tree.map f g).all str num = tree.all (fun s => str (f s)) (fun lexeme => num (g lexeme)) := by
  induction tree using Tree.induction with
  | null => rfl
  | bool b => rfl
  | num lexeme => rfl
  | str s => rfl
  | arr items ih =>
      rw [Tree.map, mapItems_eq, Bool.eq_iff_iff, Tree.all, Tree.all, allItems_iff, allItems_iff]
      simp only [List.forall_mem_map]
      exact forall₂_congr fun item hitem => by rw [ih item hitem]
  | obj members ih =>
      rw [Tree.map, mapMembers_eq, Bool.eq_iff_iff, Tree.all, Tree.all, allMembers_iff, allMembers_iff]
      simp only [List.forall_mem_map]
      exact forall₂_congr fun member hmember => by rw [ih member hmember]

theorem Tree.all_imp {str str' : Str → Bool} {num num' : List Char → Bool} {tree : Tree}
    (hstr : ∀ s, str s = true → str' s = true) (hnum : ∀ lexeme, num lexeme = true → num' lexeme = true)
    (h : tree.all str num = true) : tree.all str' num' = true := by
  induction tree using Tree.induction with
  | null => rfl
  | bool b => rfl
  | num lexeme => exact hnum _ h
  | str s => exact hstr _ h
  | arr items ih =>
      have hitems := allItems_iff.mp h
      exact allItems_iff.mpr fun item hitem => ih item hitem (hitems item hitem)
  | obj members ih =>
      have hmembers := allMembers_iff.mp h
      exact allMembers_iff.mpr fun member hmember =>
        ⟨hstr _ (hmembers member hmember).1, ih member hmember (hmembers member hmember).2⟩

theorem Tree.all_and {str str' : Str → Bool} {num num' : List Char → Bool} {tree : Tree}
    (h : tree.all str num = true) (h' : tree.all str' num' = true) :
    tree.all (fun s => str s && str' s) (fun lexeme => num lexeme && num' lexeme) = true := by
  induction tree using Tree.induction with
  | null => rfl
  | bool b => rfl
  | num lexeme => exact (Bool.and_eq_true _ _).mpr ⟨h, h'⟩
  | str s => exact (Bool.and_eq_true _ _).mpr ⟨h, h'⟩
  | arr items ih =>
      exact allItems_iff.mpr fun item hitem => ih item hitem (allItems_iff.mp h item hitem)
        (allItems_iff.mp h' item hitem)
  | obj members ih =>
      refine allMembers_iff.mpr fun member hmember => ?_
      obtain ⟨hkey, hitem⟩ := allMembers_iff.mp h member hmember
      obtain ⟨hkey', hitem'⟩ := allMembers_iff.mp h' member hmember
      exact ⟨(Bool.and_eq_true _ _).mpr ⟨hkey, hkey'⟩, ih member hmember hitem hitem'⟩

-- Sorted keys

def keyLe (a b : Str × Tree) : Prop := a.1 ≤ b.1

instance : DecidableRel keyLe := fun a b => inferInstanceAs (Decidable (a.1 ≤ b.1))

instance : Std.Total keyLe := ⟨fun a b => Std.le_total (a := a.1) (b := b.1)⟩

instance : IsTrans (Str × Tree) keyLe := ⟨fun _ _ _ h h' => Std.le_trans (α := List ℕ) h h'⟩

theorem sortKeys_obj (members : List (Str × Tree)) :
    sortKeys (.obj members) =
      .obj ((members.map fun member => (member.1, sortKeys member.2)).insertionSort keyLe) := by
  rw [sortKeys, sortMembers_eq]
  rfl

theorem mem_sortKeys {members : List (Str × Tree)} {member : Str × Tree} :
    member ∈ (members.map fun member => (member.1, sortKeys member.2)).insertionSort keyLe ↔
      ∃ old ∈ members, (old.1, sortKeys old.2) = member := by
  rw [List.mem_insertionSort, List.mem_map]

theorem Tree.all_sortKeys {str : Str → Bool} {num : List Char → Bool} {tree : Tree}
    (h : tree.all str num = true) :
    (sortKeys tree).all str num = true := by
  induction tree using Tree.induction with
  | null => exact h
  | bool b => exact h
  | num lexeme => exact h
  | str s => exact h
  | arr items ih =>
      have hitems := allItems_iff.mp h
      rw [sortKeys, sortItems_eq]
      refine allItems_iff.mpr fun item hitem => ?_
      obtain ⟨old, hold, rfl⟩ := List.mem_map.mp hitem
      exact ih old hold (hitems old hold)
  | obj members ih =>
      have hmembers := allMembers_iff.mp h
      rw [sortKeys_obj]
      refine allMembers_iff.mpr fun member hmember => ?_
      obtain ⟨old, hold, rfl⟩ := mem_sortKeys.mp hmember
      exact ⟨(hmembers old hold).1, ih old hold (hmembers old hold).2⟩

theorem Tree.distinct_sortKeys {tree : Tree} (h : tree.distinct = true) : (sortKeys tree).distinct = true := by
  induction tree using Tree.induction with
  | null => exact h
  | bool b => exact h
  | num lexeme => exact h
  | str s => exact h
  | arr items ih =>
      have hitems := distinctItems_iff.mp h
      rw [sortKeys, sortItems_eq]
      refine distinctItems_iff.mpr fun item hitem => ?_
      obtain ⟨old, hold, rfl⟩ := List.mem_map.mp hitem
      exact ih old hold (hitems old hold)
  | obj members ih =>
      obtain ⟨hkeys, hmembers⟩ := (Bool.and_eq_true _ _).mp h
      have hmembers := distinctMembers_iff.mp hmembers
      have hperm :=
        (List.perm_insertionSort keyLe (members.map fun member => (member.1, sortKeys member.2))).map
        Prod.fst
      rw [List.map_map] at hperm
      rw [sortKeys_obj]
      refine (Bool.and_eq_true _ _).mpr ⟨decide_eq_true (hperm.nodup_iff.mpr (of_decide_eq_true hkeys)), ?_⟩
      refine distinctMembers_iff.mpr fun member hmember => ?_
      obtain ⟨old, hold, rfl⟩ := mem_sortKeys.mp hmember
      exact ih old hold (hmembers old hold)

theorem sortKeys_sortKeys (tree : Tree) : sortKeys (sortKeys tree) = sortKeys tree := by
  induction tree using Tree.induction with
  | null => rfl
  | bool b => rfl
  | num lexeme => rfl
  | str s => rfl
  | arr items ih =>
      simp only [sortKeys, sortItems_eq, List.map_map, Tree.arr.injEq]
      exact List.map_congr_left ih
  | obj members ih =>
      rw [sortKeys_obj, sortKeys_obj]
      have hsorted : ∀ member ∈ (members.map fun member => (member.1, sortKeys member.2)).insertionSort keyLe,
          (member.1, sortKeys member.2) = member := by
        intro member hmember
        obtain ⟨old, hold, rfl⟩ := mem_sortKeys.mp hmember
        rw [ih old hold]
      rw [List.map_congr_left hsorted, List.map_id', (List.pairwise_insertionSort keyLe _).insertionSort_eq]

-- Python's ==

theorem lookup_of_mem {members : List (Str × Tree)} {member : Str × Tree} (h : (members.map Prod.fst).Nodup)
    (hmem : member ∈ members) : lookup members member.1 = some member.2 := by
  rw [lookup]
  cases hfound : members.reverse.find? fun other => other.1 = member.1 with
  | none =>
      have hnone := List.find?_eq_none.mp hfound member (List.mem_reverse.mpr hmem)
      simp at hnone
  | some other =>
      have hkey := List.find?_some hfound
      rw [decide_eq_true_eq] at hkey
      have hother := List.mem_reverse.mp (List.mem_of_find?_eq_some hfound)
      rw [List.inj_on_of_nodup_map h hother hmem hkey]
      rfl

theorem mem_of_lookup {members : List (Str × Tree)} {key : Str} {item : Tree}
    (h : lookup members key = some item) :
    (key, item) ∈ members := by
  rw [lookup, Option.map_eq_some_iff] at h
  obtain ⟨member, hfound, rfl⟩ := h
  have hkey := List.find?_some hfound
  rw [decide_eq_true_eq] at hkey
  subst hkey
  exact List.mem_reverse.mp (List.mem_of_find?_eq_some hfound)

theorem coveredBy_of_equal (bound : ℕ) {ms ns : List (Str × Tree)} {keys : List Str}
    (h : ∀ key ∈ keys, ∃ x y, lookup ms key = some x ∧ lookup ns key = some y ∧
      ∀ fuel, bound ≤ fuel → equal fuel x y = true) (fuel : ℕ) (hfuel : bound + keys.length ≤ fuel) :
    coveredBy fuel ms ns keys = true := by
  induction keys generalizing fuel with
  | nil => cases fuel <;> rfl
  | cons key keys ih =>
      rw [List.length_cons] at hfuel
      obtain ⟨fuel, rfl⟩ : ∃ n, fuel = n + 1 := ⟨fuel - 1, by omega⟩
      obtain ⟨x, y, hx, hy, hequal⟩ := h key List.mem_cons_self
      have hrest := ih (fun other hother => h other (List.mem_cons_of_mem _ hother)) fuel (by omega)
      simp only [coveredBy, hx, hy, hequal fuel (by omega), hrest, Bool.and_self]

theorem equal_obj (bound : ℕ) {ms ns : List (Str × Tree)}
    (h : ∀ key, key ∈ ms.map Prod.fst ∨ key ∈ ns.map Prod.fst → ∃ x y, lookup ms key = some x ∧
      lookup ns key = some y ∧ ∀ fuel, bound ≤ fuel → equal fuel x y = true ∧ equal fuel y x = true)
    {fuel : ℕ} (hms : bound + ms.length ≤ fuel) (hns : bound + ns.length ≤ fuel) :
    equal (fuel + 1) (.obj ms) (.obj ns) = true ∧ equal (fuel + 1) (.obj ns) (.obj ms) = true := by
  have hleft : coveredBy fuel ms ns (ms.map Prod.fst) = true := by
    refine coveredBy_of_equal bound (fun key hkey => ?_) fuel (by rwa [List.length_map])
    obtain ⟨x, y, hx, hy, hequal⟩ := h key (Or.inl hkey)
    exact ⟨x, y, hx, hy, fun fuel hfuel => (hequal fuel hfuel).1⟩
  have hright : coveredBy fuel ns ms (ns.map Prod.fst) = true := by
    refine coveredBy_of_equal bound (fun key hkey => ?_) fuel (by rwa [List.length_map])
    obtain ⟨x, y, hx, hy, hequal⟩ := h key (Or.inr hkey)
    exact ⟨y, x, hy, hx, fun fuel hfuel => (hequal fuel hfuel).2⟩
  exact ⟨(Bool.and_eq_true _ _).mpr ⟨hleft, hright⟩, (Bool.and_eq_true _ _).mpr ⟨hright, hleft⟩⟩

theorem equal_of_coveredBy {ms ns : List (Str × Tree)} {keys : List Str} {fuel : ℕ}
    (h : coveredBy fuel ms ns keys = true) : ∀ key ∈ keys, ∃ x y, ∃ less < fuel, lookup ms key = some x ∧
      lookup ns key = some y ∧ equal less x y = true := by
  induction keys generalizing fuel with
  | nil => simp
  | cons key keys ih =>
      cases fuel with
      | zero => cases h
      | succ fuel =>
          rw [coveredBy, Bool.and_eq_true] at h
          obtain ⟨hkey, hkeys⟩ := h
          intro other hother
          rcases List.mem_cons.mp hother with rfl | hother
          · split at hkey
            · exact ⟨_, _, fuel, by omega, by assumption, by assumption, hkey⟩
            · cases hkey
          · obtain ⟨x, y, less, hless, hx, hy, hequal⟩ := ih hkeys other hother
            exact ⟨x, y, less, by omega, hx, hy, hequal⟩

theorem equal_of_equalItems {xs ys : List Tree} {fuel : ℕ} (h : equalItems fuel xs ys = true) :
    List.Forall₂ (fun x y => ∃ less < fuel, equal less x y = true) xs ys := by
  induction xs generalizing fuel ys with
  | nil =>
      cases ys with
      | nil => exact .nil
      | cons y ys => cases fuel <;> cases h
  | cons x xs ih =>
      cases ys with
      | nil => cases fuel <;> cases h
      | cons y ys =>
          cases fuel with
          | zero => cases h
          | succ fuel =>
              rw [equalItems, Bool.and_eq_true] at h
              refine .cons ⟨fuel, by omega, h.1⟩ ((ih h.2).imp ?_)
              rintro x y ⟨less, hless, hequal⟩
              exact ⟨less, by omega, hequal⟩

-- A number that equals itself.
def isNotNan (lexeme : List Char) : Bool := Number.ofLexeme lexeme != .nan

theorem sizeItems_eq (items : List Tree) : sizeItems items = (items.map size).sum + items.length := by
  induction items with
  | nil => rfl
  | cons item items ih =>
      rw [sizeItems, ih, List.map_cons, List.sum_cons, List.length_cons]
      omega

theorem sizeMembers_eq (members : List (Str × Tree)) :
    sizeMembers members = (members.map fun member => size member.2).sum + members.length := by
  induction members with
  | nil => rfl
  | cons member members ih =>
      rw [sizeMembers, ih, List.map_cons, List.sum_cons, List.length_cons]
      omega

theorem exists_succ {tree : Tree} {fuel : ℕ} (h : size tree ≤ fuel) : ∃ n, fuel = n + 1 := by
  refine ⟨fuel - 1, ?_⟩
  cases tree <;> simp only [size] at h <;> omega

-- One half of the next theorem for two dicts: `ns` has no key twice.
theorem equal_all_members {str : Str → Bool} {fuel : ℕ} {ms ns : List (Str × Tree)}
    (h : coveredBy fuel ns ms (ns.map Prod.fst) = true)
    (ih : ∀ less < fuel, ∀ x y, equal less x y = true → y.all str (fun _ => true) = true → x.distinct = true →
      x.all str (fun _ => true) = true)
    (hall : allMembers str (fun _ => true) ms = true) (hd : (Tree.obj ns).distinct = true) :
    allMembers str (fun _ => true) ns = true := by
  obtain ⟨hkeys, hmembers⟩ := (Bool.and_eq_true _ _).mp hd
  refine allMembers_iff.mpr fun member hmember => ?_
  obtain ⟨x, y, less, hless, hx, hy, hequal⟩ := equal_of_coveredBy h member.1 (List.mem_map_of_mem hmember)
  rw [lookup_of_mem (of_decide_eq_true hkeys) hmember] at hx
  obtain rfl := Option.some.inj hx
  obtain ⟨hkey, hitem⟩ := allMembers_iff.mp hall _ (mem_of_lookup hy)
  exact ⟨hkey, ih less hless _ _ hequal hitem (distinctMembers_iff.mp hmembers member hmember)⟩

theorem equal_all_items {str : Str → Bool} {r : Tree → Tree → Prop} {xs ys : List Tree}
    (h : List.Forall₂ r xs ys)
    (ih : ∀ x y, r x y → x.all str (fun _ => true) = true → y.distinct = true →
      y.all str (fun _ => true) = true)
    (hall : allItems str (fun _ => true) xs = true) (hd : distinctItems ys = true) :
    allItems str (fun _ => true) ys = true := by
  induction h with
  | nil => rfl
  | cons hequal _ hrest =>
      obtain ⟨hx, hxs⟩ := (Bool.and_eq_true _ _).mp hall
      obtain ⟨hy, hys⟩ := (Bool.and_eq_true _ _).mp hd
      exact (Bool.and_eq_true _ _).mpr ⟨ih _ _ hequal hx hy, hrest hxs hys⟩

-- Equal values have the same strings, when the dict asked about has no key twice.
theorem equal_all {str : Str → Bool} {fuel : ℕ} {a b : Tree} (h : equal fuel a b = true) :
    (a.all str (fun _ => true) = true → b.distinct = true → b.all str (fun _ => true) = true) ∧
      (b.all str (fun _ => true) = true → a.distinct = true → a.all str (fun _ => true) = true) := by
  induction fuel using Nat.strong_induction_on generalizing a b with
  | _ fuel ih =>
      cases fuel with
      | zero => cases h
      | succ fuel =>
          cases a <;> cases b <;> first | exact ⟨fun _ _ => rfl, fun _ _ => rfl⟩ | cases h | skip
          case str.str s t =>
            obtain rfl : s = t := of_decide_eq_true h
            exact ⟨fun hs _ => hs, fun hs _ => hs⟩
          case arr.arr xs ys =>
            have hequal := equal_of_equalItems (show equalItems fuel xs ys = true from h)
            constructor
            · exact equal_all_items hequal fun x y ⟨less, hless, h⟩ => (ih less (by omega) h).1
            · exact equal_all_items hequal.flip fun x y ⟨less, hless, h⟩ => (ih less (by omega) h).2
          case obj.obj ms ns =>
            obtain ⟨hleft, hright⟩ := (Bool.and_eq_true _ _).mp h
            constructor
            · exact equal_all_members hright fun less hless x y hequal => (ih less (by omega) hequal).2
            · exact equal_all_members hleft fun less hless x y hequal => (ih less (by omega) hequal).2

end Library.Json
