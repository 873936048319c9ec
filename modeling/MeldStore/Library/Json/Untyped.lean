import MeldStore.Library.Json.Decode

namespace Library.Json

-- Python's == does not see the type of a number: 1, 1.0 and True are equal.

def Number.value : Number → Option ℚ
  | .int i => some i
  | .double q => some q
  | _ => none

-- The int that a number equals; without one, its repr as a float.
def bareLexeme (q : ℚ) : List Char :=
  if q.den = 1 then intLexeme q.num else (if q < 0 then ['-'] else []) ++ floatRepr |q|

def untypedNumber (n : Number) (other : Tree) : Tree :=
  match n.value with
  | some q => .num (bareLexeme q)
  | none => other

mutual

def untyped : Tree → Tree
  | .bool b => untypedNumber (.int (if b then 1 else 0)) (.bool b)
  | .num lexeme => untypedNumber (Number.ofLexeme lexeme) (.num lexeme)
  | .arr items => .arr (untypedItems items)
  | .obj members => .obj (untypedMembers members)
  | tree => tree

def untypedItems : List Tree → List Tree
  | [] => []
  | item :: items => untyped item :: untypedItems items

def untypedMembers : List (Str × Tree) → List (Str × Tree)
  | [] => []
  | (key, item) :: members => (key, untyped item) :: untypedMembers members

end

theorem untypedItems_eq (items : List Tree) : untypedItems items = items.map untyped := by
  induction items with
  | nil => rfl
  | cons item items ih => rw [untypedItems, ih, List.map_cons]

theorem untypedMembers_eq (members : List (Str × Tree)) :
    untypedMembers members = members.map fun member => (member.1, untyped member.2) := by
  induction members with
  | nil => rfl
  | cons member members ih => rw [untypedMembers, ih, List.map_cons]

theorem untyped_of_numeric {tree : Tree} {n : Number} {q : ℚ} (h : numeric tree = some n)
    (hq : n.value = some q) :
    untyped tree = .num (bareLexeme q) := by
  cases tree with
  | bool b =>
      obtain rfl := Option.some.inj h
      rw [untyped, untypedNumber, hq]
  | num lexeme =>
      obtain rfl := Option.some.inj h
      rw [untyped, untypedNumber, hq]
  | _ => cases h

theorem numeric_of_untyped {tree : Tree} {lexeme : List Char} (h : untyped tree = .num lexeme) :
    ∃ n, numeric tree = some n := by
  cases tree with
  | bool b => exact ⟨_, rfl⟩
  | num lexeme => exact ⟨_, rfl⟩
  | _ => simp [untyped] at h

theorem Number.equal_iff {m n : Number} {p q : ℚ} (hm : m.value = some p) (hn : n.value = some q) :
    m.equal n = true ↔ p = q := by
  cases m <;> cases n <;> simp only [Number.value, Option.some.injEq, reduceCtorEq] at hm hn <;> subst hm hn <;>
    simp [Number.equal]

-- Numbers that Python writes as they stand

def isWritten (lexeme : List Char) : Bool := isLexeme lexeme && written lexeme == lexeme

theorem ofLexeme_intLexeme (i : ℤ) : Number.ofLexeme (intLexeme i) = .int i := by
  cases i with
  | ofNat n => exact ofLexeme_toDigits n
  | negSucc n =>
      have hall : (Nat.toDigits 10 (n + 1)).all isDigit = true :=
        List.all_eq_true.mpr fun c hc => isDigit_of_mem_toDigits hc
      obtain ⟨d, ds, hds⟩ := List.exists_cons_of_ne_nil (Nat.toDigits_ne_nil (n := n + 1) (b := 10))
      have hd := isDigit_of_mem_toDigits (n := n + 1) (hds ▸ List.mem_cons_self)
      rw [intLexeme, hds, ofLexeme_minus hd, ← hds, magnitude, if_pos hall, natOf_toDigits]
      rfl

theorem nearestDouble_nonneg {q d : ℚ} (h : nearestDouble q = some d) : 0 ≤ d := by
  have hscale : ∀ e, 0 ≤ scale e := by
    intro e
    unfold scale
    split <;> positivity
  simp only [nearestDouble, Option.ite_none_right_eq_some, Option.some.injEq] at h
  obtain ⟨_, rfl⟩ := h
  exact mul_nonneg (Nat.cast_nonneg _) (hscale _)

theorem magnitude_sign {negative : Bool} {text : List Char} {q : ℚ} (h : magnitude negative text = .double q) :
    0 ≤ if negative then -q else q := by
  simp only [magnitude] at h
  split at h
  · cases h
  · split at h
    · cases h
      simp
    · split at h
      · rename_i d hd
        have hpos := nearestDouble_nonneg hd
        cases h
        cases negative <;> simp [hpos]
      · cases h

theorem negative_of_head {lexeme : List Char} (h : isLexeme lexeme = true) {q : ℚ} (hq : q ≠ 0)
    (hread : Number.ofLexeme lexeme = .double q) : lexeme.head? = some '-' ↔ q < 0 := by
  rcases number_head (beq_iff_eq.mp h) with ⟨d, ds, rfl, hd⟩ | ⟨d, ds, rfl, hd⟩
  · rw [ofLexeme_digit hd] at hread
    have hsign : 0 ≤ q := magnitude_sign hread
    have hne : d ≠ '-' := ne_of_isDigit hd '-' (by decide)
    simp [hne, hsign]
  · rw [ofLexeme_minus hd] at hread
    have hsign : 0 ≤ -q := magnitude_sign hread
    have hneg : q < 0 := lt_of_le_of_ne (by linarith) hq
    simp [hneg]

-- A written number has a value, and its bare lexeme the same one.
theorem value_of_isWritten {lexeme : List Char} (h : isWritten lexeme = true) :
    ∃ q, (Number.ofLexeme lexeme).value = some q ∧ (Number.ofLexeme (bareLexeme q)).value = some q := by
  obtain ⟨hlexeme, hwritten⟩ := (Bool.and_eq_true _ _).mp h
  have hwritten : written lexeme = lexeme := beq_iff_eq.mp hwritten
  have hint : ∀ q : ℚ, q.den = 1 → (Number.ofLexeme (bareLexeme q)).value = some q := by
    intro q hden
    rw [bareLexeme, if_pos hden, ofLexeme_intLexeme, Number.value, Rat.coe_int_num_of_den_eq_one hden]
  cases hread : Number.ofLexeme lexeme with
  | int i => exact ⟨i, rfl, hint i (Rat.den_intCast i)⟩
  | double q =>
      refine ⟨q, rfl, ?_⟩
      by_cases hden : q.den = 1
      · exact hint q hden
      · have hq : q ≠ 0 := fun hzero => hden (hzero ▸ rfl)
        have hsign := negative_of_head hlexeme hq hread
        have hbare : bareLexeme q = lexeme := by
          rw [bareLexeme, if_neg hden, ← hwritten, written, hread]
          simp only [if_neg hq, hsign]
        rw [hbare, hread, Number.value]
  | infinity negative =>
      have hall : ∀ word ∈ ["Infinity".toList, "-Infinity".toList], isLexeme word = false := by decide
      have hmem : lexeme ∈ ["Infinity".toList, "-Infinity".toList] := by
        rw [← hwritten, written, hread]
        cases negative <;> simp
      rw [hall lexeme hmem] at hlexeme
      cases hlexeme
  | nan =>
      have hnan := isNotNan_of_isLexeme hlexeme
      rw [isNotNan, hread] at hnan
      cases hnan

def Tree.isPlain (tree : Tree) : Bool := tree.distinct && tree.all (fun _ => true) isWritten

theorem value_of_numeric {tree : Tree} (h : tree.isPlain = true) {n : Number} (hn : numeric tree = some n) :
    ∃ q, n.value = some q ∧ (Number.ofLexeme (bareLexeme q)).value = some q := by
  cases tree with
  | bool b =>
      obtain rfl := Option.some.inj hn
      refine ⟨((if b then 1 else 0 : ℤ) : ℚ), rfl, ?_⟩
      rw [bareLexeme, if_pos (Rat.den_intCast _), ofLexeme_intLexeme, Number.value, Rat.num_intCast]
  | num lexeme =>
      obtain rfl := Option.some.inj hn
      exact value_of_isWritten ((Bool.and_eq_true _ _).mp h).2
  | _ => cases hn

theorem equal_numeric {a b : Tree} (ha : a.isPlain = true) (hb : b.isPlain = true) {m n : Number}
    (hm : numeric a = some m) (hn : numeric b = some n) : m.equal n = true ↔ untyped a = untyped b := by
  obtain ⟨p, hp, hpback⟩ := value_of_numeric ha hm
  obtain ⟨q, hq, hqback⟩ := value_of_numeric hb hn
  rw [Number.equal_iff hp hq, untyped_of_numeric hm hp, untyped_of_numeric hn hq, Tree.num.injEq]
  constructor
  · rintro rfl
    rfl
  · intro hbare
    rw [hbare, hqback] at hpback
    exact (Option.some.inj hpback).symm

-- Trees

theorem untyped_sortKeys_obj (members : List (Str × Tree)) :
    untyped (sortKeys (.obj members)) =
      .obj ((members.map fun member => (member.1, untyped (sortKeys member.2))).insertionSort keyLe) := by
  have hkeys : ∀ a b : Str × Tree, keyLe a b ↔ keyLe (a.1, untyped a.2) (b.1, untyped b.2) := fun _ _ => Iff.rfl
  rw [sortKeys_obj, untyped, untypedMembers_eq, List.map_insertionSort keyLe keyLe _ _ fun a _ b _ => hkeys a b,
    List.map_map]
  rfl

theorem mem_untyped {members : List (Str × Tree)} {member : Str × Tree} :
    member ∈ (members.map fun member => (member.1, untyped (sortKeys member.2))).insertionSort keyLe ↔
      ∃ old ∈ members, (old.1, untyped (sortKeys old.2)) = member := by
  rw [List.mem_insertionSort, List.mem_map]

-- Two dicts with the same members have them in the same order once their keys are sorted.
theorem insertionSort_congr {ms ns : List (Str × Tree)} (hms : (ms.map Prod.fst).Nodup)
    (hns : (ns.map Prod.fst).Nodup)
    (h : ∀ member, member ∈ ms ↔ member ∈ ns) : ms.insertionSort keyLe = ns.insertionSort keyLe := by
  have hperm : List.Perm (ms.insertionSort keyLe) (ns.insertionSort keyLe) := by
    refine (List.perm_ext_iff_of_nodup ?_ ?_).mpr fun member => ?_
    · exact (List.perm_insertionSort keyLe ms).nodup_iff.mpr (List.Nodup.of_map _ hms)
    · exact (List.perm_insertionSort keyLe ns).nodup_iff.mpr (List.Nodup.of_map _ hns)
    · rw [List.mem_insertionSort, List.mem_insertionSort, h member]
  refine hperm.eq_of_pairwise (fun a b ha hb hab hba => ?_) (List.pairwise_insertionSort keyLe ms)
    (List.pairwise_insertionSort keyLe ns)
  have hkey : a.1 = b.1 := Std.le_antisymm hab hba
  have hb : b ∈ ms := (h b).mpr ((List.mem_insertionSort keyLe).mp hb)
  exact List.inj_on_of_nodup_map hms ((List.mem_insertionSort keyLe).mp ha) hb hkey

theorem isPlain_item {items : List Tree} (h : (Tree.arr items).isPlain = true) {item : Tree}
    (hitem : item ∈ items) :
    item.isPlain = true := by
  obtain ⟨hd, hn⟩ := (Bool.and_eq_true _ _).mp h
  exact (Bool.and_eq_true _ _).mpr ⟨distinctItems_iff.mp hd item hitem, allItems_iff.mp hn item hitem⟩

theorem isPlain_member {members : List (Str × Tree)} (h : (Tree.obj members).isPlain = true) :
    (members.map Prod.fst).Nodup ∧ ∀ member ∈ members, member.2.isPlain = true := by
  obtain ⟨hd, hn⟩ := (Bool.and_eq_true _ _).mp h
  obtain ⟨hkeys, hmembers⟩ := (Bool.and_eq_true _ _).mp hd
  refine ⟨of_decide_eq_true hkeys, fun member hmember => (Bool.and_eq_true _ _).mpr ⟨?_, ?_⟩⟩
  · exact distinctMembers_iff.mp hmembers member hmember
  · exact (allMembers_iff.mp hn member hmember).2

-- The members of `ms` that an equal dict has too.
theorem untyped_of_coveredBy {ms ns : List (Str × Tree)} {fuel : ℕ} (hms : (Tree.obj ms).isPlain = true)
    (hns : (Tree.obj ns).isPlain = true) (h : coveredBy fuel ms ns (ms.map Prod.fst) = true)
    (ih : ∀ less < fuel, ∀ x y : Tree, x.isPlain = true → y.isPlain = true → equal less x y = true →
      untyped (sortKeys x) = untyped (sortKeys y)) :
    ∀ member ∈ ms.map (fun member => (member.1, untyped (sortKeys member.2))),
      member ∈ ns.map fun member => (member.1, untyped (sortKeys member.2)) := by
  intro member hmember
  obtain ⟨old, hold, rfl⟩ := List.mem_map.mp hmember
  obtain ⟨x, y, less, hless, hx, hy, hequal⟩ := equal_of_coveredBy h old.1 (List.mem_map_of_mem hold)
  rw [lookup_of_mem (isPlain_member hms).1 hold] at hx
  obtain rfl := Option.some.inj hx
  have hy := mem_of_lookup hy
  rw [ih less hless _ _ ((isPlain_member hms).2 old hold) ((isPlain_member hns).2 _ hy) hequal]
  exact List.mem_map_of_mem (f := fun member : Str × Tree => (member.1, untyped (sortKeys member.2))) hy

theorem untyped_keys (members : List (Str × Tree)) :
    (members.map fun member => (member.1, untyped (sortKeys member.2))).map Prod.fst =
    members.map Prod.fst := by
  rw [List.map_map]
  rfl

theorem numeric_sortKeys (tree : Tree) : numeric (sortKeys tree) = numeric tree := by
  cases tree <;> rfl

theorem untyped_sortKeys_numeric {tree : Tree} {n : Number} (h : numeric tree = some n) :
    untyped (sortKeys tree) = untyped tree := by
  cases tree <;> first | rfl | cases h

theorem equal_of_numeric {fuel : ℕ} {a b : Tree} {m n : Number} (hm : numeric a = some m)
    (hn : numeric b = some n) :
    equal (fuel + 1) a b = m.equal n := by
  unfold equal
  rw [hm, hn]

theorem map_eq_of_forall₂ {xs ys : List Tree} (hxs : ∀ x ∈ xs, x.isPlain = true)
    (hys : ∀ y ∈ ys, y.isPlain = true) {r : Tree → Tree → Prop} (h : List.Forall₂ r xs ys) {f : Tree → Tree}
    (hr : ∀ x y : Tree, x.isPlain = true → y.isPlain = true → r x y → f x = f y) : xs.map f = ys.map f := by
  induction h with
  | nil => rfl
  | cons hxy _ ih =>
      have hfirst := hr _ _ (hxs _ List.mem_cons_self) (hys _ List.mem_cons_self) hxy
      have hrest := ih (fun x hx => hxs x (List.mem_cons_of_mem _ hx)) fun y hy =>
        hys y (List.mem_cons_of_mem _ hy)
      rw [List.map_cons, List.map_cons, hfirst, hrest]

-- Equal values are the same up to the types of their numbers.
theorem untyped_of_equal (fuel : ℕ) (a b : Tree) (ha : a.isPlain = true) (hb : b.isPlain = true)
    (h : equal fuel a b = true) : untyped (sortKeys a) = untyped (sortKeys b) := by
  induction fuel using Nat.strong_induction_on generalizing a b with
  | _ fuel ih =>
      cases fuel with
      | zero => cases h
      | succ fuel =>
          cases hm : numeric a with
          | some m =>
              cases hn : numeric b with
              | some n =>
                  rw [equal_of_numeric hm hn] at h
                  rw [untyped_sortKeys_numeric hm, untyped_sortKeys_numeric hn]
                  exact (equal_numeric ha hb hm hn).mp h
              | none => cases a <;> cases b <;> first | cases h; done | cases hm; done | cases hn
          | none =>
              cases a <;> cases b <;> first | cases h; done | cases hm; done | skip
              case null.null => rfl
              case str.str s t =>
                obtain rfl : s = t := of_decide_eq_true h
                rfl
              case arr.arr xs ys =>
                have hequal := equal_of_equalItems (show equalItems fuel xs ys = true from h)
                have hmap :=
                  map_eq_of_forall₂ (fun x hx => isPlain_item ha hx) (fun y hy => isPlain_item hb hy) hequal
                  fun x y hx hy ⟨less, hless, hxy⟩ => ih less (by omega) x y hx hy hxy
                simp only [sortKeys, sortItems_eq, untyped, untypedItems_eq, List.map_map, Tree.arr.injEq]
                exact hmap
              case obj.obj ms ns =>
                obtain ⟨hleft, hright⟩ := (Bool.and_eq_true _ _).mp h
                have hless : ∀ less < fuel, ∀ x y : Tree, x.isPlain = true → y.isPlain = true →
                    equal less x y = true → untyped (sortKeys x) = untyped (sortKeys y) :=
                  fun less hless x y hx hy => ih less (by omega) x y hx hy
                rw [untyped_sortKeys_obj, untyped_sortKeys_obj]
                congr 1
                refine insertionSort_congr ?_ ?_ fun member => ⟨?_, ?_⟩
                · rw [untyped_keys]
                  exact (isPlain_member ha).1
                · rw [untyped_keys]
                  exact (isPlain_member hb).1
                · exact untyped_of_coveredBy ha hb hleft hless member
                · exact untyped_of_coveredBy hb ha hright hless member

theorem equalItems_of_map {f : Tree → Tree} {bound : ℕ} {xs ys : List Tree} (hmap : xs.map f = ys.map f)
    (h : ∀ x ∈ xs, ∀ y ∈ ys, f x = f y → ∀ fuel, bound ≤ fuel → equal fuel x y = true) (fuel : ℕ)
    (hfuel : bound + xs.length ≤ fuel) : equalItems fuel xs ys = true := by
  induction xs generalizing ys fuel with
  | nil =>
      obtain rfl := List.map_eq_nil_iff.mp hmap.symm
      cases fuel <;> rfl
  | cons x xs ih =>
      cases ys with
      | nil => cases hmap
      | cons y ys =>
          rw [List.map_cons, List.map_cons, List.cons.injEq] at hmap
          rw [List.length_cons] at hfuel
          obtain ⟨fuel, rfl⟩ : ∃ n, fuel = n + 1 := ⟨fuel - 1, by omega⟩
          have hfirst := h x List.mem_cons_self y List.mem_cons_self hmap.1 fuel (by omega)
          have hrest :=
            ih hmap.2 (fun x' hx' y' hy' => h x' (List.mem_cons_of_mem _ hx') y' (List.mem_cons_of_mem _ hy'))
            fuel (by omega)
          rw [equalItems, hfirst, hrest, Bool.and_self]

theorem numeric_eq_none {a b : Tree} (hb : b.isPlain = true) (hm : numeric a = none)
    (h : untyped (sortKeys a) = untyped (sortKeys b)) : numeric b = none := by
  cases hn : numeric b with
  | none => rfl
  | some n =>
      obtain ⟨q, hq, _⟩ := value_of_numeric hb hn
      rw [untyped_sortKeys_numeric hn, untyped_of_numeric hn hq] at h
      obtain ⟨m, hm'⟩ := numeric_of_untyped h
      rw [numeric_sortKeys, hm] at hm'
      cases hm'

theorem members_of_untyped {ms ns : List (Str × Tree)}
    (h : untyped (sortKeys (.obj ms)) = untyped (sortKeys (.obj ns))) {member : Str × Tree}
    (hmember : member ∈ ms) :
    ∃ other ∈ ns, other.1 = member.1 ∧ untyped (sortKeys other.2) = untyped (sortKeys member.2) := by
  rw [untyped_sortKeys_obj, untyped_sortKeys_obj, Tree.obj.injEq] at h
  have hmem := mem_untyped.mpr ⟨member, hmember, rfl⟩
  rw [h] at hmem
  obtain ⟨other, hother, he⟩ := mem_untyped.mp hmem
  rw [Prod.mk.injEq] at he
  exact ⟨other, hother, he⟩

theorem equal_of_untyped_numeric {a b : Tree} (ha : a.isPlain = true) (hb : b.isPlain = true) {m : Number}
    (hm : numeric a = some m) (h : untyped (sortKeys a) = untyped (sortKeys b)) {fuel : ℕ} (hfuel : 0 < fuel) :
    equal fuel a b = true ∧ equal fuel b a = true := by
  obtain ⟨fuel, rfl⟩ : ∃ n, fuel = n + 1 := ⟨fuel - 1, by omega⟩
  obtain ⟨q, hq, _⟩ := value_of_numeric ha hm
  rw [untyped_sortKeys_numeric hm] at h
  obtain ⟨n, hn⟩ := numeric_of_untyped (h.symm.trans (untyped_of_numeric hm hq))
  rw [numeric_sortKeys] at hn
  rw [untyped_sortKeys_numeric hn] at h
  rw [equal_of_numeric hm hn, equal_of_numeric hn hm]
  exact ⟨(equal_numeric ha hb hm hn).mpr h, (equal_numeric hb ha hn hm).mpr h.symm⟩

theorem equal_of_untyped (a : Tree) (ha : a.isPlain = true) (b : Tree) (hb : b.isPlain = true)
    (h : untyped (sortKeys a) = untyped (sortKeys b)) (fuel : ℕ) (hfuel : size a + size b ≤ fuel) :
    equal fuel a b = true ∧ equal fuel b a = true := by
  have hpos : 0 < fuel := by
    obtain ⟨n, hn⟩ := exists_succ (le_refl (size a))
    omega
  induction a using Tree.induction generalizing b fuel with
  | bool p => exact equal_of_untyped_numeric ha hb rfl h hpos
  | num lexeme => exact equal_of_untyped_numeric ha hb rfl h hpos
  | null =>
      have hn := numeric_eq_none hb rfl h
      obtain ⟨fuel, rfl⟩ : ∃ n, fuel = n + 1 := ⟨fuel - 1, by omega⟩
      cases b <;> first | cases hn; done | cases h; done | exact ⟨rfl, rfl⟩
  | str s =>
      have hn := numeric_eq_none hb rfl h
      obtain ⟨fuel, rfl⟩ : ∃ n, fuel = n + 1 := ⟨fuel - 1, by omega⟩
      cases b <;> first | cases hn; done | cases h; done | skip
      case str t =>
        obtain rfl : s = t := Tree.str.inj h
        have hs : equal (fuel + 1) (.str s) (.str s) = true := by simp [equal, numeric]
        exact ⟨hs, hs⟩
  | arr xs ih =>
      have hn := numeric_eq_none hb rfl h
      obtain ⟨fuel, rfl⟩ : ∃ n, fuel = n + 1 := ⟨fuel - 1, by omega⟩
      cases b <;> first | cases hn; done | cases h | skip
      case arr ys =>
        simp only [sortKeys, sortItems_eq, untyped, untypedItems_eq, List.map_map, Tree.arr.injEq] at h
        rw [size, sizeItems_eq, size, sizeItems_eq] at hfuel
        have heach : ∀ x ∈ xs, ∀ y ∈ ys, untyped (sortKeys x) = untyped (sortKeys y) → ∀ fuel,
            (xs.map size).sum + (ys.map size).sum ≤ fuel → equal fuel x y = true ∧ equal fuel y x = true := by
          intro x hx y hy hxy fuel hfuel
          have hsizex : size x ≤ (xs.map size).sum := List.le_sum_of_mem (List.mem_map_of_mem hx)
          have hsizey : size y ≤ (ys.map size).sum := List.le_sum_of_mem (List.mem_map_of_mem hy)
          obtain ⟨n, hsize⟩ := exists_succ (le_refl (size x))
          exact ih x hx (isPlain_item ha hx) y (isPlain_item hb hy) hxy fuel (by omega) (by omega)
        have hleft : equalItems fuel xs ys = true :=
          equalItems_of_map h (fun x hx y hy hxy fuel hfuel => (heach x hx y hy hxy fuel hfuel).1) fuel
            (by omega)
        have hright : equalItems fuel ys xs = true :=
          equalItems_of_map h.symm
            (fun y hy x hx hyx fuel hfuel => (heach x hx y hy hyx.symm fuel hfuel).2) fuel
            (by omega)
        exact ⟨hleft, hright⟩
  | obj ms ih =>
      have hn := numeric_eq_none hb rfl h
      obtain ⟨fuel, rfl⟩ : ∃ n, fuel = n + 1 := ⟨fuel - 1, by omega⟩
      cases b <;> first | cases hn; done | cases h | skip
      case obj ns =>
        rw [size, sizeMembers_eq, size, sizeMembers_eq] at hfuel
        obtain ⟨hkeys, hms⟩ := isPlain_member ha
        obtain ⟨hkeys', hns⟩ := isPlain_member hb
        have hpair : ∀ member ∈ ms, ∀ other ∈ ns, other.1 = member.1 →
            untyped (sortKeys other.2) = untyped (sortKeys member.2) → ∃ x y, lookup ms member.1 = some x ∧
              lookup ns member.1 = some y ∧ ∀ fuel, (ms.map fun member => size member.2).sum +
                (ns.map fun member => size member.2).sum ≤ fuel → equal fuel x y = true ∧
                  equal fuel y x = true := by
          intro member hmember other hother hkey hsame
          refine ⟨member.2, other.2, lookup_of_mem hkeys hmember, hkey ▸ lookup_of_mem hkeys' hother, ?_⟩
          intro fuel hfuel
          have hsizex : size member.2 ≤ (ms.map fun member => size member.2).sum :=
            List.le_sum_of_mem (List.mem_map_of_mem (f := fun member : Str × Tree => size member.2) hmember)
          have hsizey : size other.2 ≤ (ns.map fun member => size member.2).sum :=
            List.le_sum_of_mem (List.mem_map_of_mem (f := fun member : Str × Tree => size member.2) hother)
          obtain ⟨n, hsize⟩ := exists_succ (le_refl (size member.2))
          exact ih member hmember (hms member hmember) other.2 (hns other hother) hsame.symm fuel
            (by omega) (by omega)
        refine equal_obj ((ms.map fun member => size member.2).sum + (ns.map fun member => size member.2).sum)
          (fun key hkey => ?_) (by omega) (by omega)
        rcases hkey with hkey | hkey
        · obtain ⟨member, hmember, rfl⟩ := List.mem_map.mp hkey
          obtain ⟨other, hother, hsame⟩ := members_of_untyped h hmember
          exact hpair member hmember other hother hsame.1 hsame.2
        · obtain ⟨other, hother, rfl⟩ := List.mem_map.mp hkey
          obtain ⟨member, hmember, hsame⟩ := members_of_untyped h.symm hother
          rw [← hsame.1]
          exact hpair member hmember other hother hsame.1.symm hsame.2.symm

theorem equal_iff_untyped {a b : Tree} (ha : a.isPlain = true) (hb : b.isPlain = true) :
    a.equal b = true ↔ untyped (sortKeys a) = untyped (sortKeys b) :=
  ⟨fun h => untyped_of_equal _ a b ha hb h, fun h => (equal_of_untyped a ha b hb h _ (by omega)).1⟩

theorem isPlain_of_portable {tree : Tree} (h : tree.portable = true) : tree.isPlain = true := by
  obtain ⟨hd, hall⟩ := (Bool.and_eq_true _ _).mp h
  refine (Bool.and_eq_true _ _).mpr ⟨hd, Tree.all_imp (fun _ _ => rfl) (fun lexeme hl => ?_) hall⟩
  simp only [Bool.and_eq_true] at hl
  exact (Bool.and_eq_true _ _).mpr ⟨hl.1, hl.2.1⟩

end Library.Json
