import Mathlib.Data.List.DropRight
import Mathlib.Data.Nat.Log
import Mathlib.Data.Rat.Floor
import MeldStore.Library.Json.Width

namespace Library.Json

-- str of an int
def intLexeme : ℤ → List Char
  | .ofNat n => Nat.toDigits 10 n
  | .negSucc n => '-' :: Nat.toDigits 10 (n + 1)

-- The `e` of a positive `q` with 10 ^ e ≤ q < 10 ^ (e + 1).
def magnitudeOf (q : ℚ) : ℤ :=
  if 1 ≤ q then Nat.log 10 ⌊q⌋.toNat else -(Nat.clog 10 ⌈1 / q⌉.toNat : ℤ)

def shift (place : ℤ) : ℚ := if 0 ≤ place then 10 ^ place.toNat else 1 / 10 ^ (-place).toNat

-- The nearer of the two decimals around `q` with its last digit at `place`, of those
-- that read back as `q`.
def nearestDecimal (q : ℚ) (place : ℤ) : Option ℕ :=
  let scaled := q / shift place
  let low := ⌊scaled⌋.toNat
  let readsBack (m : ℕ) : Bool := nearestDouble (m * shift place) = some q
  match readsBack low, readsBack (low + 1) with
  | true, true =>
      if 2 * (scaled - low) < 1 ∨ 2 * (scaled - low) = 1 ∧ low % 2 = 0 then some low else some (low + 1)
  | true, false => some low
  | false, true => some (low + 1)
  | false, false => none

-- The shortest digits that read back as `q`, and the place of the point after them:
-- `q` is nearly 0.ds · 10 ^ point.
def shortestDigits (q : ℚ) : List Char × ℤ :=
  let found := (List.range 17).findSome? fun n =>
    let place := magnitudeOf q - n
    (nearestDecimal q place).map fun m => (m, place)
  match found with
  | some (m, place) =>
      let ds := Nat.toDigits 10 m
      (ds.rdropWhile (· == '0'), ds.length + place)
  | none => ([], 0)

-- repr of a positive finite float: an exponent from 1e16 on and below 1e-4.
def floatRepr (q : ℚ) : List Char :=
  let (ds, point) := shortestDigits q
  if point ≤ -4 ∨ 16 < point then
    let exponent := point - 1
    let digits := Nat.toDigits 10 exponent.natAbs
    let padded := if digits.length < 2 then '0' :: digits else digits
    ds.take 1 ++ (if ds.length = 1 then [] else '.' :: ds.drop 1) ++ 'e' ::
      (if exponent < 0 then '-' else '+') :: padded
  else if point ≤ 0 then '0' :: '.' :: List.replicate (-point).toNat '0' ++ ds
  else if ds.length ≤ point.toNat then ds ++ List.replicate (point.toNat - ds.length) '0' ++ ['.', '0']
  else ds.take point.toNat ++ '.' :: ds.drop point.toNat

-- What Python writes for the number that a literal is read as.
def written (lexeme : List Char) : List Char :=
  match Number.ofLexeme lexeme with
  | .int i => intLexeme i
  | .double q =>
      let sign := if lexeme.head? = some '-' then ['-'] else []
      if q = 0 then sign ++ ['0', '.', '0'] else sign ++ floatRepr |q|
  | .infinity negative => if negative then "-Infinity".toList else "Infinity".toList
  | .nan => "NaN".toList

-- int() refuses more than 4300 digits.
def legible (lexeme : List Char) : Bool :=
  match Number.ofLexeme lexeme with
  | .int _ => (lexeme.filter isDigit).length ≤ 4300
  | _ => true

-- json.loads: the numbers of the tree are as Python writes them again.
def decode (text : List Char) : Option Tree := do
  let tree ← loads text
  if tree.all (fun _ => true) legible then some (tree.map id written) else none

-- allow_nan=False
def isFinite (lexeme : List Char) : Bool :=
  lexeme ∉ ["NaN".toList, "Infinity".toList, "-Infinity".toList]

-- A value of Python that json.dumps writes: dicts have no key twice, numbers are the
-- texts Python writes for them. Of its other values json.dumps refuses some; what it
-- writes for the rest, as for a tuple, is read back as a different value.
structure Value where
  tree : Tree
  distinct : tree.distinct = true
  codePoints : tree.all (·.all isCodePoint) (fun _ => true) = true
  numbers : tree.all (fun _ => true) (fun lexeme =>
    written lexeme == lexeme && (isLexeme lexeme || !isFinite lexeme)) = true

-- What json.dumps writes and json.loads gives back unchanged.
def Tree.portable (tree : Tree) : Bool :=
  tree.distinct && tree.all (fun s => s.all isCodePoint && joinSurrogates s == s)
    (fun lexeme => isLexeme lexeme && (written lexeme == lexeme && legible lexeme))

-- Naturals

theorem isDigit_of_mem_toDigits {n : ℕ} {c : Char} (h : c ∈ Nat.toDigits 10 n) : isDigit c = true := by
  have hdigit := Nat.isDigit_of_mem_toDigits (by decide) (by decide) h
  simp only [Char.isDigit, ge_iff_le, Bool.and_eq_true, decide_eq_true_eq] at hdigit
  simp only [isDigit, Bool.and_eq_true, decide_eq_true_eq]
  exact hdigit

theorem toDigits_head (n : ℕ) (hn : 0 < n) : ∃ d ds, Nat.toDigits 10 n = d :: ds ∧ d ≠ '0' := by
  induction n using Nat.strong_induction_on with
  | _ n ih =>
      by_cases hsmall : n < 10
      · rw [Nat.toDigits_of_lt_base hsmall]
        have hall : ∀ m < 10, 0 < m → Nat.digitChar m ≠ '0' := by decide
        exact ⟨_, [], rfl, hall n hsmall hn⟩
      · obtain ⟨d, ds, hds, hd⟩ := ih (n / 10) (by omega) (by omega)
        rw [Nat.toDigits_of_base_le (by decide) (by omega), hds]
        exact ⟨d, _, rfl, hd⟩

theorem natOf_toDigits (n : ℕ) : natOf (Nat.toDigits 10 n) = n := by
  have hdigit : ∀ m < 10, (Nat.digitChar m).toNat - 48 = m := by decide
  induction n using Nat.strong_induction_on with
  | _ n ih =>
      by_cases hsmall : n < 10
      · rw [Nat.toDigits_of_lt_base hsmall]
        simp [natOf, hdigit n hsmall]
      · have hrest := ih (n / 10) (by omega)
        rw [Nat.toDigits_of_base_le (by decide) (by omega), natOf, List.foldl_append]
        rw [natOf] at hrest
        simp only [hrest, List.foldl_cons, List.foldl_nil, hdigit _ (Nat.mod_lt n (by decide))]
        omega

theorem isLexeme_toDigits (n : ℕ) : isLexeme (Nat.toDigits 10 n) = true := by
  rcases Nat.eq_zero_or_pos n with rfl | hn
  · decide
  · obtain ⟨d, ds, hds, hd⟩ := toDigits_head n hn
    have hall : ∀ c ∈ d :: ds, isDigit c = true := fun c hc => isDigit_of_mem_toDigits (hds ▸ hc)
    have hdigits : digits (d :: ds) = (d :: ds, []) := by
      have happend := digits_append (List.all_eq_true.mpr hall) (headIsNot_nil isDigit)
      rwa [List.append_nil] at happend
    have hminus := ne_of_isDigit (hall d List.mem_cons_self) '-' (by decide)
    have hwhole : integerPart (d :: ds) = some (d :: ds, []) := by
      rw [integerPart, hdigits]
      exact fun rest hrest => hd (List.cons.inj hrest).1
    have hread : number (d :: ds) = some (d :: ds, []) := by
      rw [number]
      · simp [unsigned, hwhole, fraction, exponent]
      · exact fun rest hrest => hminus (List.cons.inj hrest).1
    rw [hds]
    exact beq_iff_eq.mpr hread

theorem ofLexeme_digit {d : Char} (hd : isDigit d = true) (ds : List Char) :
    Number.ofLexeme (d :: ds) = magnitude false (d :: ds) := by
  have hnan : d :: ds ≠ "NaN".toList := by simp [ne_of_isDigit hd 'N' rfl]
  have hinfinity : d :: ds ≠ "Infinity".toList := by simp [ne_of_isDigit hd 'I' rfl]
  have hnegative : d :: ds ≠ "-Infinity".toList := by simp [ne_of_isDigit hd '-' rfl]
  unfold Number.ofLexeme
  simp only [hnan, hinfinity, hnegative, if_false]
  split
  · rename_i text he
    exact absurd (List.cons.inj he).1 (ne_of_isDigit hd '-' (by decide))
  · rfl

theorem ofLexeme_minus {d : Char} (hd : isDigit d = true) (ds : List Char) :
    Number.ofLexeme ('-' :: d :: ds) = magnitude true (d :: ds) := by
  have hnan : '-' :: d :: ds ≠ "NaN".toList := by simp
  have hinfinity : '-' :: d :: ds ≠ "Infinity".toList := by simp
  have hnegative : '-' :: d :: ds ≠ "-Infinity".toList := by simp [ne_of_isDigit hd 'I' rfl]
  unfold Number.ofLexeme
  simp only [hnan, hinfinity, hnegative, if_false]

theorem ofLexeme_toDigits (n : ℕ) : Number.ofLexeme (Nat.toDigits 10 n) = .int n := by
  have hall : (Nat.toDigits 10 n).all isDigit = true :=
    List.all_eq_true.mpr fun c hc => isDigit_of_mem_toDigits hc
  obtain ⟨d, ds, hds⟩ := List.exists_cons_of_ne_nil (Nat.toDigits_ne_nil (n := n) (b := 10))
  have hd := isDigit_of_mem_toDigits (n := n) (hds ▸ List.mem_cons_self)
  rw [hds, ofLexeme_digit hd, ← hds, magnitude, if_pos hall, natOf_toDigits]
  rfl

theorem written_toDigits (n : ℕ) : written (Nat.toDigits 10 n) = Nat.toDigits 10 n := by
  rw [written, ofLexeme_toDigits]
  rfl

theorem length_toDigits {n : ℕ} (h : n < 2 ^ 63) : (Nat.toDigits 10 n).length ≤ 19 :=
  (Nat.length_toDigits_le_iff (by decide) (by decide)).mpr (by omega)

theorem legible_toDigits {n : ℕ} (h : n < 2 ^ 63) : legible (Nat.toDigits 10 n) = true := by
  have hlength := length_toDigits h
  have hfilter := List.length_filter_le isDigit (Nat.toDigits 10 n)
  rw [legible, ofLexeme_toDigits]
  exact decide_eq_true (by omega)

theorem width_toDigits (n : ℕ) : width (Nat.toDigits 10 n) = (Nat.toDigits 10 n).length := by
  have hdigits : ∀ text : List Char, (∀ c ∈ text, isDigit c = true) → width text = text.length := by
    intro text htext
    induction text with
    | nil => rfl
    | cons c text ih =>
        have hone : c.utf8Size = 1 := by
          have hc := htext c List.mem_cons_self
          simp only [isDigit, Bool.and_eq_true, decide_eq_true_eq] at hc
          have hlast : c.val ≤ '9'.val := hc.2
          rw [Char.utf8Size_eq_one_iff]
          exact UInt32.le_trans hlast (by decide)
        rw [width_cons, hone, ih fun other hother => htext other (List.mem_cons_of_mem _ hother),
          List.length_cons, Nat.add_comm]
  exact hdigits _ fun c hc => isDigit_of_mem_toDigits hc

-- Reading back

theorem magnitude_ne_nan (negative : Bool) (text : List Char) : magnitude negative text ≠ .nan := by
  unfold magnitude
  split
  · simp
  · simp only
    split
    · simp
    · split <;> simp

theorem isNotNan_of_isLexeme {lexeme : List Char} (h : isLexeme lexeme = true) : isNotNan lexeme = true := by
  rw [isNotNan, bne_iff_ne]
  rcases number_head (beq_iff_eq.mp h) with ⟨d, ds, rfl, hd⟩ | ⟨d, ds, rfl, hd⟩
  · rw [ofLexeme_digit hd]
    exact magnitude_ne_nan _ _
  · rw [ofLexeme_minus hd]
    exact magnitude_ne_nan _ _

theorem Tree.portable_sortKeys {tree : Tree} (h : tree.portable = true) : (sortKeys tree).portable = true := by
  obtain ⟨hd, hall⟩ := (Bool.and_eq_true _ _).mp h
  exact (Bool.and_eq_true _ _).mpr ⟨Tree.distinct_sortKeys hd, Tree.all_sortKeys hall⟩

theorem Tree.writable_of_portable {tree : Tree} (h : tree.portable = true) : tree.writable = true :=
  Tree.all_imp (fun _ hs => ((Bool.and_eq_true _ _).mp hs).1) (fun _ hl => ((Bool.and_eq_true _ _).mp hl).1)
    ((Bool.and_eq_true _ _).mp h).2

theorem loads_dumps_portable {tree : Tree} (h : tree.portable = true) : loads (dumps tree) = some tree := by
  have hjoined : tree.map joinSurrogates id = tree := by
    refine Tree.map_eq_self (Tree.all_imp (fun s hs => ?_) (fun _ _ => beq_self_eq_true _)
      ((Bool.and_eq_true _ _).mp h).2)
    exact ((Bool.and_eq_true _ _).mp hs).2
  rw [loads_dumps (Tree.writable_of_portable h), hjoined]

theorem decode_dumps {tree : Tree} (h : tree.portable = true) : decode (dumps tree) = some tree := by
  have hall := ((Bool.and_eq_true _ _).mp h).2
  have hlegible : tree.all (fun _ => true) legible = true := by
    refine Tree.all_imp (fun _ _ => rfl) (fun lexeme hl => ?_) hall
    simp only [Bool.and_eq_true] at hl
    exact hl.2.2
  have hwritten : tree.map id written = tree := by
    refine Tree.map_eq_self (Tree.all_imp (fun _ _ => beq_self_eq_true _) (fun lexeme hl => ?_) hall)
    simp only [Bool.and_eq_true] at hl
    exact hl.2.1
  simp only [decode, loads_dumps_portable h, Option.bind_eq_bind, Option.bind_some, hlegible, if_true, hwritten]

-- A value that reads back as an equal one has no surrogates to join.
theorem joined_of_equal {value : Value} {loaded : Tree}
    (hjoined : loaded.all (fun s => joinSurrogates s == s) (fun _ => true) = true)
    (h : loaded.equal value.tree = true) :
    value.tree.all (fun s => joinSurrogates s == s) (fun _ => true) = true :=
  (equal_all h).1 hjoined value.distinct

theorem decode_of_equal {value : Value} {loaded : Tree}
    (hfinite : value.tree.all (fun _ => true) isFinite = true)
    (h : decode (dumps (sortKeys value.tree)) = some loaded) (hequal : loaded.equal value.tree = true) :
    loaded = sortKeys value.tree ∧ loaded.portable = true := by
  have hlexemes : value.tree.all (fun _ => true) (fun lexeme => isLexeme lexeme && written lexeme == lexeme) =
    true := by
    refine Tree.all_imp (fun _ _ => rfl) (fun lexeme hl => ?_) (Tree.all_and value.numbers hfinite)
    simp only [Bool.and_eq_true, Bool.or_eq_true, Bool.not_eq_true'] at hl ⊢
    obtain ⟨⟨hwritten, hlexeme | hinfinite⟩, hfinite⟩ := hl
    · exact ⟨hlexeme, hwritten⟩
    · rw [hfinite] at hinfinite
      cases hinfinite
  have hwritable : (sortKeys value.tree).writable = true := by
    refine Tree.all_sortKeys (Tree.all_imp (fun s hs => ?_) (fun lexeme hl => ?_)
      (Tree.all_and value.codePoints hlexemes))
    · exact ((Bool.and_eq_true _ _).mp hs).1
    · simp only [Bool.and_eq_true] at hl
      exact hl.2.1
  simp only [decode, loads_dumps hwritable, Option.bind_eq_bind, Option.bind_some,
    Option.ite_none_right_eq_some, Option.some.injEq] at h
  obtain ⟨hlegible, rfl⟩ := h
  have hloaded : (((sortKeys value.tree).map joinSurrogates id).map id written).all
      (fun s => joinSurrogates s == s) (fun _ => true) = true := by
    rw [Tree.all_map, Tree.all_map]
    refine Tree.all_imp (fun s _ => ?_) (fun _ _ => rfl) hwritable
    exact beq_iff_eq.mpr (joinSurrogates_joinSurrogates s)
  have hjoined := Tree.all_sortKeys (joined_of_equal hloaded hequal)
  have hwritten := Tree.all_sortKeys hlexemes
  have hsame : (sortKeys value.tree).map joinSurrogates id = sortKeys value.tree :=
    Tree.map_eq_self (Tree.all_imp (fun _ hs => hs) (fun _ _ => beq_self_eq_true _) hjoined)
  rw [hsame] at hlegible ⊢
  have hnumbers : (sortKeys value.tree).map id written = sortKeys value.tree :=
    Tree.map_eq_self (Tree.all_imp (fun _ _ => beq_self_eq_true _)
      (fun _ hl => ((Bool.and_eq_true _ _).mp hl).2) hwritten)
  rw [hnumbers]
  refine ⟨rfl, (Bool.and_eq_true _ _).mpr ⟨Tree.distinct_sortKeys value.distinct, ?_⟩⟩
  refine Tree.all_imp (fun s hs => ?_) (fun lexeme hl => ?_)
    (Tree.all_and (Tree.all_and (Tree.all_sortKeys value.codePoints) hjoined) (Tree.all_and hwritten hlegible))
  · simp only [Bool.and_eq_true, and_true] at hs ⊢
    exact hs
  · simp only [Bool.and_eq_true, true_and] at hl ⊢
    exact ⟨hl.1.1, hl.1.2, hl.2⟩

-- Portable trees

theorem isCodePoint_toNat (c : Char) : isCodePoint c.toNat = true := by
  have hvalid := c.valid
  simp only [UInt32.isValidChar, Nat.isValidChar] at hvalid
  have hnat : c.toNat = c.val.toNat := rfl
  exact decide_eq_true (by omega)

theorem joinSurrogates_chars (text : List Char) :
    joinSurrogates (text.map Char.toNat) = text.map Char.toNat := by
  induction text with
  | nil => rfl
  | cons c text ih =>
      rw [List.map_cons, joinSurrogates_cons, ih]
      rintro low _ ⟨hhigh, _⟩
      simp only [isHigh, Bool.and_eq_true, decide_eq_true_eq] at hhigh
      have hvalid := c.valid
      simp only [UInt32.isValidChar, Nat.isValidChar] at hvalid
      have hnat : c.toNat = c.val.toNat := rfl
      omega

theorem ofString_injective : Function.Injective ofString := by
  intro s t h
  have hlist : s.toList = t.toList := List.map_injective_iff.mpr (fun _ _ => Char.toNat_inj.mp) h
  exact String.toList_inj.mp hlist

theorem portable_key (s : String) :
    ((ofString s).all isCodePoint && joinSurrogates (ofString s) == ofString s) = true := by
  have hcodes : (ofString s).all isCodePoint = true := by
    rw [ofString, List.all_map, List.all_eq_true]
    exact fun c _ => isCodePoint_toNat c
  have hjoined : joinSurrogates (ofString s) = ofString s := joinSurrogates_chars s.toList
  simp [hcodes, hjoined]

theorem portable_str (s : String) : (Tree.str (ofString s)).portable = true := by
  rw [Tree.portable, Bool.and_eq_true]
  exact ⟨rfl, portable_key s⟩

theorem portable_natural {n : ℕ} (h : n < 2 ^ 63) : (Tree.num (Nat.toDigits 10 n)).portable = true := by
  rw [Tree.portable, Bool.and_eq_true]
  refine ⟨rfl, ?_⟩
  show (isLexeme (Nat.toDigits 10 n) && (written (Nat.toDigits 10 n) == Nat.toDigits 10 n &&
    legible (Nat.toDigits 10 n))) = true
  simp [isLexeme_toDigits, written_toDigits, legible_toDigits h]

theorem portable_arr {items : List Tree} (h : ∀ item ∈ items, item.portable = true) :
    (Tree.arr items).portable = true := by
  simp only [Tree.portable, Bool.and_eq_true] at h ⊢
  exact ⟨distinctItems_iff.mpr fun item hitem => (h item hitem).1,
    allItems_iff.mpr fun item hitem => (h item hitem).2⟩

theorem portable_obj {members : List (String × Tree)} (hkeys : (members.map Prod.fst).Nodup)
    (h : ∀ member ∈ members, member.2.portable = true) :
    (Tree.obj (members.map fun member => (ofString member.1, member.2))).portable = true := by
  simp only [Tree.portable, Bool.and_eq_true] at h ⊢
  refine ⟨(Bool.and_eq_true _ _).mpr ⟨decide_eq_true ?_, distinctMembers_iff.mpr ?_⟩, allMembers_iff.mpr ?_⟩
  · rw [List.map_map]
    exact (List.map_map (f := Prod.fst) (g := ofString) ▸ hkeys.map ofString_injective)
  · simp only [List.forall_mem_map]
    exact fun member hmember => (h member hmember).1
  · simp only [List.forall_mem_map]
    exact fun member hmember => ⟨portable_key member.1, (h member hmember).2⟩

end Library.Json
