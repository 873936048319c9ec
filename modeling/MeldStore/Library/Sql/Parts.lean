import MeldStore.Library.Sql.Boundary
import Mathlib.Data.List.Basic
import Mathlib.Tactic.IntervalCases

namespace Library.Sql

-- Texts made of parts: what a part is read as does not depend on the values in the others.

inductive Part
  | fixed (text : Bytes)
  | number (digits : Bytes)
  | quoted (q : UInt8) (value : Bytes)
deriving DecidableEq, Repr

def Part.text : Part → Bytes
  | fixed text => text
  | number digits => digits
  | quoted q value => q :: (doubled q value ++ [q])

def Part.tokens : Part → List Token
  | fixed text => Sql.tokens text
  | number digits => [.number digits]
  | quoted q value => [quotedToken q value]

def spelled (parts : List Part) : Bytes := parts.flatMap Part.text

-- Reads until a text is left.
def readUpTo : ℕ → Bytes → Bytes → Option (List Token)
  | 0, z, stop => if z = stop then some [] else none
  | fuel + 1, z, stop =>
      if z = stop then some []
      else (next z).bind fun read => (readUpTo fuel read.2 stop).map fun more => read.1.toList ++ more

-- The text is read up to a break after it, as it is read alone.
def joins (text : Bytes) (q : UInt8) : Bool :=
  q ∈ breaks && (readUpTo text.length (text ++ [q]) [q]).isSome &&
    readUpTo text.length (text ++ [q]) [q] = readUpTo text.length text []

-- The text ends in punctuation.
def closes (text : Bytes) : Bool := text.getLast?.any fun c => c ∈ spell "(),;" && joins text.dropLast c

-- The text ends in spaces.
def spaced (text : Bytes) : Bool :=
  text.getLast?.any (· = 0x20) && joins (text.reverse.dropWhile (· = 0x20)).reverse 0x20

-- What a fixed text may have after it.
def joinsNext (text : Bytes) : Option UInt8 → Bool
  | none => true
  | some q => joins text q || closes text || (spaced text && !isSpace q)

-- A byte that ends a number.
def stops (c : UInt8) : Bool := !(isIdChar c || c = ascii '.')

-- The first byte of a text that is followed by such a byte.
def head (parts : List Part) (after : Option UInt8) : Option UInt8 := (spelled parts).head?.or after

def Woven : List Part → Option UInt8 → Prop
  | [], _ => True
  | .fixed text :: parts, after => joinsNext text (head parts after) = true ∧ Woven parts after
  | .number digits :: parts, after =>
      digits ≠ [] ∧ (∀ b ∈ digits, isDigit b = true) ∧
        (head parts after).all stops = true ∧ Woven parts after
  | .quoted q value :: parts, after =>
      isQuote q = true ∧ (0 : UInt8) ∉ value ∧ head parts after ≠ some q ∧ Woven parts after

instance decidableWoven : (parts : List Part) → (after : Option UInt8) → Decidable (Woven parts after)
  | [], _ => .isTrue trivial
  | .fixed _ :: parts, after =>
      haveI := decidableWoven parts after
      inferInstanceAs (Decidable (_ ∧ _))
  | .number _ :: parts, after =>
      haveI := decidableWoven parts after
      inferInstanceAs (Decidable (_ ∧ _ ∧ _ ∧ _))
  | .quoted _ _ :: parts, after =>
      haveI := decidableWoven parts after
      inferInstanceAs (Decidable (_ ∧ _ ∧ _ ∧ _))

theorem readUpTo_reads {fuel : ℕ} {z stop : Bytes} {read : List Token} (h : readUpTo fuel z stop = some read) :
    Reads z read stop := by
  induction fuel generalizing z read with
  | zero =>
      rw [readUpTo] at h
      split_ifs at h with hsame
      rw [← Option.some.inj h, hsame]
      exact .done stop
  | succ fuel ih =>
      rw [readUpTo] at h
      split_ifs at h with hsame
      · rw [← Option.some.inj h, hsame]
        exact .done stop
      · obtain ⟨⟨token, rest⟩, hnext, hmap⟩ := Option.bind_eq_some_iff.mp h
        obtain ⟨more, hmore, rfl⟩ := Option.map_eq_some_iff.mp hmap
        exact .step hnext (ih hmore)

theorem tokens_nil : tokens [] = [] := by
  rw [tokens_eq]
  rfl

theorem joins_reads {text : Bytes} {q : UInt8} (h : joins text q = true) (z : Bytes) :
    Reads (text ++ q :: z) (tokens text) (q :: z) := by
  simp only [joins, Bool.and_eq_true, decide_eq_true_eq] at h
  obtain ⟨⟨hq, hsome⟩, hsame⟩ := h
  obtain ⟨read, hread⟩ := Option.isSome_iff_exists.mp hsome
  have halone : tokens text = read := by
    rw [(readUpTo_reads (hsame ▸ hread)).tokens, tokens_nil, List.append_nil]
  rw [halone]
  exact (readUpTo_reads hread).replaced hq z

theorem next_punctuation {c : UInt8} (hc : c ∈ spell "(),;") (z : Bytes) :
    next (c :: z) = some (some (.symbol [c]), z) := by
  have hall : ∀ c ∈ spell "(),;", ∀ z, next (c :: z) = some (some (.symbol [c]), z) := by
    intro c hc z
    rcases List.mem_cons.mp hc with rfl | hc
    · rfl
    · rcases List.mem_cons.mp hc with rfl | hc
      · rfl
      · rcases List.mem_cons.mp hc with rfl | hc
        · rfl
        · rw [List.mem_singleton.mp hc]
          rfl
  exact hall c hc z

theorem closes_reads {text : Bytes} (h : closes text = true) (z : Bytes) :
    Reads (text ++ z) (tokens text) z := by
  obtain ⟨c, hlast, hc⟩ := (Option.any_eq_true _ _).mp h
  rw [Bool.and_eq_true, decide_eq_true_eq] at hc
  have htext : text.dropLast ++ [c] = text := List.dropLast_append_getLast? c (Option.mem_def.mpr hlast)
  have hread (z : Bytes) : Reads (text ++ z) (tokens text.dropLast ++ [.symbol [c]]) z := by
    have hfront := joins_reads hc.2 z
    rw [← List.singleton_append, ← List.append_assoc, htext] at hfront
    exact hfront.trans (.one (next_punctuation hc.1 z))
  have halone : tokens text = tokens text.dropLast ++ [.symbol [c]] := by
    have hall := (hread []).tokens
    rwa [List.append_nil, tokens_nil, List.append_nil] at hall
  rw [halone]
  exact hread z

theorem next_blank {z : Bytes} (hz : z.head?.any isSpace = false) (pad : Bytes) (hpad : ∀ b ∈ pad, b = 0x20) :
    next (0x20 :: (pad ++ z)) = some (none, z) := by
  have hdrop : (pad ++ z).dropWhile isSpace = z := by
    rw [List.dropWhile_append_of_pos fun b hb => by rw [hpad b hb]; rfl]
    cases z with
    | nil => rfl
    | cons b z => exact List.dropWhile_cons_of_neg (by simpa using hz)
  rw [next, if_neg (by decide), scan, if_pos (by decide), hdrop]

theorem spaced_reads {text z : Bytes} (h : spaced text = true) (hz : z.head?.any isSpace = false) :
    Reads (text ++ z) (tokens text) z := by
  rw [spaced, Bool.and_eq_true] at h
  obtain ⟨hlast, hjoins⟩ := h
  obtain ⟨c, hmem, hc⟩ := (Option.any_eq_true _ _).mp hlast
  have hsplit := List.takeWhile_append_dropWhile (p := fun b : UInt8 => b = 0x20) (l := text.reverse)
  have hpad : ∀ b ∈ text.reverse.takeWhile (· = 0x20), b = 0x20 := fun b hb => by
    simpa using List.mem_takeWhile_imp hb
  have hne : text.reverse.takeWhile (· = 0x20) ≠ [] := by
    have hhead : text.reverse.head? = some c := by
      rw [List.head?_reverse]
      exact hmem
    cases hback : text.reverse with
    | nil =>
        rw [hback] at hhead
        cases hhead
    | cons d back =>
        rw [hback] at hhead
        rw [List.takeWhile_cons_of_pos (by rw [Option.some.inj hhead]; exact hc)]
        exact List.cons_ne_nil _ _
  generalize text.reverse.takeWhile (· = 0x20) = pad at hsplit hpad hne
  generalize text.reverse.dropWhile (· = 0x20) = back at hsplit hjoins
  have htext : text = back.reverse ++ pad.reverse := by
    rw [← List.reverse_append, hsplit, List.reverse_reverse]
  obtain ⟨b, rest, hrest⟩ := List.exists_cons_of_ne_nil (mt List.reverse_eq_nil_iff.mp hne)
  have hspaces : ∀ b ∈ pad.reverse, b = 0x20 := fun b hb => hpad b (List.mem_reverse.mp hb)
  rw [hrest] at htext hspaces
  rw [hspaces b List.mem_cons_self] at htext
  have hread (z : Bytes) (hz : z.head?.any isSpace = false) : Reads (text ++ z) (tokens back.reverse) z := by
    have hblank := next_blank hz rest fun b hb => hspaces b (List.mem_cons_of_mem _ hb)
    have hfront := (joins_reads hjoins (rest ++ z)).trans (.none hblank)
    rw [List.append_nil] at hfront
    rw [htext, List.append_assoc]
    exact hfront
  have halone := (hread [] rfl).tokens
  rw [List.append_nil, tokens_nil, List.append_nil] at halone
  rw [halone]
  exact hread z hz

theorem joinsNext_closes {text : Bytes} (h : closes text = true) (after : Option UInt8) :
    joinsNext text after = true := by
  cases after with
  | none => rfl
  | some q => rw [joinsNext, h, Bool.or_true, Bool.true_or]

theorem joinsNext_spaced {text : Bytes} {b : UInt8} (h : spaced text = true) (hb : isSpace b = false) :
    joinsNext text (some b) = true := by
  rw [joinsNext, h, hb, Bool.not_false, Bool.and_true, Bool.or_true]

theorem tokens_fixed {text z : Bytes} (h : joinsNext text z.head? = true) :
    tokens (text ++ z) = tokens text ++ tokens z := by
  cases z with
  | nil => rw [List.append_nil, tokens_nil, List.append_nil]
  | cons q z =>
      simp only [joinsNext, List.head?_cons, Bool.or_eq_true, Bool.and_eq_true] at h
      rcases h with (hjoins | hcloses) | ⟨hspaced, hspace⟩
      · exact (joins_reads hjoins z).tokens
      · exact (closes_reads hcloses _).tokens
      · exact (spaced_reads hspaced (by simpa using hspace)).tokens

theorem digit_cases {d : UInt8} (h : isDigit d = true) :
    d ∈ [(0x30 : UInt8), 0x31, 0x32, 0x33, 0x34, 0x35, 0x36, 0x37, 0x38, 0x39] := by
  simp only [isDigit, Bool.and_eq_true, decide_eq_true_eq, UInt8.le_iff_toNat_le] at h
  have hlow : 48 ≤ d.toNat := h.1
  have hhigh : d.toNat ≤ 57 := h.2
  rw [← UInt8.ofNat_toNat (x := d)]
  generalize d.toNat = n at hlow hhigh
  interval_cases n <;> decide

theorem scan_digit {d : UInt8} (h : isDigit d = true) (z : Bytes) :
    scan d z = (some (number (d :: z)).1, (number (d :: z)).2) := by
  have hcases := digit_cases h
  simp only [List.mem_cons, List.not_mem_nil, or_false] at hcases
  rcases hcases with rfl | rfl | rfl | rfl | rfl | rfl | rfl | rfl | rfl | rfl <;> rfl

theorem stops_ne {c d : UInt8} (hc : stops c = true) (hd : stops d = false) : c ≠ d := by
  rintro rfl
  rw [hc] at hd
  cases hd

theorem stops_place {c : UInt8} (hc : stops c = true) : isPlace c = false := by
  simp only [stops, Bool.not_eq_true', Bool.or_eq_false_iff, isIdChar, isLetter] at hc
  simp only [isPlace, Bool.or_eq_false_iff]
  tauto

-- No hexadecimal number.
theorem numberRest_digits {digits rest : Bytes} (hne : digits ≠ []) (hdigits : ∀ b ∈ digits, isDigit b = true)
    (hrest : rest.head?.all stops = true) : numberRest (digits ++ rest) = decimalRest (digits ++ rest) := by
  have hsecond {c x : UInt8} {more : Bytes} (h : digits ++ rest = c :: x :: more) :
      (x = ascii 'x' || x = ascii 'X') = false := by
    have hx : isDigit x = true ∨ stops x = true := by
      cases digits with
      | nil => exact absurd rfl hne
      | cons d digits =>
          have htail : digits ++ rest = x :: more := (List.cons.inj h).2
          cases digits with
          | nil =>
              rw [List.nil_append] at htail
              exact .inr (by simpa [htail] using hrest)
          | cons e digits => exact .inl ((List.cons.inj htail).1 ▸ hdigits e (by simp))
    simp only [Bool.or_eq_false_iff, decide_eq_false_iff_not]
    constructor <;> rintro rfl <;> exact absurd hx (by decide)
  match hz : digits ++ rest with
  | [] => rfl
  | [_] => rfl
  | [_, _] => rfl
  | c :: x :: d :: more =>
      simp only [numberRest, hsecond hz, Bool.and_false, Bool.false_and, Bool.false_eq_true, if_false]

theorem next_number {digits rest : Bytes} (hne : digits ≠ []) (hdigits : ∀ b ∈ digits, isDigit b = true)
    (hrest : rest.head?.all stops = true) : next (digits ++ rest) = some (some (.number digits), rest) := by
  have hdrop : (digits ++ rest).dropWhile isPlace = rest := by
    rw [List.dropWhile_append_of_pos fun b hb => isPlace_of_isDigit (hdigits b hb)]
    cases rest with
    | nil => rfl
    | cons c rest => exact List.dropWhile_cons_of_neg (by rw [stops_place (by simpa using hrest)]; decide)
  have hdecimal : decimalRest (digits ++ rest) = rest := by
    rw [decimalRest, hdrop]
    cases rest with
    | nil => rfl
    | cons c rest =>
        have hc : stops c = true := by simpa using hrest
        rw [fractionRest, if_neg (stops_ne hc (by decide)), exponentRest.eq_def]
        dsimp only
        have hexponent : ¬(c = ascii 'e' || c = ascii 'E') = true := by
          simp only [Bool.or_eq_true, decide_eq_true_eq, not_or]
          exact ⟨stops_ne hc (by decide), stops_ne hc (by decide)⟩
        rw [if_neg hexponent]
  have hnumber : number (digits ++ rest) = (.number digits, rest) := by
    have hid : ¬followedBy rest isIdChar = true := by
      cases rest with
      | nil => decide
      | cons c rest =>
          have hc : stops c = true := by simpa using hrest
          simp only [stops, Bool.not_eq_true', Bool.or_eq_false_iff] at hc
          simp only [followedBy, List.head?_cons, Option.any_some, hc.1, Bool.false_eq_true, not_false_eq_true]
    simp only [number, numberRest_digits hne hdigits hrest, hdecimal, if_neg hid]
    rw [before, List.length_append, Nat.add_sub_cancel, List.take_left]
  cases digits with
  | nil => exact absurd rfl hne
  | cons d digits =>
      have hd : isDigit d = true := hdigits d List.mem_cons_self
      have hnul : d ≠ 0 := fun hsame => absurd hd (by rw [hsame]; decide)
      rw [List.cons_append, next, if_neg hnul, scan_digit hd, ← List.cons_append, hnumber]

theorem Woven.tokens {parts : List Part} {rest : Bytes} (h : Woven parts rest.head?) :
    tokens (spelled parts ++ rest) = parts.flatMap Part.tokens ++ Sql.tokens rest := by
  have hhead (parts : List Part) : (spelled parts ++ rest).head? = head parts rest.head? := List.head?_append
  induction parts with
  | nil => rfl
  | cons part parts ih =>
      have hsplit : spelled (part :: parts) ++ rest = part.text ++ (spelled parts ++ rest) := by
        rw [spelled, List.flatMap_cons, List.append_assoc]
        rfl
      rw [hsplit, List.flatMap_cons, List.append_assoc]
      cases part with
      | fixed text =>
          obtain ⟨hjoins, hparts⟩ := h
          rw [Part.text, tokens_fixed ((hhead parts).symm ▸ hjoins), ih hparts]
          rfl
      | number digits =>
          obtain ⟨hne, hdigits, hstop, hparts⟩ := h
          rw [Part.text, tokens_of_next (next_number hne hdigits ((hhead parts).symm ▸ hstop)), ih hparts]
          rfl
      | quoted q value =>
          obtain ⟨hq, hvalue, hstop, hparts⟩ := h
          have hnext := next_doubled hq hvalue ((hhead parts).symm ▸ hstop)
          rw [Part.text, List.cons_append, List.append_assoc, List.singleton_append,
            tokens_of_next hnext, ih hparts]
          rfl

theorem spelled_append (parts more : List Part) : spelled (parts ++ more) = spelled parts ++ spelled more :=
  List.flatMap_append

theorem head_append (parts more : List Part) (after : Option UInt8) :
    head (parts ++ more) after = head parts (head more after) := by
  rw [head, head, head, spelled_append, List.head?_append, Option.or_assoc]

theorem woven_append {parts more : List Part} {after : Option UInt8} :
    Woven (parts ++ more) after ↔ Woven parts (head more after) ∧ Woven more after := by
  induction parts with
  | nil => exact ⟨fun h => ⟨trivial, h⟩, And.right⟩
  | cons part parts ih =>
      cases part <;> simp only [List.cons_append, Woven, head_append, ih, and_assoc]

-- Items that start with the same byte.
theorem woven_flatMap {α : Type} {parts : α → List Part} {items : List α} {after : Option UInt8} {b : UInt8}
    (hhead : ∀ item ∈ items, ∀ after, head (parts item) after = some b)
    (hitems : ∀ item ∈ items, Woven (parts item) (some b) ∧ Woven (parts item) after) :
    Woven (items.flatMap parts) after := by
  induction items with
  | nil => exact trivial
  | cons item items ih =>
      have hrest := ih (fun other hmem => hhead other (List.mem_cons_of_mem _ hmem))
        fun other hmem => hitems other (List.mem_cons_of_mem _ hmem)
      have hitem := hitems item List.mem_cons_self
      rw [List.flatMap_cons, woven_append]
      refine ⟨?_, hrest⟩
      cases items with
      | nil => exact hitem.2
      | cons next items =>
          rw [List.flatMap_cons, head_append, hhead next (List.mem_cons_of_mem _ List.mem_cons_self)]
          exact hitem.1

-- What remains of a text without the values between its quotes.

def Token.outline : Token → Token
  | .name _ => .name []
  | .string _ => .string []
  | token => token

def outline (z : Bytes) : List Token := (tokens z).map Token.outline

def Part.outline : Part → Part
  | .quoted q _ => .quoted q []
  | part => part

def Part.NulFree : Part → Prop
  | .quoted _ value => (0 : UInt8) ∉ value
  | _ => True

theorem head_cons (part : Part) (parts : List Part) (after : Option UInt8) :
    head (part :: parts) after = part.text.head?.or (head parts after) := by
  rw [head, head, spelled, List.flatMap_cons, List.head?_append, Option.or_assoc]
  rfl

theorem head_outline (parts : List Part) (after : Option UInt8) :
    head (parts.map Part.outline) after = head parts after := by
  induction parts with
  | nil => rfl
  | cons part parts ih =>
      rw [List.map_cons, head_cons, head_cons, ih]
      cases part <;> rfl

-- Whether parts fit does not depend on the values between the quotes.
theorem woven_outline {parts : List Part} {after : Option UInt8} (h : Woven (parts.map Part.outline) after)
    (hvalues : ∀ part ∈ parts, part.NulFree) : Woven parts after := by
  induction parts with
  | nil => exact trivial
  | cons part parts ih =>
      have hrest (hparts : Woven (parts.map Part.outline) after) : Woven parts after :=
        ih hparts fun other hmem => hvalues other (List.mem_cons_of_mem _ hmem)
      have hpart := hvalues part List.mem_cons_self
      cases part with
      | fixed text =>
          obtain ⟨hjoins, hparts⟩ := h
          exact ⟨head_outline parts after ▸ hjoins, hrest hparts⟩
      | number digits =>
          obtain ⟨hne, hdigits, hstop, hparts⟩ := h
          exact ⟨hne, hdigits, head_outline parts after ▸ hstop, hrest hparts⟩
      | quoted q value =>
          obtain ⟨hq, _, hstop, hparts⟩ := h
          exact ⟨hq, hpart, head_outline parts after ▸ hstop, hrest hparts⟩

theorem outline_part (part : Part) : part.tokens.map Token.outline = part.outline.tokens.map Token.outline := by
  cases part with
  | fixed text => rfl
  | number digits => rfl
  | quoted q value =>
      simp only [Part.tokens, Part.outline, quotedToken, List.map_cons, List.map_nil]
      split_ifs <;> rfl

theorem Woven.outline {parts : List Part} (h : Woven parts none) :
    outline (spelled parts) = (parts.map Part.outline).flatMap fun part => part.tokens.map Token.outline := by
  have htokens := @Woven.tokens parts [] h
  rw [List.append_nil, tokens_nil, List.append_nil] at htokens
  rw [Sql.outline, htokens, List.map_flatMap, List.flatMap_map]
  exact List.flatMap_congr fun part _ => outline_part part

theorem Woven.outline_eq {parts more : List Part} (h : Woven parts none) (h' : Woven more none)
    (hsame : parts.map Part.outline = more.map Part.outline) :
    Sql.outline (spelled parts) = Sql.outline (spelled more) := by
  rw [h.outline, h'.outline, hsame]

-- Items with a fixed text between them.
def separated (separator : Bytes) : List (List Part) → List Part
  | [] => []
  | first :: items => first ++ items.flatMap fun item => .fixed separator :: item

theorem head_separated {separator : Bytes} {first : List Part} {items : List (List Part)}
    {after : Option UInt8} {b : UInt8}
    (h : (spelled first).head? = some b) : head (separated separator (first :: items)) after = some b := by
  rw [separated, head_append, head, h, Option.some_or]

theorem woven_separated {separator : Bytes} {mark : UInt8} {items : List (List Part)} {after : Option UInt8}
    (hmark : separator.head? = some mark)
    (hitems : ∀ item ∈ items, Woven item (some mark) ∧ Woven item after ∧
      ∃ b, (spelled item).head? = some b ∧ joinsNext separator (some b) = true) :
    Woven (separated separator items) after := by
  cases items with
  | nil => exact trivial
  | cons first items =>
      have hhead (item : List Part) (after : Option UInt8) : head (.fixed separator :: item) after =
        some mark := by
        rw [head_cons, Part.text, hmark, Option.some_or]
      have hfixed (item : List Part) (hitem : item ∈ items) (after : Option UInt8) (h : Woven item after) :
          Woven (.fixed separator :: item) after := by
        obtain ⟨-, -, b, hb, hjoins⟩ := hitems item (List.mem_cons_of_mem _ hitem)
        refine ⟨?_, h⟩
        rw [head, hb]
        exact hjoins
      rw [separated, woven_append]
      constructor
      · cases items with
        | nil => exact (hitems first List.mem_cons_self).2.1
        | cons second items =>
            rw [List.flatMap_cons, head_append, hhead]
            exact (hitems first List.mem_cons_self).1
      · refine woven_flatMap (fun item _ after => hhead item after) fun item hitem => ?_
        obtain ⟨hnext, hlast, -⟩ := hitems item (List.mem_cons_of_mem _ hitem)
        exact ⟨hfixed item hitem _ hnext, hfixed item hitem _ hlast⟩

theorem outline_separated (separator : Bytes) (items : List (List Part)) :
    (separated separator items).map Part.outline =
    separated separator (items.map fun item => item.map Part.outline) := by
  cases items with
  | nil => rfl
  | cons first items =>
      rw [separated, List.map_append, List.map_flatMap, List.map_cons, separated, List.flatMap_map]
      rfl

-- A value between quotes that stand at the boundary of a token is replaced without a change
-- elsewhere.
theorem tokens_replaced {q : UInt8} {front z value rest : Bytes} {read : List Token} (hq : isQuote q = true)
    (hfront : Reads (front ++ q :: z) read (q :: z)) (hvalue : (0 : UInt8) ∉ value)
    (hrest : rest.head? ≠ some q) :
    tokens (front ++ q :: (doubled q value ++ q :: rest)) = read ++ quotedToken q value :: tokens rest := by
  rw [(hfront.replaced (quote_mem_breaks hq) _).tokens, tokens_of_next (next_doubled hq hvalue hrest)]
  rfl

end Library.Sql
