import MeldStore.Library.Json.Trees

namespace Library.Json

def isCodePoint (n : ℕ) : Bool := n < 0x110000

def isLexeme (lexeme : List Char) : Bool := number lexeme == some (lexeme, [])

-- What can be written and read back: numbers in the grammar, no NaN or infinity.
def Tree.writable (tree : Tree) : Bool := tree.all (·.all isCodePoint) isLexeme

-- Strings

-- The units a code point is escaped as.
def units (n : ℕ) : Str :=
  if n < 65536 then [n] else [0xd800 + (n - 0x10000) / 1024, 0xdc00 + (n - 0x10000) % 1024]

theorem hexDigit_hexChar (n : ℕ) : hexDigit (hexChar n) = some (n % 16) := by
  have hall : ∀ m < 16, hexDigit (Nat.digitChar m) = some m := by decide
  exact hall _ (Nat.mod_lt _ (by decide))

theorem stringUnits_escapeUnit {n : ℕ} (h : n < 65536) (text : List Char) :
    stringUnits (escapeUnit n ++ text) = (stringUnits text).map fun read => (n :: read.1, read.2) := by
  have hn : ((n / 4096 % 16 * 16 + n / 256 % 16) * 16 + n / 16 % 16) * 16 + n % 16 = n := by omega
  simp only [escapeUnit, List.cons_append, List.nil_append, stringUnits, hexDigit_hexChar, Option.bind_eq_bind,
    Option.bind_some, hn]
  cases stringUnits text <;> rfl

theorem stringUnits_plain {c : Char} (h : 32 ≤ c.toNat) (hquote : c ≠ '"') (hslash : c ≠ '\\')
    (text : List Char) :
    stringUnits (c :: text) = (stringUnits text).map fun read => (c.toNat :: read.1, read.2) := by
  have hread : ¬(c.toNat < 32 ∨ c = '\\') := by
    rintro (hlow | rfl)
    · omega
    · exact hslash rfl
  rw [stringUnits]
  · rw [if_neg hread]
    cases stringUnits text <;> rfl
  all_goals grind

theorem stringUnits_escaped {e : Char} {unit : ℕ} (he : escapeValue e = some unit) (hu : e ≠ 'u')
    (text : List Char) :
    stringUnits ('\\' :: e :: text) = (stringUnits text).map fun read => (unit :: read.1, read.2) := by
  rw [stringUnits]
  · simp only [he, Option.bind_eq_bind, Option.bind_some]
    cases stringUnits text <;> rfl
  · grind

theorem stringUnits_escapeCodePoint {n : ℕ} (h : n < 0x110000) (text : List Char) :
    stringUnits (escapeCodePoint n ++ text) = (stringUnits text).map fun read =>
    (units n ++ read.1, read.2) := by
  have hshort : ∀ m, m < 65536 → units m = [m] := fun m hm => if_pos hm
  unfold escapeCodePoint
  split_ifs with hquote hslash hn hr ht hf hb hplain hsmall
  · subst hquote
    exact stringUnits_escaped rfl (by decide) text
  · subst hslash
    exact stringUnits_escaped rfl (by decide) text
  · subst hn
    exact stringUnits_escaped rfl (by decide) text
  · subst hr
    exact stringUnits_escaped rfl (by decide) text
  · subst ht
    exact stringUnits_escaped rfl (by decide) text
  · subst hf
    exact stringUnits_escaped rfl (by decide) text
  · subst hb
    exact stringUnits_escaped rfl (by decide) text
  · have hascii : ∀ m < 127, (Char.ofNat m).toNat = m := by decide
    have hchar := hascii n (by omega)
    rw [hshort n (by omega)]
    have hread :=
      stringUnits_plain (c := Char.ofNat n) (by omega) (fun he => hquote ?_) (fun he => hslash ?_) text
    · rw [hchar] at hread
      exact hread
    · rw [← hchar, he]
      rfl
    · rw [← hchar, he]
      rfl
  · rw [hshort n hsmall]
    exact stringUnits_escapeUnit hsmall text
  · rw [List.append_assoc, stringUnits_escapeUnit (by omega), stringUnits_escapeUnit (by omega), Option.map_map,
      units, if_neg hsmall]
    rfl

theorem stringUnits_quoted {s : Str} (h : s.all isCodePoint = true) (rest : List Char) :
    stringUnits (s.flatMap escapeCodePoint ++ '"' :: rest) = some (s.flatMap units, rest) := by
  induction s with
  | nil => simp [stringUnits]
  | cons n s ih =>
      rw [List.all_cons, Bool.and_eq_true] at h
      rw [List.flatMap_cons, List.append_assoc, stringUnits_escapeCodePoint (by simpa [isCodePoint] using h.1),
        ih h.2]
      rfl

-- A unit that is not a high surrogate before a low one stays as it is.
theorem joinSurrogates_cons {n : ℕ} {s : Str} (h : ∀ low ∈ s.head?, ¬(isHigh n = true ∧ isLow low = true)) :
    joinSurrogates (n :: s) = n :: joinSurrogates s := by
  cases s with
  | nil => rfl
  | cons low s =>
      rw [joinSurrogates, if_neg]
      simpa using h low rfl

theorem units_large {n : ℕ} (h : ¬n < 65536) :
    units n = [0xd800 + (n - 0x10000) / 1024, 0xdc00 + (n - 0x10000) % 1024] := if_neg h

theorem joinSurrogates_large {n : ℕ} (hn : isCodePoint n = true) (hlarge : ¬n < 65536) (s : Str) :
    joinSurrogates (units n ++ s) = n :: joinSurrogates s := by
  rw [isCodePoint, decide_eq_true_eq] at hn
  have hjoin : 0x10000 + (0xd800 + (n - 0x10000) / 1024 - 0xd800) * 1024 +
      (0xdc00 + (n - 0x10000) % 1024 - 0xdc00) = n := by omega
  have hhigh : isHigh (0xd800 + (n - 0x10000) / 1024) = true := by
    simp only [isHigh, Bool.and_eq_true, decide_eq_true_eq]
    omega
  have hlow : isLow (0xdc00 + (n - 0x10000) % 1024) = true := by
    simp only [isLow, Bool.and_eq_true, decide_eq_true_eq]
    omega
  rw [units_large hlarge]
  simp only [List.cons_append, List.nil_append, joinSurrogates, hhigh, hlow, Bool.and_self, if_true, hjoin]

theorem head?_units {n : ℕ} {s : Str} {low : ℕ} (hn : isCodePoint n = true)
    (h : low ∈ ((n :: s).flatMap units).head?) (hlow : isLow low = true) : low = n := by
  rw [isCodePoint, decide_eq_true_eq] at hn
  rw [List.flatMap_cons, units] at h
  split_ifs at h with hsmall
  · simpa using h.symm
  · simp only [List.cons_append, List.head?_cons, Option.mem_some_iff] at h
    simp only [isLow, Bool.and_eq_true, decide_eq_true_eq] at hlow
    omega

-- Escaping splits what reading joins.
theorem joinSurrogates_units {s : Str} (h : s.all isCodePoint = true) :
    joinSurrogates (s.flatMap units) = joinSurrogates s := by
  fun_induction joinSurrogates s with
  | case1 high low rest hpair ih =>
      simp only [List.all_cons, Bool.and_eq_true] at h
      simp only [isHigh, isLow, Bool.and_eq_true, decide_eq_true_eq] at hpair
      rw [List.flatMap_cons, List.flatMap_cons, units, if_pos (by omega), units, if_pos (by omega)]
      simp only [List.cons_append, List.nil_append, joinSurrogates, isHigh, isLow, Bool.and_eq_true,
        decide_eq_true_eq, hpair, and_self, if_true, ih h.2.2]
  | case2 high low rest hpair ih =>
      rw [List.all_cons, Bool.and_eq_true] at h
      rw [List.flatMap_cons, units]
      split_ifs with hsmall
      · rw [List.singleton_append, joinSurrogates_cons, ih h.2]
        rintro next hnext ⟨hhigh, hlow⟩
        rw [List.all_cons, Bool.and_eq_true] at h
        rw [head?_units h.2.1 hnext hlow] at hlow
        exact hpair (by simp [hhigh, hlow])
      · rw [← units_large hsmall, joinSurrogates_large h.1 hsmall, ih h.2]
  | case3 rest hshort =>
      match rest, hshort with
      | [], _ => rfl
      | [n], _ =>
          rw [List.all_cons, Bool.and_eq_true] at h
          rw [List.flatMap_singleton, units]
          split_ifs with hsmall
          · rfl
          · rw [← units_large hsmall, ← List.append_nil (units n), joinSurrogates_large h.1 hsmall]
            rfl
      | high :: low :: rest, hshort => exact absurd rfl (hshort high low rest)

theorem head?_joinSurrogates {n low : ℕ} {s : Str} (h : n ∈ (joinSurrogates (low :: s)).head?)
    (hlow : isLow n = true) : n = low := by
  simp only [isLow, Bool.and_eq_true, decide_eq_true_eq] at hlow
  cases s with
  | nil => simpa [joinSurrogates] using h.symm
  | cons next s =>
      rw [joinSurrogates] at h
      split at h
      · simp only [List.head?_cons, Option.mem_some_iff] at h
        omega
      · simpa using h.symm

theorem joinSurrogates_joinSurrogates (s : Str) : joinSurrogates (joinSurrogates s) = joinSurrogates s := by
  fun_induction joinSurrogates s with
  | case1 high low rest hpair ih =>
      rw [joinSurrogates_cons, ih]
      rintro next _ ⟨hhigh, _⟩
      simp only [isHigh, Bool.and_eq_true, decide_eq_true_eq] at hhigh
      omega
  | case2 high low rest hpair ih =>
      rw [joinSurrogates_cons, ih]
      rintro next hnext ⟨hhigh, hlow⟩
      rw [head?_joinSurrogates hnext hlow] at hlow
      exact hpair (by simp [hhigh, hlow])
  | case3 rest hshort =>
      match rest, hshort with
      | [], _ => rfl
      | [n], _ => rfl
      | high :: low :: rest, hshort => exact absurd rfl (hshort high low rest)

-- Numbers

def headIsNot (p : Char → Bool) (text : List Char) : Prop := ∀ c ∈ text.head?, p c = false

theorem headIsNot_nil (p : Char → Bool) : headIsNot p [] := by simp [headIsNot]

theorem headIsNot_cons {p : Char → Bool} {c : Char} (h : p c = false) (text : List Char) :
    headIsNot p (c :: text) := by
  intro first hfirst
  rw [List.head?_cons, Option.mem_some_iff] at hfirst
  exact hfirst ▸ h

theorem headIsNot_append {p : Char → Bool} {text rest : List Char} (htext : headIsNot p text)
    (hrest : headIsNot p rest) : headIsNot p (text ++ rest) := by
  cases text with
  | nil => exact hrest
  | cons c text => exact htext

theorem headIsNot_imp {p q : Char → Bool} {text : List Char} (himp : ∀ c, q c = false → p c = false)
    (h : headIsNot q text) : headIsNot p text := fun c hc => himp c (h c hc)

-- A character that goes on with a number.
def continues (c : Char) : Bool := isDigit c || c == '.' || c == 'e' || c == 'E'

theorem headIsNot_digit {text : List Char} (h : headIsNot continues text) : headIsNot isDigit text := by
  refine headIsNot_imp (fun c hc => ?_) h
  simp only [continues, Bool.or_eq_false_iff] at hc
  exact hc.1.1.1

theorem digits_append {ds rest : List Char} (hds : ds.all isDigit = true) (hrest : headIsNot isDigit rest) :
    digits (ds ++ rest) = (ds, rest) := by
  rw [List.all_eq_true] at hds
  have htake : rest.takeWhile isDigit = [] := by
    cases rest with
    | nil => rfl
    | cons c rest => simp [hrest c rfl]
  have hdrop : rest.dropWhile isDigit = rest := by
    cases rest with
    | nil => rfl
    | cons c rest => simp [hrest c rfl]
  rw [digits, List.takeWhile_append_of_pos hds, List.dropWhile_append_of_pos hds, htake, hdrop, List.append_nil]

theorem digits_split (text : List Char) :
    text = (digits text).1 ++ (digits text).2 ∧ (digits text).1.all isDigit = true :=
  ⟨List.takeWhile_append_dropWhile.symm, List.all_takeWhile⟩

theorem integerPart_split {text whole after : List Char} (h : integerPart text = some (whole, after)) :
    text = whole ++ after ∧ (∃ d ds, whole = d :: ds ∧ isDigit d = true) ∧
      ∀ rest, headIsNot isDigit rest → integerPart (whole ++ rest) = some (whole, rest) := by
  unfold integerPart at h
  split at h
  · obtain ⟨rfl, rfl⟩ := Prod.mk.inj (Option.some.inj h)
    exact ⟨rfl, ⟨'0', [], rfl, rfl⟩, fun rest _ => rfl⟩
  · rename_i hzero
    obtain ⟨hsplit, hdigits⟩ := digits_split text
    split at h
    · cases h
    · rename_i ds after hne hread
      obtain ⟨rfl, rfl⟩ := Prod.mk.inj (Option.some.inj h)
      rw [hread] at hsplit hdigits
      obtain ⟨d, ds, rfl⟩ := List.exists_cons_of_ne_nil hne
      refine ⟨hsplit, ⟨d, ds, rfl, (Bool.and_eq_true _ _ ▸ List.all_cons ▸ hdigits).1⟩, fun rest hrest => ?_⟩
      rw [integerPart]
      · rw [digits_append hdigits hrest]
      · rintro tail htail
        obtain ⟨rfl, _⟩ := List.cons.inj htail
        exact hzero _ hsplit

theorem fraction_split (text : List Char) :
    text = (fraction text).1 ++ (fraction text).2 ∧ headIsNot isDigit (fraction text).1 ∧
      ∀ rest, headIsNot isDigit rest → headIsNot (· == '.') rest →
        fraction ((fraction text).1 ++ rest) = ((fraction text).1, rest) := by
  have hnone : ∀ rest, headIsNot (· == '.') rest → fraction rest = ([], rest) := by
    intro rest hrest
    rw [fraction]
    rintro tail rfl
    exact absurd (hrest '.' rfl) (by decide)
  unfold fraction
  split
  · rename_i rest
    obtain ⟨hsplit, hdigits⟩ := digits_split rest
    split
    · exact ⟨rfl, headIsNot_nil _, fun rest _ hdot => hnone rest hdot⟩
    · rename_i ds after hne hread
      rw [hread] at hsplit hdigits
      obtain ⟨d, ds, rfl⟩ := List.exists_cons_of_ne_nil hne
      refine ⟨congrArg _ hsplit, headIsNot_cons rfl _, fun rest hrest _ => ?_⟩
      have hdigits : digits (d :: (ds ++ rest)) = (d :: ds, rest) := digits_append hdigits hrest
      simp only [List.cons_append, hdigits]
  · exact ⟨rfl, headIsNot_nil _, fun rest _ hdot => hnone rest hdot⟩

theorem exponentSign_split (text : List Char) :
    text = (exponentSign text).1 ++ (exponentSign text).2 ∧
      ∀ d ds, isDigit d = true → exponentSign ((exponentSign text).1 ++ d :: ds) =
        ((exponentSign text).1, d :: ds) := by
  unfold exponentSign
  split
  · exact ⟨rfl, fun _ _ _ => rfl⟩
  · exact ⟨rfl, fun _ _ _ => rfl⟩
  · refine ⟨rfl, fun d ds hd => ?_⟩
    simp only [List.nil_append]
    split
    · rename_i hread
      obtain ⟨rfl, _⟩ := List.cons.inj hread
      exact absurd hd (by decide)
    · rename_i hread
      obtain ⟨rfl, _⟩ := List.cons.inj hread
      exact absurd hd (by decide)
    · rfl

theorem exponent_split (text : List Char) :
    text = (exponent text).1 ++ (exponent text).2 ∧
    headIsNot (fun c => isDigit c || c == '.') (exponent text).1 ∧
      ∀ rest, headIsNot continues rest → exponent ((exponent text).1 ++ rest) = ((exponent text).1, rest) := by
  have hnone : ∀ rest, headIsNot continues rest → exponent rest = ([], rest) := by
    intro rest hrest
    cases rest with
    | nil => rfl
    | cons c rest =>
        have hc := hrest c rfl
        simp only [continues, Bool.or_eq_false_iff, beq_eq_false_iff_ne, ne_eq] at hc
        rw [exponent, if_neg (by tauto)]
  cases text with
  | nil => exact ⟨rfl, headIsNot_nil _, hnone⟩
  | cons c rest =>
      unfold exponent
      simp only
      split_ifs with hc
      · obtain ⟨hsign, hkeeps⟩ := exponentSign_split rest
        obtain ⟨hsplit, hdigits⟩ := digits_split (exponentSign rest).2
        split
        · exact ⟨rfl, headIsNot_nil _, hnone⟩
        · rename_i ds after hne hread
          rw [hread] at hsplit hdigits
          obtain ⟨d, ds, rfl⟩ := List.exists_cons_of_ne_nil hne
          refine ⟨?_, ?_, fun next hnext => ?_⟩
          · rw [hsplit] at hsign
            simpa using hsign
          · rcases hc with rfl | rfl <;> exact headIsNot_cons rfl _
          · have hd : isDigit d = true := by
              rw [List.all_cons, Bool.and_eq_true] at hdigits
              exact hdigits.1
            have hnext := digits_append hdigits (headIsNot_digit hnext)
            simp only [List.cons_append, List.append_assoc] at hnext ⊢
            rw [if_pos hc, hkeeps d _ hd]
            simp only [hnext]
      · exact ⟨rfl, headIsNot_nil _, hnone⟩

theorem unsigned_split {text lexeme after : List Char} (h : unsigned text = some (lexeme, after)) :
    text = lexeme ++ after ∧ (∃ d ds, lexeme = d :: ds ∧ isDigit d = true) ∧
      ∀ rest, headIsNot continues rest → unsigned (lexeme ++ rest) = some (lexeme, rest) := by
  simp only [unsigned, Option.bind_eq_bind, Option.bind_eq_some_iff, Option.some.injEq, Prod.mk.injEq] at h
  obtain ⟨⟨whole, text⟩, hwhole, rfl, rfl⟩ := h
  obtain ⟨rfl, ⟨d, ds, hhead, hd⟩, hkeepsWhole⟩ := integerPart_split hwhole
  obtain ⟨hfrac, hfracHead, hkeepsFrac⟩ := fraction_split text
  obtain ⟨hexp, hexpHead, hkeepsExp⟩ := exponent_split (fraction text).2
  refine ⟨?_, ⟨d, _, by rw [hhead]; rfl, hd⟩, fun rest hrest => ?_⟩
  · rw [List.append_assoc, List.append_assoc, ← hexp, ← hfrac]
  · have hdigit : headIsNot isDigit ((exponent (fraction text).2).1 ++ rest) :=
      headIsNot_append (headIsNot_imp (fun c hc => (Bool.or_eq_false_iff.mp hc).1) hexpHead)
        (headIsNot_digit hrest)
    have hdot : headIsNot (· == '.') ((exponent (fraction text).2).1 ++ rest) := by
      refine headIsNot_append (headIsNot_imp (fun c hc => (Bool.or_eq_false_iff.mp hc).2) hexpHead)
        (headIsNot_imp (fun c hc => ?_) hrest)
      simp only [continues, Bool.or_eq_false_iff] at hc
      exact hc.1.1.2
    rw [List.append_assoc, List.append_assoc, unsigned, hkeepsWhole _ (headIsNot_append hfracHead hdigit)]
    simp only [Option.bind_eq_bind, Option.bind_some, hkeepsFrac _ hdigit hdot, hkeepsExp rest hrest,
      List.append_assoc]

theorem number_split {text lexeme after : List Char} (h : number text = some (lexeme, after)) :
    text = lexeme ++ after ∧ ∀ rest, headIsNot continues rest → number (lexeme ++ rest) =
      some (lexeme, rest) := by
  unfold number at h
  split at h
  · simp only [Option.bind_eq_bind, Option.bind_eq_some_iff, Option.some.injEq, Prod.mk.injEq] at h
    obtain ⟨⟨lexeme, after⟩, hread, rfl, rfl⟩ := h
    obtain ⟨rfl, _, hkeeps⟩ := unsigned_split hread
    refine ⟨rfl, fun rest hrest => ?_⟩
    simp [number, hkeeps rest hrest]
  · obtain ⟨rfl, ⟨d, ds, rfl, hd⟩, hkeeps⟩ := unsigned_split h
    refine ⟨rfl, fun rest hrest => ?_⟩
    rw [number]
    · exact hkeeps rest hrest
    · rintro tail htail
      obtain ⟨rfl, _⟩ := List.cons.inj htail
      exact absurd hd (by decide)

theorem number_append {lexeme rest : List Char} (h : isLexeme lexeme = true)
    (hrest : headIsNot continues rest) :
    number (lexeme ++ rest) = some (lexeme, rest) :=
  (number_split (beq_iff_eq.mp h)).2 rest hrest

-- Trees

theorem number_head {text lexeme after : List Char} (h : number text = some (lexeme, after)) :
    (∃ d ds, text = d :: ds ∧ isDigit d = true) ∨ ∃ d ds, text = '-' :: d :: ds ∧ isDigit d = true := by
  unfold number at h
  split at h
  · simp only [Option.bind_eq_bind, Option.bind_eq_some_iff] at h
    obtain ⟨⟨lexeme, after⟩, hread, _⟩ := h
    obtain ⟨rfl, ⟨d, ds, rfl, hd⟩, _⟩ := unsigned_split hread
    exact Or.inr ⟨d, _, rfl, hd⟩
  · obtain ⟨rfl, ⟨d, ds, rfl, hd⟩, _⟩ := unsigned_split h
    exact Or.inl ⟨d, _, rfl, hd⟩

theorem ne_of_isDigit {d : Char} (hd : isDigit d = true) (c : Char) (hc : isDigit c = false) : d ≠ c := by
  rintro rfl
  rw [hd] at hc
  cases hc

theorem scalar_number {text lexeme after : List Char} (h : number text = some (lexeme, after)) :
    scalar text = some (.num lexeme, after) := by
  have hliteral : literals.find? (fun literal => literal.1.isPrefixOf text) = none := by
    rcases number_head h with ⟨d, ds, rfl, hd⟩ | ⟨d, ds, rfl, hd⟩ <;>
      · have hwords : ['n', 't', 'f', 'N', 'I', '-'].all (fun c => !isDigit c) = true := rfl
        have hne : ∀ c ∈ ['n', 't', 'f', 'N', 'I', '-'], c ≠ d := fun c hc =>
          (ne_of_isDigit hd c (Bool.not_eq_true' _ ▸ List.all_eq_true.mp hwords c hc)).symm
        simp only [List.mem_cons, List.not_mem_nil, or_false, forall_eq_or_imp, forall_eq] at hne
        simp [literals, List.isPrefixOf, hne]
  rw [scalar, hliteral]
  simp [h]

theorem value_number {text lexeme after : List Char} (h : number text = some (lexeme, after)) (fuel : ℕ) :
    value (fuel + 1) text = some (.num lexeme, after) := by
  have hopens : ∀ c, isDigit c = false → c ≠ '-' → ∀ rest, text ≠ c :: rest := by
    rintro c hc hminus rest rfl
    rcases number_head h with ⟨d, ds, he, hd⟩ | ⟨d, ds, he, hd⟩
    · exact ne_of_isDigit hd c hc (List.cons.inj he).1.symm
    · exact hminus (List.cons.inj he).1
  rw [value]
  · exact scalar_number h
  · exact hopens '"' (by decide) (by decide)
  · exact hopens '[' (by decide) (by decide)
  · exact hopens '{' (by decide) (by decide)

theorem dumps_head {tree : Tree} (h : tree.writable = true) :
    ∃ c text, dumps tree = c :: text ∧ isBlank c = false ∧ c ≠ ']' := by
  cases tree with
  | null => exact ⟨'n', _, rfl, by decide⟩
  | bool b =>
      cases b
      · exact ⟨'f', _, rfl, by decide⟩
      · exact ⟨'t', _, rfl, by decide⟩
  | num lexeme =>
      rcases number_head (beq_iff_eq.mp h) with ⟨d, ds, rfl, hd⟩ | ⟨d, ds, rfl, hd⟩
      · have hne := ne_of_isDigit hd
        refine ⟨d, ds, rfl, ?_, hne ']' (by decide)⟩
        simp [isBlank, hne ' ' (by decide), hne '\t' (by decide), hne '\n' (by decide), hne '\r' (by decide)]
      · exact ⟨'-', _, rfl, by decide⟩
  | str s => exact ⟨'"', _, rfl, by decide⟩
  | arr items => exact ⟨'[', _, rfl, by decide⟩
  | obj members => exact ⟨'{', _, rfl, by decide⟩

theorem skipBlanks_cons {c : Char} (h : isBlank c = false) (text : List Char) :
    skipBlanks (c :: text) = c :: text := by
  rw [skipBlanks, h]
  rfl

theorem dumpsItems_cons (item next : Tree) (items : List Tree) :
    dumpsItems (item :: next :: items) = dumps item ++ ',' :: dumpsItems (next :: items) := by
  rw [dumpsItems]
  simp

theorem dumpsMembers_cons (key : Str) (item : Tree) (next : Str × Tree) (members : List (Str × Tree)) :
    dumpsMembers ((key, item) :: next :: members) =
      quoted key ++ ':' :: dumps item ++ ',' :: dumpsMembers (next :: members) := by
  rw [dumpsMembers]
  simp

theorem dumpsItems_head {item : Tree} (h : item.writable = true) (items : List Tree) :
    ∃ c text, dumpsItems (item :: items) = c :: text ∧ isBlank c = false ∧ c ≠ ']' := by
  obtain ⟨c, text, htext, hblank, hclose⟩ := dumps_head h
  cases items with
  | nil => exact ⟨c, text, htext, hblank, hclose⟩
  | cons next items => exact ⟨c, _, by rw [dumpsItems_cons, htext]; rfl, hblank, hclose⟩

theorem dumpsMembers_head (member : Str × Tree) (members : List (Str × Tree)) :
    ∃ text, dumpsMembers (member :: members) = '"' :: text := by
  obtain ⟨key, item⟩ := member
  cases members with
  | nil => exact ⟨_, rfl⟩
  | cons next members => exact ⟨_, by rw [dumpsMembers_cons]; rfl⟩

theorem value_array {c : Char} (hblank : isBlank c = false) (hclose : c ≠ ']') (fuel : ℕ) (text : List Char) :
    value (fuel + 1) ('[' :: c :: text) = (elements fuel (c :: text)).map fun read =>
    (.arr read.1, read.2) := by
  rw [value, skipBlanks_cons hblank]
  split
  · rename_i hhead
    exact absurd (List.cons.inj hhead).1 hclose
  · cases elements fuel (c :: text) <;> rfl

theorem value_object (fuel : ℕ) (text : List Char) :
    value (fuel + 1) ('{' :: '"' :: text) = (entries fuel ('"' :: text)).map fun read =>
    (.obj read.1, read.2) := by
  rw [value, skipBlanks_cons (by decide)]
  split
  · rename_i hhead
    exact absurd (List.cons.inj hhead).1 (by decide)
  · cases entries fuel ('"' :: text) <;> rfl

-- The key of a member and the colon after it.
theorem entries_key {key : Str} (hkey : key.all isCodePoint = true) {c : Char} (hblank : isBlank c = false)
    (fuel : ℕ) (text : List Char) :
    entries (fuel + 1) (quoted key ++ ':' :: c :: text) = (do
      let (item, rest) ← value fuel (c :: text)
      match skipBlanks rest with
      | '}' :: after => some ([(joinSurrogates key, item)], after)
      | ',' :: rest => do
          let (members, after) ← entries fuel (skipBlanks rest)
          some ((joinSurrogates key, item) :: members, after)
      | _ => none) := by
  have hunits := stringUnits_quoted hkey (':' :: c :: text)
  conv_lhs =>
    simp only [quoted, List.cons_append, List.append_assoc, List.nil_append, entries, hunits,
      Option.bind_eq_bind,
      Option.bind_some, skipBlanks_cons (c := ':') rfl, skipBlanks_cons hblank, joinSurrogates_units hkey]
  rfl

mutual

-- The induction is on the tree; `size` bounds the nesting of the calls.
theorem value_dumps (tree : Tree) (h : tree.writable = true) (fuel : ℕ) (hfuel : size tree ≤ fuel)
    {rest : List Char} (hrest : headIsNot continues rest) :
    value fuel (dumps tree ++ rest) = some (tree.map joinSurrogates id, rest) := by
  obtain ⟨fuel, rfl⟩ : ∃ n, fuel = n + 1 := by
    cases tree <;> exact ⟨fuel - 1, by simp only [size] at hfuel; omega⟩
  match tree with
  | .null => rfl
  | .bool true => rfl
  | .bool false => rfl
  | .num lexeme => exact value_number (number_append h hrest) fuel
  | .str s =>
      have hread := stringUnits_quoted (s := s) h rest
      simp only [dumps, quoted, List.cons_append, List.append_assoc, List.nil_append, value, hread,
        Option.bind_eq_bind, Option.bind_some, joinSurrogates_units (s := s) h, Tree.map]
  | .arr [] => rfl
  | .arr (item :: items) =>
      have hitem : item.writable = true := ((Bool.and_eq_true _ _).mp h).1
      obtain ⟨c, text, htext, hblank, hclose⟩ := dumpsItems_head hitem items
      have hread := elements_dumps item items h fuel
        (by simp only [size] at hfuel; omega) rest
      rw [dumps, List.cons_append, List.cons_append, List.append_assoc, List.singleton_append]
      rw [htext, List.cons_append] at hread ⊢
      rw [value_array hblank hclose, hread]
      rfl
  | .obj [] => rfl
  | .obj ((key, item) :: members) =>
      obtain ⟨text, htext⟩ := dumpsMembers_head (key, item) members
      have hread := entries_dumps key item members h fuel
        (by simp only [size] at hfuel; omega) rest
      rw [dumps, List.cons_append, List.cons_append, List.append_assoc, List.singleton_append]
      rw [htext, List.cons_append] at hread ⊢
      rw [value_object, hread]
      rfl
termination_by fuel

theorem elements_dumps (item : Tree) (items : List Tree)
    (h : allItems (·.all isCodePoint) isLexeme (item :: items) = true) (fuel : ℕ)
    (hfuel : sizeItems (item :: items) ≤ fuel) (rest : List Char) :
    elements fuel (dumpsItems (item :: items) ++ ']' :: rest) =
      some (mapItems joinSurrogates id (item :: items), rest) := by
  obtain ⟨fuel, rfl⟩ : ∃ n, fuel = n + 1 := ⟨fuel - 1, by simp only [sizeItems] at hfuel; omega⟩
  simp only [sizeItems] at hfuel
  obtain ⟨hitem, hitems⟩ := (Bool.and_eq_true _ _).mp h
  match items with
  | [] =>
      have hread := value_dumps item hitem fuel (by omega)
        (headIsNot_cons (c := ']') (by decide) rest)
      simp only [dumpsItems, elements, hread, Option.bind_eq_bind, Option.bind_some,
        skipBlanks_cons (c := ']') rfl, mapItems]
  | next :: items =>
      have hnext : next.writable = true := ((Bool.and_eq_true _ _).mp hitems).1
      obtain ⟨c, text, htext, hblank, -⟩ := dumpsItems_head hnext items
      have hread := value_dumps item hitem fuel (by omega)
        (headIsNot_cons (c := ',') (by decide) (dumpsItems (next :: items) ++ ']' :: rest))
      have hmore := elements_dumps next items hitems fuel (by omega) rest
      rw [dumpsItems_cons, List.append_assoc, List.cons_append]
      simp only [elements, hread, Option.bind_eq_bind, Option.bind_some, skipBlanks_cons (c := ',') rfl]
      rw [htext, List.cons_append] at hmore ⊢
      simp only [skipBlanks_cons hblank, hmore, Option.bind_some, mapItems]
termination_by fuel

theorem entries_dumps (key : Str) (item : Tree) (members : List (Str × Tree))
    (h : allMembers (·.all isCodePoint) isLexeme ((key, item) :: members) = true)
    (fuel : ℕ) (hfuel : sizeMembers ((key, item) :: members) ≤ fuel) (rest : List Char) :
    entries fuel (dumpsMembers ((key, item) :: members) ++ '}' :: rest) =
      some (mapMembers joinSurrogates id ((key, item) :: members), rest) := by
  obtain ⟨fuel, rfl⟩ : ∃ n, fuel = n + 1 := ⟨fuel - 1, by simp only [sizeMembers] at hfuel; omega⟩
  simp only [sizeMembers] at hfuel
  simp only [allMembers, Bool.and_eq_true] at h
  obtain ⟨⟨hkey, hitem⟩, hmembers⟩ := h
  obtain ⟨c, text, htext, hblank, -⟩ := dumps_head hitem
  match members with
  | [] =>
      have hread := value_dumps item hitem fuel (by omega)
        (headIsNot_cons (c := '}') (by decide) rest)
      rw [htext, List.cons_append] at hread
      rw [dumpsMembers, htext, List.append_assoc, List.cons_append, List.cons_append, entries_key hkey hblank]
      simp only [hread, Option.bind_eq_bind, Option.bind_some, skipBlanks_cons (c := '}') rfl, mapMembers]
  | (key', item') :: members =>
      obtain ⟨tail, htail⟩ := dumpsMembers_head (key', item') members
      have hread := value_dumps item hitem fuel (by omega)
        (headIsNot_cons (c := ',') (by decide) (dumpsMembers ((key', item') :: members) ++ '}' :: rest))
      have hmore := entries_dumps key' item' members hmembers fuel
        (by omega) rest
      rw [htext, htail, List.cons_append, List.cons_append] at hread
      rw [htail, List.cons_append] at hmore
      rw [dumpsMembers_cons, htext, htail, List.append_assoc, List.append_assoc, List.cons_append,
        List.cons_append, entries_key hkey hblank]
      simp only [List.cons_append, hread, Option.bind_eq_bind, Option.bind_some, skipBlanks_cons (c := ',') rfl,
        skipBlanks_cons (c := '"') rfl, hmore, mapMembers]
termination_by fuel

end

mutual

theorem size_lt (tree : Tree) (h : tree.writable = true) : size tree < 2 * (dumps tree).length := by
  match tree with
  | .null => decide
  | .bool true => decide
  | .bool false => decide
  | .num lexeme =>
      obtain ⟨c, text, htext, _⟩ := dumps_head h
      rw [htext, List.length_cons]
      simp only [size]
      omega
  | .str s =>
      simp only [dumps, quoted, size, List.length_append, List.length_cons]
      omega
  | .arr items =>
      have hitems := sizeItems_le items h
      simp only [dumps, size, List.length_append, List.length_cons]
      omega
  | .obj members =>
      have hmembers := sizeMembers_le members h
      simp only [dumps, size, List.length_append, List.length_cons]
      omega

theorem sizeItems_le (items : List Tree) (h : allItems (·.all isCodePoint) isLexeme items = true) :
    sizeItems items ≤ 2 * (dumpsItems items).length := by
  match items with
  | [] => exact Nat.zero_le _
  | [item] =>
      have hitem := size_lt item ((Bool.and_eq_true _ _).mp h).1
      simp only [sizeItems, dumpsItems]
      omega
  | item :: next :: items =>
      obtain ⟨hitem, hitems⟩ := (Bool.and_eq_true _ _).mp h
      have hsize := size_lt item hitem
      have hrest := sizeItems_le (next :: items) hitems
      rw [dumpsItems_cons, sizeItems, List.length_append, List.length_cons]
      omega

theorem sizeMembers_le (members : List (Str × Tree))
    (h : allMembers (·.all isCodePoint) isLexeme members = true) :
    sizeMembers members ≤ 2 * (dumpsMembers members).length := by
  match members with
  | [] => exact Nat.zero_le _
  | [(key, item)] =>
      simp only [allMembers, Bool.and_eq_true] at h
      have hitem := size_lt item h.1.2
      simp only [sizeMembers, dumpsMembers, List.length_append, List.length_cons]
      omega
  | (key, item) :: next :: members =>
      rw [allMembers, Bool.and_eq_true, Bool.and_eq_true] at h
      have hitem := size_lt item h.1.2
      have hrest := sizeMembers_le (next :: members) h.2
      rw [dumpsMembers_cons, sizeMembers]
      simp only [List.length_append, List.length_cons]
      omega

end

-- What is written is read back; an escaped surrogate pair comes back as one code point.
theorem loads_dumps {tree : Tree} (h : tree.writable = true) :
    loads (dumps tree) = some (tree.map joinSurrogates id) := by
  obtain ⟨c, text, htext, hblank, _⟩ := dumps_head h
  have hskip : skipBlanks (dumps tree) = dumps tree := by rw [htext, skipBlanks_cons hblank]
  have hsize := size_lt tree h
  have hread := value_dumps tree h (2 * (dumps tree).length + 2) (by omega) (headIsNot_nil _)
  rw [List.append_nil] at hread
  rw [loads, hskip, hread]
  rfl

end Library.Json
