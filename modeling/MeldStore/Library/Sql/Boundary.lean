import MeldStore.Library.Sql.Quotes

namespace Library.Sql

-- Quotes, punctuation, digits and the space: what a text reads as up to such a byte does not depend
-- on what is after it.
def breaks : Bytes := [ascii '"', 0x27, 0x60] ++ spell " (),;0123456789"

theorem quote_mem_breaks {q : UInt8} (hq : isQuote q = true) : q ∈ breaks := by
  rcases isQuote_cases hq with rfl | rfl | rfl <;> decide

theorem break_ne {q c : UInt8} (hq : q ∈ breaks) (hc : c ∉ breaks) : q ≠ c := fun hsame => hc (hsame ▸ hq)

-- A token that ends before a break was read from what is before the break.

section

variable {q : UInt8} {u w z : Bytes}

-- What remains of a text that has been read up to a place before the break.
theorem remains {rest : Bytes} (h : rest <:+ u ++ q :: z) (hlength : z.length < rest.length) :
    ∃ v, rest = v ++ q :: z := by
  obtain ⟨front, hfront⟩ := h
  have hsuffix : q :: z <:+ rest :=
    List.suffix_of_suffix_length_le ⟨u, rfl⟩ ⟨front, hfront⟩ (by rw [List.length_cons]; omega)
  obtain ⟨v, hv⟩ := hsuffix
  exact ⟨v, hv.symm⟩

theorem too_short {rest : Bytes} (h : rest <:+ z) (hsame : rest = w ++ q :: z) : False := by
  have hlength := h.length_le
  rw [hsame, List.length_append, List.length_cons] at hlength
  omega

theorem kept {v : Bytes} (h : v ++ q :: z = w ++ q :: z) (z' : Bytes) : v ++ q :: z' = w ++ q :: z' := by
  rw [List.append_cancel_right h]

-- Readers that stop before the break do not see what is after it.
def Local (q : UInt8) (f : Bytes → Bytes) : Prop :=
  (∀ z, f z <:+ z) ∧ ∀ u w z z', f (u ++ q :: z) = w ++ q :: z → f (u ++ q :: z') = w ++ q :: z'

theorem Local.comp {f g : Bytes → Bytes} (hf : Local q f) (hg : Local q g) : Local q fun z => f (g z) := by
  refine ⟨fun z => (hf.1 _).trans (hg.1 z), fun u w z z' h => ?_⟩
  dsimp only at h ⊢
  have hlength : z.length < (g (u ++ q :: z)).length := by
    have hle := (hf.1 (g (u ++ q :: z))).length_le
    rw [h, List.length_append, List.length_cons] at hle
    omega
  obtain ⟨v, hv⟩ := remains (hg.1 _) hlength
  rw [hv] at h
  rw [hg.2 u v z z' hv]
  exact hf.2 v w z z' h

theorem local_dropWhile (p : UInt8 → Bool) : Local q (List.dropWhile p) := by
  refine ⟨fun z => List.dropWhile_suffix p, fun u w z z' h => ?_⟩
  induction u with
  | nil =>
      rw [List.nil_append, List.dropWhile_cons] at h ⊢
      split_ifs at h ⊢
      · exact (too_short (List.dropWhile_suffix p) h).elim
      · have hnil : w = [] := List.self_eq_append_left.mp h
        rw [hnil]
        rfl
  | cons c u ih =>
      rw [List.cons_append, List.dropWhile_cons] at h ⊢
      split_ifs at h ⊢
      · exact ih h
      · have hsame : w = c :: u := (List.append_cancel_right h).symm
        rw [hsame]
        rfl

theorem local_drop (n : ℕ) : Local q (List.drop n) := by
  refine ⟨fun z => List.drop_suffix n z, fun u w z z' h => ?_⟩
  by_cases hn : n ≤ u.length
  · rw [List.drop_append_of_le_length hn] at h ⊢
    rw [List.append_cancel_right h]
  · have hlength := congrArg List.length h
    simp only [List.length_drop, List.length_append, List.length_cons] at hlength
    omega

theorem followedBy_append (u z z' : Bytes) (p : UInt8 → Bool) :
    followedBy (u ++ q :: z) p = followedBy (u ++ q :: z') p := by
  cases u <;> rfl

theorem before_append (u w z z' : Bytes) :
    before (u ++ q :: z) (w ++ q :: z) = before (u ++ q :: z') (w ++ q :: z') := by
  have hcount : u.length - w.length ≤ u.length := Nat.sub_le _ _
  simp only [before, List.length_append, Nat.add_sub_add_right]
  rw [List.take_append_of_le_length hcount, List.take_append_of_le_length hcount]

theorem takeWhile_local {p : UInt8 → Bool} {u w z : Bytes} (h : (u ++ q :: z).dropWhile p = w ++ q :: z)
    (z' : Bytes) :
    (u ++ q :: z').takeWhile p = (u ++ q :: z).takeWhile p := by
  induction u with
  | nil =>
      rw [List.nil_append, List.dropWhile_cons] at h
      split_ifs at h with hp
      · exact (too_short (List.dropWhile_suffix p) h).elim
      · rw [List.nil_append, List.nil_append, List.takeWhile_cons_of_neg hp, List.takeWhile_cons_of_neg hp]
  | cons c u ih =>
      rw [List.cons_append, List.dropWhile_cons] at h
      split_ifs at h with hp
      · rw [List.cons_append, List.cons_append, List.takeWhile_cons_of_pos hp,
          List.takeWhile_cons_of_pos hp, ih h]
      · rw [List.cons_append, List.cons_append, List.takeWhile_cons_of_neg hp, List.takeWhile_cons_of_neg hp]

theorem quoted_local {d : UInt8} {u w z value : Bytes} (z' : Bytes)
    (h : quoted d (u ++ q :: z) = some (value, w ++ q :: z)) :
    quoted d (u ++ q :: z') = some (value, w ++ q :: z') := by
  induction hn : u.length using Nat.strong_induction_on generalizing u value with | _ n ih =>
  match u with
  | [] => exact (too_short (quoted_tail h) rfl).elim
  | c :: u =>
      rw [List.cons_append] at h ⊢
      by_cases hc : c = d
      · subst hc
        match u with
        | [] =>
            rw [List.nil_append] at h ⊢
            by_cases hq : q = c
            · subst hq
              rw [quoted_twice] at h
              obtain ⟨⟨inner, rest⟩, hinner, hsame⟩ := Option.map_eq_some_iff.mp h
              exact (too_short (quoted_suffix hinner) (congrArg Prod.snd hsame)).elim
            · have hclose {z : Bytes} : (q :: z).head? ≠ some c := fun hsame => hq (Option.some.inj hsame)
              rw [quoted_close hclose] at h ⊢
              obtain ⟨hvalue, hrest⟩ := Prod.mk.inj (Option.some.inj h)
              have hnil : w = [] := List.self_eq_append_left.mp hrest
              rw [hnil, ← hvalue]
              rfl
        | e :: u =>
            rw [List.cons_append] at h ⊢
            by_cases he : e = c
            · subst he
              rw [quoted_twice] at h ⊢
              obtain ⟨⟨inner, rest⟩, hinner, hsame⟩ := Option.map_eq_some_iff.mp h
              obtain ⟨hvalue, rfl⟩ := Prod.mk.inj hsame
              rw [ih u.length (by rw [← hn]; simp only [List.length_cons]; omega) hinner rfl, ← hvalue]
              rfl
            · have hclose {z : Bytes} : (e :: z).head? ≠ some c := fun hsame => he (Option.some.inj hsame)
              rw [quoted_close hclose] at h ⊢
              obtain ⟨hvalue, hrest⟩ := Prod.mk.inj (Option.some.inj h)
              rw [← List.cons_append] at hrest
              rw [← hvalue, List.append_cancel_right hrest.symm]
              rfl
      · by_cases hnul : c = 0
        · rw [quoted_nul hc hnul] at h
          cases h
        · rw [quoted_other hc hnul] at h ⊢
          obtain ⟨⟨inner, rest⟩, hinner, hsame⟩ := Option.map_eq_some_iff.mp h
          obtain ⟨hvalue, rfl⟩ := Prod.mk.inj hsame
          rw [ih u.length (by rw [← hn]; simp only [List.length_cons]; omega) hinner rfl, ← hvalue]
          rfl

theorem local_blockRest (hq : q ∈ breaks) : Local q blockRest := by
  have hother : q ≠ 0 ∧ q ≠ ascii '*' ∧ q ≠ ascii '/' :=
    ⟨break_ne hq (by decide), break_ne hq (by decide), break_ne hq (by decide)⟩
  refine ⟨blockRest_suffix, fun u w z z' h => ?_⟩
  induction hn : u.length using Nat.strong_induction_on generalizing u with | _ n ih =>
  match u with
  | [] =>
      rw [List.nil_append, blockRest.eq_def] at h
      simp only [if_neg hother.1, if_neg hother.2.1] at h
      exact (too_short (blockRest_suffix z) h).elim
  | c :: u =>
      rw [List.cons_append, blockRest.eq_def] at h ⊢
      dsimp only at h ⊢
      split_ifs at h ⊢ with hnul hstar
      · rw [← List.cons_append] at h ⊢
        rw [List.append_cancel_right h]
      · match u with
        | [] =>
            simp only [List.nil_append, if_neg hother.2.2] at h ⊢
            exact ih 0 (by rw [← hn]; exact Nat.one_pos) [] h rfl
        | d :: u =>
            simp only [List.cons_append] at h ⊢
            split_ifs at h ⊢
            · rw [List.append_cancel_right h]
            · exact ih (d :: u).length (by rw [← hn]; simp only [List.length_cons]; omega) (d :: u) h rfl
      · exact ih u.length (by rw [← hn]; simp only [List.length_cons]; omega) u h rfl

theorem local_fractionRest (hq : q ∈ breaks) : Local q fractionRest := by
  refine ⟨fractionRest_suffix, fun u w z z' h => ?_⟩
  match u with
  | [] =>
      have hpoint : q ≠ ascii '.' := break_ne hq (by decide)
      rw [List.nil_append, fractionRest, if_neg hpoint] at h ⊢
      rw [show w = [] from List.self_eq_append_left.mp h]
      rfl
  | c :: u =>
      rw [List.cons_append, fractionRest] at h ⊢
      split_ifs at h ⊢
      · exact (local_dropWhile isPlace).2 u w z z' h
      · rw [← List.cons_append] at h ⊢
        rw [List.append_cancel_right h]

theorem local_exponentRest (hq : q ∈ breaks) : Local q exponentRest := by
  refine ⟨exponentRest_suffix, fun u w z z' h => ?_⟩
  have hletter : (q = ascii 'e' || q = ascii 'E') = false :=
    (by decide : ∀ q ∈ breaks, (q = ascii 'e' || q = ascii 'E') = false) q hq
  have hsign : (q = ascii '+' || q = ascii '-') = false :=
    (by decide : ∀ q ∈ breaks, (q = ascii '+' || q = ascii '-') = false) q hq
  match u with
  | [] =>
      simp only [List.nil_append, exponentRest, hletter, Bool.false_eq_true, if_false] at h ⊢
      rw [show w = [] from List.self_eq_append_left.mp h]
      rfl
  | [c] =>
      simp only [List.cons_append, List.nil_append, exponentRest, hsign, Bool.false_and, Bool.false_eq_true,
        if_false] at h ⊢
      split_ifs at h ⊢
      · exact (too_short (List.dropWhile_suffix _) h).elim
      · exact kept (v := [c]) h z'
      · exact kept (v := [c]) h z'
  | c :: d :: u =>
      simp only [List.cons_append, exponentRest, followedBy_append (q := q) u z' z] at h ⊢
      split_ifs at h ⊢
      · exact (local_dropWhile isPlace).2 u w z z' h
      · exact ((local_dropWhile isPlace).comp (local_drop 1)).2 u w z z' h
      · exact kept (v := c :: d :: u) h z'
      · exact kept (v := c :: d :: u) h z'

theorem local_decimalRest (hq : q ∈ breaks) : Local q decimalRest :=
  (local_exponentRest hq).comp ((local_fractionRest hq).comp (local_dropWhile isPlace))

theorem local_numberRest (hq : q ∈ breaks) : Local q numberRest := by
  refine ⟨numberRest_suffix, fun u w z z' h => ?_⟩
  have hx : (q = ascii 'x' || q = ascii 'X') = false :=
    (by decide : ∀ q ∈ breaks, (q = ascii 'x' || q = ascii 'X') = false) q hq
  rcases u with _ | ⟨c, _ | ⟨x, _ | ⟨d, u⟩⟩⟩
  · by_cases hdigit : isDigit q = true
    · exact (too_short (numberRest_tail (.inl hdigit)) h).elim
    · have hzero : q ≠ ascii '0' := fun hsame => hdigit (hsame ▸ rfl)
      have hdecimal (z : Bytes) : numberRest (q :: z) = decimalRest (q :: z) := by
        rcases z with _ | ⟨_, _ | ⟨_, _⟩⟩
        · rfl
        · rfl
        · simp only [numberRest, hzero, decide_false, Bool.false_and, Bool.false_eq_true, if_false]
      rw [List.nil_append, hdecimal] at h ⊢
      exact (local_decimalRest hq).2 [] w z z' h
  · have hdecimal (z : Bytes) : numberRest (c :: q :: z) = decimalRest (c :: q :: z) := by
      cases z with
      | nil => rfl
      | cons _ _ => simp only [numberRest, hx, Bool.and_false, Bool.false_and, Bool.false_eq_true, if_false]
    rw [List.cons_append, List.nil_append, hdecimal] at h ⊢
    exact (local_decimalRest hq).2 [c] w z z' h
  · simp only [List.cons_append, List.nil_append, numberRest] at h ⊢
    split_ifs at h ⊢
    · exact (too_short (List.dropWhile_suffix _) h).elim
    · exact (local_decimalRest hq).2 [c, x] w z z' h
  · simp only [List.cons_append, numberRest] at h ⊢
    split_ifs at h ⊢
    · exact (local_dropWhile _).2 u w z z' h
    · exact (local_decimalRest hq).2 (c :: x :: d :: u) w z z' h

-- The readers of tokens, up to the break.
def LocalToken (q : UInt8) (f : Bytes → Token × Bytes) : Prop := ∀ u w z z' token,
  f (u ++ q :: z) = (token, w ++ q :: z) → f (u ++ q :: z') = (token, w ++ q :: z')

theorem local_number (hq : q ∈ breaks) : LocalToken q number := by
  intro u w z z' token h
  have hsuffix := numberRest_suffix (u ++ q :: z)
  have hstop : z.length < (numberRest (u ++ q :: z)).length := by
    have hrest : w ++ q :: z <:+ numberRest (u ++ q :: z) := by
      have hsame : (number (u ++ q :: z)).2 = w ++ q :: z := by rw [h]
      rw [← hsame]
      simp only [number]
      split_ifs
      · exact List.dropWhile_suffix _
      · exact List.suffix_rfl
    have hle := hrest.length_le
    rw [List.length_append, List.length_cons] at hle
    omega
  obtain ⟨v, hv⟩ := remains hsuffix hstop
  have hv' := (local_numberRest hq).2 u v z z' hv
  simp only [number, hv, hv', followedBy_append (q := q) v z' z] at h ⊢
  split_ifs at h ⊢
  · obtain ⟨htoken, hrest⟩ := Prod.mk.inj h
    have hrest' := (local_dropWhile isIdChar).2 v w z z' hrest
    rw [← htoken, hrest, hrest', before_append u w z z']
  · obtain ⟨htoken, hrest⟩ := Prod.mk.inj h
    rw [← htoken, before_append u v z z', kept hrest z']

-- Where a blob literal was read, its digits end before the break.
theorem blob_reach {u w z : Bytes} {token : Token} (h : blob (u ++ q :: z) = (token, w ++ q :: z)) :
    ∃ v, (u ++ q :: z).dropWhile isHex = v ++ q :: z := by
  refine remains (List.dropWhile_suffix _) ?_
  have hrest : w ++ q :: z <:+ (u ++ q :: z).dropWhile isHex := by
    rw [show w ++ q :: z = (blob (u ++ q :: z)).2 by rw [h]]
    simp only [blob]
    cases (u ++ q :: z).dropWhile isHex with
    | nil => exact List.nil_suffix
    | cons c after =>
        dsimp only
        split_ifs
        · exact List.suffix_cons _ _
        · exact (List.drop_suffix _ _).trans (List.dropWhile_suffix _)
        · exact List.dropWhile_suffix _
  have hle := hrest.length_le
  rw [List.length_append, List.length_cons] at hle
  omega

-- The rest of a malformed blob literal.
def closed (z : Bytes) : Bytes := if followedBy z (· = 0x27) then z.drop 1 else z

theorem local_closed : Local q closed := by
  refine ⟨fun z => ?_, fun u w z z' h => ?_⟩
  · rw [closed]
    split_ifs
    · exact List.drop_suffix _ _
    · exact List.suffix_rfl
  · rw [closed, followedBy_append u z z'] at h
    rw [closed]
    split_ifs at h ⊢
    · exact (local_drop 1).2 u w z z' h
    · exact kept h z'

theorem blob_cons {z after : Bytes} {c : UInt8} (hread : z.dropWhile isHex = c :: after) : blob z =
    if c = 0x27 && (before z (c :: after)).length % 2 = 0 then (.blob (before z (c :: after)), after)
    else (.illegal (before z ((c :: after).dropWhile fun b => b ≠ 0 && b ≠ 0x27)),
      closed ((c :: after).dropWhile fun b => b ≠ 0 && b ≠ 0x27)) := by
  simp only [blob, hread]
  rfl

theorem local_blob : LocalToken q blob := by
  intro u w z z' token h
  obtain ⟨v, hread⟩ := blob_reach h
  have hread' := (local_dropWhile isHex).2 u v z z' hread
  have hstop {c : UInt8} {after after' : Bytes} (hc : c :: after = v ++ q :: z)
    (hc' : c :: after' = v ++ q :: z')
      (hillegal : (Token.illegal (before (u ++ q :: z) ((c :: after).dropWhile fun b => b ≠ 0 && b ≠ 0x27)),
        closed ((c :: after).dropWhile fun b => b ≠ 0 && b ≠ 0x27)) = (token, w ++ q :: z)) :
      (Token.illegal (before (u ++ q :: z') ((c :: after').dropWhile fun b => b ≠ 0 && b ≠ 0x27)),
        closed ((c :: after').dropWhile fun b => b ≠ 0 && b ≠ 0x27)) = (token, w ++ q :: z') := by
    rw [hc] at hillegal
    obtain ⟨htoken, hrest⟩ := Prod.mk.inj hillegal
    have hlength : z.length < ((v ++ q :: z).dropWhile fun b => b ≠ 0 && b ≠ 0x27).length := by
      have hle := (local_closed (q := q)).1 ((v ++ q :: z).dropWhile fun b => b ≠ 0 && b ≠ 0x27) |>.length_le
      rw [hrest, List.length_append, List.length_cons] at hle
      omega
    obtain ⟨x, hx⟩ := remains (List.dropWhile_suffix _) hlength
    rw [hx] at htoken hrest
    rw [hc', (local_dropWhile _).2 v x z z' hx, local_closed.2 x w z z' hrest, ← htoken, before_append u x z z']
  match v with
  | [] =>
      rw [List.nil_append] at hread hread'
      rw [blob_cons hread] at h
      have hbefore := before_append (q := q) u [] z z'
      rw [List.nil_append, List.nil_append] at hbefore
      rw [blob_cons hread', ← hbefore]
      split_ifs at h ⊢
      · exact (too_short List.suffix_rfl (congrArg Prod.snd h)).elim
      · exact hstop rfl rfl h
  | c :: v =>
      rw [List.cons_append] at hread hread'
      rw [blob_cons hread] at h
      have hbefore := before_append (q := q) u (c :: v) z z'
      rw [List.cons_append, List.cons_append] at hbefore
      rw [blob_cons hread', ← hbefore]
      split_ifs at h ⊢
      · obtain ⟨htoken, hrest⟩ := Prod.mk.inj h
        rw [← htoken, kept hrest z']
      · exact hstop rfl rfl h

theorem isPrefixOf_append {operator : Bytes} (h : q ∉ operator) (v z z' : Bytes) :
    operator.isPrefixOf (v ++ q :: z) = operator.isPrefixOf (v ++ q :: z') := by
  induction operator generalizing v with
  | nil => rfl
  | cons a operator ih =>
      rw [List.mem_cons, not_or] at h
      cases v with
      | nil =>
          have hne : (a == q) = false := beq_eq_false_iff_ne.mpr (Ne.symm h.1)
          simp only [List.nil_append, List.isPrefixOf, hne, Bool.false_and]
      | cons c v => simp only [List.cons_append, List.isPrefixOf, ih h.2 v]

theorem find_operator (hq : q ∈ breaks) (c : UInt8) (u z z' : Bytes) :
    (operators.find? fun operator => operator.isPrefixOf (c :: (u ++ q :: z))) =
      operators.find? fun operator => operator.isPrefixOf (c :: (u ++ q :: z')) := by
  have hfree : ∀ operator ∈ operators, q ∉ operator := fun operator hmem =>
    (by decide : ∀ q ∈ breaks, ∀ operator ∈ operators, q ∉ operator) q hq operator hmem
  have hsame {all : List Bytes} (hall : ∀ operator ∈ all, q ∉ operator) :
      (all.find? fun operator => operator.isPrefixOf (c :: (u ++ q :: z))) =
        all.find? fun operator => operator.isPrefixOf (c :: (u ++ q :: z')) := by
    induction all with
    | nil => rfl
    | cons operator all ih =>
        have hfirst := isPrefixOf_append (hall operator List.mem_cons_self) (c :: u) z z'
        rw [List.cons_append, List.cons_append] at hfirst
        rw [List.find?_cons, List.find?_cons, hfirst, ih fun other hmem =>
          hall other (List.mem_cons_of_mem _ hmem)]
  exact hsame hfree

theorem local_operator (hq : q ∈ breaks) (c : UInt8) : LocalToken q (operator c) := by
  intro u w z z' token h
  simp only [operator, find_operator hq c u z z'] at h ⊢
  split at h
  · rename_i operator _
    obtain ⟨htoken, hrest⟩ := Prod.mk.inj h
    have hrest' := (local_drop operator.length).2 (c :: u) w z z' hrest
    rw [List.cons_append] at hrest'
    rw [← htoken, hrest']
  · split_ifs at h ⊢
    · obtain ⟨htoken, hrest⟩ := Prod.mk.inj h
      rw [← htoken, kept hrest z']
    · obtain ⟨htoken, hrest⟩ := Prod.mk.inj h
      rw [← htoken, kept hrest z']

-- A quoted text has no NUL inside.
theorem quoted_before {d : UInt8} {z value rest : Bytes} (hd : d ≠ 0) (h : quoted d z = some (value, rest)) :
    ∃ front, z = front ++ rest ∧ (0 : UInt8) ∉ front := by
  fun_induction quoted d z generalizing value rest with
  | case1 => cases h
  | case2 =>
      cases h
      exact ⟨[d], rfl, by simp [hd.symm]⟩
  | case3 z ih =>
      obtain ⟨⟨inner, rest'⟩, hinner, hsame⟩ := Option.map_eq_some_iff.mp h
      cases hsame
      obtain ⟨front, rfl, hfront⟩ := ih hinner
      exact ⟨d :: d :: front, rfl, by simp [hd.symm, hfront]⟩
  | case4 =>
      cases h
      exact ⟨[d], rfl, by simp [hd.symm]⟩
  | case5 => cases h
  | case6 c z hc hnul ih =>
      obtain ⟨⟨inner, rest'⟩, hinner, hsame⟩ := Option.map_eq_some_iff.mp h
      cases hsame
      obtain ⟨front, rfl, hfront⟩ := ih hinner
      exact ⟨c :: front, rfl, by simp [Ne.symm hnul, hfront]⟩

-- A quote that is not closed before a NUL is not closed by what comes after the NUL.
theorem quoted_none {d : UInt8} (hq : q ∈ breaks) (hd : d ≠ 0) (h : quoted d (u ++ q :: z) = none)
    (hstop : upToNul (u ++ q :: z) = w ++ q :: z) (z' : Bytes) : quoted d (u ++ q :: z') = none := by
  have hnul : (0 : UInt8) ∈ u := by
    have hsuffix : w <:+ u := by
      have hall : w ++ q :: z <:+ u ++ q :: z := hstop ▸ List.dropWhile_suffix _
      obtain ⟨front, hfront⟩ := hall
      rw [← List.append_assoc] at hfront
      exact ⟨front, List.append_cancel_right hfront⟩
    cases w with
    | nil =>
        have hhead := List.head?_dropWhile_not (fun c => c ≠ (0 : UInt8)) (u ++ q :: z)
        rw [show List.dropWhile _ _ = _ from hstop] at hhead
        exact absurd (by simpa using hhead) (break_ne hq (by decide))
    | cons b w =>
        have hhead := List.head?_dropWhile_not (fun c => c ≠ (0 : UInt8)) (u ++ q :: z)
        rw [show List.dropWhile _ _ = _ from hstop] at hhead
        have hb : b = 0 := by simpa using hhead
        exact hsuffix.subset (hb ▸ List.mem_cons_self)
  by_contra hsome
  obtain ⟨⟨value, rest⟩, hread⟩ := Option.ne_none_iff_exists'.mp hsome
  obtain ⟨front, hfront, hfree⟩ := quoted_before hd hread
  obtain ⟨u₁, u₂, rfl⟩ := List.append_of_mem hnul
  have hshort : front.length ≤ u₁.length := by
    by_contra hlong
    have hmem : front[u₁.length]? = some 0 := by
      have hat := congrArg (fun all : Bytes => all[u₁.length]?) hfront
      simp only [List.append_assoc, List.getElem?_append_right (Nat.le_refl _), Nat.sub_self,
        List.getElem?_append_left (Nat.lt_of_not_le hlong)] at hat
      exact hat.symm
    exact hfree (List.mem_of_getElem? hmem)
  have hlength : z'.length < rest.length := by
    have hall := congrArg List.length hfront
    simp only [List.length_append, List.length_cons] at hall
    omega
  obtain ⟨v, rfl⟩ := remains (quoted_suffix hread) hlength
  rw [quoted_local z hread] at h
  cases h

theorem comment_start (hq : q ∈ breaks) (u z z' : Bytes) :
    (followedBy (u ++ q :: z) (· = ascii '*') && followedBy ((u ++ q :: z).drop 1) (· ≠ 0)) =
      (followedBy (u ++ q :: z') (· = ascii '*') && followedBy ((u ++ q :: z').drop 1) (· ≠ 0)) := by
  match u with
  | [] =>
      have hstar : (q = ascii '*') = False := eq_false (break_ne hq (by decide))
      simp only [followedBy, List.nil_append, List.head?_cons, Option.any_some, hstar,
        decide_false, Bool.false_and]
  | [_] => rfl
  | _ :: _ :: _ => rfl

theorem local_name (hq : q ∈ breaks) {d : UInt8} (hd : isQuote d = true) {token : Option Token} {u w z : Bytes}
    (z' : Bytes) (h : scan d (u ++ q :: z) = (token, w ++ q :: z)) :
    scan d (u ++ q :: z') = (token, w ++ q :: z') := by
  have hnul : d ≠ 0 := by rcases isQuote_cases hd with rfl | rfl | rfl <;> decide
  rw [scan_quote hd] at h ⊢
  cases hread : quoted d (u ++ q :: z) with
  | some read =>
      rw [hread] at h
      obtain ⟨htoken, hrest⟩ := Prod.mk.inj h
      rw [quoted_local z' (show quoted d (u ++ q :: z) = some (read.1, w ++ q :: z) by rw [hread, ← hrest])]
      exact Prod.ext htoken rfl
  | none =>
      rw [hread] at h
      obtain ⟨htoken, hrest⟩ := Prod.mk.inj h
      have hrest' : upToNul (u ++ q :: z') = w ++ q :: z' := (local_dropWhile _).2 u w z z' hrest
      rw [quoted_none hq hnul hread hrest z', hrest', ← htoken, hrest]
      dsimp only
      rw [before_append u w z z']

-- A name between brackets.
def bracketed (z : Bytes) : Token × Bytes :=
  let rest := z.dropWhile fun b => b ≠ 0 && b ≠ ascii ']'
  if followedBy rest (· = ascii ']') then (.name (before z rest), rest.drop 1)
    else (.illegal (before z rest), rest)

theorem local_bracketed : LocalToken q bracketed := by
  intro u w z z' token h
  have hlength : z.length < ((u ++ q :: z).dropWhile fun b => b ≠ 0 && b ≠ ascii ']').length := by
    have hle : (w ++ q :: z).length ≤ ((u ++ q :: z).dropWhile fun b => b ≠ 0 && b ≠ ascii ']').length := by
      rw [show w ++ q :: z = (bracketed (u ++ q :: z)).2 by rw [h]]
      simp only [bracketed]
      split_ifs
      · exact (List.drop_suffix _ _).length_le
      · exact Nat.le_refl _
    rw [List.length_append, List.length_cons] at hle
    omega
  obtain ⟨v, hv⟩ := remains (List.dropWhile_suffix _) hlength
  have hv' := (local_dropWhile _).2 u v z z' hv
  simp only [bracketed, hv, hv', followedBy_append (q := q) v z' z, before_append (q := q) u v z' z] at h ⊢
  split_ifs at h ⊢
  · obtain ⟨htoken, hrest⟩ := Prod.mk.inj h
    rw [← htoken, (local_drop 1).2 v w z z' hrest]
  · obtain ⟨htoken, hrest⟩ := Prod.mk.inj h
    rw [← htoken, kept hrest z']

theorem reread {f : Bytes → Bytes} (hf : Local q f) {token : Option Token} {u w z z' : Bytes}
    {read : Option Token} (h : (read, f (u ++ q :: z)) = (token, w ++ q :: z)) :
    (read, f (u ++ q :: z')) = (token, w ++ q :: z') := by
  obtain ⟨htoken, hrest⟩ := Prod.mk.inj h
  rw [htoken, hf.2 u w z z' hrest]

theorem reread_span {p : UInt8 → Bool} (make : Bytes → Option Token) {token : Option Token} {u w z z' : Bytes}
    (h : (make ((u ++ q :: z).takeWhile p), (u ++ q :: z).dropWhile p) = (token, w ++ q :: z)) :
    (make ((u ++ q :: z').takeWhile p), (u ++ q :: z').dropWhile p) = (token, w ++ q :: z') := by
  obtain ⟨htoken, hrest⟩ := Prod.mk.inj h
  rw [takeWhile_local hrest z', htoken, (local_dropWhile p).2 u w z z' hrest]

theorem reread_token {f : Bytes → Token × Bytes} (hf : LocalToken q f) {token : Option Token} {u w z z' : Bytes}
    (h : (some (f (u ++ q :: z)).1, (f (u ++ q :: z)).2) = (token, w ++ q :: z)) :
    (some (f (u ++ q :: z')).1, (f (u ++ q :: z')).2) = (token, w ++ q :: z') := by
  obtain ⟨htoken, hrest⟩ := Prod.mk.inj h
  rw [hf u w z z' _ (Prod.ext rfl hrest), htoken]

theorem branches {α : Type} {p : Prop} [Decidable p] {a a' b b' x x' : α} (hthen : p → a = x → a' = x')
    (helse : ¬p → b = x → b' = x') : (if p then a else b) = x → (if p then a' else b') = x' := by
  by_cases hp : p
  · rw [if_pos hp, if_pos hp]
    exact hthen hp
  · rw [if_neg hp, if_neg hp]
    exact helse hp

-- One token, or a space or comment, that ends before a break.
theorem scan_local (hq : q ∈ breaks) {c : UInt8} {token : Option Token} {u w z : Bytes} (z' : Bytes)
    (h : scan c (u ++ q :: z) = (token, w ++ q :: z)) : scan c (u ++ q :: z') = (token, w ++ q :: z') := by
  by_cases hc : isQuote c = true
  · exact local_name hq hc z' h
  · have hmark : [0xbb, 0xbf].isPrefixOf (u ++ q :: z') = [0xbb, 0xbf].isPrefixOf (u ++ q :: z) :=
      isPrefixOf_append ((by decide : ∀ q ∈ breaks, q ∉ [(0xbb : UInt8), 0xbf]) q hq) u z' z
    have hline := followedBy_append (q := q) u z' z (· = ascii '-')
    have hblock := comment_start hq u z' z
    have hpoint := followedBy_append (q := q) u z' z isDigit
    have hblob := followedBy_append (q := q) u z' z (· = 0x27)
    have hchar := followedBy_append (q := q) u z' z isIdChar
    unfold scan at h ⊢
    rw [Bool.and_assoc] at h ⊢
    rw [hline, hblock, hpoint, hblob, hchar, hmark]
    revert h
    refine branches (fun _ => ?space) fun _ => branches (fun _ => ?line) fun _ =>
      branches (fun _ => ?block) fun _ =>
      branches (fun hquote => absurd hquote hc) fun _ => branches (fun _ => ?bracket) fun _ =>
      branches (fun _ => ?number) fun _ => branches (fun _ => ?blob) fun _ => branches (fun _ => ?mark) fun _ =>
      branches (fun _ => ?word) fun _ => branches (fun _ => ?parameter) fun _ => branches (fun _ => ?named)
      fun _ => ?other
    case space => exact fun h => reread (local_dropWhile _) h
    case line => exact fun h => reread ((local_dropWhile _).comp (local_drop 1)) h
    case block => exact fun h => reread ((local_blockRest hq).comp (local_drop 1)) h
    case bracket =>
      have hread (z : Bytes) : (if followedBy (z.dropWhile fun b => b ≠ 0 && b ≠ ascii ']') (· = ascii ']') then
          (some (Token.name (before z (z.dropWhile fun b => b ≠ 0 && b ≠ ascii ']'))),
            (z.dropWhile fun b => b ≠ 0 && b ≠ ascii ']').drop 1)
          else (some (Token.illegal (before z (z.dropWhile fun b => b ≠ 0 && b ≠ ascii ']'))),
            z.dropWhile fun b => b ≠ 0 && b ≠ ascii ']')) = (some (bracketed z).1, (bracketed z).2) := by
        simp only [bracketed]
        split_ifs <;> rfl
      dsimp only
      rw [hread, hread]
      exact reread_token local_bracketed
    case number => exact reread_token (local_number hq) (u := c :: u)
    case blob =>
      cases u with
      | nil => exact fun h => (too_short (blob_suffix z) (congrArg Prod.snd h)).elim
      | cons b u => exact reread_token local_blob
    case mark => exact fun h => reread (local_drop 2) h
    case word => exact reread_span fun span => some (.word (c :: span))
    case parameter => exact reread_span fun span => some (.variable (c :: span))
    case named =>
      exact reread_span fun span => some (if followedBy (u ++ q :: z) isIdChar then .variable (c :: span)
        else .illegal [c])
    case other => exact reread_token (local_operator hq c)

theorem next_local (hq : q ∈ breaks) {token : Option Token} {u w z : Bytes} (z' : Bytes)
    (h : next (u ++ q :: z) = some (token, w ++ q :: z)) :
    next (u ++ q :: z') = some (token, w ++ q :: z') := by
  have hnul : q ≠ 0 := break_ne hq (by decide)
  cases u with
  | nil =>
      rw [List.nil_append, next, if_neg hnul] at h
      exact (too_short (scan_suffix q z) (congrArg Prod.snd (Option.some.inj h))).elim
  | cons c u =>
      rw [List.cons_append, next] at h ⊢
      split_ifs at h ⊢
      rw [scan_local hq z' (Option.some.inj h)]

theorem Reads.replaced (hq : q ∈ breaks) {read : List Token} {u z : Bytes}
    (h : Reads (u ++ q :: z) read (q :: z)) (z' : Bytes) : Reads (u ++ q :: z') read (q :: z') := by
  generalize hstart : u ++ q :: z = start at h
  generalize hstop : q :: z = stop at h
  induction h generalizing u with
  | done start =>
      have hnil : u = [] := by
        rw [← hstop] at hstart
        exact List.self_eq_append_left.mp hstart.symm
      rw [hnil]
      exact .done _
  | @step start mid rest token read hnext hrest ih =>
      have hlength : z.length < mid.length := by
        have hle := hrest.suffix.length_le
        rw [← hstop, List.length_cons] at hle
        omega
      subst hstart
      obtain ⟨v, rfl⟩ := remains (next_suffix hnext).1 hlength
      exact .step (next_local hq z' hnext) (ih rfl hstop)

end

end Library.Sql
