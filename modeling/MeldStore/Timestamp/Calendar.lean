import MeldStore.Library.Utf8
import MeldStore.Timestamp

namespace MeldStore

open Library.Utf8

namespace DateTime

-- The calendar: civil fields and days, in both directions.

def daysInYear (year : Nat) : Nat := if isLeap year then 366 else 365

theorem isLeap_iff (year : Nat) : isLeap year = true ↔ year % 4 = 0 ∧ (year % 100 ≠ 0 ∨ year % 400 = 0) := by
  simp [isLeap]

-- The number of multiples of `k` up to a number.
theorem succ_div_of (k n : Nat) : (n + 1) / k = n / k + if (n + 1) % k = 0 then 1 else 0 := by
  rw [Nat.succ_div]
  simp only [Nat.dvd_iff_mod_eq_zero]

theorem daysBeforeYear_succ {year : Nat} (h : 1 ≤ year) :
    daysBeforeYear (year + 1) = daysBeforeYear year + daysInYear year := by
  obtain ⟨n, rfl⟩ := Nat.exists_eq_add_of_le' h
  have h4 := succ_div_of 4 n
  have h100 := succ_div_of 100 n
  have h400 := succ_div_of 400 n
  have hmono : n / 100 ≤ n / 4 := Nat.div_le_div_left (by decide) (by decide)
  have hleap := isLeap_iff (n + 1)
  simp only [daysBeforeYear, daysInYear, Nat.add_sub_cancel, h4, h100, h400]
  by_cases hfour : (n + 1) % 4 = 0
  · by_cases hcentury : (n + 1) % 100 = 0
    · by_cases hfourth : (n + 1) % 400 = 0
      · simp only [hleap.mpr ⟨hfour, .inr hfourth⟩, hfour, hcentury, hfourth, if_true]
        omega
      · have hnot : isLeap (n + 1) ≠ true := fun hl => (hleap.mp hl).2.elim (fun h => h hcentury) hfourth
        simp only [hnot, hfour, hcentury, hfourth, Bool.false_eq_true, if_true, if_false]
        omega
    · have hfourth : (n + 1) % 400 ≠ 0 := by omega
      simp only [hleap.mpr ⟨hfour, .inl hcentury⟩, hfour, hcentury, hfourth, if_true, if_false]
      omega
  · have hcentury : (n + 1) % 100 ≠ 0 := by omega
    have hfourth : (n + 1) % 400 ≠ 0 := by omega
    have hnot : isLeap (n + 1) ≠ true := fun hl => hfour (hleap.mp hl).1
    simp only [hnot, hfour, hcentury, hfourth, Bool.false_eq_true, if_false]
    omega

theorem daysBeforeYear_mono {year later : Nat} (h : 1 ≤ year) (hle : year ≤ later) :
    daysBeforeYear year ≤ daysBeforeYear later := by
  induction later, hle using Nat.le_induction with
  | base => exact le_refl _
  | succ later hle ih =>
      rw [daysBeforeYear_succ (h.trans hle)]
      omega

theorem daysBeforeMonth_succ {year month : Nat} (h : 1 ≤ month) :
    daysBeforeMonth year (month + 1) = daysBeforeMonth year month + daysInMonth year month := by
  obtain ⟨m, rfl⟩ := Nat.exists_eq_add_of_le' h
  simp only [daysBeforeMonth, Nat.add_sub_cancel, List.range_succ, List.map_append, List.map_cons, List.map_nil,
    List.sum_append, List.sum_cons, List.sum_nil, Nat.add_zero]

theorem daysBeforeMonth_mono {year month later : Nat} (h : 1 ≤ month) (hle : month ≤ later) :
    daysBeforeMonth year month ≤ daysBeforeMonth year later := by
  induction later, hle using Nat.le_induction with
  | base => exact le_refl _
  | succ later hle ih =>
      rw [daysBeforeMonth_succ (h.trans hle)]
      omega

theorem daysBeforeMonth_end (year : Nat) : daysBeforeMonth year 13 = daysInYear year := by
  simp [daysBeforeMonth, daysInMonth, daysInYear, List.range_succ]
  split_ifs <;> rfl

-- The day of a year.
def yearDay (d : DateTime) : Nat := daysBeforeMonth d.year d.month + d.day

variable {d e : DateTime}

theorem yearDay_bounds (h : d.Valid) : 1 ≤ d.yearDay ∧ d.yearDay ≤ daysInYear d.year := by
  obtain ⟨_, _, hmonth, hlast, hday, hdays, _⟩ := h
  have hnext := @daysBeforeMonth_succ d.year _ hmonth
  have hend := @daysBeforeMonth_mono d.year _ _ (by omega : 1 ≤ d.month + 1) (by omega : d.month + 1 ≤ 13)
  rw [daysBeforeMonth_end] at hend
  unfold yearDay
  omega

theorem yearDay_lt_of_month_lt (hd : d.Valid) (he : e.Valid) (hyear : d.year = e.year)
    (hmonth : d.month < e.month) :
    d.yearDay < e.yearDay := by
  obtain ⟨_, _, hfirst, _, _, hdays, _⟩ := hd
  obtain ⟨_, _, _, _, hday, _, _⟩ := he
  have hnext := @daysBeforeMonth_succ d.year _ hfirst
  have hlater := @daysBeforeMonth_mono d.year _ _ (by omega : 1 ≤ d.month + 1) hmonth
  unfold yearDay
  rw [← hyear]
  omega

theorem toOrdinal_eq (d : DateTime) : d.toOrdinal = daysBeforeYear d.year + d.yearDay := by
  rw [toOrdinal, yearDay, Nat.add_assoc]

theorem toOrdinal_lt_of_year_lt (hd : d.Valid) (he : e.Valid) (hyear : d.year < e.year) :
    d.toOrdinal < e.toOrdinal := by
  have hbounds := yearDay_bounds hd
  have hlater := yearDay_bounds he
  have hnext := daysBeforeYear_succ hd.1
  have hmono := daysBeforeYear_mono (by omega : 1 ≤ d.year + 1) hyear
  rw [toOrdinal_eq, toOrdinal_eq]
  omega

-- The civil fields, the most significant one first.
def fields (d : DateTime) : List Nat := [d.year, d.month, d.day, d.hour, d.minute, d.second, d.microsecond]

theorem toMicroseconds_eq (d : DateTime) : d.toMicroseconds =
    ((d.toOrdinal * 86400000000 + (d.hour * 3600000000 + d.minute * 60000000 + d.second * 1000000 +
      d.microsecond) : Nat) : Int) := by
  rw [toMicroseconds]
  push_cast
  omega

theorem toMicroseconds_lt_of_fields_lt (hd : d.Valid) (he : e.Valid) (h : d.fields < e.fields) :
    d.toMicroseconds < e.toMicroseconds := by
  have hordinal : d.toOrdinal < e.toOrdinal ∨ d.toOrdinal = e.toOrdinal ∧
      [d.hour, d.minute, d.second, d.microsecond] < [e.hour, e.minute, e.second, e.microsecond] := by
    simp only [fields, List.cons_lt_cons_iff] at h
    rcases h with hyear | ⟨hyear, hmonth | ⟨hmonth, hday | ⟨hday, hrest⟩⟩⟩
    · exact .inl (toOrdinal_lt_of_year_lt hd he hyear)
    · have hlt := yearDay_lt_of_month_lt hd he hyear hmonth
      rw [toOrdinal_eq, toOrdinal_eq, hyear]
      exact .inl (by omega)
    · rw [toOrdinal, toOrdinal, hyear, hmonth]
      exact .inl (by omega)
    · simp only [List.cons_lt_cons_iff]
      exact .inr ⟨by rw [toOrdinal, toOrdinal, hyear, hmonth, hday], hrest⟩
  obtain ⟨_, _, _, _, _, _, hhour, hminute, hsecond, hmicro⟩ := hd
  obtain ⟨_, _, _, _, _, _, hhour', hminute', hsecond', hmicro'⟩ := he
  rw [toMicroseconds_eq, toMicroseconds_eq, Int.ofNat_lt]
  rcases hordinal with hlt | ⟨heq, hrest⟩
  · omega
  · simp only [List.cons_lt_cons_iff, List.lt_irrefl, and_false, or_false] at hrest
    rw [heq]
    omega

-- From the first day of year 1 to the last one of year 9999.
theorem toMicroseconds_bounds (h : d.Valid) :
    86400000000 ≤ d.toMicroseconds ∧ d.toMicroseconds < 3652060 * 86400000000 := by
  have hday := yearDay_bounds h
  obtain ⟨hyear, hlast, _, _, _, _, hhour, hminute, hsecond, hmicro⟩ := h
  have hnext := daysBeforeYear_succ hyear
  have hmono := daysBeforeYear_mono (by omega : 1 ≤ d.year + 1) (by omega : d.year + 1 ≤ 10000)
  have hcentury : daysBeforeYear 10000 = 3652059 := rfl
  rw [toMicroseconds_eq, toOrdinal_eq]
  omega

-- Two dates are in order when their fields are.
theorem toMicroseconds_lt_iff (hd : d.Valid) (he : e.Valid) :
    d.toMicroseconds < e.toMicroseconds ↔ d.fields < e.fields := by
  refine ⟨fun h => ?_, toMicroseconds_lt_of_fields_lt hd he⟩
  rcases lt_trichotomy d.fields e.fields with hlt | heq | hgt
  · exact hlt
  · simp only [fields, List.cons.injEq, and_true] at heq
    obtain ⟨hyear, hmonth, hday, hhour, hminute, hsecond, hmicro⟩ := heq
    rw [toMicroseconds, toMicroseconds, toOrdinal, toOrdinal, hyear, hmonth, hday, hhour, hminute,
      hsecond, hmicro] at h
    exact absurd h (lt_irrefl _)
  · exact absurd h (lt_asymm (toMicroseconds_lt_of_fields_lt he hd hgt))

-- The months from `month` on hold the days from their first one on.
theorem monthDay_spec {year : Nat} (fuel month n : Nat) (hmonth : 1 ≤ month) (hfuel : month + fuel = 12)
    (hn : daysBeforeMonth year month + n < daysInYear year) :
    1 ≤ (monthDay year fuel month n).1 ∧ (monthDay year fuel month n).1 ≤ 12 ∧
      1 ≤ (monthDay year fuel month n).2 ∧
      (monthDay year fuel month n).2 ≤ daysInMonth year (monthDay year fuel month n).1 ∧
      daysBeforeMonth year (monthDay year fuel month n).1 + (monthDay year fuel month n).2 =
        daysBeforeMonth year month + n + 1 := by
  induction fuel generalizing month n with
  | zero =>
      obtain rfl : month = 12 := hfuel
      have hend := daysBeforeMonth_end year
      rw [daysBeforeMonth_succ (by decide)] at hend
      have hday : n + 1 ≤ daysInMonth year 12 := by omega
      exact ⟨Nat.le_add_left 1 11, le_refl 12, Nat.le_add_left 1 n, hday, rfl⟩
  | succ fuel ih =>
      rw [monthDay]
      by_cases hin : n < daysInMonth year month
      · rw [if_pos hin]
        exact ⟨hmonth, by omega, Nat.le_add_left _ _, hin, rfl⟩
      · rw [if_neg hin]
        have hnext := @daysBeforeMonth_succ year _ hmonth
        obtain ⟨hfirst, hlast, hday, hdays, hsum⟩ :=
          ih (month + 1) (n - daysInMonth year month) (by omega) (by omega) (by omega)
        exact ⟨hfirst, hlast, hday, hdays, by omega⟩

-- 400 years, 100 years, 4 years and single years, with the days left of the last one.
theorem daysBeforeYear_split (a b c e : Nat) (hb : b ≤ 3) (hc : c ≤ 24) (he : e ≤ 3) :
    daysBeforeYear (a * 400 + 1 + b * 100 + c * 4 + e) = a * 146097 + b * 36524 + c * 1461 + e * 365 := by
  have hyear : a * 400 + 1 + b * 100 + c * 4 + e - 1 = a * 400 + b * 100 + c * 4 + e := by omega
  have h4 : (a * 400 + b * 100 + c * 4 + e) / 4 = a * 100 + b * 25 + c := by omega
  have h100 : (a * 400 + b * 100 + c * 4 + e) / 100 = a * 4 + b := by omega
  have h400 : (a * 400 + b * 100 + c * 4 + e) / 400 = a := by omega
  simp only [daysBeforeYear, hyear, h4, h100, h400]
  omega

structure Civil (n y m d : Nat) : Prop where
  year : 1 ≤ y
  month : 1 ≤ m ∧ m ≤ 12
  day : 1 ≤ d ∧ d ≤ daysInMonth y m
  ordinal : daysBeforeYear y + daysBeforeMonth y m + d = n

-- The last day of a leap year.
theorem civil_lastDay {year : Nat} (hyear : 1 ≤ year) (hleap : isLeap year = true) :
    Civil (daysBeforeYear year + 366) year 12 31 := by
  refine ⟨hyear, by decide, by simp [daysInMonth], ?_⟩
  have hend := daysBeforeMonth_end year
  rw [daysBeforeMonth_succ (by decide), daysInYear, if_pos hleap] at hend
  have hdecember : daysInMonth year 12 = 31 := rfl
  omega

theorem civil_ofOrdinal {n : Nat} (h : 1 ≤ n) :
    Civil n (ofOrdinal n).1 (ofOrdinal n).2.1 (ofOrdinal n).2.2 := by
  obtain ⟨a, b, c, e, r, ha, hb, hc, he, hr⟩ : ∃ a b c e r, (n - 1) / 146097 = a ∧
      (n - 1) % 146097 / 36524 = b ∧ (n - 1) % 146097 % 36524 / 1461 = c ∧
      (n - 1) % 146097 % 36524 % 1461 / 365 = e ∧ (n - 1) % 146097 % 36524 % 1461 % 365 = r :=
    ⟨_, _, _, _, _, rfl, rfl, rfl, rfl, rfl⟩
  have hsum : n = a * 146097 + b * 36524 + c * 1461 + e * 365 + r + 1 := by omega
  have hbounds : b ≤ 4 ∧ c ≤ 24 ∧ e ≤ 4 ∧ r < 365 := by omega
  have hcenturies : b = 4 → c = 0 ∧ e = 0 ∧ r = 0 := by omega
  have hyears : e = 4 → r = 0 ∧ c ≤ 23 := by omega
  simp only [ofOrdinal, ha, hb, hc, he, hr]
  clear ha hb hc he hr
  by_cases hlast : e = 4 ∨ b = 4
  · rw [if_pos hlast]
    -- the last day of four years, or of four centuries
    obtain ⟨b', c', hb', hc', hyear, hn, hleap⟩ : ∃ b' c', b' ≤ 3 ∧ c' ≤ 24 ∧
        a * 400 + 1 + b * 100 + c * 4 + e - 1 = a * 400 + 1 + b' * 100 + c' * 4 + 3 ∧
        a * 146097 + b' * 36524 + c' * 1461 + (3 * 365 + 366) = n ∧ (c' = 24 → b' = 3) := by
      rcases Nat.lt_or_ge b 4 with hb4 | hb4
      · obtain rfl : e = 4 := by omega
        obtain ⟨rfl, hc23⟩ := hyears rfl
        exact ⟨b, c, by omega, by omega, by omega, hsum.symm, by omega⟩
      · obtain rfl : b = 4 := by omega
        obtain ⟨rfl, rfl, rfl⟩ := hcenturies rfl
        refine ⟨3, 24, le_refl 3, le_refl 24, by omega, ?_, fun _ => rfl⟩
        simp only [hsum, Nat.add_assoc]
    have hstart := daysBeforeYear_split a b' c' 3 hb' hc' (le_refl 3)
    have hlastDay :=
      civil_lastDay (by omega : 1 ≤ a * 400 + 1 + b' * 100 + c' * 4 + 3) ((isLeap_iff _).mpr (by omega))
    rw [hstart, Nat.add_assoc, hn] at hlastDay
    rw [hyear]
    exact hlastDay
  · rw [if_neg hlast]
    have hyear := daysBeforeYear_split a b c e (by omega) (by omega) (by omega)
    have hfirst : 1 ≤ a * 400 + 1 + b * 100 + c * 4 + e := by omega
    obtain ⟨year, hsame⟩ : ∃ year, a * 400 + 1 + b * 100 + c * 4 + e = year := ⟨_, rfl⟩
    simp only [hsame] at hyear hfirst ⊢
    have hstart : daysBeforeMonth year 1 = 0 := rfl
    have hdays : 365 ≤ daysInYear year := by
      rw [daysInYear]
      split_ifs <;> omega
    obtain ⟨hmonth, hlast, hday, hfits, hordinal⟩ :=
      monthDay_spec 11 1 r (le_refl 1) rfl (by omega : daysBeforeMonth year 1 + r < daysInYear year)
    have htotal : daysBeforeYear year + daysBeforeMonth year (monthDay year 11 1 r).1 +
      (monthDay year 11 1 r).2 = n := by
      omega
    exact ⟨hfirst, ⟨hmonth, hlast⟩, ⟨hday, hfits⟩, htotal⟩

-- From microseconds to a date and back, over the years 1 to 9999.
theorem ofMicroseconds_spec {total : Int} {d : DateTime} (h : ofMicroseconds total = some d) :
    d.Valid ∧ d.toMicroseconds = total ∧ d.utcoffset = some 0 := by
  unfold ofMicroseconds at h
  split at h
  · cases h
  · rename_i hrange
    obtain ⟨micros, rfl⟩ := Int.eq_ofNat_of_zero_le (by omega : 0 ≤ total)
    have hday : 1 ≤ micros / 86400000000 := by omega
    have hlimit : micros / 86400000000 ≤ 3652059 := by omega
    obtain ⟨hyear, hmonth, hdays, hordinal⟩ := civil_ofOrdinal hday
    simp only [Int.toNat_natCast, Option.some.injEq] at h
    generalize ofOrdinal (micros / 86400000000) = civil at h hyear hmonth hdays hordinal
    obtain ⟨year, month, day⟩ := civil
    subst h
    have hlast : year ≤ 9999 := by
      by_contra hlate
      have hmono := daysBeforeYear_mono (by decide : 1 ≤ 10000) (by omega : 10000 ≤ year)
      have hcentury : daysBeforeYear 10000 = 3652059 := rfl
      simp only at hordinal hdays
      omega
    refine ⟨⟨hyear, hlast, hmonth.1, hmonth.2, hdays.1, hdays.2, ?_, ?_, ?_, ?_⟩, ?_, rfl⟩
    · exact Nat.mod_lt _ (by decide)
    · exact Nat.mod_lt _ (by decide)
    · exact Nat.mod_lt _ (by decide)
    · exact Nat.mod_lt _ (by decide)
    · rw [toMicroseconds_eq, Int.natCast_inj, toOrdinal]
      simp only at hordinal ⊢
      rw [hordinal]
      omega

-- Canonical texts sort as their dates.

theorem length_pad (width n : Nat) : (pad width n).length = width := by
  induction width generalizing n with
  | zero => rfl
  | succ width ih => rw [pad, List.length_append, ih, List.length_singleton]

theorem digitChar_lt_iff {m n : Nat} (hm : m < 10) (hn : n < 10) :
    Nat.digitChar m < Nat.digitChar n ↔ m < n := by
  have hall : ∀ m < 10, ∀ n < 10, Nat.digitChar m < Nat.digitChar n ↔ m < n := by decide
  exact hall m hm n hn

theorem pad_lt_of_lt {width m n : Nat} (hn : n < 10 ^ width) (h : m < n) : pad width m < pad width n := by
  induction width generalizing m n with
  | zero => omega
  | succ width ih =>
      rw [pow_succ] at hn
      rw [pad, pad, append_lt_append_iff (by rw [length_pad, length_pad])]
      rcases Nat.lt_or_ge (m / 10) (n / 10) with hlt | hge
      · exact .inl (ih (by omega) hlt)
      · have hsame : m / 10 = n / 10 := by omega
        have hdigit := (digitChar_lt_iff (Nat.mod_lt m (by decide)) (Nat.mod_lt n (by decide))).mpr (by omega)
        exact .inr ⟨by rw [hsame], List.cons_lt_cons_iff.mpr (.inl hdigit)⟩

theorem pad_lt_iff {width m n : Nat} (hm : m < 10 ^ width) (hn : n < 10 ^ width) :
    pad width m < pad width n ↔ m < n := by
  refine ⟨fun h => ?_, pad_lt_of_lt hn⟩
  rcases lt_trichotomy m n with hlt | rfl | hgt
  · exact hlt
  · exact absurd h (lt_irrefl _)
  · exact absurd h (lt_asymm (pad_lt_of_lt hm hgt))

theorem pad_append_lt_iff {width m n : Nat} (hm : m < 10 ^ width) (hn : n < 10 ^ width)
    (rest rest' : List Char) :
    pad width m ++ rest < pad width n ++ rest' ↔ m < n ∨ m = n ∧ rest < rest' := by
  have hinjective : pad width m = pad width n ↔ m = n := by
    refine ⟨fun h => ?_, fun h => by rw [h]⟩
    rcases lt_trichotomy m n with hlt | heq | hgt
    · exact absurd (pad_lt_of_lt hn hlt) (by rw [h]; exact lt_irrefl _)
    · exact heq
    · exact absurd (pad_lt_of_lt hm hgt) (by rw [h]; exact lt_irrefl _)
  rw [append_lt_append_iff (by rw [length_pad, length_pad]), pad_lt_iff hm hn, hinjective]

theorem isoformat_lt_iff (hd : d.Valid) (he : e.Valid) : d.isoformat < e.isoformat ↔ d.fields < e.fields := by
  have hdays := fun year month => show daysInMonth year month ≤ 31 by
    unfold daysInMonth
    split_ifs <;> omega
  have hday := hdays d.year d.month
  have hday' := hdays e.year e.month
  obtain ⟨_, _, _, _, _, _, _, _, _, _⟩ := hd
  obtain ⟨_, _, _, _, _, _, _, _, _, _⟩ := he
  simp only [isoformat, List.append_assoc, List.cons_append]
  rw [pad_append_lt_iff (by omega) (by omega), List.cons_lt_cons_iff, pad_append_lt_iff (by omega) (by omega),
    List.cons_lt_cons_iff, pad_append_lt_iff (by omega) (by omega), List.cons_lt_cons_iff,
    pad_append_lt_iff (by omega) (by omega), List.cons_lt_cons_iff, pad_append_lt_iff (by omega) (by omega),
    List.cons_lt_cons_iff, pad_append_lt_iff (by omega) (by omega), List.cons_lt_cons_iff,
    pad_append_lt_iff (by omega) (by omega)]
  simp only [fields, List.cons_lt_cons_iff, lt_irrefl, false_or, true_and, and_false, or_false]

end DateTime

end MeldStore
