import MeldStore.Value
import Mathlib.Data.List.Induction

namespace MeldStore

-- A Python datetime: civil fields and, for an aware one, its UTC offset in
-- microseconds.
structure DateTime where
  year : Nat
  month : Nat
  day : Nat
  hour : Nat
  minute : Nat
  second : Nat
  microsecond : Nat
  utcoffset : Option Int
deriving DecidableEq, Repr

namespace DateTime

def isLeap (year : Nat) : Bool := year % 4 == 0 && (year % 100 != 0 || year % 400 == 0)

def daysInMonth (year month : Nat) : Nat :=
  if month = 2 then (if isLeap year then 29 else 28)
  else if month = 4 ∨ month = 6 ∨ month = 9 ∨ month = 11 then 30 else 31

def daysBeforeMonth (year month : Nat) : Nat :=
  ((List.range (month - 1)).map fun m => daysInMonth year (m + 1)).sum

def daysBeforeYear (year : Nat) : Nat :=
  let y := year - 1
  y * 365 + y / 4 - y / 100 + y / 400

-- The ranges the datetime constructor enforces.
def Valid (d : DateTime) : Prop :=
  1 ≤ d.year ∧ d.year ≤ 9999 ∧ 1 ≤ d.month ∧ d.month ≤ 12 ∧
    1 ≤ d.day ∧ d.day ≤ daysInMonth d.year d.month ∧
    d.hour < 24 ∧ d.minute < 60 ∧ d.second < 60 ∧ d.microsecond < 1000000

instance (d : DateTime) : Decidable d.Valid := by unfold Valid; infer_instance

-- Days are counted from 0001-01-01, which is day 1.
def toOrdinal (d : DateTime) : Nat :=
  daysBeforeYear d.year + daysBeforeMonth d.year d.month + d.day

def toMicroseconds (d : DateTime) : Int :=
  (((d.toOrdinal * 24 + d.hour) * 60 + d.minute) * 60 + d.second) * 1000000 + d.microsecond

-- The month and day of the zero-based day `n` of a year.
def monthDay (year : Nat) : Nat → Nat → Nat → Nat × Nat
  | 0, month, n => (month, n + 1)
  | fuel + 1, month, n =>
      if n < daysInMonth year month then (month, n + 1)
      else monthDay year fuel (month + 1) (n - daysInMonth year month)

def ofOrdinal (ordinal : Nat) : Nat × Nat × Nat :=
  let n := ordinal - 1
  let n400 := n / 146097
  let n := n % 146097
  let n100 := n / 36524
  let n := n % 36524
  let n4 := n / 1461
  let n := n % 1461
  let n1 := n / 365
  let n := n % 365
  let year := n400 * 400 + 1 + n100 * 100 + n4 * 4 + n1
  if n1 = 4 ∨ n100 = 4 then (year - 1, 12, 31)
  else
    let (month, day) := monthDay year 11 1 n
    (year, month, day)

def ofMicroseconds (total : Int) : Option DateTime :=
  if total < 86400000000 ∨ total ≥ 3652060 * 86400000000 then none
  else
    let micros := total.toNat
    let (year, month, day) := ofOrdinal (micros / 86400000000)
    some { year := year, month := month, day := day,
           hour := micros / 3600000000 % 24, minute := micros / 60000000 % 60,
           second := micros / 1000000 % 60, microsecond := micros % 1000000, utcoffset := some 0 }

-- astimezone(timezone.utc) returns a UTC value as it is; `none` is OverflowError.
def astimezone (d : DateTime) (offset : Int) : Option DateTime :=
  if offset = 0 then some { d with utcoffset := some 0 }
  else ofMicroseconds (d.toMicroseconds - offset)

def pad : Nat → Nat → List Char
  | 0, _ => []
  | width + 1, n => pad width (n / 10) ++ [Nat.digitChar (n % 10)]

-- isoformat(timespec="microseconds") of a UTC value, with "+00:00" replaced by "Z".
def isoformat (d : DateTime) : List Char :=
  pad 4 d.year ++ '-' :: pad 2 d.month ++ '-' :: pad 2 d.day ++ 'T' :: pad 2 d.hour ++
    ':' :: pad 2 d.minute ++ ':' :: pad 2 d.second ++ '.' :: pad 6 d.microsecond ++ ['Z']

def template : List Char := "0000-00-00T00:00:00.000000Z".toList

-- The GLOB pattern of a timestamp column.
def shaped (text : List Char) : Bool :=
  text.length == template.length &&
    (List.zip template text).all fun (t, c) => if t == '0' then '0' ≤ c && c ≤ '9' else c == t

def digit (c : Char) : Nat := c.toNat - '0'.toNat

def number (digits : List Char) : Nat := digits.foldl (fun n c => 10 * n + digit c) 0

def slice (text : List Char) (start width : Nat) : Nat := number ((text.drop start).take width)

-- fromisoformat reads more spellings than this; `from_sql` compares the result
-- with the stored text, so only the canonical spelling of a valid date passes.
def fromisoformat (text : List Char) : Option DateTime :=
  if shaped text then
    let d : DateTime :=
      { year := slice text 0 4, month := slice text 5 2, day := slice text 8 2,
        hour := slice text 11 2, minute := slice text 14 2, second := slice text 17 2,
        microsecond := slice text 20 6, utcoffset := some 0 }
    if d.Valid then some d else none
  else none

theorem shaped_getElem? {text : List Char} (h : shaped text = true) (i : Nat) (t : Char)
    (ht : template[i]? = some t) :
    ∃ c, text[i]? = some c ∧ if t = '0' then '0' ≤ c ∧ c ≤ '9' else c = t := by
  simp only [shaped, Bool.and_eq_true, beq_iff_eq, List.all_eq_true] at h
  obtain ⟨hlength, hchars⟩ := h
  have hi : i < text.length := hlength ▸ (List.getElem?_eq_some_iff.mp ht).1
  refine ⟨text[i], List.getElem?_eq_getElem hi, ?_⟩
  have hzip : (t, text[i]) ∈ List.zip template text := by
    refine List.mem_of_getElem? (i := i) ?_
    rw [List.getElem?_zip_eq_some]
    exact ⟨ht, List.getElem?_eq_getElem hi⟩
  have hcheck := hchars _ hzip
  split <;> simp_all

theorem nul_free_of_shaped {text : List Char} (h : shaped text = true) : ∀ c ∈ text, c ≠ '\x00' := by
  intro c hc
  obtain ⟨i, hi⟩ := List.mem_iff_getElem?.mp hc
  have hlength : text.length = template.length := by
    simp only [shaped, Bool.and_eq_true, beq_iff_eq] at h
    exact h.1
  have hin : i < template.length := hlength ▸ (List.getElem?_eq_some_iff.mp hi).1
  obtain ⟨d, hd, hcheck⟩ := shaped_getElem? h i template[i] (List.getElem?_eq_getElem hin)
  obtain rfl : c = d := Option.some.inj (hi.symm.trans hd)
  rintro rfl
  split_ifs at hcheck
  · exact absurd hcheck.1 (by decide)
  · exact absurd (List.getElem_mem hin) (hcheck ▸ by decide)

theorem digitChar_mod (n : Nat) : ('0' ≤ Nat.digitChar (n % 10) ∧ Nat.digitChar (n % 10) ≤ '9') ∧
    digit (Nat.digitChar (n % 10)) = n % 10 := by
  have hall : ∀ m < 10, ('0' ≤ Nat.digitChar m ∧ Nat.digitChar m ≤ '9') ∧
    digit (Nat.digitChar m) = m := by decide
  exact hall _ (Nat.mod_lt n (by decide))

theorem shaped_isoformat (d : DateTime) : shaped d.isoformat = true := by
  have hdigit := fun n => (digitChar_mod n).1
  have htemplate : template = ['0', '0', '0', '0', '-', '0', '0', '-', '0', '0', 'T', '0', '0',
    ':', '0', '0', ':', '0', '0', '.', '0', '0', '0', '0', '0', '0', 'Z'] := rfl
  simp [shaped, htemplate, isoformat, pad, hdigit]

-- The fields stand at fixed places, each as wide as it can be.
theorem slice_isoformat {d : DateTime} (h : d.Valid) :
    slice d.isoformat 0 4 = d.year ∧ slice d.isoformat 5 2 = d.month ∧ slice d.isoformat 8 2 = d.day ∧
      slice d.isoformat 11 2 = d.hour ∧ slice d.isoformat 14 2 = d.minute ∧ slice d.isoformat 17 2 = d.second ∧
      slice d.isoformat 20 6 = d.microsecond := by
  have hdigit := fun n => (digitChar_mod n).2
  obtain ⟨_, hyear, _, hmonth, _, hday, hhour, hminute, hsecond, hmicro⟩ := h
  have hdays : daysInMonth d.year d.month ≤ 31 := by
    unfold daysInMonth
    split_ifs <;> omega
  simp only [slice, isoformat, pad, number, List.nil_append, List.cons_append,
    List.drop_succ_cons, List.drop_zero,
    List.take_succ_cons, List.take_zero, List.foldl_cons, List.foldl_nil, hdigit]
  refine ⟨?_, ?_, ?_, ?_, ?_, ?_, ?_⟩ <;> omega

theorem fromisoformat_isoformat {d : DateTime} (h : d.Valid) :
    fromisoformat d.isoformat = some { d with utcoffset := some 0 } := by
  obtain ⟨hyear, hmonth, hday, hhour, hminute, hsecond, hmicro⟩ := slice_isoformat h
  rw [fromisoformat, if_pos (shaped_isoformat d)]
  simp only [hyear, hmonth, hday, hhour, hminute, hsecond, hmicro]
  exact if_pos h

end DateTime

end MeldStore
