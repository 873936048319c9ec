import Mathlib.Order.Fin.Basic
import MeldStore.Schema
import MeldStore.Timestamp.Calendar

namespace MeldStore.Codecs

open Library.Checked Library.Utf8

-- A Python string is a sequence of code points, lone surrogates included.
abbrev CodePoint := Fin 0x110000

abbrev Str := List CodePoint

def isSurrogate (c : CodePoint) : Bool := 0xd800 ≤ c.val && c.val ≤ 0xdfff

-- Text the driver can bind: only this has a UTF-8 encoding.
def ValidUnicode (s : Str) : Prop := ∀ c ∈ s, isSurrogate c = false

instance (s : Str) : Decidable (ValidUnicode s) := by unfold ValidUnicode; infer_instance

def utf8 (s : Str) : List ℕ := s.flatMap fun c => encode c.val

theorem isValidChar_toNat (c : Char) : c.toNat < 0xd800 ∨ 0xdfff < c.toNat ∧ c.toNat < 0x110000 := c.valid

def codePoint (c : Char) : CodePoint := ⟨c.toNat, by have := isValidChar_toNat c; omega⟩

def ofChars (text : List Char) : Str := text.map codePoint

def char? (c : CodePoint) : Option Char := if isSurrogate c then none else some (Char.ofNat c.val)

-- What a call is given; text may be any Python string.
inductive Argument
  | none
  | bool (b : Bool)
  | int (i : Int)
  | float (q : Rat)
  | nonfinite
  | str (s : Str)
  | datetime (d : DateTime)
  | other (repr : String)
deriving DecidableEq, Repr

-- What is given to the driver and read back from it.
inductive Cell
  | null
  | int (i : Int)
  | real (q : Rat)
  | text (s : Str)
  | blob (bytes : List UInt8)
deriving DecidableEq, Repr

def normalize (spec : Field) (value : Argument) : Except Error Cell :=
  match value with
  | .none =>
      if spec.required then .error (.ValidationError "Required field cannot be null")
      else .ok .null
  | value =>
      match spec.kind, value with
      | .text, .str s => .ok (.text s)
      | .int64, .int i => if isInt64 i then .ok (.int i) else .error (Field.unexpected .int64)
      | .float, .float q => .ok (.real q)
      | .boolean, .bool b => .ok (.int (if b then 1 else 0))
      | .timestamp, .datetime d =>
          match d.utcoffset with
          | Option.none => .error (Field.unexpected .timestamp)
          | some offset =>
              match d.astimezone offset with
              | some utc => .ok (.text (ofChars utc.isoformat))
              | Option.none => .error (.ValidationError "Timestamp is outside UTC datetime range")
      | kind, _ => .error (Field.unexpected kind)

def argument : Cell → Argument
  | .null => .none
  | .int i => .int i
  | .real q => .float q
  | .text s => .str s
  | .blob _ => .other "bytes"

def fromSql (spec : Field) (value : Cell) : Except Error Argument :=
  match value with
  | .null => do
      let _ ← normalize spec .none
      pure .none
  | value =>
      match spec.kind with
      | .boolean =>
          if value = .int 0 then .ok (.bool false)
          else if value = .int 1 then .ok (.bool true)
          else .error (.ValidationError "Invalid stored boolean")
      | .timestamp =>
          match value with
          | .text s =>
              match (s.mapM char?).bind DateTime.fromisoformat with
              | some d => do
                  require (normalize spec (.datetime d) = .ok value)
                    (.ValidationError "Invalid stored UTC timestamp")
                  pure (.datetime d)
              | none => .error (.ValidationError "Invalid stored UTC timestamp")
          | _ => .error (.ValidationError "Invalid stored UTC timestamp")
      | _ => do
          let _ ← normalize spec (argument value)
          pure (argument value)

-- Text

theorem isSurrogate_codePoint (c : Char) : isSurrogate (codePoint c) = false := by
  have hvalid := isValidChar_toNat c
  have hval : (codePoint c).val = c.toNat := rfl
  rw [Bool.eq_false_iff]
  simp only [isSurrogate, ne_eq, Bool.and_eq_true, decide_eq_true_eq]
  omega

theorem char?_codePoint (c : Char) : char? (codePoint c) = some c := by
  rw [char?, isSurrogate_codePoint, if_neg Bool.false_ne_true]
  exact congrArg some (Char.ofNat_toNat c)

theorem mapM_ofChars (text : List Char) : (ofChars text).mapM char? = some text := by
  induction text with
  | nil => rfl
  | cons c text ih =>
      rw [ofChars, List.map_cons, List.mapM_cons, char?_codePoint]
      change ((ofChars text).mapM char?).bind _ = _
      rw [ih]
      rfl

theorem ofChars_valid (text : List Char) : ValidUnicode (ofChars text) := by
  intro c hc
  obtain ⟨d, _, rfl⟩ := List.mem_map.mp hc
  exact isSurrogate_codePoint d

theorem codePoint_strictMono : StrictMono codePoint := fun _ _ h => h

-- Bytewise order is the order of the code points.
theorem utf8_lt_iff (s t : Str) : utf8 s < utf8 t ↔ s < t :=
  bytes_lt_iff Fin.val_strictMono s t

theorem utf8_ofChars_lt_iff (s t : List Char) : utf8 (ofChars s) < utf8 (ofChars t) ↔ s < t := by
  have hchars : StrictMono fun c : Char => (codePoint c).val := Fin.val_strictMono.comp codePoint_strictMono
  rw [← bytes_lt_iff hchars, utf8, utf8, ofChars, ofChars, List.flatMap_map, List.flatMap_map]

-- Timestamps

-- The instant of an aware datetime, in microseconds.
def instant (d : DateTime) : Int := d.toMicroseconds - d.utcoffset.getD 0

theorem astimezone_spec {d utc : DateTime} {offset : Int} (hd : d.Valid) (h : d.astimezone offset = some utc) :
    utc.Valid ∧ utc.toMicroseconds = d.toMicroseconds - offset ∧ utc.utcoffset = some 0 := by
  rw [DateTime.astimezone] at h
  by_cases hzero : offset = 0
  · rw [if_pos hzero] at h
    cases h
    exact ⟨hd, by rw [hzero, sub_zero]; rfl, rfl⟩
  · rw [if_neg hzero] at h
    exact DateTime.ofMicroseconds_spec h

-- A date has a UTC form unless its instant lies before year 1 or after year 9999.
theorem exists_astimezone_iff {d : DateTime} {offset : Int} (hd : d.Valid) :
    (∃ utc, d.astimezone offset = some utc) ↔
      86400000000 ≤ d.toMicroseconds - offset ∧ d.toMicroseconds - offset < 3652060 * 86400000000 := by
  have hbounds := DateTime.toMicroseconds_bounds hd
  rw [DateTime.astimezone]
  by_cases hzero : offset = 0
  · rw [if_pos hzero, hzero, sub_zero]
    exact ⟨fun _ => hbounds, fun _ => ⟨_, rfl⟩⟩
  · rw [if_neg hzero, DateTime.ofMicroseconds]
    split
    · constructor
      · rintro ⟨_, h⟩
        cases h
      · omega
    · constructor
      · omega
      · exact fun _ => ⟨_, rfl⟩

-- What normalize accepts, kind by kind, and what it stores.
inductive Normalized (spec : Field) : Argument → Cell → Prop
  | null (hnull : spec.required = false) : Normalized spec .none .null
  | text (hkind : spec.kind = .text) (s : Str) : Normalized spec (.str s) (.text s)
  | int64 (hkind : spec.kind = .int64) {i : Int} (hrange : isInt64 i = true) : Normalized spec (.int i) (.int i)
  | float (hkind : spec.kind = .float) (q : Rat) : Normalized spec (.float q) (.real q)
  | boolean (hkind : spec.kind = .boolean) (b : Bool) : Normalized spec (.bool b) (.int (if b then 1 else 0))
  | timestamp (hkind : spec.kind = .timestamp) {d utc : DateTime} {offset : Int}
      (hoffset : d.utcoffset = some offset) (hutc : d.astimezone offset = some utc) :
      Normalized spec (.datetime d) (.text (ofChars utc.isoformat))

variable {spec : Field} {v w : Argument} {s t : Cell}

theorem Normalized.eq_ok (h : Normalized spec v s) : normalize spec v = .ok s := by
  cases h with
  | null hnull => simp only [normalize, hnull, Bool.false_eq_true, if_false]
  | text hkind s => simp only [normalize, hkind]
  | int64 hkind hrange => simp only [normalize, hkind, hrange, if_true]
  | float hkind q => simp only [normalize, hkind]
  | boolean hkind b => simp only [normalize, hkind]
  | timestamp hkind hoffset hutc => simp only [normalize, hkind, hoffset, hutc]

theorem normalize_iff : normalize spec v = .ok s ↔ Normalized spec v s := by
  refine ⟨fun h => ?_, Normalized.eq_ok⟩
  cases v with
  | none =>
      simp only [normalize] at h
      cases hnull : spec.required with
      | true => simp [hnull] at h
      | false =>
          rw [hnull, if_neg Bool.false_ne_true] at h
          cases h
          exact .null hnull
  | str x =>
      cases hkind : spec.kind <;> simp only [normalize, hkind] at h <;> cases h
      exact .text hkind x
  | int i =>
      cases hkind : spec.kind <;> simp only [normalize, hkind, reduceCtorEq] at h
      split at h
      · cases h
        exact .int64 hkind ‹_›
      · cases h
  | float q =>
      cases hkind : spec.kind <;> simp only [normalize, hkind] at h <;> cases h
      exact .float hkind q
  | bool b =>
      cases hkind : spec.kind <;> simp only [normalize, hkind] at h <;> cases h
      exact .boolean hkind b
  | datetime d =>
      cases hkind : spec.kind <;> simp only [normalize, hkind, reduceCtorEq] at h
      cases hoffset : d.utcoffset with
      | none => simp [hoffset] at h
      | some offset =>
          simp only [hoffset] at h
          cases hutc : d.astimezone offset with
          | none => simp [hutc] at h
          | some utc =>
              simp only [hutc] at h
              cases h
              exact .timestamp hkind hoffset hutc
  | nonfinite => cases hkind : spec.kind <;> simp only [normalize, hkind, reduceCtorEq] at h
  | other repr => cases hkind : spec.kind <;> simp only [normalize, hkind, reduceCtorEq] at h

-- Plain datetime objects: the ranges their constructor enforces.
def Argument.Plain : Argument → Prop
  | .datetime d => d.Valid
  | _ => True

instance (v : Argument) : Decidable v.Plain := by cases v <;> unfold Argument.Plain <;> infer_instance

-- The same value; for a timestamp the same instant, as an aware UTC datetime.
def Argument.Same : Argument → Argument → Prop
  | .datetime d, .datetime e => e.Valid ∧ e.utcoffset = some 0 ∧ instant e = instant d
  | v, w => w = v

-- The order of the values of one kind.
def Argument.Earlier : Argument → Argument → Prop
  | .bool b, .bool c => b < c
  | .int i, .int j => i < j
  | .str s, .str t => s < t
  | .datetime d, .datetime e => instant d < instant e
  | _, _ => False

-- SQLite's order: NULL, then numbers by value, then text and then blobs bytewise.
def Cell.key : Cell → ℕ ×ₗ Rat ×ₗ List ℕ
  | .null => toLex (0, toLex (0, []))
  | .int i => toLex (1, toLex (i, []))
  | .real q => toLex (1, toLex (q, []))
  | .text s => toLex (2, toLex (0, utf8 s))
  | .blob bytes => toLex (3, toLex (0, bytes.map UInt8.toNat))

def Cell.Before (s t : Cell) : Prop := s.key < t.key

theorem before_int (i j : Int) : Cell.Before (.int i) (.int j) ↔ i < j := by
  simp [Cell.Before, Cell.key, Prod.Lex.toLex_lt_toLex]

theorem before_text (s t : Str) : Cell.Before (.text s) (.text t) ↔ utf8 s < utf8 t := by
  simp [Cell.Before, Cell.key, Prod.Lex.toLex_lt_toLex]

theorem fromSql_text (hkind : spec.kind = .text) (x : Str) : fromSql spec (.text x) = .ok (.str x) := by
  simp only [fromSql, hkind, argument, (Normalized.text hkind x).eq_ok]
  rfl

theorem fromSql_int64 (hkind : spec.kind = .int64) {i : Int} (hrange : isInt64 i = true) :
    fromSql spec (.int i) = .ok (.int i) := by
  simp only [fromSql, hkind, argument, (Normalized.int64 hkind hrange).eq_ok]
  rfl

theorem fromSql_boolean (hkind : spec.kind = .boolean) (b : Bool) :
    fromSql spec (.int (if b then 1 else 0)) = .ok (.bool b) := by
  cases b <;> simp [fromSql, hkind]

theorem fromSql_isoformat (hkind : spec.kind = .timestamp) {utc : DateTime} (hvalid : utc.Valid)
    (hzero : utc.utcoffset = some 0) : fromSql spec (.text (ofChars utc.isoformat)) = .ok (.datetime utc) := by
  have hsame : ({ utc with utcoffset := some 0 } : DateTime) = utc := by rw [← hzero]
  have hread := DateTime.fromisoformat_isoformat hvalid
  rw [hsame] at hread
  have hutc : utc.astimezone 0 = some utc := by rw [DateTime.astimezone, if_pos rfl, hsame]
  have hstored := (Normalized.timestamp hkind hzero hutc).eq_ok
  simp only [fromSql, hkind, mapM_ofChars, Option.bind_some, hread, hstored, require_true]
  rfl

theorem accepts_datetime_iff (hkind : spec.kind = .timestamp) {d : DateTime} (hd : d.Valid) :
    (∃ s, normalize spec (.datetime d) = .ok s) ↔
      d.utcoffset ≠ none ∧ 86400000000 ≤ instant d ∧ instant d < 3652060 * 86400000000 := by
  constructor
  · rintro ⟨s, h⟩
    cases normalize_iff.mp h with
    | timestamp _ hoffset hutc =>
        rw [instant, hoffset]
        exact ⟨Option.some_ne_none _, (exists_astimezone_iff hd).mp ⟨_, hutc⟩⟩
  · rintro ⟨haware, hrange⟩
    obtain ⟨offset, hoffset⟩ := Option.ne_none_iff_exists'.mp haware
    rw [instant, hoffset] at hrange
    obtain ⟨utc, hutc⟩ := (exists_astimezone_iff hd).mpr hrange
    exact ⟨_, (Normalized.timestamp hkind hoffset hutc).eq_ok⟩

-- Whatever normalize accepts reads back as itself.
theorem Normalized.reads_back (hkind : spec.kind ≠ .float) (hplain : v.Plain) (h : Normalized spec v s) :
    ∃ w, fromSql spec s = .ok w ∧ v.Same w := by
  cases h with
  | null hnull =>
      refine ⟨.none, ?_, rfl⟩
      simp only [fromSql, (Normalized.null hnull).eq_ok]
      rfl
  | text hkind x => exact ⟨_, fromSql_text hkind x, rfl⟩
  | int64 hkind hrange => exact ⟨_, fromSql_int64 hkind hrange, rfl⟩
  | float hfloat q => exact absurd hfloat hkind
  | boolean hkind b => exact ⟨_, fromSql_boolean hkind b, rfl⟩
  | timestamp hkind hoffset hutc =>
      obtain ⟨hvalid, hsame, hzero⟩ := astimezone_spec hplain hutc
      refine ⟨_, fromSql_isoformat hkind hvalid hzero, hvalid, hzero, ?_⟩
      rw [instant, instant, hzero, hoffset, hsame, Option.getD_some, Option.getD_some, sub_zero]

-- A value handed on as it was read is stored as it was.
theorem Normalized.argument_eq {t : Cell} (h : Normalized spec (argument s) t) : t = s := by
  cases s with
  | blob bytes => cases h
  | _ => cases h; rfl

theorem fromSql_of_ne_null (hs : s ≠ .null) : fromSql spec s =
    match spec.kind with
    | .boolean =>
        if s = .int 0 then .ok (.bool false)
        else if s = .int 1 then .ok (.bool true)
        else .error (.ValidationError "Invalid stored boolean")
    | .timestamp =>
        match s with
        | .text x =>
            match (x.mapM char?).bind DateTime.fromisoformat with
            | some d => do
                require (normalize spec (.datetime d) = .ok s) (.ValidationError "Invalid stored UTC timestamp")
                pure (.datetime d)
            | none => .error (.ValidationError "Invalid stored UTC timestamp")
        | _ => .error (.ValidationError "Invalid stored UTC timestamp")
    | _ => (normalize spec (argument s)).bind fun _ => .ok (argument s) := by
  cases s with
  | null => exact absurd rfl hs
  | _ => rfl

-- Whatever from_sql accepts is what normalize stores for the value it gives.
theorem normalize_fromSql (h : fromSql spec s = .ok v) : normalize spec v = .ok s := by
  have hargument (h : ((normalize spec (argument s)).bind fun _ => .ok (argument s)) = .ok v) :
      normalize spec v = .ok s := by
    obtain ⟨t, ht, hv⟩ := (bind_eq_ok _ _ _).mp h
    cases hv
    rw [ht, (normalize_iff.mp ht).argument_eq]
  by_cases hnull : s = .null
  · subst hnull
    exact hargument h
  · rw [fromSql_of_ne_null hnull] at h
    cases hkind : spec.kind with
    | boolean =>
        simp only [hkind] at h
        split_ifs at h with hfalse htrue
        · cases h
          rw [hfalse]
          exact (Normalized.boolean hkind false).eq_ok
        · cases h
          rw [htrue]
          exact (Normalized.boolean hkind true).eq_ok
    | timestamp =>
        simp only [hkind] at h
        split at h
        · split at h
          · simp only [bind_eq_ok, require_eq_ok, pure_eq_ok] at h
            obtain ⟨_, hstored, rfl⟩ := h
            exact hstored
          · cases h
        · cases h
    | _ =>
        simp only [hkind] at h
        exact hargument h

-- Stored values sort as what they stand for.
theorem Normalized.before_iff (hkind : spec.kind ≠ .float) (hv : v.Plain) (hw : w.Plain) (hvalue : v ≠ .none)
    (hother : w ≠ .none) (h : Normalized spec v s) (h' : Normalized spec w t) : v.Earlier w ↔ s.Before t := by
  cases h with
  | null hnull => exact absurd rfl hvalue
  | float hfloat q => exact absurd hfloat hkind
  | text htext x =>
      cases h' with
      | null hnull => exact absurd rfl hother
      | text _ y => exact (utf8_lt_iff x y).symm.trans (before_text x y).symm
      | _ => simp_all
  | int64 hint hrange =>
      cases h' with
      | null hnull => exact absurd rfl hother
      | int64 _ _ => exact (before_int _ _).symm
      | _ => simp_all
  | boolean hbool b =>
      cases h' with
      | null hnull => exact absurd rfl hother
      | boolean _ c =>
          rw [before_int, Argument.Earlier]
          cases b <;> cases c <;> decide
      | _ => simp_all
  | timestamp htime hoffset hutc =>
      cases h' with
      | null hnull => exact absurd rfl hother
      | timestamp _ hoffset' hutc' =>
          obtain ⟨hvalid, hsame, -⟩ := astimezone_spec hv hutc
          obtain ⟨hvalid', hsame', -⟩ := astimezone_spec hw hutc'
          rw [before_text, utf8_ofChars_lt_iff, DateTime.isoformat_lt_iff hvalid hvalid',
            ← DateTime.toMicroseconds_lt_iff hvalid hvalid', hsame, hsame']
          simp only [Argument.Earlier, instant, hoffset, hoffset', Option.getD_some]
      | _ => simp_all

theorem codecs_invert_and_keep_order (spec : Field) (hkind : spec.kind ≠ .float) :
    (∀ v s, v.Plain → normalize spec v = .ok s → ∃ w, fromSql spec s = .ok w ∧ v.Same w) ∧
      (∀ s v, fromSql spec s = .ok v → normalize spec v = .ok s) ∧
      ∀ v w s t, v.Plain → w.Plain → v ≠ .none → w ≠ .none → normalize spec v = .ok s →
        normalize spec w = .ok t →
        (v.Earlier w ↔ s.Before t) :=
  ⟨fun _ _ hplain h => (normalize_iff.mp h).reads_back hkind hplain,
    fun _ _ h => normalize_fromSql h,
    fun _ _ _ _ hv hw hvalue hother h h' =>
      (normalize_iff.mp h).before_iff hkind hv hw hvalue hother (normalize_iff.mp h')⟩

-- Half past midnight on New Year's Day in one zone is before a quarter to midnight in another.
theorem zones_sort_by_instant :
    (∃ w, fromSql ⟨.timestamp, true, false⟩ (.text (ofChars "2019-12-31T23:30:00.000000Z".toList)) = .ok w ∧
        (Argument.datetime ⟨2020, 1, 1, 0, 30, 0, 0, some 3600000000⟩).Same w) ∧
      ((Argument.datetime ⟨2020, 1, 1, 0, 30, 0, 0, some 3600000000⟩).Earlier
          (.datetime ⟨2019, 12, 31, 23, 45, 0, 0, some 0⟩) ↔
        Cell.Before (.text (ofChars "2019-12-31T23:30:00.000000Z".toList))
          (.text (ofChars "2019-12-31T23:45:00.000000Z".toList))) := by
  have hcodecs := codecs_invert_and_keep_order ⟨.timestamp, true, false⟩ (by decide)
  refine ⟨hcodecs.1 _ _ (by decide) (by decide +kernel), ?_⟩
  exact hcodecs.2.2 _ _ _ _ (by decide) (by decide) (by decide) (by decide) (by decide +kernel)
    (by decide +kernel)

-- Values with valid text, as the rest of the model holds them.

def ofString (s : String) : Str := ofChars s.toList

def Cell.ofValue : Value → Cell
  | .null => .null
  | .int i => .int i
  | .real q => .real q
  | .text s => .text (ofString s)
  | .blob bytes => .blob bytes

theorem ofString_injective : Function.Injective ofString := by
  intro s t h
  have hchars : s.toList = t.toList := List.map_injective_iff.mpr codePoint_strictMono.injective h
  exact String.toList_inj.mp hchars

-- The value that the driver binds for a cell: text with a lone surrogate has no encoding.
def Cell.value? : Cell → Option Value
  | .null => some .null
  | .int i => some (.int i)
  | .real q => some (.real q)
  | .text s => (s.mapM char?).map fun text => .text (String.ofList text)
  | .blob bytes => some (.blob bytes)

def Cell.Bindable : Cell → Prop
  | .text s => ValidUnicode s
  | _ => True

instance (c : Cell) : Decidable c.Bindable := by cases c <;> unfold Cell.Bindable <;> infer_instance

theorem codePoint_of_char? {c : CodePoint} {d : Char} (h : char? c = some d) : codePoint d = c := by
  rw [char?] at h
  split_ifs at h with hsurrogate
  obtain rfl := Option.some.inj h
  have hvalid : c.val.isValidChar := by
    simp only [isSurrogate, Bool.and_eq_true, decide_eq_true_eq, not_and_or, not_le] at hsurrogate
    exact hsurrogate.imp id fun hafter => ⟨hafter, c.isLt⟩
  refine Fin.ext ?_
  change (Char.ofNat c.val).toNat = c.val
  rw [Char.ofNat, dif_pos hvalid]
  rfl

theorem mapM_char?_eq_some {s : Str} {text : List Char} : s.mapM char? = some text ↔ s = ofChars text := by
  refine ⟨fun h => ?_, fun h => h ▸ mapM_ofChars text⟩
  induction s generalizing text with
  | nil =>
      cases h
      rfl
  | cons c s ih =>
      rw [List.mapM_cons] at h
      obtain ⟨d, hd, h⟩ := Option.bind_eq_some_iff.mp h
      obtain ⟨rest, hrest, h⟩ := Option.bind_eq_some_iff.mp h
      obtain rfl := Option.some.inj h
      rw [ofChars, List.map_cons, codePoint_of_char? hd, ih hrest, ofChars]

theorem exists_mapM_char? {s : Str} (h : ValidUnicode s) : ∃ text, s.mapM char? = some text := by
  induction s with
  | nil => exact ⟨[], rfl⟩
  | cons c s ih =>
      obtain ⟨text, htext⟩ := ih fun d hd => h d (List.mem_cons_of_mem _ hd)
      have hc : char? c = some (Char.ofNat c.val) := by
        rw [char?, h c List.mem_cons_self, if_neg Bool.false_ne_true]
      refine ⟨Char.ofNat c.val :: text, ?_⟩
      rw [List.mapM_cons, hc]
      change (s.mapM char?).bind _ = _
      rw [htext]
      rfl

theorem value?_eq_some {c : Cell} {v : Value} : c.value? = some v ↔ c = .ofValue v := by
  constructor
  · intro h
    cases c with
    | text s =>
        obtain ⟨text, htext, rfl⟩ := Option.map_eq_some_iff.mp h
        rw [mapM_char?_eq_some.mp htext, Cell.ofValue, ofString, String.toList_ofList]
    | _ => exact Option.some.inj h ▸ rfl
  · rintro rfl
    cases v with
    | text s =>
        simp only [Cell.ofValue, Cell.value?, ofString, mapM_ofChars, Option.map_some, String.ofList_toList]
    | _ => rfl

theorem bindable_iff {c : Cell} : c.Bindable ↔ ∃ v, c.value? = some v := by
  cases c with
  | text s =>
      constructor
      · intro h
        obtain ⟨text, htext⟩ := exists_mapM_char? h
        exact ⟨_, by rw [Cell.value?, htext]; rfl⟩
      · rintro ⟨v, hv⟩
        obtain ⟨text, htext, -⟩ := Option.map_eq_some_iff.mp hv
        rw [mapM_char?_eq_some.mp htext]
        exact ofChars_valid text
  | _ => exact ⟨fun _ => ⟨_, rfl⟩, fun _ => trivial⟩

-- What a condition reads of a cell that is bound.
def Cell.value (c : Cell) : Value := c.value?.getD .null

theorem value_ofValue (v : Value) : (Cell.ofValue v).value = v := by
  rw [Cell.value, value?_eq_some.mpr rfl, Option.getD_some]

theorem ofValue_value {c : Cell} (h : c.Bindable) : Cell.ofValue c.value = c := by
  obtain ⟨v, hv⟩ := bindable_iff.mp h
  rw [Cell.value, hv, Option.getD_some]
  exact (value?_eq_some.mp hv).symm

theorem value_eq_null {c : Cell} (h : c.Bindable) : c.value = .null ↔ c = .null := by
  constructor
  · intro hnull
    rw [← ofValue_value h, hnull]
    rfl
  · rintro rfl
    rfl

theorem normalize_eq_null (h : normalize spec v = .ok .null) : v = .none := by
  cases normalize_iff.mp h
  rfl

-- The two orders agree but where an integer and a real have one value.
theorem before_ofValue {a b : Value} (h : (Cell.ofValue a).key = (Cell.ofValue b).key → a = b) :
    (Cell.ofValue a).Before (.ofValue b) ↔ a < b := by
  have hvalue (a b : Value) : a < b ↔ a.key < b.key := Iff.rfl
  have hof {a b : Value} (hlt : (Cell.ofValue a).Before (.ofValue b)) : a < b := by
    rw [hvalue]
    clear h hvalue
    cases a <;> cases b <;>
      simp_all [Cell.Before, Cell.ofValue, Cell.key, Value.key, Prod.Lex.toLex_lt_toLex, ofString,
        utf8_ofChars_lt_iff]
    exact String.lt_iff_ltb.mp (String.lt_iff_toList_lt.mpr hlt)
  refine ⟨hof, fun hlt => ?_⟩
  rcases lt_trichotomy (Cell.ofValue a).key (Cell.ofValue b).key with hbefore | hsame | hafter
  · exact hbefore
  · exact absurd hlt (h hsame ▸ lt_irrefl a)
  · exact absurd hlt (lt_asymm (hof hafter))

end MeldStore.Codecs
