import MeldStore.Query

namespace MeldStore

open Library Library.Checked Library.Keyset
open Codecs (Argument Cell Str)

namespace Query

-- The reference meaning of a query, without SQL.

-- The value a row has under a queried name.
def cell (row : Row) (name : String) : Value :=
  if name = "id" then .text row.1.id else row.2.fields name

def compares : String → Value → Value → Prop
  | "eq", x, y => x = y
  | "ne", x, y => x ≠ y
  | "lt", x, y => x < y
  | "lte", x, y => x ≤ y
  | "gt", x, y => y < x
  | "gte", x, y => y ≤ x
  | _, _, _ => False

-- None asks for NULL or its absence; every other comparison or membership
-- excludes NULL.
def means (spec : Field) (op : String) (x : Value) : Operand → Prop
  | .one .none => if op = "eq" ∨ op = "is_null" then x = .null else x ≠ .null
  | .one value => x ≠ .null ∧ ∃ y, Codecs.normalize spec value = .ok (.ofValue y) ∧ compares op x y
  | .many values =>
      x ≠ .null ∧
        if op = "in" then ∃ value ∈ values, Codecs.normalize spec value = .ok (.ofValue x)
        else ∀ value ∈ values, Codecs.normalize spec value ≠ .ok (.ofValue x)

def Predicate.Holds (schema : BlobSchema) (term : Predicate) (row : Row) : Prop :=
  ∃ spec, Query.field schema term.field = .ok spec ∧ means spec term.op (cell row term.field) term.value

-- Ascending keys put NULL first, descending keys put it last.
def ComesFirst (descending : Bool) (x y : Value) : Prop :=
  if descending then x ≠ .null ∧ (y = .null ∨ y < x)
  else y ≠ .null ∧ (x = .null ∨ x < y)

-- The order of two rows, given by their values: the keys one after the other,
-- then the id.
def InOrder : List Order → (String → Value) → (String → Value) → Prop
  | [], a, b => ComesFirst false (a "id") (b "id")
  | item :: rest, a, b =>
      ComesFirst item.descending (a item.field) (b item.field) ∨
        (a item.field = b item.field ∧ InOrder rest a b)

-- The values of the row a cursor was taken from.
def FindCursor.cell (cursor : FindCursor) (name : String) : Value :=
  (((cursor.order.zip cursor.values).find? fun entry => entry.1.field = name).map fun entry =>
    entry.2.value).getD
    .null

def Behind (orderBy : List Order) (after : After) (row : Row) : Prop :=
  match after with
  | .none => True
  | .id value => InOrder orderBy (fun _ => (Cell.text value).value) (cell row)
  | .cursor cursor => InOrder orderBy cursor.cell (cell row)

-- A ready blob of exactly this schema version, with its metadata, that satisfies
-- every term.
structure Matches (db : Catalog) (schema : BlobSchema) (terms : List Predicate) (row : Row) : Prop where
  blob : row.1 ∈ db.blobs
  metadata : row.2 ∈ db.metadata
  table : row.2.table = schema.name
  id : row.2.id = .text row.1.id
  ready : row.1.state = .ready
  schemaName : row.1.schemaName = schema.name
  schemaVersion : row.1.schemaVersion = schema.version
  metadataVersion : row.2.schemaVersion = schema.version
  holds : ∀ term ∈ terms, term.Holds schema row

def Clause.Bound (clause : Clause) : Prop := clause.1.holes = clause.2.length

def Clause.params (clause : Clause) : List Value := clause.2.map Cell.value

def Clause.holds (clause : Clause) (row : Row) : Bool := (clause.1.eval row clause.params).holds

theorem Clause.Bound.params {clause : Clause} (h : clause.Bound) : clause.1.holes = clause.params.length := by
  rw [Clause.params, List.length_map]
  exact h

theorem column_value (row : Row) (name : String) : (column name).value row = cell row name := by
  unfold column cell
  split <;> rfl

-- A condition reads no more parameters than it has placeholders.
theorem Cond.eval_congr (row : Row) (cond : Cond) {params params' : List Value}
    (h : params.take cond.holes = params'.take cond.holes) :
    cond.eval row params = cond.eval row params' := by
  induction cond generalizing params params' with
  | compare col op =>
      simp only [Cond.holes] at h
      cases params <;> cases params' <;> simp_all [Cond.eval]
  | member negated col count =>
      simp only [Cond.holes] at h
      simp only [Cond.eval, h]
  | both a b iha ihb | either a b iha ihb =>
      simp only [Cond.holes] at h
      have ha : params.take a.holes = params'.take a.holes := by
        have := congrArg (List.take a.holes) h
        simpa [List.take_take] using this
      have hb : (params.drop a.holes).take b.holes = (params'.drop a.holes).take b.holes := by
        have := congrArg (List.drop a.holes) h
        simpa [List.drop_take] using this
      simp only [Cond.eval, iha ha, ihb hb]
  | isText col text => rfl
  | isNull col => rfl
  | notNull col => rfl
  | zero => rfl

theorem Clause.eval_append (clause : Clause) (row : Row) (rest : List Value) (h : clause.Bound) :
    clause.1.eval row (clause.params ++ rest) = clause.1.eval row clause.params :=
  Cond.eval_congr row clause.1 (by rw [List.take_append_of_le_length (le_of_eq h.params)])

theorem Clause.drop_append (clause : Clause) (rest : List Value) (h : clause.Bound) :
    (clause.params ++ rest).drop clause.1.holes = rest := by
  rw [h.params, List.drop_left]

theorem params_append (cond : Cond) (a b : Clause) :
    Clause.params (cond, a.2 ++ b.2) = a.params ++ b.params :=
  List.map_append

theorem both_holds (a b : Clause) (ha : a.Bound) (row : Row) :
    Clause.holds (.both a.1 b.1, a.2 ++ b.2) row = (a.holds row && b.holds row) := by
  rw [Clause.holds, params_append, Cond.eval, Truth.holds_and, a.eval_append row b.params ha,
    a.drop_append b.params ha]
  rfl

theorem either_holds (a b : Clause) (ha : a.Bound) (row : Row) :
    Clause.holds (.either a.1 b.1, a.2 ++ b.2) row = (a.holds row || b.holds row) := by
  rw [Clause.holds, params_append, Cond.eval, Truth.holds_or, a.eval_append row b.params ha,
    a.drop_append b.params ha]
  rfl

theorem foldl_both (clauses : List Clause) (first : Clause) (hfirst : first.Bound)
    (hbound : ∀ c ∈ clauses, c.Bound) :
    (clauses.foldl (fun a b => (.both a.1 b.1, a.2 ++ b.2)) first : Clause).Bound ∧
      ∀ row, (clauses.foldl (fun a b => (.both a.1 b.1, a.2 ++ b.2)) first : Clause).holds row = true ↔
        first.holds row = true ∧ ∀ c ∈ clauses, c.holds row = true := by
  induction clauses generalizing first with
  | nil => exact ⟨hfirst, fun row => by simp⟩
  | cons c rest ih =>
      have hc := hbound c List.mem_cons_self
      have hboth : Clause.Bound (.both first.1 c.1, first.2 ++ c.2) := by
        simp only [Clause.Bound, Cond.holes, List.length_append] at *
        omega
      obtain ⟨hb, hrows⟩ := ih _ hboth fun d hd => hbound d (List.mem_cons_of_mem _ hd)
      refine ⟨hb, fun row => ?_⟩
      rw [List.foldl_cons, hrows row, both_holds first c hfirst row]
      simp [and_assoc]

theorem foldl_either (clauses : List Clause) (first : Clause) (hfirst : first.Bound)
    (hbound : ∀ c ∈ clauses, c.Bound) :
    (clauses.foldl (fun a b => (.either a.1 b.1, a.2 ++ b.2)) first : Clause).Bound ∧
      ∀ row, (clauses.foldl (fun a b => (.either a.1 b.1, a.2 ++ b.2)) first : Clause).holds row = true ↔
        first.holds row = true ∨ ∃ c ∈ clauses, c.holds row = true := by
  induction clauses generalizing first with
  | nil => exact ⟨hfirst, fun row => by simp⟩
  | cons c rest ih =>
      have hc := hbound c List.mem_cons_self
      have heither : Clause.Bound (.either first.1 c.1, first.2 ++ c.2) := by
        simp only [Clause.Bound, Cond.holes, List.length_append] at *
        omega
      obtain ⟨hb, hrows⟩ := ih _ heither fun d hd => hbound d (List.mem_cons_of_mem _ hd)
      refine ⟨hb, fun row => ?_⟩
      rw [List.foldl_cons, hrows row, either_holds first c hfirst row]
      simp [or_assoc]

-- The parameters stand in the order of the clauses.

theorem foldl_params (combine : Cond → Cond → Cond) (clauses : List Clause) (first : Clause) :
    (clauses.foldl (fun a b => (combine a.1 b.1, a.2 ++ b.2)) first : Clause).2 =
      first.2 ++ clauses.flatMap Prod.snd := by
  induction clauses generalizing first with
  | nil => simp
  | cons c rest ih => rw [List.foldl_cons, ih, List.flatMap_cons, List.append_assoc]

theorem conj_params (clauses : List Clause) : (conj clauses).2 = clauses.flatMap Prod.snd := by
  cases clauses with
  | nil => rfl
  | cons c rest => exact foldl_params .both rest c

theorem disj_params (clauses : List Clause) : (disj clauses).2 = clauses.flatMap Prod.snd := by
  cases clauses with
  | nil => rfl
  | cons c rest => exact foldl_params .either rest c

theorem conj_holds (clauses : List Clause) (hne : clauses ≠ []) (hbound : ∀ c ∈ clauses, c.Bound) :
    (conj clauses).Bound ∧
      ∀ row, (conj clauses).holds row = true ↔ ∀ c ∈ clauses, c.holds row = true := by
  cases clauses with
  | nil => exact absurd rfl hne
  | cons c rest =>
      obtain ⟨hb, hrows⟩ := foldl_both rest c (hbound c List.mem_cons_self)
        fun d hd => hbound d (List.mem_cons_of_mem _ hd)
      exact ⟨hb, fun row => by rw [conj, hrows row]; simp⟩

theorem disj_holds (clauses : List Clause) (hbound : ∀ c ∈ clauses, c.Bound) :
    (disj clauses).Bound ∧
      ∀ row, (disj clauses).holds row = true ↔ ∃ c ∈ clauses, c.holds row = true := by
  cases clauses with
  | nil => exact ⟨rfl, fun row => by simp [disj, Clause.holds, Cond.eval]⟩
  | cons c rest =>
      obtain ⟨hb, hrows⟩ := foldl_either rest c (hbound c List.mem_cons_self)
        fun d hd => hbound d (List.mem_cons_of_mem _ hd)
      exact ⟨hb, fun row => by rw [disj, hrows row]; simp⟩

end Query

end MeldStore
