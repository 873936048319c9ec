import MeldStore.Quoting

namespace MeldStore

open Library Library.Checked Library.Sql

-- The generated statements in parts: phrases, numbers, quoted names and literals

def phrase (text : String) : Part := .fixed (utf8 text)

def named (name : String) : Part := .quoted (ascii '"') (utf8 name)

def lettered (text : String) : Part := .quoted 0x27 (utf8 text)

def counted (n : ℕ) : Part := .number (utf8 (toString n))

-- A text that has the bytes of the parts.
def Spells (text : String) (parts : List Part) : Prop := utf8 text = spelled parts

@[simp] theorem text_phrase (text : String) : (phrase text).text = utf8 text := rfl

theorem outline_phrase (text : String) : (phrase text).outline = phrase text := rfl

theorem outline_named (name : String) : (named name).outline = named "" := rfl

theorem outline_lettered (text : String) : (lettered text).outline = lettered "" := rfl

@[simp] theorem spelled_nil : spelled [] = [] := rfl

@[simp] theorem spelled_cons (part : Part) (parts : List Part) :
    spelled (part :: parts) = part.text ++ spelled parts :=
  List.flatMap_cons

section

variable {a b : String} {parts more : List Part} {after : Option UInt8}

theorem Spells.append (ha : Spells a parts) (hb : Spells b more) : Spells (a ++ b) (parts ++ more) := by
  rw [Spells, utf8_append, ha, hb, spelled_append]

theorem spells_phrase (text : String) : Spells text [phrase text] := (List.append_nil _).symm

theorem spells_quoted {name : String} (h : quoteIdentifier name = .ok a) : Spells a [named name] := by
  simp only [quoteIdentifier, bind_eq_ok, pure_eq_ok] at h
  obtain ⟨value, hvalue, rfl⟩ := h
  have hsame : value = name := by
    simp only [identifier, bind_eq_ok, pure_eq_ok] at hvalue
    obtain ⟨_, _, _, _, rfl⟩ := hvalue
    rfl
  subst hsame
  exact (Backup.utf8_sqlName value).trans (List.append_nil _).symm

theorem utf8_of_quoted {name : String} (h : quoteIdentifier name = .ok a) : utf8 a = (named name).text :=
  (spells_quoted h).trans (List.append_nil _)

theorem spells_literal (text : String) : Spells (literal text) [lettered text] := by
  have hquoted := utf8_quoted (q := Char.ofNat 39) (by decide) text ""
  rw [String.append_empty] at hquoted
  have hnil : utf8 "" = [] := by
    rw [utf8_eq]
    rfl
  rw [hnil] at hquoted
  exact (show utf8 (literal text) = _ from hquoted).trans (List.append_nil _).symm

theorem utf8_of_literal (text : String) : utf8 (literal text) = (lettered text).text :=
  (spells_literal text).trans (List.append_nil _)

theorem spells_number (n : ℕ) : Spells (toString n) [counted n] := (List.append_nil _).symm

-- The items of a list after the first one, each behind the separator.
theorem utf8_joined (separator first : String) (items : List String) :
    utf8 (joined separator (first :: items)) = utf8 first ++ items.flatMap fun item =>
    utf8 separator ++ utf8 item := by
  induction items generalizing first with
  | nil => rw [joined, String.intercalate_singleton, List.flatMap_nil, List.append_nil]
  | cons second items ih =>
      rw [joined, String.intercalate_cons_cons, utf8_append, utf8_append, ← joined, ih, List.flatMap_cons]
      simp only [List.append_assoc]

theorem spells_items {α : Type} {write : α → Except Error String} (separator : String) (item : α → List Part)
    {items : List α} {texts : List String} (h : items.mapM write = .ok texts)
    (hitem : ∀ i text, write i = .ok text → utf8 separator ++ utf8 text = spelled (item i)) :
    (texts.flatMap fun text => utf8 separator ++ utf8 text) = spelled (items.flatMap item) := by
  have hall := (mapM_eq_ok _ _ _).mp h
  clear h
  induction hall with
  | nil => rfl
  | cons hwrite _ ih => rw [List.flatMap_cons, List.flatMap_cons, spelled_append, ih, hitem _ _ hwrite]

theorem nul_of_quoted {name : String} (h : quoteIdentifier name = .ok a) : (0 : UInt8) ∉ utf8 name := by
  refine nul_not_mem ?_
  simp only [quoteIdentifier, bind_eq_ok, pure_eq_ok] at h
  obtain ⟨value, hvalue, _⟩ := h
  have hsame : value = name := by
    simp only [identifier, bind_eq_ok, pure_eq_ok] at hvalue
    obtain ⟨_, _, _, _, rfl⟩ := hvalue
    rfl
  exact hsame ▸ hvalue

theorem head_counted (n : ℕ) (parts : List Part) (after : Option UInt8) :
    ∃ d, head (counted n :: parts) after = some d ∧ isDigit d = true := by
  cases hdigits : utf8 (toString n) with
  | nil => exact absurd hdigits (number_ne_nil n)
  | cons d digits =>
      refine ⟨d, ?_, number_digits (n := n) (hdigits ▸ List.mem_cons_self)⟩
      rw [head, spelled, List.flatMap_cons, show (counted n).text = utf8 (toString n) from rfl, hdigits]
      rfl

end

-- One column of a table.

def checkParts (name : String) : Kind → List Part
  | .text => [phrase "typeof(", named name, phrase ") = 'text'"]
  | .int64 => [phrase "typeof(", named name, phrase ") = 'integer'"]
  | .float => [phrase "typeof(", named name, phrase ") = 'real' AND abs(", named name,
      phrase ") <= 1.7976931348623157e308"]
  | .boolean => [phrase "typeof(", named name, phrase ") = 'integer' AND ", named name, phrase " IN (0, 1)"]
  | .timestamp => [phrase "typeof(", named name, phrase ") = 'text' AND ", named name, phrase " GLOB ",
      phrase ("'[0-9][0-9][0-9][0-9]-[0-9][0-9]-[0-9][0-9]T" ++
        "[0-9][0-9]:[0-9][0-9]:[0-9][0-9].[0-9][0-9][0-9][0-9][0-9][0-9]Z'")]

def columnParts (name : String) (spec : Field) : List Part :=
  [named name, phrase (" " ++ Installation.columnType spec.kind ++
    (if spec.required then " NOT NULL" else "") ++ " CHECK ("),
    named name, phrase " IS NULL OR ("] ++ checkParts name spec.kind ++ [phrase "))"]

theorem spells_column {name text : String} {spec : Field} (h : Installation.column name spec = .ok text) :
    Spells text (columnParts name spec) := by
  simp only [Installation.column, bind_eq_ok, pure_eq_ok] at h
  obtain ⟨column, hcolumn, rfl⟩ := h
  have hname := utf8_of_quoted hcolumn
  have hcheck : utf8 (Installation.columnCheck column spec.kind) = spelled (checkParts name spec.kind) := by
    cases spec.kind <;> simp only [Installation.columnCheck, checkParts, utf8_append, hname,
      spelled_cons, spelled_nil, text_phrase, List.append_assoc, List.append_nil,
    -String.reduceAppend]
  simp only [Spells, columnParts, utf8_append, hname, hcheck, spelled_append, spelled_cons,
    spelled_nil, text_phrase, List.append_assoc, List.append_nil,
    -String.reduceAppend]

theorem outline_column (name : String) (spec : Field) :
    (columnParts name spec).map Part.outline = (columnParts "" ⟨spec.kind, spec.required, false⟩).map
    Part.outline := by
  obtain ⟨kind, required, immutable⟩ := spec
  cases kind <;> rfl

theorem woven_column {name text : String} {spec : Field} (h : Installation.column name spec = .ok text) :
    Woven (columnParts name spec) (some (ascii ',')) ∧ Woven (columnParts name spec) (some (ascii ')')) := by
  simp only [Installation.column, bind_eq_ok, pure_eq_ok] at h
  obtain ⟨column, hcolumn, rfl⟩ := h
  have hfree : ∀ part ∈ columnParts name spec, part.NulFree := by
    have hnul := nul_of_quoted hcolumn
    simp only [columnParts, List.forall_mem_append, List.forall_mem_cons]
    cases spec.kind <;> simp [checkParts, Part.NulFree, phrase, named, hnul]
  refine ⟨woven_outline ?_ hfree, woven_outline ?_ hfree⟩
  all_goals
    rw [outline_column]
    cases spec.kind <;> cases spec.required <;> decide +kernel

-- The table, the triggers and the indexes of a schema.

def tableEnd : String :=
  ", " ++ "FOREIGN KEY (\"id\", \"schema_name\", \"schema_version\") " ++
    "REFERENCES ms_blobs(id, schema_name, schema_version) " ++ "ON UPDATE RESTRICT ON DELETE RESTRICT" ++ ")"

def tableParts (schema : BlobSchema) : List Part :=
  [phrase "CREATE TABLE ", named (tableName schema),
    phrase (" (" ++ "\"id\" TEXT NOT NULL PRIMARY KEY" ++ ", " ++
      "\"schema_name\" TEXT NOT NULL DEFAULT "), lettered schema.name, phrase " CHECK (\"schema_name\" = ",
    lettered schema.name, phrase (")" ++ ", " ++
      "\"schema_version\" INTEGER NOT NULL DEFAULT 1 CHECK (\"schema_version\" = 1)" ++ ", " ++
      "\"version\" INTEGER NOT NULL DEFAULT 1 " ++
        "CHECK (typeof(\"version\") = 'integer' AND \"version\" > 0)")] ++
    (schema.fields.flatMap fun field => phrase ", " :: columnParts field.1 field.2) ++
    [phrase tableEnd]

def changedParts (front name : String) : List Part :=
  [phrase (front ++ "NEW."), named name, phrase " IS NOT OLD.", named name]

def updateEnd : String :=
  ") OR NEW.version != OLD.version + 1\n" ++
    "        BEGIN SELECT RAISE(ABORT, 'immutable field or invalid concurrency version'); END"

theorem utf8_updateEnd : utf8 updateEnd = utf8 ") OR NEW.version != OLD.version + 1\n" ++
    utf8 "        BEGIN SELECT RAISE(ABORT, 'immutable field or invalid concurrency version'); END"
    := utf8_append _ _

def updateParts (table : String) (immutable : List String) : List Part :=
  [phrase "CREATE TRIGGER ", named (table ++ "_update"), phrase " BEFORE UPDATE ON ", named table] ++
    changedParts "\n        WHEN (" "id" ++ immutable.flatMap (changedParts " OR ") ++ [phrase updateEnd]

def insertEnd : String :=
  "\n        WHEN NEW.version != 1\n" ++
    "        BEGIN SELECT RAISE(ABORT, 'initial concurrency version must be 1'); END"

theorem utf8_insertEnd : utf8 insertEnd = utf8 "\n        WHEN NEW.version != 1\n" ++
    utf8 "        BEGIN SELECT RAISE(ABORT, 'initial concurrency version must be 1'); END" := utf8_append _ _

def insertParts (table : String) : List Part :=
  [phrase "CREATE TRIGGER ", named (table ++ "_insert"), phrase " BEFORE INSERT ON ", named table,
    phrase insertEnd]

def namesParts (separator : String) : List String → List Part
  | [] => []
  | first :: names => named first :: names.flatMap fun name => [phrase separator, named name]

def indexParts (name table separator : String) (index : Index) (suffix : List Part) : List Part :=
  [phrase ("CREATE " ++ (if index.unique then "UNIQUE " else "") ++ "INDEX "), named name,
    phrase " ON ", named table, phrase " ("] ++ namesParts separator index.fields ++ phrase ")" :: suffix

def schemaParts (schema : BlobSchema) : List (List Part) :=
  [tableParts schema,
    updateParts (tableName schema) (["schema_name", "schema_version"] ++
      (schema.fields.filter fun field => field.2.immutable).map Prod.fst),
    insertParts (tableName schema)] ++
  schema.indexes.zipIdx.map fun entry =>
    indexParts (tableName schema ++ "_i" ++ toString entry.2) (tableName schema) ", " entry.1 []

theorem spells_names {separator : String} {names columns : List String}
    (h : names.mapM quoteIdentifier = .ok columns) :
    utf8 (joined separator columns) = spelled (namesParts separator names) := by
  cases names with
  | nil =>
      rw [List.mapM_nil, pure_eq_ok] at h
      rw [← h]
      rfl
  | cons first names =>
      simp only [List.mapM_cons, bind_eq_ok, pure_eq_ok] at h
      obtain ⟨column, hcolumn, columns, hcolumns, rfl⟩ := h
      have hlist := spells_items separator (fun name => [phrase separator, named name]) hcolumns
        fun name text htext => by
          rw [utf8_of_quoted htext, spelled_cons, spelled_cons, spelled_nil, List.append_nil, text_phrase]
      rw [utf8_joined, hlist, utf8_of_quoted hcolumn, namesParts, spelled_cons]

theorem spells_index {name table quoted separator suffix : String} {index : Index} {parts : List Part}
    {entry : String × String} (hquoted : quoteIdentifier table = .ok quoted) (hsuffix : Spells suffix parts)
    (h : Installation.indexObject name quoted separator suffix index = .ok entry) :
    Spells entry.2 (indexParts name table separator index parts) := by
  simp only [Installation.indexObject, bind_eq_ok, pure_eq_ok] at h
  obtain ⟨index', hindex, columns, hcolumns, rfl⟩ := h
  simp only [Spells, indexParts, utf8_append, utf8_of_quoted hquoted, utf8_of_quoted hindex,
    spells_names hcolumns,
    show utf8 suffix = _ from hsuffix, spelled_cons, spelled_nil, spelled_append, text_phrase,
    List.append_assoc, List.append_nil]

theorem utf8_changed (front : String) {name text : String} (h : Installation.changed name = .ok text) :
    utf8 front ++ utf8 text = spelled (changedParts front name) := by
  simp only [Installation.changed, bind_eq_ok, pure_eq_ok] at h
  obtain ⟨column, hcolumn, rfl⟩ := h
  simp only [changedParts, utf8_append, utf8_of_quoted hcolumn, spelled_cons, spelled_nil, text_phrase,
    List.append_assoc, List.append_nil,
    -String.reduceAppend]

theorem spells_update {name table update : String} {immutable predicate : List String}
    (htable : quoteIdentifier name = .ok table) (hupdate : quoteIdentifier (name ++ "_update") = .ok update)
    (hpredicate : ("id" :: immutable).mapM Installation.changed = .ok predicate) :
    Spells ("CREATE TRIGGER " ++ update ++ " BEFORE UPDATE ON " ++ table ++ "\n        WHEN (" ++
      joined " OR " predicate ++ ") OR NEW.version != OLD.version + 1\n" ++
      "        BEGIN SELECT RAISE(ABORT, 'immutable field or invalid concurrency version'); END")
      (updateParts name immutable) := by
  simp only [List.mapM_cons, bind_eq_ok, pure_eq_ok] at hpredicate
  obtain ⟨first, hfirst, predicate, hpredicate, rfl⟩ := hpredicate
  have hlist := spells_items _ _ hpredicate fun name text => utf8_changed " OR "
  have hid := utf8_changed "\n        WHEN (" hfirst
  have hfront (rest : Bytes) : utf8 "\n        WHEN (" ++ (utf8 first ++ rest) =
      spelled (changedParts "\n        WHEN (" "id") ++ rest := by rw [← List.append_assoc, hid]
  rw [Spells, utf8_append, utf8_append, utf8_append, utf8_joined, hlist]
  simp only [utf8_append, List.append_assoc, hfront, updateParts, utf8_updateEnd, spelled_append, spelled_cons,
    spelled_nil, text_phrase,
    utf8_of_quoted htable, utf8_of_quoted hupdate, List.append_nil, -String.reduceAppend]

theorem spells_insert {name table insert : String} (htable : quoteIdentifier name = .ok table)
    (hinsert : quoteIdentifier (name ++ "_insert") = .ok insert) :
    Spells ("CREATE TRIGGER " ++ insert ++ " BEFORE INSERT ON " ++ table ++
      "\n        WHEN NEW.version != 1\n" ++
      "        BEGIN SELECT RAISE(ABORT, 'initial concurrency version must be 1'); END")
      (insertParts name) := by
  simp only [Spells, insertParts, utf8_insertEnd, utf8_append, utf8_of_quoted htable, utf8_of_quoted hinsert,
    spelled_cons, spelled_nil, text_phrase, List.append_assoc, List.append_nil,
    -String.reduceAppend]

theorem spells_table {schema : BlobSchema} {table : String} {columns : List String}
    (htable : quoteIdentifier (tableName schema) = .ok table)
    (hcolumns : (schema.fields.mapM fun field => Installation.column field.1 field.2) = .ok columns) :
    Spells ("CREATE TABLE " ++ table ++ " (" ++ joined ", " (["\"id\" TEXT NOT NULL PRIMARY KEY",
      "\"schema_name\" TEXT NOT NULL DEFAULT " ++ literal schema.name ++
        " CHECK (\"schema_name\" = " ++ literal schema.name ++ ")",
      "\"schema_version\" INTEGER NOT NULL DEFAULT 1 CHECK (\"schema_version\" = 1)",
      "\"version\" INTEGER NOT NULL DEFAULT 1 " ++
        "CHECK (typeof(\"version\") = 'integer' AND \"version\" > 0)"] ++ columns ++
    ["FOREIGN KEY (\"id\", \"schema_name\", \"schema_version\") " ++
      "REFERENCES ms_blobs(id, schema_name, schema_version) " ++
        "ON UPDATE RESTRICT ON DELETE RESTRICT"]) ++ ")")
      (tableParts schema) := by
  have hlist := spells_items ", " (fun field => phrase ", " :: columnParts field.1 field.2) hcolumns
    fun field text htext => by rw [spelled_cons, text_phrase, show utf8 text = _ from spells_column htext]
  rw [Spells, utf8_append, utf8_append, List.cons_append, List.cons_append, utf8_joined, List.flatMap_append,
    List.flatMap_append, hlist]
  simp only [tableParts, tableEnd, utf8_append, utf8_of_quoted htable, utf8_of_literal, List.flatMap_cons,
    List.flatMap_nil,
    spelled_append, spelled_cons, spelled_nil, text_phrase, List.append_assoc, List.append_nil,
    -String.reduceAppend]

theorem spells_schemaObjects {schema : BlobSchema} {ddl : Ddl}
    (h : Installation.schemaObjects schema = .ok ddl) :
    List.Forall₂ (fun entry parts => Spells entry.2 parts) ddl (schemaParts schema) := by
  simp only [Installation.schemaObjects, bind_eq_ok, pure_eq_ok, -String.reduceAppend] at h
  obtain ⟨table, htable, columns, hcolumns, predicate, hpredicate, update, hupdate, insert, hinsert, indexes,
    hindexes, rfl⟩ := h
  refine List.rel_append (.cons ?_ (.cons ?_ (.cons ?_ .nil))) ?_
  · exact spells_table htable hcolumns
  · exact spells_update htable hupdate hpredicate
  · exact spells_insert htable hinsert
  · have hall := (mapM_eq_ok _ _ _).mp hindexes
    rw [List.forall₂_map_right_iff]
    exact hall.flip.imp fun _ _ hentry => spells_index htable (show Spells "" [] from rfl) hentry

-- The parts fit, whatever the names.

theorem woven_items {α : Type} {item : α → List Part} {items : List α} {first : UInt8} {after : Option UInt8}
    (hhead : ∀ i ∈ items, ∀ rest, head (item i) rest = some first)
    (hitems : ∀ i ∈ items, Woven (item i) (some first)) (hafter : after = some first) :
    Woven (items.flatMap item) after :=
  woven_flatMap hhead fun i hi => ⟨hitems i hi, hafter ▸ hitems i hi⟩

theorem head_items {α : Type} {item : α → List Part} (items : List α) {first : UInt8}
    (hhead : ∀ i ∈ items, ∀ rest, head (item i) rest = some first) :
    head (items.flatMap item) (some first) = some first := by
  cases items with
  | nil => rfl
  | cons i items => rw [List.flatMap_cons, head_append, hhead i List.mem_cons_self]

theorem head_phrase {text : String} {first : UInt8} (h : (utf8 text).head? = some first) (parts : List Part)
    (after : Option UInt8) : head (phrase text :: parts) after = some first := by
  rw [head_cons, text_phrase, h, Option.some_or]

theorem woven_changed {name text : String} (h : Installation.changed name = .ok text) :
    Woven (changedParts " OR " name) (some 0x20) ∧ Woven (changedParts " OR " name) (some (ascii ')')) := by
  simp only [Installation.changed, bind_eq_ok, pure_eq_ok] at h
  obtain ⟨column, hcolumn, rfl⟩ := h
  have hnul := nul_of_quoted hcolumn
  have hfree : ∀ part ∈ changedParts " OR " name, part.NulFree := by
    simp [changedParts, Part.NulFree, phrase, named, hnul]
  refine ⟨woven_outline ?_ hfree, woven_outline ?_ hfree⟩
  all_goals
    simp only [changedParts, List.map_cons, List.map_nil, outline_phrase, outline_named]
    decide

theorem woven_names {separator : String} {names columns : List String}
    (hseparator : (utf8 separator).head? = some (ascii ','))
    (hjoins : joinsNext (utf8 separator) (some (ascii '"')) = true) (hne : names ≠ [])
    (h : names.mapM quoteIdentifier = .ok columns) :
    Woven (namesParts separator names) (some (ascii ')')) ∧
      head (namesParts separator names) (some (ascii ')')) = some (ascii '"') := by
  have hnul : ∀ name ∈ names, (0 : UInt8) ∉ utf8 name := fun name hname => by
    obtain ⟨quoted, _, hquoted⟩ := mapM_mem _ _ _ h _ hname
    exact nul_of_quoted hquoted
  cases names with
  | nil => exact absurd rfl hne
  | cons first names =>
      have hitem (mark : UInt8) (hmark : mark ≠ ascii '"') (name : String) (hname : name ∈ names) :
          Woven [phrase separator, named name] (some mark) :=
        ⟨hjoins, by decide, hnul name (List.mem_cons_of_mem _ hname),
          fun hsame => hmark (Option.some.inj hsame), trivial⟩
      have hlist : Woven (names.flatMap fun name => [phrase separator, named name]) (some (ascii ')')) :=
        woven_flatMap (fun _ _ _ => head_phrase hseparator _ _) fun name hname =>
          ⟨hitem _ (by decide) name hname, hitem _ (by decide) name hname⟩
      have hhead : head (names.flatMap fun name => [phrase separator, named name])
        (some (ascii ')')) ≠ some (ascii '"') := by
        cases names with
        | nil =>
            show some (ascii ')') ≠ some (ascii '"')
            decide
        | cons second names =>
            rw [List.flatMap_cons, head_append, head_phrase hseparator]
            decide
      exact ⟨⟨by decide, hnul first List.mem_cons_self, hhead, hlist⟩, rfl⟩

theorem woven_index {name table quoted separator suffix : String} {index : Index} {parts : List Part}
    {entry : String × String} (hquoted : quoteIdentifier table = .ok quoted) (hne : index.fields ≠ [])
    (hseparator : (utf8 separator).head? = some (ascii ','))
    (hjoins : joinsNext (utf8 separator) (some (ascii '"')) = true)
    (hsuffix : Woven (phrase ")" :: parts) none)
    (h : Installation.indexObject name quoted separator suffix index = .ok entry) :
    Woven (indexParts name table separator index parts) none := by
  simp only [Installation.indexObject, bind_eq_ok, pure_eq_ok] at h
  obtain ⟨index', hindex, columns, hcolumns, rfl⟩ := h
  obtain ⟨hnames, hhead⟩ := woven_names hseparator hjoins hne hcolumns
  have hclose : head (phrase ")" :: parts) none = some (ascii ')') := head_phrase rfl _ _
  rw [indexParts, woven_append, woven_append, hclose, hhead]
  refine ⟨⟨woven_outline ?_ ?_, hnames⟩, hsuffix⟩
  · simp only [List.map_cons, List.map_nil, outline_phrase, outline_named]
    cases index.unique <;> decide
  · simp [Part.NulFree, phrase, named, nul_of_quoted hindex, nul_of_quoted hquoted]

theorem nonempty_index (schema : BlobSchema) {index : Index} (h : index ∈ schema.indexes) :
    index.fields ≠ [] := by
  obtain ⟨_, _, _, _, _, _, _, hindexes, _⟩ := schema.valid
  exact (hindexes index h).1.1

theorem woven_schemaObjects {schema : BlobSchema} {ddl : Ddl}
    (h : Installation.schemaObjects schema = .ok ddl) :
    ∀ parts ∈ schemaParts schema, Woven parts none := by
  simp only [Installation.schemaObjects, bind_eq_ok, pure_eq_ok, -String.reduceAppend] at h
  obtain ⟨table, htable, columns, hcolumns, predicate, hpredicate, update, hupdate, insert, hinsert, indexes,
    hindexes, rfl⟩ := h
  have hname := nul_of_quoted htable
  have hschema : (0 : UInt8) ∉ utf8 schema.name := nul_not_mem schema.valid.1
  simp only [schemaParts, List.forall_mem_append, List.forall_mem_cons, List.forall_mem_map]
  refine ⟨⟨?_, ?_, ?_, List.forall_mem_nil _⟩, ?_⟩
  · have hcomma (field : String × Field) (rest : Option UInt8) :
        head (phrase ", " :: columnParts field.1 field.2) rest = some (ascii ',') := head_phrase rfl _ _
    have hend : head [phrase tableEnd] none = some (ascii ',') := by decide
    rw [tableParts, woven_append, woven_append, hend, head_items _ fun field _ => hcomma field]
    refine ⟨⟨woven_outline ?_ ?_, ?_⟩, ⟨rfl, trivial⟩⟩
    · simp only [List.map_cons, List.map_nil, outline_phrase, outline_named, outline_lettered]
      decide +kernel
    · simp [Part.NulFree, phrase, named, lettered, hname, hschema]
    · refine woven_items (fun field _ => hcomma field) (fun field hfield => ?_) rfl
      obtain ⟨text, _, htext⟩ := mapM_mem _ _ _ hcolumns _ hfield
      refine ⟨?_, (woven_column htext).1⟩
      show joinsNext _ (some (ascii '"')) = true
      decide
  · have hend : head [phrase updateEnd] none = some (ascii ')') := by decide
    have hor (name : String) (rest : Option UInt8) : head (changedParts " OR " name) rest = some 0x20 :=
      head_phrase rfl _ _
    have hlist : head ((["schema_name", "schema_version"] ++ (schema.fields.filter fun field =>
        field.2.immutable).map Prod.fst).flatMap (changedParts " OR ")) (some (ascii ')')) = some 0x20 := by
      rw [List.cons_append, List.flatMap_cons, head_append, hor]
    have hwhen : head (changedParts "\n        WHEN (" "id") (some 0x20) = some 0x0a := head_phrase rfl _ _
    rw [updateParts, woven_append, woven_append, woven_append, hend, hlist, hwhen]
    refine ⟨⟨⟨woven_outline ?_ ?_, by decide⟩, ?_⟩, ⟨rfl, trivial⟩⟩
    · simp only [List.map_cons, List.map_nil, outline_phrase, outline_named]
      decide
    · simp [Part.NulFree, phrase, named, hname, nul_of_quoted hupdate]
    · refine woven_flatMap (fun name _ => hor name) fun name hmem => ?_
      obtain ⟨text, _, htext⟩ := mapM_mem _ _ _ hpredicate _ (List.mem_cons_of_mem _ hmem)
      exact woven_changed htext
  · refine woven_outline ?_ ?_
    · simp only [insertParts, List.map_cons, List.map_nil, outline_phrase, outline_named]
      decide
    · simp [insertParts, Part.NulFree, phrase, named, hname, nul_of_quoted hinsert]
  · intro entry hentry
    obtain ⟨object, _, hobject⟩ := mapM_mem _ _ _ hindexes _ hentry
    have hindex : entry.1 ∈ schema.indexes := (List.mem_zipIdx' hentry).2 ▸ List.getElem_mem _
    exact woven_index htable (nonempty_index schema hindex) rfl (by decide) ⟨rfl, trivial⟩ hobject

-- The outline of a statement depends on the shape of a schema alone, not on its names.

structure SameShape (s t : BlobSchema) : Prop where
  specs : s.fields.map Prod.snd = t.fields.map Prod.snd
  indexes : s.indexes.map (fun index => (index.unique, index.fields.length)) =
    t.indexes.map fun index => (index.unique, index.fields.length)

theorem outline_flatMap {α : Type} (items : List α) (item : α → List Part) :
    (items.flatMap item).map Part.outline = items.flatMap fun i => (item i).map Part.outline :=
  List.map_flatMap

theorem outline_columns (fields : List (String × Field)) :
    (fields.flatMap fun field => phrase ", " :: columnParts field.1 field.2).map Part.outline =
      (fields.map Prod.snd).flatMap fun spec =>
        phrase ", " :: (columnParts "" ⟨spec.kind, spec.required, false⟩).map Part.outline := by
  rw [outline_flatMap, List.flatMap_map]
  exact List.flatMap_congr fun field _ => by rw [List.map_cons, outline_phrase, outline_column]

theorem outline_changes (fields : List (String × Field)) (front : List String) :
    ((front ++ (fields.filter fun field => field.2.immutable).map Prod.fst).flatMap (changedParts " OR ")).map
    Part.outline = (front.flatMap fun _ => (changedParts " OR " "").map Part.outline) ++
        ((fields.map Prod.snd).filter fun spec => spec.immutable).flatMap fun _ =>
          (changedParts " OR " "").map Part.outline := by
  rw [outline_flatMap, List.flatMap_append, List.flatMap_map, List.filter_map, List.flatMap_map]
  rfl

theorem outline_names (separator : String) (names : List String) :
    (namesParts separator names).map Part.outline = namesParts separator (names.map fun _ => "") := by
  cases names with
  | nil => rfl
  | cons first names =>
      rw [List.map_cons, namesParts, namesParts, List.map_cons, outline_named, outline_flatMap,
        List.flatMap_map]
      rfl

theorem outline_index (name table separator : String) (index : Index) (suffix : List Part) :
    (indexParts name table separator index suffix).map Part.outline =
      (indexParts "" "" separator ⟨List.replicate index.fields.length "", index.unique⟩ suffix).map
      Part.outline := by
  simp only [indexParts, List.map_append, List.map_cons, List.map_nil, outline_names, outline_named,
    List.map_replicate, List.map_const']

theorem outline_schemaParts {s t : BlobSchema} (h : SameShape s t) :
    (schemaParts s).map (fun parts => parts.map Part.outline) = (schemaParts t).map fun parts =>
    parts.map Part.outline := by
  have hindexes (schema : BlobSchema) :
      (schema.indexes.zipIdx.map fun entry =>
        (indexParts (tableName schema ++ "_i" ++ toString entry.2) (tableName schema)
        ", " entry.1 []).map Part.outline) =
      (schema.indexes.map fun index => (index.unique, index.fields.length)).map fun shape =>
        (indexParts "" "" ", " ⟨List.replicate shape.2 "", shape.1⟩ []).map Part.outline := by
    rw [List.map_map]
    conv_rhs => rw [← List.zipIdx_map_fst 0 schema.indexes, List.map_map]
    exact List.map_congr_left fun entry _ => outline_index _ _ _ _ _
  simp only [schemaParts, List.map_append, List.map_cons, List.map_nil, List.map_map, Function.comp_def,
    hindexes, h.indexes]
  simp only [tableParts, updateParts, insertParts, List.map_append, List.map_cons, List.map_nil,
    outline_phrase, outline_named, outline_lettered, outline_columns, outline_changes, h.specs]

-- The tokens of statements, without what is between the quotes.
def structures (ddl : Ddl) : List (List Token) := ddl.map fun entry => outline (utf8 entry.2)

theorem structures_eq {ddl : Ddl} {all : List (List Part)}
    (hspelled : List.Forall₂ (fun entry parts => Spells entry.2 parts) ddl all)
    (hwoven : ∀ parts ∈ all, Woven parts none) :
    structures ddl = (all.map fun parts => parts.map Part.outline).map
      fun parts => parts.flatMap fun part => part.tokens.map Token.outline := by
  induction hspelled with
  | nil => rfl
  | cons hentry _ ih =>
      have hrest := ih fun parts hmem => hwoven parts (List.mem_cons_of_mem _ hmem)
      rw [structures] at hrest
      rw [structures, List.map_cons, List.map_cons, List.map_cons, hrest, show utf8 _ = spelled _ from hentry,
        (hwoven _ List.mem_cons_self).outline]

theorem structure_eq {entry : String × String} {parts : List Part} (hspelled : Spells entry.2 parts)
    (hwoven : Woven parts none) :
    structures [entry] = [(parts.map Part.outline).flatMap fun part => part.tokens.map Token.outline] :=
  structures_eq (.cons hspelled .nil) (List.forall_mem_singleton.mpr hwoven)

theorem schemaObjects_structures {s t : BlobSchema} {ddl other : Ddl} (h : SameShape s t)
    (hs : Installation.schemaObjects s = .ok ddl) (ht : Installation.schemaObjects t = .ok other) :
    structures ddl = structures other := by
  rw [structures_eq (spells_schemaObjects hs) (woven_schemaObjects hs),
    structures_eq (spells_schemaObjects ht) (woven_schemaObjects ht), outline_schemaParts h]

-- The guards of publication and retirement.

def guardEnd (evolved : Bool) : String :=
  " m\n" ++ "            WHERE m.id=NEW.id AND m.schema_version=NEW.schema_version)\n" ++
    "        OR NOT EXISTS (SELECT 1 FROM ms_objects o JOIN ms_prepared p ON o.token=p.token\n" ++
    "            WHERE o.blob_id=NEW.id AND p.schema_name=NEW.schema_name\n" ++
    "                AND p.schema_version" ++ (if evolved then "<=" else "=") ++ "NEW.schema_version))\n" ++
    "        BEGIN SELECT RAISE(ABORT, 'blob is not ready for publication'); END"

def guardParts (schema : BlobSchema) (evolved : Bool) : List Part :=
  [phrase "CREATE TRIGGER ", named (tableName schema ++ "_ready"),
    phrase (" BEFORE UPDATE OF state ON ms_blobs\n" ++
      "        WHEN NEW.schema_name="), lettered schema.name, phrase (" AND NEW.state='ready'\n" ++
      "        AND (NOT EXISTS (SELECT 1 FROM "), named (tableName schema), phrase (guardEnd evolved)]

def retireEnd : String :=
  "\n" ++ "        WHEN NOT EXISTS(SELECT 1 FROM ms_retired WHERE blob_id=OLD.id)\n" ++
    "        BEGIN SELECT RAISE(ABORT,'metadata deletion requires explicit retirement'); END"

def retireParts (schema : BlobSchema) : List Part :=
  [phrase "CREATE TRIGGER ", named (tableName schema ++ "_retire"), phrase " BEFORE DELETE ON ",
    named (tableName schema), phrase retireEnd]

theorem spells_guard {schema : BlobSchema} {evolved : Bool} {entry : String × String}
    (h : PayloadCatalog.guard schema evolved = .ok entry) :
    Spells entry.2 (guardParts schema evolved) ∧ Woven (guardParts schema evolved) none := by
  simp only [PayloadCatalog.guard, bind_eq_ok, pure_eq_ok, -String.reduceAppend] at h
  obtain ⟨quoted, hquoted, table, htable, rfl⟩ := h
  constructor
  · simp only [Spells, guardParts, guardEnd, utf8_append, utf8_of_quoted hquoted,
      utf8_of_quoted htable, utf8_of_literal,
      spelled_cons, spelled_nil, text_phrase, List.append_assoc, List.append_nil, -String.reduceAppend]
  · refine woven_outline ?_ ?_
    · simp only [guardParts, List.map_cons, List.map_nil, outline_phrase, outline_named, outline_lettered]
      cases evolved <;> decide
    · simp [guardParts, Part.NulFree, phrase, named, lettered, nul_of_quoted hquoted, nul_of_quoted htable,
        nul_not_mem schema.valid.1]

theorem spells_schemaGuard {schema : BlobSchema} {entry : String × String}
    (h : Lifecycle.schemaGuard schema = .ok entry) :
    Spells entry.2 (retireParts schema) ∧ Woven (retireParts schema) none := by
  simp only [Lifecycle.schemaGuard, bind_eq_ok, pure_eq_ok, -String.reduceAppend] at h
  obtain ⟨quoted, hquoted, table, htable, rfl⟩ := h
  constructor
  · simp only [Spells, retireParts, retireEnd, utf8_append, utf8_of_quoted hquoted, utf8_of_quoted htable,
      spelled_cons, spelled_nil, text_phrase, List.append_assoc, List.append_nil, -String.reduceAppend]
  · refine woven_outline ?_ ?_
    · simp only [retireParts, List.map_cons, List.map_nil, outline_phrase, outline_named]
      decide
    · simp [retireParts, Part.NulFree, phrase, named, nul_of_quoted hquoted, nul_of_quoted htable]

theorem guard_structures {s t : BlobSchema} {evolved : Bool} {entry other : String × String}
    (hs : PayloadCatalog.guard s evolved = .ok entry) (ht : PayloadCatalog.guard t evolved = .ok other) :
    structures [entry] = structures [other] := by
  have hread {s : BlobSchema} {entry : String × String} (hs : PayloadCatalog.guard s evolved = .ok entry) :=
    structure_eq (spells_guard hs).1 (spells_guard hs).2
  rw [hread hs, hread ht]
  simp only [guardParts, List.map_cons, List.map_nil, outline_phrase, outline_named, outline_lettered]

theorem schemaGuard_structures {s t : BlobSchema} {entry other : String × String}
    (hs : Lifecycle.schemaGuard s = .ok entry) (ht : Lifecycle.schemaGuard t = .ok other) :
    structures [entry] = structures [other] := by
  have hread {s : BlobSchema} {entry : String × String} (hs : Lifecycle.schemaGuard s = .ok entry) :=
    structure_eq (spells_schemaGuard hs).1 (spells_schemaGuard hs).2
  rw [hread hs, hread ht]
  simp only [retireParts, List.map_cons, List.map_nil, outline_phrase, outline_named]

end MeldStore
