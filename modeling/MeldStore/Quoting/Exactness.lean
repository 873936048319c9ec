import MeldStore.Quoting.Queries

namespace MeldStore

open Library Library.Checked Library.Sql

-- Quoting is exact

-- What the lexer reads of a quoted text, in front of any text and inside any text.
def ReadAs (quote : Char) (quoted : String) (token : Token) : Prop :=
  (∀ rest : String, rest.toList.head? ≠ some quote → next (utf8 (quoted ++ rest)) =
    some (some token, utf8 rest)) ∧
    ∀ front rest : String, ∀ z read, rest.toList.head? ≠ some quote →
      Reads (utf8 front ++ ascii quote :: z) read (ascii quote :: z) →
        tokens (utf8 (front ++ quoted ++ rest)) = read ++ token :: tokens (utf8 rest)

theorem readAs_quoted {q : Char} (hq : q.toNat < 0x80) (hquote : isQuote (ascii q) = true) {text : String}
    (htext : identifier text = .ok text) :
    ReadAs q (String.singleton q ++ MeldStore.doubled q text ++ String.singleton q)
    (quotedToken (ascii q) (utf8 text)) := by
  refine ⟨fun rest hrest => next_quoted hq hquote htext hrest, fun front rest z read hrest hfront => ?_⟩
  rw [String.append_assoc, utf8_append, utf8_quoted hq]
  exact tokens_replaced hquote hfront (nul_not_mem htext) fun hhead => hrest ((head_utf8 hq).mp hhead)

theorem readAs_identifier {text quoted : String} (h : quoteIdentifier text = .ok quoted) :
    ReadAs '"' quoted (.name (utf8 text)) := by
  obtain ⟨htext, rfl⟩ := quoteIdentifier_eq_ok.mp h
  exact readAs_quoted (q := '"') (by decide) (by decide) htext

theorem readAs_literal {text : String} (htext : identifier text = .ok text) :
    ReadAs (Char.ofNat 39) (literal text) (.string (utf8 text)) :=
  readAs_quoted (q := Char.ofNat 39) (by decide) (by decide) htext

-- A text that is a whole operand with the value, before any byte that ends it.
def Evaluates (text : String) (value : Sql.Value) : Prop :=
  ∃ read e, e.eval = some value ∧ (∀ more, operand (read ++ more) = some (e, more)) ∧
    ∀ rest : String, (utf8 rest).head?.all stops = true → tokens (utf8 (text ++ rest)) =
      read ++ tokens (utf8 rest)

theorem evaluates_value (repr : ℚ → String) {v : Value} {value : Sql.Value}
    (hv : Backup.stored v = some value) :
    Evaluates (Backup.sqlValue repr v) value := by
  refine ⟨Backup.valueTokens v, Backup.valueExpr v, Backup.eval_value hv,
    fun more => Backup.operand_value hv more, fun rest hrest => ?_⟩
  rw [utf8_append]
  exact (Backup.reads_value repr hv hrest).tokens

namespace Backup

-- A line of the script inserts the row.
theorem insert_read (repr : ℚ → String) {name : String} {columns : List String} {row : List Value}
    {values : List Sql.Value}
    (hnames : ∀ text ∈ name :: columns, '\x00' ∉ text.toList) (hcolumns : columns ≠ []) (hrow : row ≠ [])
    (hvalues : List.Forall₂ (fun v value => stored v = some value) row values) {rest : String}
    (hrest : (utf8 rest).head?.any isSpace = false) :
    ∃ operands, insertStatement (tokens (utf8 (insertLine repr name columns row ++ rest))) =
        some (⟨utf8 name, columns.map utf8, operands⟩, tokens (utf8 rest)) ∧
      List.Forall₂ (fun e value => e.eval = some value) operands values := by
  have hnul : ∀ text ∈ name :: columns, (0 : UInt8) ∉ utf8 text := fun text hmem hzero =>
    hnames text hmem ((mem_utf8 (q := Char.ofNat 0) (by decide)).mp hzero)
  have hstored : ∀ v ∈ row, ∃ value, stored v = some value :=
    ((List.forall₂_and_left _ _).mp (hvalues.imp fun v value hvalue => ⟨⟨value, hvalue⟩, hvalue⟩)).1
  refine ⟨row.map valueExpr, ?_, ?_⟩
  · have hread := reads_insertLine repr hnul hcolumns hrow (fun v hv => by
      obtain ⟨value, hvalue⟩ := hstored v hv
      rw [hvalue]
      exact Option.some_ne_none value) hrest
    rw [utf8_append, hread.tokens]
    have hitems :=
      @insertStatement_insertTokens (utf8 name) (columns.map utf8)
      (row.map fun v => (valueTokens v, valueExpr v))
      (mt List.map_eq_nil_iff.mp hcolumns) (mt List.map_eq_nil_iff.mp hrow) (by
        simp only [List.forall_mem_map]
        intro v hv rest
        obtain ⟨value, hvalue⟩ := hstored v hv
        exact operand_value hvalue rest) (tokens (utf8 rest))
    simpa only [List.map_map, Function.comp_def] using hitems
  · rw [List.forall₂_map_left_iff]
    exact hvalues.imp fun v value hvalue => eval_value hvalue

end Backup

-- Find writes one placeholder for each parameter, and what it writes beside the names in quotes is
-- settled by the shape of the request.
theorem Query.find_structure {schema : BlobSchema} {conditions : List (String × Codecs.Argument)}
    {predicates : List Query.Predicate}
    {orderBy : List Query.Order} {after : Query.After} {limit : Int} {select : Query.Select}
    {params : List Codecs.Cell}
    (h : Query.compileQuery schema conditions predicates orderBy after limit = .ok (select, params)) :
    ∃ request text, Query.request schema conditions predicates orderBy after = .ok request ∧
      Query.statement schema request = .ok text ∧ (tokens (utf8 text)).countP Query.isVariable = params.length ∧
      ∀ other request' text', request'.Fitting → request.shape = request'.shape →
        Query.statement other request' = .ok text' → outline (utf8 text) = outline (utf8 text') := by
  obtain ⟨request, hrequest, hfitting, ⟨text, htext⟩, hcount⟩ := Query.request_eq_ok h
  refine ⟨request, text, hrequest, htext, (Query.slots_read hfitting htext).trans hcount, ?_⟩
  exact fun other request' text' hother hshape htext' =>
    Query.statement_structures hfitting hother hshape htext htext'

theorem quoting_is_lexically_exact (repr : ℚ → String) :
    (∀ s result, identifier s = .ok result → ∃ quoted, quoteIdentifier s = .ok quoted ∧
      ReadAs '"' quoted (.name (utf8 s)) ∧ ReadAs (Char.ofNat 39) (literal s) (.string (utf8 s))) ∧
    (∀ v value, Backup.stored v = some value → Evaluates (Backup.sqlValue repr v) value) ∧
    (∀ s t ddl other, SameShape s t → Installation.schemaObjects s = .ok ddl →
      Installation.schemaObjects t = .ok other →
      structures ddl = structures other) ∧
    (∀ schemas others ddl other, Migrations.SameLayout schemas others →
      Migrations.layoutObjects schemas = .ok ddl →
      Migrations.layoutObjects others = .ok other → structures ddl = structures other) ∧
    (∀ s t evolved entry other, PayloadCatalog.guard s evolved = .ok entry →
      PayloadCatalog.guard t evolved = .ok other →
      structures [entry] = structures [other]) ∧
    (∀ s t entry other, Lifecycle.schemaGuard s = .ok entry → Lifecycle.schemaGuard t = .ok other →
      structures [entry] = structures [other]) ∧
    (∀ schema conditions predicates orderBy after limit select params,
      Query.compileQuery schema conditions predicates orderBy after limit = .ok (select, params) →
      ∃ request text, Query.request schema conditions predicates orderBy after = .ok request ∧
        Query.statement schema request = .ok text ∧
        (tokens (utf8 text)).countP Query.isVariable = params.length ∧
        ∀ other request' text', request'.Fitting → request.shape = request'.shape →
          Query.statement other request' = .ok text' → outline (utf8 text) = outline (utf8 text')) ∧
    (∀ name columns row values rest, (∀ text ∈ name :: columns, '\x00' ∉ text.toList) →
      columns ≠ [] → row ≠ [] →
      List.Forall₂ (fun v value => Backup.stored v = some value) row values →
      (utf8 rest).head?.any isSpace = false →
      ∃ operands, insertStatement (tokens (utf8 (Backup.insertLine repr name columns row ++ rest))) =
          some (⟨utf8 name, columns.map utf8, operands⟩, tokens (utf8 rest)) ∧
        List.Forall₂ (fun e value => e.eval = some value) operands values) := by
  refine ⟨fun s result h => ?_, fun v value => evaluates_value repr,
    fun s t ddl other => schemaObjects_structures,
    fun schemas others ddl other => Migrations.layoutObjects_structures,
    fun s t evolved entry other => guard_structures,
    fun s t entry other => schemaGuard_structures, fun _ _ _ _ _ _ _ _ => Query.find_structure, ?_⟩
  · have hs := Declaration.identifier_eq_ok h
    obtain ⟨quoted, hquoted⟩ := exists_quoteIdentifier hs
    exact ⟨quoted, hquoted, readAs_identifier hquoted, readAs_literal hs⟩
  · exact fun name columns row values rest hnames hcolumns hrow hvalues hrest =>
      Backup.insert_read repr hnames hcolumns hrow hvalues hrest

end MeldStore
