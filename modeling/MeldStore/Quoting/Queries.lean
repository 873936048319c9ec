import MeldStore.Installation.Texts
import MeldStore.Query.Paging
import MeldStore.Quoting.Layouts

namespace MeldStore

open Library Library.Checked Library.Sql

namespace Query

-- The statement that the compiler writes

def Column.text : Column → Except Error String
  | .id => .ok "b.id"
  | .state => .ok "b.state"
  | .schemaName => .ok "b.schema_name"
  | .schemaVersion => .ok "b.schema_version"
  | .metaSchemaVersion => .ok "m.schema_version"
  | .field name => do
      let quoted ← quoteIdentifier name
      pure ("m." ++ quoted)

def Comparison.text : Comparison → String
  | .eq => "="
  | .ne => "!="
  | .lt => "<"
  | .lte => "<="
  | .gt => ">"
  | .gte => ">="
  | .is => "IS"

def placeholders (count : ℕ) : String := MeldStore.joined "," (List.replicate count "?")

def Cond.text : Cond → Except Error String
  | .isText column text => do
      let col ← column.text
      pure (col ++ "=" ++ literal text)
  | .compare column op => do
      let col ← column.text
      pure (col ++ " " ++ op.text ++ " ?")
  | .isNull column => do
      let col ← column.text
      pure (col ++ " IS NULL")
  | .notNull column => do
      let col ← column.text
      pure (col ++ " IS NOT NULL")
  | .member negated column count => do
      let col ← column.text
      pure (col ++ (if negated then " NOT IN (" else " IN (") ++ placeholders count ++ ")")
  | .zero => .ok "0"
  | .both a b => do
      let left ← a.text
      let right ← b.text
      pure (left ++ " AND " ++ right)
  | .either a b => do
      let left ← a.text
      let right ← b.text
      pure ("(" ++ left ++ " OR " ++ right ++ ")")

-- The branches of a cursor, each a list of conditions.
def branchConds (order : List Order) (values : List Codecs.Cell) (i : ℕ) : List Cond :=
  match order[i]?, values[i]? with
  | some item, some value =>
      (((order.zip values).take i).map (fun entry => equally entry.1 entry.2) ++ [strictly item value]).map
        Prod.fst
  | _, _ => []

def branchText (conds : List Cond) : Except Error String := do
  let pieces ← conds.mapM Cond.text
  pure ("(" ++ MeldStore.joined " AND " pieces ++ ")")

def behindText (branches : List (List Cond)) : Except Error (List String) :=
  if branches = [] then .ok []
  else do
    let texts ← branches.mapM branchText
    pure ["(" ++ MeldStore.joined " OR " texts ++ ")"]

def orderText (item : Order) : Except Error String := do
  let col ← (column item.field).text
  pure (col ++ (if item.descending then " DESC" else " ASC"))

def scopeTexts : List String :=
  ["b.state='ready'", "b.schema_name=?", "b.schema_version=?", "m.schema_version=?"]

-- The conditions of the terms, the branches of the cursor and the ordering.
structure Request where
  conds : List Cond
  branches : List (List Cond)
  order : List Order

def statement (schema : BlobSchema) (request : Request) : Except Error String := do
  let texts ← request.conds.mapM Cond.text
  let behind ← behindText request.branches
  let table ← quoteIdentifier (tableName schema)
  let columns ← request.order.mapM orderText
  pure ("SELECT b.id FROM ms_blobs b JOIN " ++ table ++ " m ON b.id=m.id WHERE " ++
    MeldStore.joined " AND " (scopeTexts ++ texts ++ behind) ++ " ORDER BY " ++ MeldStore.joined ","
    columns ++ " LIMIT ?")

-- The values of a cursor in the order of the sort fields.
def afterValues (schema : BlobSchema) (order : List Order) (after : After) :
    Except Error (Option (List Codecs.Cell)) :=
  let given : Option FindCursor := match after with
    | .none => none
    | .id value => some { schemaName := schema.name, schemaVersion := schema.version,
                          order := [⟨"id", false⟩], values := [.text value] }
    | .cursor value => some value
  match given with
  | none => .ok none
  | some cursor => do
      require (cursor.schemaName = schema.name ∧ cursor.schemaVersion = schema.version ∧
          cursor.order = order ∧ cursor.values.length = order.length)
        (.ValidationError "Cursor schema/order does not match this query")
      let values ← (order.zip cursor.values).mapM fun entry => cursorValue schema entry.1 entry.2
      pure (some values)

def branches (order : List Order) : Option (List Codecs.Cell) → List (List Cond)
  | none => []
  | some values => (List.range order.length).map (branchConds order values)

def request (schema : BlobSchema) (conditions : List (String × Codecs.Argument)) (predicates : List Predicate)
    (orderBy : List Order) (after : After) : Except Error Request := do
  let clauses ← (terms conditions predicates).mapM (compileTerm schema)
  let order ← ordering schema orderBy
  let values ← afterValues schema order after
  pure { conds := clauses.map Prod.fst, branches := branches order values, order := order }

-- The parts of the statement

def Column.parts : Column → List Part
  | .id => [phrase "b.id"]
  | .state => [phrase "b.state"]
  | .schemaName => [phrase "b.schema_name"]
  | .schemaVersion => [phrase "b.schema_version"]
  | .metaSchemaVersion => [phrase "m.schema_version"]
  | .field name => [phrase "m.", named name]

def Cond.parts : Cond → List Part
  | .isText column text => column.parts ++ [phrase "=", lettered text]
  | .compare column op => column.parts ++ [phrase (" " ++ op.text ++ " ?")]
  | .isNull column => column.parts ++ [phrase " IS NULL"]
  | .notNull column => column.parts ++ [phrase " IS NOT NULL"]
  | .member negated column count => column.parts ++ (phrase (if negated then " NOT IN (" else " IN (") ::
      (separated (utf8 ",") (List.replicate count [phrase "?"]) ++ [phrase ")"]))
  | .zero => [phrase "0"]
  | .both a b => a.parts ++ phrase " AND " :: b.parts
  | .either a b => phrase "(" :: (a.parts ++ phrase " OR " :: (b.parts ++ [phrase ")"]))

def branchParts (conds : List Cond) : List Part :=
  phrase "(" :: (separated (utf8 " AND ") (conds.map Cond.parts) ++ [phrase ")"])

def behindParts (branches : List (List Cond)) : List (List Part) :=
  if branches = [] then []
  else [phrase "(" :: (separated (utf8 " OR ") (branches.map branchParts) ++ [phrase ")"])]

def orderParts (item : Order) : List Part :=
  (column item.field).parts ++ [phrase (if item.descending then " DESC" else " ASC")]

def statementParts (schema : BlobSchema) (request : Request) : List Part :=
  phrase "SELECT b.id FROM ms_blobs b JOIN " :: named (tableName schema) :: phrase " m ON b.id=m.id WHERE " ::
    (separated (utf8 " AND ") (scopeTexts.map (fun text => [phrase text]) ++ request.conds.map Cond.parts ++
      behindParts request.branches) ++ phrase " ORDER BY " ::
      (separated (utf8 ",") (request.order.map orderParts) ++ [phrase " LIMIT ?"]))

theorem spells_col {column : Column} {text : String} (h : column.text = .ok text) :
    Spells text column.parts := by
  cases column with
  | field name =>
      simp only [Column.text, bind_eq_ok, pure_eq_ok] at h
      obtain ⟨quoted, hquoted, rfl⟩ := h
      exact (spells_phrase "m.").append (spells_quoted hquoted)
  | _ =>
      cases h
      exact spells_phrase _

theorem spells_placeholders (count : ℕ) :
    Spells (placeholders count) (separated (utf8 ",") (List.replicate count [phrase "?"])) := by
  refine spells_joined ?_
  induction count with
  | zero => exact .nil
  | succ count ih => exact .cons (spells_phrase _) ih

theorem spells_cond {cond : Cond} {text : String} (h : cond.text = .ok text) : Spells text cond.parts := by
  induction cond generalizing text with
  | isText column value =>
      simp only [Cond.text, bind_eq_ok, pure_eq_ok] at h
      obtain ⟨col, hcol, rfl⟩ := h
      have hall := ((spells_col hcol).append (spells_phrase "=")).append (spells_literal value)
      rwa [List.append_assoc] at hall
  | compare column op =>
      simp only [Cond.text, bind_eq_ok, pure_eq_ok, -String.reduceAppend] at h
      obtain ⟨col, hcol, rfl⟩ := h
      simp only [Spells, Cond.parts, utf8_append, spelled_append, spelled_cons, spelled_nil, text_phrase,
        show utf8 col = _ from spells_col hcol, List.append_assoc, List.append_nil, -String.reduceAppend]
  | isNull column =>
      simp only [Cond.text, bind_eq_ok, pure_eq_ok] at h
      obtain ⟨col, hcol, rfl⟩ := h
      exact (spells_col hcol).append (spells_phrase _)
  | notNull column =>
      simp only [Cond.text, bind_eq_ok, pure_eq_ok] at h
      obtain ⟨col, hcol, rfl⟩ := h
      exact (spells_col hcol).append (spells_phrase _)
  | member negated column count =>
      simp only [Cond.text, bind_eq_ok, pure_eq_ok] at h
      obtain ⟨col, hcol, rfl⟩ := h
      have hall := (((spells_col hcol).append (spells_phrase (if negated then " NOT IN (" else " IN ("))).append
        (spells_placeholders count)).append (spells_phrase ")")
      rwa [List.append_assoc, List.append_assoc] at hall
  | zero =>
      cases h
      exact spells_phrase _
  | both a b iha ihb =>
      simp only [Cond.text, bind_eq_ok, pure_eq_ok] at h
      obtain ⟨left, hleft, right, hright, rfl⟩ := h
      have hall := ((iha hleft).append (spells_phrase " AND ")).append (ihb hright)
      rwa [List.append_assoc] at hall
  | either a b iha ihb =>
      simp only [Cond.text, bind_eq_ok, pure_eq_ok] at h
      obtain ⟨left, hleft, right, hright, rfl⟩ := h
      have hall :=
        ((((spells_phrase "(").append (iha hleft)).append (spells_phrase " OR ")).append (ihb hright)).append
        (spells_phrase ")")
      rwa [List.append_assoc, List.append_assoc, List.append_assoc] at hall

theorem spells_branch {conds : List Cond} {text : String} (h : branchText conds = .ok text) :
    Spells text (branchParts conds) := by
  simp only [branchText, bind_eq_ok, pure_eq_ok] at h
  obtain ⟨pieces, hpieces, rfl⟩ := h
  exact ((spells_phrase "(").append (spells_joined (forall₂_spells hpieces fun _ _ => spells_cond))).append
    (spells_phrase ")")

theorem spells_statement {schema : BlobSchema} {request : Request} {text : String}
    (h : statement schema request = .ok text) :
    Spells text (statementParts schema request) := by
  simp only [statement, bind_eq_ok, pure_eq_ok, -String.reduceAppend] at h
  obtain ⟨texts, htexts, behind, hbehind, table, htable, columns, hcolumns, rfl⟩ := h
  have hscope : List.Forall₂ Spells scopeTexts (scopeTexts.map fun text => [phrase text]) := by
    rw [List.forall₂_map_right_iff]
    exact List.forall₂_same.mpr fun text _ => spells_phrase text
  have hafter : List.Forall₂ Spells behind (behindParts request.branches) := by
    rw [behindText] at hbehind
    split_ifs at hbehind with hnil
    · cases hbehind
      rw [behindParts, if_pos hnil]
      exact .nil
    · simp only [bind_eq_ok, pure_eq_ok] at hbehind
      obtain ⟨branches, hbranches, rfl⟩ := hbehind
      rw [behindParts, if_neg hnil]
      exact .cons
        (((spells_phrase "(").append (spells_joined (forall₂_spells hbranches fun _ _ => spells_branch))).append
        (spells_phrase ")")) .nil
  have horder : List.Forall₂ Spells columns (request.order.map orderParts) :=
    forall₂_spells hcolumns fun item text htext => by
      simp only [orderText, bind_eq_ok, pure_eq_ok] at htext
      obtain ⟨col, hcol, rfl⟩ := htext
      exact (spells_col hcol).append (spells_phrase _)
  have hwhere :=
    @spells_joined " AND " _ _
    (List.rel_append (List.rel_append hscope (forall₂_spells htexts fun _ _ => spells_cond)) hafter)
  have hall := ((((((spells_phrase "SELECT b.id FROM ms_blobs b JOIN ").append (spells_quoted htable)).append
    (spells_phrase " m ON b.id=m.id WHERE ")).append hwhere).append (spells_phrase " ORDER BY ")).append
    (@spells_joined "," _ _ horder)).append (spells_phrase " LIMIT ?")
  simpa only [statementParts, List.append_assoc, List.cons_append, List.nil_append] using hall

-- The parts fit, whatever the names. Every condition starts with something else than a space.

-- A text before a space or a closing bracket.
structure Fits (parts : List Part) : Prop where
  space : Woven parts (some 0x20)
  bracket : Woven parts (some (ascii ')'))
  start : ∃ b, (spelled parts).head? = some b ∧ isSpace b = false

theorem Fits.next {parts : List Part} (h : Fits parts) {text : Bytes} (htext : spaced text = true)
    (after : Option UInt8) :
    joinsNext text (head parts after) = true := by
  obtain ⟨b, hb, hspace⟩ := h.start
  rw [head, hb, Option.some_or]
  exact joinsNext_spaced htext hspace

theorem Fits.separated {separator : Bytes} {items : List (List Part)} {after : UInt8}
    (hmark : separator.head? = some 0x20)
    (hspaced : spaced separator = true) (hafter : after ∈ spell " )") (h : ∀ item ∈ items, Fits item) :
    Woven (separated separator items) (some after) := by
  refine woven_separated hmark fun item hitem => ?_
  obtain ⟨b, hb, hspace⟩ := (h item hitem).start
  refine ⟨(h item hitem).space, ?_, b, hb, joinsNext_spaced hspaced hspace⟩
  rcases List.mem_cons.mp hafter with rfl | hafter
  · exact (h item hitem).space
  · rw [List.mem_singleton.mp hafter]
    exact (h item hitem).bracket

-- In brackets.
theorem Fits.bracketed {parts : List Part} (h : Woven parts (some (ascii ')'))) :
    Fits (phrase "(" :: (parts ++ [phrase ")"])) := by
  have hall (mark : UInt8) : Woven (phrase "(" :: (parts ++ [phrase ")"])) (some mark) := by
    have hclose : head [phrase ")"] (some mark) = some (ascii ')') := head_phrase rfl _ _
    refine ⟨joinsNext_closes (by decide) _, ?_⟩
    rw [woven_append, hclose]
    exact ⟨h, joinsNext_closes (by decide) _, trivial⟩
  exact ⟨hall _, hall _, ascii '(', rfl, by decide⟩

-- A column with a phrase behind it that starts with a space.
theorem fits_col {column : Column} {text : String} {rest : List Part} (h : column.text = .ok text)
    (hhead : ∀ after, head rest after = some 0x20) (hspace : Woven rest (some 0x20))
      (hbracket : Woven rest (some (ascii ')'))) :
    Fits (column.parts ++ rest) := by
  have hcolumn : Woven column.parts (some 0x20) ∧ ∃ b, (spelled column.parts).head? = some b ∧
    isSpace b = false := by
    cases column with
    | field name =>
        simp only [Column.text, bind_eq_ok, pure_eq_ok] at h
        obtain ⟨quoted, hquoted, rfl⟩ := h
        have houtline : Woven [phrase "m.", named ""] (some 0x20) := by decide
        refine ⟨woven_outline houtline ?_, ascii 'm', rfl, by decide⟩
        simp [Column.parts, Part.NulFree, phrase, named, nul_of_quoted hquoted]
    | id => exact ⟨by decide, ascii 'b', rfl, by decide⟩
    | state => exact ⟨by decide, ascii 'b', rfl, by decide⟩
    | schemaName => exact ⟨by decide, ascii 'b', rfl, by decide⟩
    | schemaVersion => exact ⟨by decide, ascii 'b', rfl, by decide⟩
    | metaSchemaVersion => exact ⟨by decide, ascii 'm', rfl, by decide⟩
  obtain ⟨hwoven, b, hb, hspaces⟩ := hcolumn
  refine ⟨?_, ?_, b, ?_, hspaces⟩
  · rw [woven_append, hhead]
    exact ⟨hwoven, hspace⟩
  · rw [woven_append, hhead]
    exact ⟨hwoven, hbracket⟩
  · rw [spelled_append, List.head?_append, hb, Option.some_or]

-- The conditions of requests.
def Cond.plain : Cond → Bool
  | .isText _ _ => false
  | .both a b => a.plain && b.plain
  | .either a b => a.plain && b.plain
  | _ => true

theorem Fits.both {parts more : List Part} {text : String} (ha : Fits parts) (hb : Fits more)
    (hfirst : (utf8 text).head? = some 0x20) (hspaced : spaced (utf8 text) = true) :
    Fits (parts ++ phrase text :: more) := by
  obtain ⟨b, hstart, hspace⟩ := ha.start
  have hhead (after : Option UInt8) : head (phrase text :: more) after = some 0x20 := head_phrase hfirst _ _
  refine ⟨?_, ?_, b, ?_, hspace⟩
  · rw [woven_append, hhead]
    exact ⟨ha.space, hb.next hspaced _, hb.space⟩
  · rw [woven_append, hhead]
    exact ⟨ha.space, hb.next hspaced _, hb.bracket⟩
  · rw [spelled_append, List.head?_append, hstart, Option.some_or]

theorem fits_cond {cond : Cond} {text : String} (hplain : cond.plain = true) (h : cond.text = .ok text) :
    Fits cond.parts := by
  induction cond generalizing text with
  | isText column value => cases hplain
  | compare column op =>
      simp only [Cond.text, bind_eq_ok, -String.reduceAppend] at h
      obtain ⟨col, hcol, -⟩ := h
      refine fits_col hcol (fun after => ?_) ?_ ?_
      · cases op <;> rfl
      · cases op <;> decide
      · cases op <;> decide
  | isNull column =>
      simp only [Cond.text, bind_eq_ok] at h
      obtain ⟨col, hcol, -⟩ := h
      exact fits_col hcol (fun after => head_phrase rfl _ _) (by decide) (by decide)
  | notNull column =>
      simp only [Cond.text, bind_eq_ok] at h
      obtain ⟨col, hcol, -⟩ := h
      exact fits_col hcol (fun after => head_phrase rfl _ _) (by decide) (by decide)
  | member negated column count =>
      simp only [Cond.text, bind_eq_ok] at h
      obtain ⟨col, hcol, -⟩ := h
      have hlist (mark : UInt8) : Woven (phrase (if negated then " NOT IN (" else " IN (") ::
          (separated (utf8 ",") (List.replicate count [phrase "?"]) ++ [phrase ")"])) (some mark) := by
        have hclose : head [phrase ")"] (some mark) = some (ascii ')') := head_phrase rfl _ _
        refine ⟨joinsNext_closes (by cases negated <;> decide) _, ?_⟩
        rw [woven_append, hclose]
        refine ⟨@woven_separated _ (ascii ',') _ _ rfl fun item hitem => ?_, joinsNext_closes (by decide) _,
          trivial⟩
        rw [(List.mem_replicate.mp hitem).2]
        exact ⟨by decide, by decide, ascii '?', rfl, joinsNext_closes (by decide) _⟩
      refine fits_col hcol (fun after => ?_) (hlist _) (hlist _)
      cases negated <;> exact head_phrase rfl _ _
  | zero => exact ⟨by decide, by decide, ascii '0', rfl, by decide⟩
  | both a b iha ihb =>
      simp only [Cond.plain, Bool.and_eq_true] at hplain
      simp only [Cond.text, bind_eq_ok] at h
      obtain ⟨left, hleft, right, hright, -⟩ := h
      exact (iha hplain.1 hleft).both (ihb hplain.2 hright) rfl (by decide)
  | either a b iha ihb =>
      simp only [Cond.plain, Bool.and_eq_true] at hplain
      simp only [Cond.text, bind_eq_ok] at h
      obtain ⟨left, hleft, right, hright, -⟩ := h
      have hor : (utf8 " OR ").head? = some 0x20 ∧ spaced (utf8 " OR ") = true := by decide
      have hinner := Fits.bracketed ((iha hplain.1 hleft).both (ihb hplain.2 hright) hor.1 hor.2).bracket
      rwa [List.append_assoc] at hinner

structure Request.Fitting (request : Request) : Prop where
  conds : ∀ cond ∈ request.conds, cond.plain = true
  branches : ∀ conds ∈ request.branches, ∀ cond ∈ conds, cond.plain = true
  order : request.order ≠ []

theorem fits_branch {conds : List Cond} {text : String} (hplain : ∀ cond ∈ conds, cond.plain = true)
    (h : branchText conds = .ok text) : Fits (branchParts conds) := by
  simp only [branchText, bind_eq_ok] at h
  obtain ⟨pieces, hpieces, -⟩ := h
  refine .bracketed (Fits.separated rfl (by decide) (by decide) ?_)
  simp only [List.forall_mem_map]
  intro cond hcond
  obtain ⟨piece, _, hpiece⟩ := mapM_mem _ _ _ hpieces _ hcond
  exact fits_cond (hplain cond hcond) hpiece

theorem woven_statement {schema : BlobSchema} {request : Request} {text : String} (hrequest : request.Fitting)
    (h : statement schema request = .ok text) : Woven (statementParts schema request) none := by
  simp only [statement, bind_eq_ok, -String.reduceAppend] at h
  obtain ⟨texts, htexts, behind, hbehind, table, htable, columns, hcolumns, -⟩ := h
  have hscope : ∀ item ∈ scopeTexts.map fun text => [phrase text], Fits item := by
    simp only [scopeTexts, List.map_cons, List.map_nil, List.forall_mem_cons]
    exact ⟨⟨by decide, by decide, ascii 'b', rfl, by decide⟩,
      ⟨by decide, by decide, ascii 'b', rfl, by decide⟩,
      ⟨by decide, by decide, ascii 'b', rfl, by decide⟩,
      ⟨by decide, by decide, ascii 'm', rfl, by decide⟩, List.forall_mem_nil _⟩
  have hconds : ∀ item ∈ request.conds.map Cond.parts, Fits item := by
    simp only [List.forall_mem_map]
    intro cond hcond
    obtain ⟨piece, _, hpiece⟩ := mapM_mem _ _ _ htexts _ hcond
    exact fits_cond (hrequest.conds cond hcond) hpiece
  have hbranches : ∀ item ∈ behindParts request.branches, Fits item := by
    rw [behindParts]
    rw [behindText] at hbehind
    split_ifs with hnil
    · exact List.forall_mem_nil _
    · rw [if_neg hnil] at hbehind
      simp only [bind_eq_ok] at hbehind
      obtain ⟨branches, hall, -⟩ := hbehind
      refine List.forall_mem_singleton.mpr (.bracketed (Fits.separated rfl (by decide) (by decide) ?_))
      simp only [List.forall_mem_map]
      intro conds hconds
      obtain ⟨piece, _, hpiece⟩ := mapM_mem _ _ _ hall _ hconds
      exact fits_branch (hrequest.branches conds hconds) hpiece
  have horder : Woven (separated (utf8 ",") (request.order.map orderParts) ++ [phrase " LIMIT ?"]) none ∧
      ∃ b, head (separated (utf8 ",") (request.order.map orderParts) ++ [phrase " LIMIT ?"]) none = some b ∧
        isSpace b = false := by
    have hitem (item : Order) (hitem : item ∈ request.order) : Woven (orderParts item) (some (ascii ',')) ∧
        Woven (orderParts item) (some 0x20) ∧ ∃ b, (spelled (orderParts item)).head? = some b ∧
          isSpace b = false := by
      obtain ⟨piece, _, hpiece⟩ := mapM_mem _ _ _ hcolumns _ hitem
      simp only [orderText, bind_eq_ok] at hpiece
      obtain ⟨col, hcol, -⟩ := hpiece
      have hfits := @fits_col _ _ [phrase (if item.descending then " DESC" else " ASC")] hcol (fun after => by
        cases item.descending <;> exact head_phrase rfl _ _) (by cases item.descending <;> decide)
        (by cases item.descending <;> decide)
      refine ⟨?_, hfits.space, hfits.start⟩
      have hdirection (after : Option UInt8) :
          head [phrase (if item.descending then " DESC" else " ASC")] after = some 0x20 := by
        cases item.descending <;> exact head_phrase rfl _ _
      have hspace := hfits.space
      rw [woven_append, hdirection] at hspace
      rw [orderParts, woven_append, hdirection]
      refine ⟨hspace.1, ?_⟩
      cases item.descending <;> decide
    have hlimit : head [phrase " LIMIT ?"] none = some 0x20 := head_phrase rfl _ _
    constructor
    · rw [woven_append, hlimit]
      refine ⟨@woven_separated _ (ascii ',') _ _ rfl ?_, ⟨rfl, trivial⟩⟩
      simp only [List.forall_mem_map]
      intro item hmem
      obtain ⟨hcomma, hspace, b, hb, -⟩ := hitem item hmem
      exact ⟨hcomma, hspace, b, hb, joinsNext_closes (by decide) _⟩
    · obtain ⟨first, order, hcons⟩ := List.exists_cons_of_ne_nil hrequest.order
      obtain ⟨-, -, b, hb, hspace⟩ := hitem first (hcons ▸ List.mem_cons_self)
      exact ⟨b, by rw [hcons, List.map_cons, head_append, head_separated hb], hspace⟩
  obtain ⟨hlast, c, hc, hcspace⟩ := horder
  have hby : head
    (phrase " ORDER BY " :: (separated (utf8 ",") (request.order.map orderParts) ++ [phrase " LIMIT ?"])) none =
      some 0x20 := head_phrase rfl _ _
  refine ⟨?_, by decide, nul_of_quoted htable, ?_, ?_, ?_⟩
  · show joinsNext _ (some (ascii '"')) = true
    decide
  · rw [@head_phrase _ 0x20 rfl]
    decide
  · show joinsNext _ (some (ascii 'b')) = true
    decide
  · rw [woven_append, hby]
    refine ⟨Fits.separated rfl (by decide) (by decide) ?_, ?_, hlast⟩
    · simp only [List.forall_mem_append]
      exact ⟨⟨hscope, hconds⟩, hbranches⟩
    · rw [hc]
      exact joinsNext_spaced (by decide) hcspace

-- The statement depends on names only between quotes.

def Column.shape : Column → Column
  | .field _ => .field ""
  | column => column

def Cond.shape : Cond → Cond
  | .isText column _ => .isText column.shape ""
  | .compare column op => .compare column.shape op
  | .isNull column => .isNull column.shape
  | .notNull column => .notNull column.shape
  | .member negated column count => .member negated column.shape count
  | .zero => .zero
  | .both a b => .both a.shape b.shape
  | .either a b => .either a.shape b.shape

def Order.shape (item : Order) : Order := ⟨if item.field = "id" then "id" else "", item.descending⟩

def Request.shape (request : Request) : Request :=
  { conds := request.conds.map Cond.shape, branches := request.branches.map (List.map Cond.shape),
    order := request.order.map Order.shape }

theorem outline_col (column : Column) : column.parts.map Part.outline = column.shape.parts := by
  cases column <;> rfl

theorem outline_cond (cond : Cond) : cond.parts.map Part.outline = cond.shape.parts := by
  have hplaceholders (count : ℕ) : (List.replicate count [phrase "?"]).map (fun item => item.map Part.outline) =
      List.replicate count [phrase "?"] := List.map_replicate
  induction cond with
  | both a b iha ihb =>
      simp only [Cond.parts, Cond.shape, List.map_append, List.map_cons, outline_phrase, iha, ihb]
  | either a b iha ihb =>
      simp only [Cond.parts, Cond.shape, List.map_append, List.map_cons, List.map_nil, outline_phrase, iha, ihb]
  | _ => simp only [Cond.parts, Cond.shape, List.map_append, List.map_cons, List.map_nil, outline_phrase,
      outline_lettered, outline_col, outline_separated, hplaceholders]

theorem outline_branch (conds : List Cond) :
    (branchParts conds).map Part.outline = branchParts (conds.map Cond.shape) := by
  simp only [branchParts, List.map_append, List.map_cons, List.map_nil, List.map_map, outline_phrase,
    outline_separated, Function.comp_def, outline_cond]

theorem outline_behind (branches : List (List Cond)) :
    (behindParts branches).map (fun item => item.map Part.outline) =
    behindParts (branches.map (List.map Cond.shape)) := by
  cases branches with
  | nil => rfl
  | cons first branches =>
      simp only [behindParts, List.cons_ne_nil, if_false, List.map_append, List.map_cons,
        List.map_nil, List.map_map, outline_phrase, outline_separated, Function.comp_def, outline_branch]

theorem outline_order (item : Order) : (orderParts item).map Part.outline = orderParts item.shape := by
  obtain ⟨field, descending⟩ := item
  have hcolumn : (column field).shape = column (if field = "id" then "id" else "") := by
    rw [column, column]
    split_ifs <;> first | rfl | contradiction
  rw [orderParts, List.map_append, outline_col, hcolumn]
  rfl

theorem statement_structures {schema other : BlobSchema} {request request' : Request} {text text' : String}
    (hrequest : request.Fitting) (hrequest' : request'.Fitting) (hshape : request.shape = request'.shape)
    (h : statement schema request = .ok text) (h' : statement other request' = .ok text') :
    outline (utf8 text) = outline (utf8 text') := by
  have hparts (schema : BlobSchema) (request : Request) : (statementParts schema request).map Part.outline =
      phrase "SELECT b.id FROM ms_blobs b JOIN " :: named "" :: phrase " m ON b.id=m.id WHERE " ::
        (separated (utf8 " AND ") (scopeTexts.map (fun text => [phrase text]) ++
          request.shape.conds.map Cond.parts ++
          behindParts request.shape.branches) ++ phrase " ORDER BY " ::
          (separated (utf8 ",") (request.shape.order.map orderParts) ++ [phrase " LIMIT ?"])) := by
    simp only [statementParts, Request.shape, List.map_append, List.map_cons, List.map_nil,
      List.map_map, outline_phrase,
      outline_named, outline_separated, outline_behind, Function.comp_def, outline_cond, outline_order]
  rw [show utf8 text = _ from spells_statement h, show utf8 text' = _ from spells_statement h']
  exact (woven_statement hrequest h).outline_eq (woven_statement hrequest' h') (by rw [hparts, hparts, hshape])

-- A placeholder for each parameter.

def isVariable : Token → Bool
  | .variable _ => true
  | _ => false

def slots (parts : List Part) : ℕ := (parts.flatMap Part.tokens).countP isVariable

theorem slots_append (parts more : List Part) : slots (parts ++ more) = slots parts + slots more := by
  rw [slots, List.flatMap_append, List.countP_append]
  rfl

theorem slots_cons (part : Part) (parts : List Part) :
    slots (part :: parts) = part.tokens.countP isVariable + slots parts := by
  rw [slots, List.flatMap_cons, List.countP_append]
  rfl

theorem slots_separated {separator : Bytes} (h : (tokens separator).countP isVariable = 0)
    (items : List (List Part)) :
    slots (separated separator items) = (items.map slots).sum := by
  cases items with
  | nil => rfl
  | cons first items =>
      rw [separated, slots_append, List.map_cons, List.sum_cons]
      congr 1
      induction items with
      | nil => rfl
      | cons item items ih =>
          rw [List.flatMap_cons, slots_append, slots_cons, List.map_cons, List.sum_cons, ih,
            Part.tokens, h, Nat.zero_add]

-- The fixed texts of a query, with the number of placeholders in each
def queryTexts : List (String × ℕ) :=
  [("m.", 0), ("b.id", 0), ("b.state", 0), ("b.schema_name", 0), ("b.schema_version", 0),
    ("m.schema_version", 0),
   ("=", 0), (" = ?", 1), (" != ?", 1), (" < ?", 1), (" <= ?", 1), (" > ?", 1), (" >= ?", 1), (" IS ?", 1),
   (" IS NULL", 0), (" IS NOT NULL", 0), (" IN (", 0), (" NOT IN (", 0), ("?", 1), (",", 0), (")", 0), ("0", 0),
   ("(", 0), (" AND ", 0), (" OR ", 0), (" DESC", 0), (" ASC", 0), ("b.state='ready'", 0),
   ("b.schema_name=?", 1),
   ("b.schema_version=?", 1), ("m.schema_version=?", 1), ("SELECT b.id FROM ms_blobs b JOIN ", 0),
   (" m ON b.id=m.id WHERE ", 0), (" ORDER BY ", 0), (" LIMIT ?", 1)]

theorem slots_texts : ∀ entry ∈ queryTexts, slots [phrase entry.1] = entry.2 := by decide +kernel

theorem slots_text {text : String} {n : ℕ} (h : (text, n) ∈ queryTexts) : slots [phrase text] = n :=
    slots_texts _ h

theorem separator_text {text : String} (h : (text, 0) ∈ queryTexts) :
    (tokens (utf8 text)).countP isVariable = 0 := by
  have htext := slots_text h
  simpa only [slots, List.flatMap_cons, List.flatMap_nil, List.append_nil, phrase, Part.tokens] using htext

theorem slots_col (column : Column) : slots column.parts = 0 := by
  cases column with
  | field name =>
      have hdot : slots [phrase "m."] = 0 := slots_text (by decide)
      rw [Column.parts, ← List.singleton_append, slots_append, hdot]
      rfl
  | _ => exact slots_text (by decide)

theorem slots_question (count : ℕ) :
    slots (separated (utf8 ",") (List.replicate count [phrase "?"])) = count := by
  have hone : slots [phrase "?"] = 1 := slots_text (by decide)
  rw [slots_separated (separator_text (by decide)), List.map_replicate, hone,
    List.sum_replicate_nat, Nat.mul_one]

theorem slots_phrase {text : String} {n : ℕ} (h : slots [phrase text] = n) (parts : List Part) :
    slots (phrase text :: parts) = n + slots parts := by
  rw [← List.singleton_append, slots_append, h]

theorem slots_cond (cond : Cond) : slots cond.parts = cond.holes := by
  have hclose : slots [phrase ")"] = 0 := slots_text (by decide)
  induction cond with
  | isText column text =>
      have hequal : slots [phrase "="] = 0 := slots_text (by decide)
      rw [Cond.parts, slots_append, slots_col, slots_phrase hequal]
      rfl
  | compare column op =>
      have hop : slots [phrase (" " ++ op.text ++ " ?")] = 1 := by cases op <;> exact slots_text (by decide)
      rw [Cond.parts, slots_append, slots_col, hop]
      rfl
  | isNull column =>
      have hnull : slots [phrase " IS NULL"] = 0 := slots_text (by decide)
      rw [Cond.parts, slots_append, slots_col, hnull]
      rfl
  | notNull column =>
      have hnull : slots [phrase " IS NOT NULL"] = 0 := slots_text (by decide)
      rw [Cond.parts, slots_append, slots_col, hnull]
      rfl
  | member negated column count =>
      have hopen : slots [phrase (if negated then " NOT IN (" else " IN (")] = 0 := by
        cases negated <;> exact slots_text (by decide)
      rw [Cond.parts, slots_append, slots_col, slots_phrase hopen, slots_append, slots_question,
        hclose, Cond.holes]
      omega
  | zero => exact slots_text (by decide)
  | both a b iha ihb =>
      have hand : slots [phrase " AND "] = 0 := slots_text (by decide)
      rw [Cond.parts, slots_append, slots_phrase hand, iha, ihb, Cond.holes]
      omega
  | either a b iha ihb =>
      have hopen : slots [phrase "("] = 0 := slots_text (by decide)
      have hor : slots [phrase " OR "] = 0 := slots_text (by decide)
      rw [Cond.parts, slots_phrase hopen, slots_append, slots_phrase hor, slots_append, iha, ihb,
        hclose, Cond.holes]
      omega

def holesOf (conds : List Cond) : ℕ := (conds.map Cond.holes).sum

theorem holesOf_append (conds more : List Cond) : holesOf (conds ++ more) = holesOf conds + holesOf more := by
  rw [holesOf, List.map_append, List.sum_append]
  rfl

theorem slots_conds (conds : List Cond) : ((conds.map Cond.parts).map slots).sum = holesOf conds := by
  rw [List.map_map, holesOf]
  exact congrArg List.sum (List.map_congr_left fun cond _ => slots_cond cond)

theorem slots_branch (conds : List Cond) : slots (branchParts conds) = holesOf conds := by
  have hopen : slots [phrase "("] = 0 := slots_text (by decide)
  have hclose : slots [phrase ")"] = 0 := slots_text (by decide)
  rw [branchParts, slots_phrase hopen, slots_append, slots_separated (separator_text (by decide)), slots_conds,
    hclose, Nat.zero_add, Nat.add_zero]

theorem slots_behind (branches : List (List Cond)) :
    ((behindParts branches).map slots).sum = (branches.map holesOf).sum := by
  have hopen : slots [phrase "("] = 0 := slots_text (by decide)
  have hclose : slots [phrase ")"] = 0 := slots_text (by decide)
  rw [behindParts]
  split_ifs with hnil
  · rw [hnil]
    rfl
  · rw [List.map_singleton, List.sum_singleton, slots_phrase hopen, slots_append,
      slots_separated (separator_text (by decide)), hclose, Nat.zero_add, Nat.add_zero, List.map_map]
    exact congrArg List.sum (List.map_congr_left fun conds _ => slots_branch conds)

theorem slots_statement (schema : BlobSchema) (request : Request) : slots (statementParts schema request) =
    3 + holesOf request.conds + (request.branches.map holesOf).sum + 1 := by
  have hselect : slots [phrase "SELECT b.id FROM ms_blobs b JOIN "] = 0 := slots_text (by decide)
  have hjoin : slots [phrase " m ON b.id=m.id WHERE "] = 0 := slots_text (by decide)
  have hby : slots [phrase " ORDER BY "] = 0 := slots_text (by decide)
  have hlimit : slots [phrase " LIMIT ?"] = 1 := slots_text (by decide)
  have hscope : ((scopeTexts.map fun text => [phrase text]).map slots).sum = 3 := by
    rw [scopeTexts]
    simp only [List.map_cons, List.map_nil, List.sum_cons, List.sum_nil]
    rw [@slots_text _ 0 (by decide), @slots_text _ 1 (by decide), @slots_text _ 1 (by decide),
      @slots_text _ 1 (by decide)]
    rfl
  have horder : ((request.order.map orderParts).map slots).sum = 0 := by
    rw [List.map_map]
    refine List.sum_eq_zero fun n hn => ?_
    obtain ⟨item, _, rfl⟩ := List.mem_map.mp hn
    rw [Function.comp_apply, orderParts, slots_append, slots_col, Nat.zero_add]
    cases item.descending <;> exact slots_text (by decide)
  have hname (parts : List Part) : slots (named (tableName schema) :: parts) = slots parts := by
    rw [slots_cons]
    exact Nat.zero_add _
  rw [statementParts, slots_phrase hselect, hname, slots_phrase hjoin, slots_append, slots_phrase hby,
    slots_append, hlimit,
    slots_separated (separator_text (by decide)), slots_separated (separator_text (by decide)), horder,
    List.map_append, List.map_append, List.sum_append, List.sum_append, hscope, slots_conds, slots_behind]
  omega

theorem slots_read {schema : BlobSchema} {request : Request} {text : String} (hrequest : request.Fitting)
    (h : statement schema request = .ok text) :
    (tokens (utf8 text)).countP isVariable = 3 + holesOf request.conds +
    (request.branches.map holesOf).sum + 1 := by
  have htokens := @Woven.tokens _ [] (woven_statement hrequest h)
  rw [List.append_nil, tokens_nil, List.append_nil] at htokens
  rw [show utf8 text = _ from spells_statement h, htokens, ← slots_statement schema]
  rfl

-- The request of an accepted query.

theorem holes_conj (clauses : List Clause) : (conj clauses).1.holes = holesOf (clauses.map Prod.fst) := by
  have hfold (clauses : List Clause) (first : Clause) :
      (clauses.foldl (fun a b => (.both a.1 b.1, a.2 ++ b.2)) first : Clause).1.holes =
        first.1.holes + holesOf (clauses.map Prod.fst) := by
    induction clauses generalizing first with
    | nil => rfl
    | cons c clauses ih =>
        rw [List.foldl_cons, ih, Cond.holes, List.map_cons, holesOf, holesOf, List.map_cons, List.sum_cons]
        omega
  cases clauses with
  | nil => rfl
  | cons c clauses => rw [conj, hfold, List.map_cons, holesOf, holesOf, List.map_cons, List.sum_cons]

theorem holes_disj (clauses : List Clause) : (disj clauses).1.holes = holesOf (clauses.map Prod.fst) := by
  have hfold (clauses : List Clause) (first : Clause) :
      (clauses.foldl (fun a b => (.either a.1 b.1, a.2 ++ b.2)) first : Clause).1.holes =
        first.1.holes + holesOf (clauses.map Prod.fst) := by
    induction clauses generalizing first with
    | nil => rfl
    | cons c clauses ih =>
        rw [List.foldl_cons, ih, Cond.holes, List.map_cons, holesOf, holesOf, List.map_cons, List.sum_cons]
        omega
  cases clauses with
  | nil => rfl
  | cons c clauses => rw [disj, hfold, List.map_cons, holesOf, holesOf, List.map_cons, List.sum_cons]

theorem holes_branch (order : List Order) (values : List Codecs.Cell) (i : ℕ) :
    (branch order values i).1.holes = holesOf (branchConds order values i) := by
  unfold branch branchConds
  cases order[i]? with
  | none => rfl
  | some item =>
      cases values[i]? with
      | none => rfl
      | some value => exact holes_conj _

theorem compileAfter_eq (schema : BlobSchema) (order : List Order) (after : After) :
    compileAfter schema order after = (afterValues schema order after).map fun values =>
      values.toList.map fun values => disj ((List.range order.length).map (branch order values)) := by
  have hbind (conditions : Except Error Unit) (values : Except Error (List Codecs.Cell)) :
      (do
        conditions
        let values ← values
        pure [disj ((List.range order.length).map (branch order values))]) =
      (do
        conditions
        let values ← values
        pure (some values)).map fun values : Option (List Codecs.Cell) =>
          values.toList.map fun values => disj ((List.range order.length).map (branch order values)) := by
    cases conditions with
    | error e => rfl
    | ok _ => cases values <;> rfl
  cases after with
  | none => rfl
  | id value => exact hbind _ _
  | cursor value => exact hbind _ _

-- A condition that is written out.
def Cond.Written (cond : Cond) : Prop := cond.plain = true ∧ ∃ text, cond.text = .ok text

theorem column_text {schema : BlobSchema} {name : String} {spec : Field} (h : field schema name = .ok spec) :
    ∃ text, (column name).text = .ok text := by
  rw [column]
  split_ifs with hid
  · exact ⟨_, rfl⟩
  · have hmem := mem_fields_of_field h hid
    obtain ⟨quoted, hquoted⟩ := exists_quoteIdentifier (schema.valid.2.2.2.2.1 _ hmem).1
    exact ⟨_, by rw [Column.text, hquoted]; rfl⟩

section

variable {col : Column} (hcol : ∃ text, col.text = .ok text)

include hcol

theorem written_compare (op : Comparison) : (Cond.compare col op).Written := by
  obtain ⟨text, htext⟩ := hcol
  exact ⟨rfl, _, by rw [Cond.text, htext]; rfl⟩

theorem written_isNull : (Cond.isNull col).Written := by
  obtain ⟨text, htext⟩ := hcol
  exact ⟨rfl, _, by rw [Cond.text, htext]; rfl⟩

theorem written_notNull : (Cond.notNull col).Written := by
  obtain ⟨text, htext⟩ := hcol
  exact ⟨rfl, _, by rw [Cond.text, htext]; rfl⟩

theorem written_nullClause (isNull : Bool) : (nullClause col isNull).1.Written := by
  cases isNull
  · exact written_notNull hcol
  · exact written_isNull hcol

theorem written_member (negated : Bool) (count : ℕ) : (Cond.member negated col count).Written := by
  obtain ⟨text, htext⟩ := hcol
  exact ⟨rfl, _, by rw [Cond.text, htext]; rfl⟩

end

theorem written_either {a b : Cond} (ha : a.Written) (hb : b.Written) : (Cond.either a b).Written := by
  obtain ⟨hplain, left, hleft⟩ := ha
  obtain ⟨hplain', right, hright⟩ := hb
  exact ⟨by rw [Cond.plain, hplain, hplain']; rfl, _, by rw [Cond.text, hleft, hright]; rfl⟩

theorem written_term {schema : BlobSchema} {term : Predicate} {clause : Clause}
    (h : compileTerm schema term = .ok clause) :
    clause.1.Written := by
  simp only [compileTerm, bind_eq_ok] at h
  obtain ⟨spec, hspec, h⟩ := h
  have hcol := column_text hspec
  split at h
  · simp only [bind_eq_ok, pure_eq_ok] at h
    obtain ⟨_, _, rfl⟩ := h
    exact written_nullClause hcol _
  · split at h
    · split at h
      · cases h
      · simp only [bind_eq_ok, pure_eq_ok] at h
        obtain ⟨_, _, _, _, _, _, rfl⟩ := h
        exact written_member hcol _ _
    · split at h
      · cases h
      · split at h
        · simp only [bind_eq_ok, pure_eq_ok] at h
          obtain ⟨_, _, rfl⟩ := h
          exact written_nullClause hcol _
        · simp only [bind_eq_ok, pure_eq_ok] at h
          obtain ⟨_, _, rfl⟩ := h
          exact written_compare hcol _
        · cases h

theorem written_strictly {item : Order} (hcol : ∃ text, (column item.field).text = .ok text)
    (value : Codecs.Cell) :
    (strictly item value).1.Written := by
  simp only [strictly]
  split_ifs
  · exact ⟨rfl, _, rfl⟩
  · exact written_notNull hcol
  · exact written_either (written_compare hcol _) (written_isNull hcol)
  · exact written_compare hcol _

theorem written_branch {order : List Order}
    (hcols : ∀ item ∈ order, ∃ text, (column item.field).text = .ok text)
    (values : List Codecs.Cell) (i : ℕ) : ∀ cond ∈ branchConds order values i, cond.Written := by
  unfold branchConds
  cases hitem : order[i]? with
  | none => exact nofun
  | some item =>
      cases values[i]? with
      | none => exact nofun
      | some value =>
          intro cond hcond
          obtain ⟨clause, hclause, rfl⟩ := List.mem_map.mp hcond
          rcases List.mem_append.mp hclause with hclause | hclause
          · obtain ⟨entry, hentry, rfl⟩ := List.mem_map.mp hclause
            exact written_compare (hcols _ (List.of_mem_zip (List.mem_of_mem_take hentry)).1) _
          · rw [List.mem_singleton.mp hclause]
            exact written_strictly (hcols item (List.mem_of_getElem? hitem)) value

theorem exists_behindText {branches : List (List Cond)} (h : ∀ conds ∈ branches, ∀ cond ∈ conds, cond.Written) :
    ∃ texts, behindText branches = .ok texts := by
  rw [behindText]
  split_ifs
  · exact ⟨_, rfl⟩
  · have hbranch : ∀ conds ∈ branches, ∃ text, branchText conds = .ok text := fun conds hconds => by
      obtain ⟨pieces, hpieces⟩ := exists_mapM fun cond hcond => (h conds hconds cond hcond).2
      exact ⟨_, by rw [branchText, hpieces]; rfl⟩
    obtain ⟨texts, htexts⟩ := exists_mapM hbranch
    exact ⟨_, by rw [htexts]; rfl⟩

theorem request_eq_ok {schema : BlobSchema} {conditions : List (String × Codecs.Argument)}
    {predicates : List Predicate}
    {orderBy : List Order} {after : After} {limit : Int} {select : Select} {params : List Codecs.Cell}
    (h : compileQuery schema conditions predicates orderBy after limit = .ok (select, params)) :
    ∃ request, Query.request schema conditions predicates orderBy after = .ok request ∧ request.Fitting ∧
      (∃ text, statement schema request = .ok text) ∧
      3 + holesOf request.conds + (request.branches.map holesOf).sum + 1 = params.length := by
  obtain ⟨_, _, _, _, hparams, -⟩ := compileQuery_effect _ _ _ _ _ _ _ _ h
  simp only [compileQuery, bind_eq_ok, pure_eq_ok] at h
  obtain ⟨_, _, _, _, clauses, hclauses, order, horder, behind, hbehind, heq⟩ := h
  cases heq
  rw [compileAfter_eq] at hbehind
  obtain ⟨values, hvalues, rfl⟩ : ∃ values, afterValues schema order after = .ok values ∧
      (values.toList.map fun values => disj ((List.range order.length).map (branch order values))) =
        behind := by
    cases hvalues : afterValues schema order after with
    | error e =>
        rw [hvalues] at hbehind
        cases hbehind
    | ok values =>
        rw [hvalues] at hbehind
        exact ⟨values, rfl, Except.ok.inj hbehind⟩
  have hcols : ∀ item ∈ order, ∃ text, (column item.field).text = .ok text := fun item hitem => by
    obtain ⟨spec, hspec⟩ := (ordering_effect schema orderBy order horder).2.1 item hitem
    exact column_text hspec
  have hne : order ≠ [] := by
    rcases (ordering_effect schema orderBy order horder).2.2 with ⟨rfl, hid⟩ | rfl
    · rintro rfl
      cases hid
    · exact List.append_ne_nil_of_right_ne_nil _ (List.cons_ne_nil _ _)
  have hconds : ∀ cond ∈ clauses.map Prod.fst, cond.Written := by
    simp only [List.forall_mem_map]
    intro clause hclause
    obtain ⟨term, _, hterm⟩ := mapM_mem_result _ _ _ hclauses clause hclause
    exact written_term hterm
  have hbranches : ∀ conds ∈ branches order values, ∀ cond ∈ conds, cond.Written := by
    cases values with
    | none => exact nofun
    | some values =>
        simp only [branches, List.forall_mem_map]
        exact fun i _ => written_branch hcols values i
  refine ⟨⟨clauses.map Prod.fst, branches order values, order⟩, ?_, ⟨?_, ?_, hne⟩, ?_, ?_⟩
  · simp only [request, bind_eq_ok, pure_eq_ok]
    exact ⟨clauses, hclauses, order, horder, values, hvalues, rfl⟩
  · exact fun cond hcond => (hconds cond hcond).1
  · exact fun conds hmem cond hcond => (hbranches conds hmem cond hcond).1
  · obtain ⟨texts, htexts⟩ := exists_mapM fun cond hcond => (hconds cond hcond).2
    obtain ⟨behind, hbehind⟩ := exists_behindText hbranches
    obtain ⟨table, htable⟩ := exists_quoteIdentifier (@suffix_short schema .table (by decide))
    rw [objectName_table] at htable
    have hordered : ∀ item ∈ order, ∃ text, orderText item = .ok text := fun item hitem => by
      obtain ⟨col, hcol⟩ := hcols item hitem
      exact ⟨_, by rw [orderText, hcol]; rfl⟩
    obtain ⟨columns, hcolumns⟩ := exists_mapM hordered
    simp only [statement, bind_eq_ok, pure_eq_ok, -String.reduceAppend]
    exact ⟨_, texts, htexts, behind, hbehind, table, htable, columns, hcolumns, rfl⟩
  · have hscope : holesOf ((scope schema).map Prod.fst) = 3 := rfl
    have hbehind : holesOf
      ((values.toList.map fun values => disj ((List.range order.length).map (branch order values))).map
        Prod.fst) = ((branches order values).map holesOf).sum := by
      cases values with
      | none => rfl
      | some values =>
          have hbranch := List.map_congr_left fun i (_ : i ∈ List.range order.length) =>
            holes_branch order values i
          simp only [Option.toList_some, List.map_cons, List.map_nil, holesOf, List.sum_cons,
            List.sum_nil, Nat.add_zero, holes_disj, branches, List.map_map]
          exact congrArg List.sum hbranch
    rw [hparams, holes_conj, List.map_append, List.map_append, holesOf_append, holesOf_append, hscope, hbehind]

end Query

end MeldStore
