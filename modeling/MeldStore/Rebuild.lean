import MeldStore.Ddl
import MeldStore.Backup.Sound

namespace MeldStore.Rebuild

open Library.Checked

-- sqlite_master: the generated objects and those of applications.

inductive ObjectType
  | table
  | index
  | trigger
  | view
deriving DecidableEq, Repr

-- The indexes that SQLite keeps for the constraints of a table are part of it.
structure SqlObject where
  type : ObjectType
  name : String
  tblName : String
  sql : String
deriving DecidableEq, Repr

namespace SqlObject

def sameName (a b : String) : Prop := asciiLower a = asciiLower b

instance (a b : String) : Decidable (sameName a b) := by unfold sameName; infer_instance

-- Triggers have names of their own.
def Clashes (a b : SqlObject) : Prop := sameName a.name b.name ∧ (a.type = .trigger ↔ b.type = .trigger)

instance (a b : SqlObject) : Decidable (a.Clashes b) := by unfold Clashes; infer_instance

-- DROP TABLE takes the table, its indexes and its triggers.
def Belongs (o : SqlObject) (table : String) : Prop :=
  match o.type with
  | .table => sameName o.name table
  | .index => sameName o.tblName table
  | .trigger => sameName o.tblName table
  | .view => False

instance (o : SqlObject) (table : String) : Decidable (o.Belongs table) := by
  unfold Belongs
  cases o.type <;> infer_instance

-- An index is recorded under the name of its table, a trigger under the name that its
-- text spells.
def AttachedIn (o : SqlObject) (objects : List SqlObject) : Prop :=
  match o.type with
  | .table => True
  | .index => ∃ t ∈ objects, t.type = .table ∧ t.name = o.tblName
  | .trigger => ∃ t ∈ objects, (t.type = .table ∨ t.type = .view) ∧ sameName t.name o.tblName
  | .view => True

instance (o : SqlObject) (objects : List SqlObject) : Decidable (o.AttachedIn objects) := by
  unfold AttachedIn
  cases o.type <;> infer_instance

end SqlObject

open SqlObject

abbrev Row := String → Value

structure Database where
  objects : List SqlObject
  rows : String → List Row
  -- the tables that TEMP triggers name
  temp : List String
  distinct : objects.Pairwise fun a b => ¬a.Clashes b
  attached : ∀ o ∈ objects, o.AttachedIn objects

-- What SQLite reads in the stored texts: the columns and the constraints of a table, the
-- foreign keys to a table with the name of the child first, and foreign_key_check.
structure Sqlite where
  columns : String → List String
  accepts : String → Row → Bool
  incoming : List SqlObject → String → List (String × String)
  violated : Database → Bool

-- _objects: of two rows with one name the later one counts.
def isInternal (name : String) : Bool := "sqlite".toList.isPrefixOf (asciiLower name).toList && 7 ≤ name.length

def objectsOf (db : Database) (name : String) : Option String :=
  ((db.objects.filter fun o => o.name = name && !isInternal o.name).getLast?).map SqlObject.sql

def verifyObjects (objects : String → Option String) (expected : Ddl) : Except Error Unit :=
  expected.forM fun entry => require (objects entry.1 = some entry.2) (modified entry.1)

-- Statements

theorem attachedIn_append {o : SqlObject} {objects : List SqlObject} (h : o.AttachedIn objects)
    (added : List SqlObject) :
    o.AttachedIn (objects ++ added) := by
  unfold AttachedIn at h ⊢
  cases htype : o.type with
  | table => trivial
  | view => trivial
  | index =>
      rw [htype] at h
      obtain ⟨t, ht, hrest⟩ := h
      exact ⟨t, List.mem_append_left _ ht, hrest⟩
  | trigger =>
      rw [htype] at h
      obtain ⟨t, ht, hrest⟩ := h
      exact ⟨t, List.mem_append_left _ ht, hrest⟩

def create (o : SqlObject) (db : Database) : Except Error Database :=
  if hclash : ∀ other ∈ db.objects, ¬other.Clashes o then
    if hattached : o.AttachedIn db.objects then
      .ok
        { db with
          objects := db.objects ++ [o]
          rows := if o.type = .table then Function.update db.rows o.name [] else db.rows
          distinct := List.pairwise_append.mpr ⟨db.distinct, List.pairwise_singleton _ _,
            fun other hother _ hmem =>
            (List.mem_singleton.mp hmem) ▸ hclash other hother⟩
          attached := fun other hother => by
            rcases List.mem_append.mp hother with hold | hnew
            · exact attachedIn_append (db.attached other hold) _
            · exact (List.mem_singleton.mp hnew) ▸ attachedIn_append hattached _ }
    else .error (.ValidationError s!"no such table: {o.tblName}")
  else .error (.ValidationError s!"{o.name} already exists")

theorem attachedIn_filter {o : SqlObject} {objects : List SqlObject} {table : String} (h : o.AttachedIn objects)
    (ho : ¬o.Belongs table) : o.AttachedIn (objects.filter fun other => ¬other.Belongs table) := by
  have hmem {t : SqlObject} (ht : t ∈ objects) (hkept : ¬t.Belongs table) :
      t ∈ objects.filter fun other => ¬other.Belongs table :=
    List.mem_filter.mpr ⟨ht, decide_eq_true hkept⟩
  unfold AttachedIn at h ⊢
  unfold Belongs at ho
  cases htype : o.type with
  | table => trivial
  | view => trivial
  | index =>
      rw [htype] at h ho
      obtain ⟨t, ht, htable, hname⟩ := h
      refine ⟨t, hmem ht ?_, htable, hname⟩
      rw [Belongs, htable, hname]
      exact ho
  | trigger =>
      rw [htype] at h ho
      obtain ⟨t, ht, hkind, hname⟩ := h
      refine ⟨t, hmem ht ?_, hkind, hname⟩
      rcases hkind with htable | hview
      · rw [Belongs, htable]
        exact fun hsame => ho (hname.symm.trans hsame)
      · rw [Belongs, hview]
        exact id

def dropTable (table : String) (db : Database) : Except Error Database :=
  if ∃ o ∈ db.objects, o.type = .table ∧ sameName o.name table then
    .ok
      { db with
        objects := db.objects.filter fun o => ¬o.Belongs table
        rows := Function.update db.rows table []
        distinct := db.distinct.filter _
        attached := fun o ho => by
          obtain ⟨hmem, hbelongs⟩ := List.mem_filter.mp ho
          exact attachedIn_filter (db.attached o hmem) (of_decide_eq_true hbelongs) }
  else .error (.ValidationError s!"no such table: {table}")

theorem attachedIn_untriggered {o : SqlObject} {objects : List SqlObject} {name : String}
    (h : o.AttachedIn objects) :
    o.AttachedIn (objects.filter fun other => ¬(other.type = .trigger ∧ sameName other.name name)) := by
  have hmem {t : SqlObject} (ht : t ∈ objects) (hkept : t.type ≠ .trigger) :
      t ∈ objects.filter fun other => ¬(other.type = .trigger ∧ sameName other.name name) :=
    List.mem_filter.mpr ⟨ht, decide_eq_true fun htrigger => hkept htrigger.1⟩
  unfold AttachedIn at h ⊢
  cases htype : o.type with
  | table => trivial
  | view => trivial
  | index =>
      rw [htype] at h
      obtain ⟨t, ht, htable, hname⟩ := h
      exact ⟨t, hmem ht (by rw [htable]; nofun), htable, hname⟩
  | trigger =>
      rw [htype] at h
      obtain ⟨t, ht, hkind, hname⟩ := h
      exact ⟨t, hmem ht (by rcases hkind with h | h <;> rw [h] <;> nofun), hkind, hname⟩

def dropTrigger (name : String) (db : Database) : Except Error Database :=
  if ∃ o ∈ db.objects, o.type = .trigger ∧ sameName o.name name then
    .ok
      { db with
        objects := db.objects.filter fun o => ¬(o.type = .trigger ∧ sameName o.name name)
        distinct := db.distinct.filter _
        attached := fun o ho => attachedIn_untriggered (db.attached o (List.mem_filter.mp ho).1) }
  else .error (.ValidationError s!"no such trigger: {name}")

def tableText (db : Database) (table : String) : Option String :=
  (db.objects.find? fun o => o.type = .table && sameName o.name table).map SqlObject.sql

-- CREATE TABLE backup AS SELECT * FROM table
def createCopy (backup table : String) (db : Database) : Except Error Database := do
  let sql ← fromOption (tableText db table) (.ValidationError s!"no such table: {table}")
  let db ← create ⟨.table, backup, backup, sql⟩ db
  pure { db with rows := Function.update db.rows backup (db.rows table) }

def restricted (names : List String) (row : Row) : Row := fun name => if name ∈ names then row name else .null

-- INSERT INTO table (names) SELECT names FROM backup, where the table has no triggers.
def insertRows (sqlite : Sqlite) (names : List String) (sql backup table : String) (db : Database) :
    Except Error Database := do
  require (∀ name ∈ names, name ∈ sqlite.columns sql) (.ValidationError s!"table {table} has no such column")
  let rows := (db.rows backup).map (restricted names)
  require (∀ row ∈ rows, sqlite.accepts sql row) (checkFailed table)
  pure { db with rows := Function.update db.rows table rows }

-- The object that a statement of a layout creates.
def objectOf (table : String) (entry : String × String) : SqlObject :=
  { type := if entry.1 = table then .table
      else if "CREATE TRIGGER".toList.isPrefixOf entry.2.toList then .trigger else .index
    name := entry.1, tblName := table, sql := entry.2 }

def ObjectType.text : ObjectType → String
  | table => "table"
  | index => "index"
  | trigger => "trigger"
  | view => "view"

-- ORDER BY type,name
def listedBefore (a b : SqlObject) : Prop :=
  a.type.text < b.type.text ∨ (a.type.text = b.type.text ∧ a.name ≤ b.name)

instance : DecidableRel listedBefore := fun a b => by unfold listedBefore; infer_instance

def extras (old : Ddl) (table : String) (db : Database) : List SqlObject :=
  ((db.objects.filter fun o => o.tblName = table && (o.type = .index || o.type = .trigger)).insertionSort
    listedBefore).filter fun o => o.name ∉ old.map Prod.fst

-- The hooks of a plan, before_ddl and after_ddl.
abbrev Hooks := Option ((Database → Except Error Database) × (Database → Except Error Database))

def incomingKeys : Error :=
  .SchemaConflictError
    ("Incoming metadata foreign keys require explicit before_ddl/after_ddl coordination hooks; " ++
    "ms_blobs references need no hooks")

def rebuild (sqlite : Sqlite) (hooks : Hooks) (table : String) (old new : Ddl) (backup : String)
    (db : Database) : Except Error Database := do
  require (∀ name ∈ db.temp, ¬sameName name table)
    (.SchemaConflictError "Remove application TEMP triggers explicitly before metadata rebuild")
  let incoming := sqlite.incoming db.objects table
  let children ← incoming.mapM fun row => do
    let sql ← fromOption (objectsOf db row.1) (.PythonError "KeyError")
    pure (row.1, sql)
  require (¬(incoming ≠ [] ∧ hooks = none)) incomingKeys
  let extras := extras old table db
  let db ← (match hooks with
    | some hooks => hooks.1 db
    | none => pure db)
  require (sqlite.incoming db.objects table = [])
    (.SchemaConflictError "Coordination hook must remove incoming metadata foreign keys before rebuild")
  let db ← createCopy backup table db
  let names := ((tableText db table).map sqlite.columns).getD []
  let db ← dropTable table db
  let sql ← fromOption ((new.find? fun entry => entry.1 = table).map Prod.snd) (.PythonError "KeyError")
  let db ← create (objectOf table (table, sql)) db
  let db ← insertRows sqlite names sql backup table db
  let db ← dropTable backup db
  let db ← (new.filter fun entry => entry.1 ≠ table).foldlM
      (fun db entry => create (objectOf table entry) db) db
  let db ← extras.foldlM (fun db o => create o db) db
  let db ← (match hooks with
    | some hooks => hooks.2 db
    | none => pure db)
  require (sqlite.incoming db.objects table = incoming)
    (.SchemaConflictError "Coordination hooks did not restore incoming foreign key definitions")
  verifyObjects (objectsOf db) children
  verifyObjects (objectsOf db) new
  require (¬sqlite.violated db) (.SchemaConflictError "Foreign key check failed after metadata rebuild")
  pure db

variable {db after : Database}

-- What each statement does to sqlite_master and the rows

theorem create_spec {o : SqlObject} (h : create o db = .ok after) :
    (∀ other ∈ db.objects, ¬other.Clashes o) ∧ after.objects = db.objects ++ [o] ∧
      after.rows = (if o.type = .table then Function.update db.rows o.name [] else db.rows) := by
  unfold create at h
  split at h
  · rename_i hclash
    split at h
    · cases h
      exact ⟨hclash, rfl, rfl⟩
    · cases h
  · cases h

theorem foldlM_create {objects : List SqlObject} (hobjects : ∀ o ∈ objects, o.type ≠ .table)
    (h : objects.foldlM (fun db o => create o db) db = .ok after) :
    after.objects = db.objects ++ objects ∧ after.rows = db.rows := by
  induction objects generalizing db with
  | nil =>
      cases h
      exact ⟨(List.append_nil _).symm, rfl⟩
  | cons o objects ih =>
      rw [List.foldlM_cons, bind_eq_ok] at h
      obtain ⟨next, hcreate, hrest⟩ := h
      obtain ⟨_, hnext, hrows⟩ := create_spec hcreate
      rw [if_neg (hobjects o List.mem_cons_self)] at hrows
      obtain ⟨hafter, hkept⟩ := ih (fun other hother => hobjects other (List.mem_cons_of_mem _ hother)) hrest
      exact ⟨by rw [hafter, hnext, List.append_assoc, List.singleton_append], hkept.trans hrows⟩

theorem exists_create {o : SqlObject} (hfree : ∀ other ∈ db.objects, ¬other.Clashes o)
    (hattached : o.AttachedIn db.objects) :
    ∃ after, create o db = .ok after ∧ after.objects = db.objects ++ [o] ∧ after.temp = db.temp ∧
      after.rows = if o.type = .table then Function.update db.rows o.name [] else db.rows := by
  cases hcreate : create o db with
  | error raised =>
      rw [create, dif_pos hfree, dif_pos hattached] at hcreate
      cases hcreate
  | ok after =>
      rw [create, dif_pos hfree, dif_pos hattached] at hcreate
      cases hcreate
      exact ⟨_, rfl, rfl, rfl, rfl⟩

theorem exists_foldlM_create {objects : List SqlObject}
    (hdistinct : (db.objects ++ objects).Pairwise fun a b => ¬a.Clashes b)
    (hattached : ∀ o ∈ objects, o.AttachedIn db.objects) :
    ∃ after, objects.foldlM (fun db o => create o db) db = .ok after ∧
      after.objects = db.objects ++ objects := by
  induction objects generalizing db with
  | nil => exact ⟨db, rfl, (List.append_nil _).symm⟩
  | cons o objects ih =>
      obtain ⟨-, -, hfree⟩ := List.pairwise_append.mp hdistinct
      obtain ⟨next, hcreate, hnext, -, -⟩ :=
        exists_create (fun other hother => hfree other hother o List.mem_cons_self)
        (hattached o List.mem_cons_self)
      have hsame : next.objects ++ objects = db.objects ++ o :: objects := by
        rw [hnext, List.append_assoc, List.singleton_append]
      obtain ⟨after, hafter, hobjects⟩ := ih (hsame ▸ hdistinct) fun other hother => by
        rw [hnext]
        exact attachedIn_append (hattached other (List.mem_cons_of_mem _ hother)) _
      exact ⟨after, by rw [List.foldlM_cons, hcreate]; exact hafter, hobjects.trans hsame⟩

theorem exists_dropTable {table : String} (h : ∃ o ∈ db.objects, o.type = .table ∧ sameName o.name table) :
    ∃ after, dropTable table db = .ok after := by
  cases hdrop : dropTable table db with
  | error raised =>
      rw [dropTable, if_pos h] at hdrop
      cases hdrop
  | ok after => exact ⟨after, rfl⟩

theorem dropTable_spec {table : String} (h : dropTable table db = .ok after) :
    after.objects = (db.objects.filter fun o => ¬o.Belongs table) ∧
    after.rows = Function.update db.rows table [] := by
  unfold dropTable at h
  split_ifs at h
  cases h
  exact ⟨rfl, rfl⟩

theorem dropTrigger_spec {name : String} (h : dropTrigger name db = .ok after) :
    after.objects = (db.objects.filter fun o => ¬(o.type = .trigger ∧ sameName o.name name)) ∧
      after.rows = db.rows := by
  unfold dropTrigger at h
  split_ifs at h
  cases h
  exact ⟨rfl, rfl⟩

theorem createCopy_spec {backup table : String} (h : createCopy backup table db = .ok after) :
    ∃ sql, tableText db table = some sql ∧
      (∀ other ∈ db.objects, ¬other.Clashes ⟨.table, backup, backup, sql⟩) ∧
      after.objects = db.objects ++ [⟨.table, backup, backup, sql⟩] ∧
      (backup ≠ table → after.rows = Function.update db.rows backup (db.rows table)) := by
  simp only [createCopy, bind_eq_ok, fromOption_eq_ok, pure_eq_ok] at h
  obtain ⟨sql, hsql, next, hcreate, rfl⟩ := h
  obtain ⟨hclash, hobjects, hrows⟩ := create_spec hcreate
  refine ⟨sql, hsql, hclash, hobjects, fun hne => ?_⟩
  rw [if_pos rfl] at hrows
  show Function.update next.rows backup (next.rows table) = _
  rw [hrows, Function.update_idem, Function.update_of_ne hne.symm]

theorem insertRows_spec {sqlite : Sqlite} {names : List String} {sql backup table : String}
    (h : insertRows sqlite names sql backup table db = .ok after) :
    after.objects = db.objects ∧
    after.rows = Function.update db.rows table ((db.rows backup).map (restricted names)) := by
  simp only [insertRows, bind_eq_ok, require_eq_ok, pure_eq_ok] at h
  obtain ⟨_, _, _, _, rfl⟩ := h
  exact ⟨rfl, rfl⟩

theorem forM_require {α : Type} {items : List α} {condition : α → Prop} [DecidablePred condition]
    {error : α → Error} : (items.forM fun item => require (condition item) (error item)) = .ok () ↔
      ∀ item ∈ items, condition item := by
  induction items with
  | nil => exact ⟨fun _ => nofun, fun _ => rfl⟩
  | cons item items ih =>
      rw [List.forall_mem_cons, ← ih]
      show (require (condition item) (error item) >>= fun _ => items.forM _) = .ok () ↔ _
      rw [bind_eq_ok]
      constructor
      · rintro ⟨_, hitem, hrest⟩
        exact ⟨(require_eq_ok _ _ _).mp hitem, hrest⟩
      · rintro ⟨hitem, hrest⟩
        exact ⟨⟨⟩, (require_eq_ok _ _ _).mpr hitem, hrest⟩

theorem verifyObjects_eq_ok {objects : String → Option String} {expected : Ddl} :
    verifyObjects objects expected = .ok () ↔ ∀ entry ∈ expected, objects entry.1 = some entry.2 :=
  forM_require

variable {sqlite : Sqlite} {table backup : String} {old new : Ddl}

-- No object belongs to a table whose name is new.
theorem not_belongs_of_fresh {copy : SqlObject} (htype : copy.type = .table) (hname : copy.name = backup)
    (h : ∀ other ∈ db.objects, ¬other.Clashes copy) : ∀ o ∈ db.objects, ¬o.Belongs backup := by
  have hfree {t : SqlObject} (ht : t ∈ db.objects) (hkind : t.type = .table ∨ t.type = .view) :
      ¬sameName t.name backup := by
    refine fun hsame => h t ht ⟨hname ▸ hsame, ?_⟩
    rw [htype]
    rcases hkind with hkind | hkind <;> simp [hkind]
  intro o ho
  have hattached := db.attached o ho
  unfold AttachedIn at hattached
  unfold Belongs
  cases hkind : o.type with
  | table => exact hfree ho (.inl hkind)
  | view => exact id
  | index =>
      rw [hkind] at hattached
      obtain ⟨t, ht, htable, hsame⟩ := hattached
      exact fun hbelongs => hfree ht (.inl htable) (hsame ▸ hbelongs)
  | trigger =>
      rw [hkind] at hattached
      obtain ⟨t, ht, htable, hsame⟩ := hattached
      exact fun hbelongs => hfree ht htable (hsame.trans hbelongs)

theorem filter_kept {objects : List SqlObject} {p : SqlObject → Prop} [DecidablePred p]
    (h : ∀ o ∈ objects, ¬p o) :
    (objects.filter fun o => ¬p o) = objects :=
  List.filter_eq_self.mpr fun o ho => decide_eq_true (h o ho)

theorem objectOf_table {entry : String × String} (h : (objectOf table entry).type = .table) :
    entry.1 = table := by
  by_contra hne
  simp only [objectOf, if_neg hne] at h
  split_ifs at h

theorem objectOf_type {entry : String × String} (h : entry.1 ≠ table) :
    (objectOf table entry).type ≠ .table := by
  simp only [objectOf, if_neg h]
  split_ifs <;> nofun

theorem extras_type {o : SqlObject} (h : o ∈ extras old table db) :
    (o.type = .index ∨ o.type = .trigger) ∧ o.tblName = table ∧ o ∈ db.objects ∧ o.name ∉ old.map Prod.fst := by
  simp only [extras, List.mem_filter, List.mem_insertionSort, Bool.and_eq_true, Bool.or_eq_true,
    decide_eq_true_eq] at h
  exact ⟨h.1.2.2, h.1.2.1, h.1.1, h.2⟩

theorem tableText_mem {sql : String} (h : tableText db table = some sql) :
    ∃ o ∈ db.objects, o.type = .table ∧ sameName o.name table ∧ o.sql = sql := by
  simp only [tableText, Option.map_eq_some_iff] at h
  obtain ⟨o, hfound, hsql⟩ := h
  have htest := List.find?_some hfound
  simp only [Bool.and_eq_true, decide_eq_true_eq] at htest
  exact ⟨o, List.mem_of_find?_eq_some hfound, htest.1, htest.2, hsql⟩

theorem tableText_append {sql : String} (h : tableText db table = some sql) {o : SqlObject}
    (hafter : after.objects = db.objects ++ [o]) : tableText after table = some sql := by
  simp only [tableText, Option.map_eq_some_iff] at h ⊢
  obtain ⟨found, hfound, hsql⟩ := h
  exact ⟨found, by rw [hafter, List.find?_append, hfound, Option.some_or], hsql⟩

-- The statements of a rebuild between its hooks.
def relay (sqlite : Sqlite) (table backup : String) (new : Ddl) (extras : List SqlObject) (db : Database) :
    Except Error Database := do
  let db ← createCopy backup table db
  let names := ((tableText db table).map sqlite.columns).getD []
  let db ← dropTable table db
  let sql ← fromOption ((new.find? fun entry => entry.1 = table).map Prod.snd) (.PythonError "KeyError")
  let db ← create (objectOf table (table, sql)) db
  let db ← insertRows sqlite names sql backup table db
  let db ← dropTable backup db
  let db ← (new.filter fun entry => entry.1 ≠ table).foldlM
      (fun db entry => create (objectOf table entry) db) db
  extras.foldlM (fun db o => create o db) db

structure Relaid (sqlite : Sqlite) (table backup : String) (new : Ddl) (extras : List SqlObject)
    (db after : Database) : Prop where
  objects : ∃ sql, (table, sql) ∈ new ∧ after.objects = (db.objects.filter fun o => ¬o.Belongs table) ++
    [objectOf table (table, sql)] ++ (new.filter fun entry => entry.1 ≠ table).map (objectOf table) ++ extras
  rows : ∃ sql, tableText db table = some sql ∧
    after.rows table = (db.rows table).map (restricted (sqlite.columns sql))
  others : ∀ other, other ≠ table → other ≠ backup → after.rows other = db.rows other
  copy : ∀ o ∈ db.objects, o.type = .table → o.name ≠ backup

-- The table stands under the name of its copy alone, where nothing else belongs to that name.
structure Aside (table backup text : String) (db dropped : Database) : Prop where
  apart : ¬sameName table backup
  fresh : ∀ o ∈ db.objects, ¬o.Clashes ⟨.table, backup, backup, text⟩
  objects : dropped.objects = (db.objects.filter fun o => ¬o.Belongs table) ++
    [⟨.table, backup, backup, text⟩]
  rows : dropped.rows = Function.update (Function.update db.rows backup (db.rows table)) table []

theorem Aside.ne {text : String} {dropped : Database} (h : Aside table backup text db dropped) :
    backup ≠ table := fun hsame => h.apart (hsame ▸ rfl)

theorem aside_of_copy {copied dropped : Database} (hcopied : createCopy backup table db = .ok copied)
    (hdropped : dropTable table copied = .ok dropped) :
    ∃ text, tableText db table = some text ∧ tableText copied table = some text ∧
      Aside table backup text db dropped := by
  obtain ⟨text, htext, hfresh, hcopy, hcopyRows⟩ := createCopy_spec hcopied
  obtain ⟨hdrop, hdropRows⟩ := dropTable_spec hdropped
  obtain ⟨t, ht, htype, hname, _⟩ := tableText_mem htext
  have hapart : ¬sameName table backup := fun hsame => hfresh t ht ⟨hname.trans hsame, by simp [htype]⟩
  have hother : ¬(⟨.table, backup, backup, text⟩ : SqlObject).Belongs table := fun hsame => hapart hsame.symm
  refine ⟨text, htext, tableText_append htext hcopy, hapart, hfresh, ?_, ?_⟩
  · rw [hdrop, hcopy, List.filter_append, filter_kept (List.forall_mem_singleton.mpr hother)]
  · rw [hdropRows, hcopyRows fun hsame => hapart (hsame ▸ rfl)]

theorem Aside.created {text sql : String} {dropped created : Database} (h : Aside table backup text db dropped)
    (hrows : created.rows = if (objectOf table (table, sql)).type = .table
      then Function.update dropped.rows (objectOf table (table, sql)).name [] else dropped.rows) :
    created.rows = Function.update (Function.update (Function.update db.rows backup (db.rows table))
      table []) table [] := by
  have htype : (objectOf table (table, sql)).type = .table := by simp [objectOf]
  rw [if_pos htype, h.rows] at hrows
  exact hrows

-- The copy leaves with what belongs to it: the new table stays.
theorem Aside.cleaned {text sql : String} {dropped filled cleaned : Database}
    (h : Aside table backup text db dropped)
    (hfilled : filled.objects = dropped.objects ++ [objectOf table (table, sql)])
    (hcleaned : dropTable backup filled = .ok cleaned) :
    cleaned.objects = (db.objects.filter fun o => ¬o.Belongs table) ++ [objectOf table (table, sql)] := by
  have hkept := not_belongs_of_fresh rfl rfl h.fresh
  have hlaid : ¬(objectOf table (table, sql)).Belongs backup := by
    simp only [objectOf, if_pos, Belongs]
    exact h.apart
  have hgone :
      ([⟨.table, backup, backup, text⟩] : List SqlObject).filter (fun o => ¬o.Belongs backup) = [] := by
    simp [Belongs, sameName]
  rw [(dropTable_spec hcleaned).1, hfilled, h.objects, List.filter_append, List.filter_append,
    filter_kept fun o ho => hkept o (List.mem_filter.mp ho).1, hgone, List.append_nil,
    filter_kept (List.forall_mem_singleton.mpr hlaid)]

theorem relay_spec {extras : List SqlObject} (hextras : ∀ o ∈ extras, o.type ≠ .table)
    (h : relay sqlite table backup new extras db = .ok after) :
    Relaid sqlite table backup new extras db after := by
  simp only [relay, bind_eq_ok, fromOption_eq_ok, Option.map_eq_some_iff] at h
  obtain ⟨copied, hcopied, dropped, hdropped, sql, ⟨entry, hentry, rfl⟩, created, hcreated, filled,
    hfilled, cleaned, hcleaned, laidOut, hlaidOut, hrestored⟩ := h
  obtain ⟨text, htext, hcopiedText, haside⟩ := aside_of_copy hcopied hdropped
  obtain ⟨_, hcreate, hcreateRows⟩ := create_spec hcreated
  obtain ⟨hfill, hfillRows⟩ := insertRows_spec hfilled
  obtain ⟨-, hcleanRows⟩ := dropTable_spec hcleaned
  have hentries : (new.filter fun entry => entry.1 ≠ table).foldlM
      (fun db entry => create (objectOf table entry) db) cleaned =
      ((new.filter fun entry => entry.1 ≠ table).map (objectOf table)).foldlM
        (fun db o => create o db) cleaned := by
    rw [List.foldlM_map]
  obtain ⟨hlayout, hlayoutRows⟩ := foldlM_create (fun o ho => by
    obtain ⟨other, hother, rfl⟩ := List.mem_map.mp ho
    exact objectOf_type (of_decide_eq_true (List.mem_filter.mp hother).2)) (hentries ▸ hlaidOut)
  obtain ⟨hrestore, hrestoreRows⟩ := foldlM_create hextras hrestored
  have hcleanedObjects := haside.cleaned (hfill.trans hcreate) hcleaned
  have hcreatedRows := haside.created hcreateRows
  have hrows : after.rows = Function.update (Function.update created.rows table
      ((created.rows backup).map (restricted (sqlite.columns text)))) backup [] := by
    rw [hrestoreRows, hlayoutRows, hcleanRows, hfillRows, hcopiedText]
    rfl
  have hne := haside.ne
  have htable : entry.1 = table := by simpa using List.find?_some hentry
  refine ⟨⟨entry.2, ?_, ?_⟩, ⟨text, htext, ?_⟩, fun other hother hother' => ?_, fun o ho htable hname => ?_⟩
  · rw [← htable]
    exact List.mem_of_find?_eq_some hentry
  · rw [hrestore, hlayout, hcleanedObjects]
  · rw [hrows, Function.update_of_ne hne.symm, Function.update_self, hcreatedRows, Function.update_of_ne hne,
      Function.update_of_ne hne, Function.update_self]
  · rw [hrows, Function.update_of_ne hother', Function.update_of_ne hother, hcreatedRows,
      Function.update_of_ne hother, Function.update_of_ne hother, Function.update_of_ne hother']
  · exact haside.fresh o ho ⟨congrArg asciiLower hname, by simp [htable]⟩

-- A rebuild runs its hooks around these statements, and recreates what it found before them.
theorem rebuild_relays {hooks : Hooks} (h : rebuild sqlite hooks table old new backup db = .ok after) :
    ∃ before between, ((hooks = none ∧ before = db ∧ after = between) ∨
        ∃ pair, hooks = some pair ∧ pair.1 db = .ok before ∧ pair.2 between = .ok after) ∧
      Relaid sqlite table backup new (extras old table db) before between ∧
      ∀ entry ∈ new, objectsOf after entry.1 = some entry.2 := by
  simp only [rebuild, bind_eq_ok, require_eq_ok, pure_eq_ok] at h
  obtain ⟨_, _, children, _, _, _, before, hbefore, _, _, copied, hcopied, dropped, hdropped,
    sql, hsql, created,
    hcreated, filled, hfilled, cleaned, hcleaned, laidOut, hlaidOut, between, hrestored, last,
    hafter, _, _, _, _, _, hverified, _, _, rfl⟩ := h
  have hrelay : relay sqlite table backup new (extras old table db) before = .ok between := by
    simp only [relay, bind_eq_ok]
    exact ⟨copied, hcopied, dropped, hdropped, sql, hsql, created, hcreated, filled, hfilled, cleaned,
      hcleaned, laidOut, hlaidOut, hrestored⟩
  have hextras : ∀ o ∈ extras old table db, o.type ≠ .table := fun o ho => by
    rcases (extras_type ho).1 with htype | htype <;> rw [htype] <;> decide
  refine ⟨before, between, ?_, relay_spec hextras hrelay, verifyObjects_eq_ok.mp hverified⟩
  cases hooks with
  | none =>
      cases hbefore
      cases hafter
      exact .inl ⟨rfl, rfl, rfl⟩
  | some pair => exact .inr ⟨pair, rfl, hbefore, hafter⟩

-- What a rebuild without hooks leaves.
structure Rebuilt (sqlite : Sqlite) (table backup : String) (old new : Ddl) (db after : Database) : Prop where
  objects : ∃ sql, (table, sql) ∈ new ∧ after.objects = (db.objects.filter fun o => ¬o.Belongs table) ++
    [objectOf table (table, sql)] ++ (new.filter fun entry => entry.1 ≠ table).map (objectOf table) ++
      extras old table db
  rows : ∃ sql, tableText db table = some sql ∧
    after.rows table = (db.rows table).map (restricted (sqlite.columns sql))
  others : ∀ other, other ≠ table → other ≠ backup → after.rows other = db.rows other
  verified : ∀ entry ∈ new, objectsOf after entry.1 = some entry.2

theorem rebuild_spec (h : rebuild sqlite none table old new backup db = .ok after) :
    Rebuilt sqlite table backup old new db after := by
  obtain ⟨before, between, hhooks, hrelaid, hverified⟩ := rebuild_relays h
  rcases hhooks with ⟨_, rfl, rfl⟩ | ⟨_, hnone, _⟩
  · exact ⟨hrelaid.objects, hrelaid.rows, hrelaid.others, hverified⟩
  · cases hnone

-- The names that a rebuild is to use are free, or those of what it replaces.
structure Free (table backup : String) (old new : Ddl) (db : Database) : Prop where
  named : ∃ t ∈ db.objects, t.type = .table ∧ t.name = table
  distinct : (new.map fun entry => asciiLower entry.1).Nodup
  internal : ∀ entry ∈ new, isInternal entry.1 = false
  replaced : ∀ entry ∈ new, ∀ o ∈ db.objects, sameName o.name entry.1 → o.Belongs table ∧
    o.name ∈ old.map Prod.fst
  copy : (∀ o ∈ db.objects, ¬sameName o.name backup) ∧ ∀ entry ∈ new, ¬sameName entry.1 backup

-- What stands where a rebuild is through.
def relaid (table sql : String) (old new : Ddl) (db : Database) : List SqlObject :=
  (db.objects.filter fun o => ¬o.Belongs table) ++ [objectOf table (table, sql)] ++
    (new.filter fun entry => entry.1 ≠ table).map (objectOf table) ++ extras old table db

theorem attachedIn_objectOf {objects : List SqlObject} {entry : String × String}
    (h : ∃ t ∈ objects, t.type = .table ∧ t.name = table) : (objectOf table entry).AttachedIn objects := by
  obtain ⟨t, ht, htype, hname⟩ := h
  unfold AttachedIn
  cases hkind : (objectOf table entry).type with
  | table => trivial
  | view => trivial
  | index => exact ⟨t, ht, htype, hname⟩
  | trigger => exact ⟨t, ht, .inl htype, congrArg asciiLower hname⟩

theorem attachedIn_extras {o : SqlObject} {objects : List SqlObject}
    (h : ∃ t ∈ objects, t.type = .table ∧ t.name = table)
    (ho : o ∈ extras old table db) : o.AttachedIn objects := by
  obtain ⟨t, ht, htable, hname⟩ := h
  obtain ⟨htype, hsame, -, -⟩ := extras_type ho
  unfold AttachedIn
  rcases htype with htype | htype <;> rw [htype]
  · exact ⟨t, ht, htable, hname.trans hsame.symm⟩
  · exact ⟨t, ht, .inl htable, congrArg asciiLower (hname.trans hsame.symm)⟩

instance : Std.Symm fun a b : SqlObject => ¬a.Clashes b := ⟨fun _ _ h h' => h ⟨h'.1.symm, h'.2.symm⟩⟩

theorem extras_belongs {o : SqlObject} (h : o ∈ extras old table db) : o.Belongs table := by
  obtain ⟨htype, hname, _, _⟩ := extras_type h
  unfold Belongs
  rcases htype with htype | htype
  · rw [htype]
    exact congrArg asciiLower hname
  · rw [htype]
    exact congrArg asciiLower hname

theorem Free.own (h : Free table backup old new db) {entry other : String × String} (hentry : entry ∈ new)
    (hother : other ∈ new) (hsame : sameName entry.1 other.1) : entry = other :=
  List.inj_on_of_nodup_map h.distinct hentry hother hsame

theorem Free.not_clashes (h : Free table backup old new db) {entry : String × String}
    (hentry : entry ∈ new) {o : SqlObject}
    (ho : o ∈ db.objects) (hkept : ¬o.Belongs table ∨ o.name ∉ old.map Prod.fst) :
    ¬o.Clashes (objectOf table entry) := by
  intro hclash
  obtain ⟨hbelongs, hold⟩ := h.replaced entry hentry o ho hclash.1
  exact hkept.elim (fun hnot => hnot hbelongs) fun hnot => hnot hold

theorem Free.news (h : Free table backup old new db) {sql : String} (hsql : (table, sql) ∈ new) :
    (objectOf table (table, sql) :: (new.filter fun entry => entry.1 ≠ table).map (objectOf table)).Pairwise
      fun a b => ¬a.Clashes b := by
  refine List.pairwise_cons.mpr ⟨fun o ho hclash => ?_, List.pairwise_map.mpr ?_⟩
  · obtain ⟨entry, hentry, rfl⟩ := List.mem_map.mp ho
    obtain ⟨hmem, hne⟩ := List.mem_filter.mp hentry
    exact of_decide_eq_true hne (congrArg Prod.fst (h.own hsql hmem hclash.1)).symm
  · refine ((List.pairwise_map.mp h.distinct).filter _).imp fun hne hclash => hne hclash.1

theorem Free.relaid_distinct (h : Free table backup old new db) {sql : String} (hsql : (table, sql) ∈ new) :
    (relaid table sql old new db).Pairwise fun a b => ¬a.Clashes b := by
  have hextras : (extras old table db).Pairwise fun a b => ¬a.Clashes b :=
    (((db.distinct.filter _).perm (List.perm_insertionSort _ _).symm fun hab hclash =>
      hab ⟨hclash.1.symm, hclash.2.symm⟩).filter _)
  have hnews : ∀ o ∈ objectOf table (table, sql) :: (new.filter fun entry => entry.1 ≠ table).map
    (objectOf table), ∃ entry ∈ new, o = objectOf table entry := by
    refine List.forall_mem_cons.mpr ⟨⟨_, hsql, rfl⟩, fun o ho => ?_⟩
    obtain ⟨entry, hentry, rfl⟩ := List.mem_map.mp ho
    exact ⟨entry, (List.mem_filter.mp hentry).1, rfl⟩
  rw [relaid, List.append_assoc (db.objects.filter _), List.singleton_append, List.append_assoc]
  refine List.pairwise_append.mpr ⟨db.distinct.filter _,
    List.pairwise_append.mpr ⟨h.news hsql, hextras, ?_⟩, ?_⟩
  · intro o ho other hother hclash
    obtain ⟨entry, hentry, rfl⟩ := hnews o ho
    obtain ⟨-, -, hmem, hold⟩ := extras_type hother
    exact h.not_clashes hentry hmem (.inr hold) ⟨hclash.1.symm, hclash.2.symm⟩
  · intro o ho other hother
    obtain ⟨hmem, hkept⟩ := List.mem_filter.mp ho
    have hnot : ¬o.Belongs table := of_decide_eq_true hkept
    rcases List.mem_append.mp hother with hnew | hextra
    · obtain ⟨entry, hentry, rfl⟩ := hnews other hnew
      exact h.not_clashes hentry hmem (.inl hnot)
    · refine db.distinct.forall hmem (extras_type hextra).2.2.1 ?_
      rintro rfl
      exact hnot (extras_belongs hextra)

theorem objectsOf_eq_some {name sql : String} (hname : isInternal name = false)
    (hmem : ∃ o ∈ db.objects, o.name = name)
    (hall : ∀ o ∈ db.objects, o.name = name → o.sql = sql) : objectsOf db name = some sql := by
  obtain ⟨o, ho, hsame⟩ := hmem
  have hfiltered : o ∈ db.objects.filter fun o => o.name = name && !isInternal o.name := by
    refine List.mem_filter.mpr ⟨ho, ?_⟩
    simp [hsame, hname]
  rw [objectsOf]
  cases hlast : (db.objects.filter fun o => o.name = name && !isInternal o.name).getLast? with
  | none => exact absurd (List.getLast?_eq_none_iff.mp hlast ▸ hfiltered) List.not_mem_nil
  | some last =>
      obtain ⟨hin, htest⟩ := List.mem_filter.mp (List.mem_of_getLast? hlast)
      simp only [Bool.and_eq_true, decide_eq_true_eq] at htest
      exact congrArg some (hall last hin htest.1)

theorem Free.verified (h : Free table backup old new db) {sql : String} (hsql : (table, sql) ∈ new)
    (hobjects : after.objects = relaid table sql old new db) :
    ∀ entry ∈ new, objectsOf after entry.1 = some entry.2 := by
  intro entry hentry
  refine objectsOf_eq_some (h.internal entry hentry) ⟨objectOf table entry, ?_, rfl⟩ fun o ho hname => ?_
  · rw [hobjects, relaid, List.append_assoc (db.objects.filter _)]
    refine List.mem_append_left _ (List.mem_append_right _ ?_)
    by_cases htable : entry.1 = table
    · have hsame : entry = (table, sql) := h.own hentry hsql (congrArg asciiLower htable)
      exact hsame ▸ List.mem_cons_self
    · exact List.mem_cons_of_mem _ (List.mem_map_of_mem (List.mem_filter.mpr ⟨hentry, decide_eq_true htable⟩))
  · rw [hobjects] at ho
    simp only [relaid, List.mem_append, List.mem_filter, List.mem_singleton, List.mem_map,
      decide_eq_true_eq] at ho
    rcases ho with ((⟨hmem, hkept⟩ | rfl) | ⟨other, ⟨hother, -⟩, rfl⟩) | hextra
    · exact absurd (h.replaced entry hentry o hmem (congrArg asciiLower hname)).1 hkept
    · exact congrArg Prod.snd (h.own hsql hentry (congrArg asciiLower hname))
    · exact congrArg Prod.snd (h.own hother hentry (congrArg asciiLower hname))
    · obtain ⟨-, -, hmem, hold⟩ := extras_type hextra
      exact absurd (h.replaced entry hentry o hmem (congrArg asciiLower hname)).2 hold

theorem mem_of_text {sql : String} (h : (new.find? fun entry => entry.1 = table).map Prod.snd = some sql) :
    (table, sql) ∈ new := by
  obtain ⟨entry, hfound, rfl⟩ := Option.map_eq_some_iff.mp h
  have htable : entry.1 = table := by simpa using List.find?_some hfound
  rw [← htable]
  exact List.mem_of_find?_eq_some hfound

theorem Free.aside (h : Free table backup old new db) {source : String}
    (hsource : tableText db table = some source) :
    ∃ copied dropped, createCopy backup table db = .ok copied ∧ dropTable table copied = .ok dropped := by
  obtain ⟨t, ht, htype, hname⟩ := h.named
  obtain ⟨created, hcreate, -⟩ := exists_create (o := ⟨.table, backup, backup, source⟩)
    (fun other hother hclash => h.copy.1 other hother hclash.1) trivial
  obtain ⟨copied, hcopied⟩ : ∃ copied, createCopy backup table db = .ok copied := by
    simp only [createCopy, bind_eq_ok, fromOption_eq_ok, pure_eq_ok]
    exact ⟨_, source, hsource, created, hcreate, rfl⟩
  obtain ⟨_, _, _, hcopy, _⟩ := createCopy_spec hcopied
  obtain ⟨dropped, hdropped⟩ := @exists_dropTable copied table
    ⟨t, hcopy ▸ List.mem_append_left _ ht, htype, congrArg asciiLower hname⟩
  exact ⟨copied, dropped, hcopied, hdropped⟩

theorem Free.relays (h : Free table backup old new db) {source sql : String}
    (hsource : tableText db table = some source)
    (hsql : (new.find? fun entry => entry.1 = table).map Prod.snd = some sql)
    (hcolumns : ∀ name ∈ sqlite.columns source, name ∈ sqlite.columns sql)
    (haccepts : ∀ row ∈ db.rows table, sqlite.accepts sql (restricted (sqlite.columns source) row) = true) :
    ∃ after, relay sqlite table backup new (extras old table db) db = .ok after ∧
      after.objects = relaid table sql old new db := by
  have hmem := mem_of_text hsql
  obtain ⟨copied, dropped, hcopied, hdropped⟩ := h.aside hsource
  obtain ⟨text, htext, hcopiedText, haside⟩ := aside_of_copy hcopied hdropped
  obtain rfl : source = text := Option.some.inj (hsource.symm.trans htext)
  obtain ⟨created, hcreated, hcreate, -, hcreateRows⟩ := @exists_create dropped (objectOf table (table, sql))
    (fun other hother hclash => by
      rcases List.mem_append.mp (haside.objects ▸ hother) with hold | hlast
      · obtain ⟨hin, hnot⟩ := List.mem_filter.mp hold
        exact h.not_clashes hmem hin (.inl (of_decide_eq_true hnot)) hclash
      · rw [List.mem_singleton.mp hlast] at hclash
        exact haside.apart hclash.1.symm) (by simp [objectOf, AttachedIn])
  have hrows : created.rows backup = db.rows table := by
    rw [haside.created hcreateRows, Function.update_of_ne haside.ne, Function.update_of_ne haside.ne,
      Function.update_self]
  obtain ⟨filled, hfilled⟩ :
      ∃ filled, insertRows sqlite (sqlite.columns source) sql backup table created = .ok filled := by
    simp only [insertRows, bind_eq_ok, require_eq_ok, pure_eq_ok]
    refine ⟨_, ⟨⟩, hcolumns, ⟨⟩, fun row hrow => ?_, rfl⟩
    obtain ⟨before, hbefore, rfl⟩ := List.mem_map.mp hrow
    exact haccepts before (hrows ▸ hbefore)
  have hfilledObjects := (insertRows_spec hfilled).1.trans hcreate
  obtain ⟨cleaned, hcleaned⟩ := @exists_dropTable filled backup ⟨⟨.table, backup, backup, source⟩, by
    rw [hfilledObjects, haside.objects]
    exact List.mem_append_left _ (List.mem_append_right _ List.mem_cons_self), rfl, rfl⟩
  have hleft := haside.cleaned hfilledObjects hcleaned
  have hdistinct := h.relaid_distinct hmem
  have hstands : ∃ t ∈ cleaned.objects, t.type = .table ∧ t.name = table :=
    ⟨objectOf table (table, sql), hleft ▸ List.mem_append_right _ List.mem_cons_self, by simp [objectOf], rfl⟩
  rw [relaid, ← hleft] at hdistinct
  obtain ⟨laidOut, hlaidOut, hlaidObjects⟩ :=
    exists_foldlM_create (List.pairwise_append.mp hdistinct).1 fun o ho => by
    obtain ⟨entry, -, rfl⟩ := List.mem_map.mp ho
    exact attachedIn_objectOf hstands
  obtain ⟨after, hrestored, hafter⟩ := exists_foldlM_create (hlaidObjects.symm ▸ hdistinct) fun o ho => by
    obtain ⟨t, ht, htable⟩ := hstands
    exact attachedIn_extras ⟨t, hlaidObjects ▸ List.mem_append_left _ ht, htable⟩ ho
  refine ⟨after, ?_, by rw [hafter, hlaidObjects, hleft, relaid]⟩
  rw [List.foldlM_map] at hlaidOut
  simp only [relay, bind_eq_ok, fromOption_eq_ok]
  refine ⟨copied, hcopied, dropped, hdropped, sql, hsql, created, hcreated, filled, ?_,
    cleaned, hcleaned, laidOut, hlaidOut, hrestored⟩
  rw [hcopiedText]
  exact hfilled

-- Where nothing refers to the table, a rebuild without hooks returns.
theorem exists_rebuild (h : Free table backup old new db) {source sql : String}
    (hsource : tableText db table = some source)
    (hsql : (new.find? fun entry => entry.1 = table).map Prod.snd = some sql)
    (htemp : ∀ name ∈ db.temp, ¬sameName name table)
    (hincoming : ∀ objects, sqlite.incoming objects table = [])
    (hcolumns : ∀ name ∈ sqlite.columns source, name ∈ sqlite.columns sql)
    (haccepts : ∀ row ∈ db.rows table, sqlite.accepts sql (restricted (sqlite.columns source) row) = true)
    (hkeys : ∀ after, Relaid sqlite table backup new (extras old table db) db after →
      sqlite.violated after = false) :
    ∃ after, rebuild sqlite none table old new backup db = .ok after := by
  obtain ⟨after, hrelay, hobjects⟩ := h.relays hsource hsql hcolumns haccepts
  have hextras : ∀ o ∈ extras old table db, o.type ≠ .table := fun o ho => by
    rcases (extras_type ho).1 with htype | htype <;> rw [htype] <;> nofun
  have hrelaid := relay_spec hextras hrelay
  have hmem := mem_of_text hsql
  simp only [relay, bind_eq_ok] at hrelay
  obtain ⟨copied, hcopied, dropped, hdropped, text, htext, created, hcreated, filled, hfilled, cleaned,
    hcleaned, laidOut, hlaidOut, hrestored⟩ := hrelay
  refine ⟨after, ?_⟩
  simp only [rebuild, hincoming, bind_eq_ok, require_eq_ok, pure_eq_ok]
  refine ⟨⟨⟩, htemp, [], rfl, ⟨⟩, by simp, db, rfl, ⟨⟩, trivial, copied, hcopied, dropped, hdropped,
    text, htext, created,
    hcreated, filled, hfilled, cleaned, hcleaned, laidOut, hlaidOut, after, hrestored, after, rfl,
    ⟨⟩, trivial, ⟨⟩, ?_, ⟨⟩, verifyObjects_eq_ok.mpr (h.verified hmem hobjects),
      ⟨⟩, by rw [hkeys after hrelaid]; exact Bool.false_ne_true, rfl⟩
  rfl

-- What a rebuild must keep: the rows in every column they had, the indexes and triggers that are
-- not the library's to replace, and all that does not belong to the table.
structure LosesNothing (sqlite : Sqlite) (table backup : String) (old new : Ddl)
    (db after : Database) : Prop where
  rows : ∃ sql, tableText db table = some sql ∧
    after.rows table = (db.rows table).map (restricted (sqlite.columns sql))
  attached : ∀ o ∈ db.objects, o.type = .index ∨ o.type = .trigger → o.Belongs table →
    o.name ∉ old.map Prod.fst → o ∈ after.objects
  layout : ∀ entry ∈ new, objectsOf after entry.1 = some entry.2
  others : ∀ o, ¬o.Belongs table → (o ∈ after.objects ↔ o ∈ db.objects)
  only : ∀ o ∈ after.objects, o.Belongs table → (∃ entry ∈ new, o = objectOf table entry) ∨ o ∈ db.objects
  tables : ∀ other, other ≠ table → other ≠ backup → after.rows other = db.rows other

-- SQLite records an index under the table's own name.
theorem index_tblName (hnamed : ∃ t ∈ db.objects, t.type = .table ∧ t.name = table) {o : SqlObject}
    (ho : o ∈ db.objects) (hindex : o.type = .index) (hbelongs : o.Belongs table) : o.tblName = table := by
  obtain ⟨t, ht, htype, rfl⟩ := hnamed
  have hattached := db.attached o ho
  rw [AttachedIn, hindex] at hattached
  rw [Belongs, hindex] at hbelongs
  obtain ⟨other, hother, hkind, hname⟩ := hattached
  by_cases hsame : other = t
  · rw [← hname, hsame]
  · have hclash := db.distinct.forall hother ht hsame
    exact absurd ⟨hname ▸ hbelongs, by rw [hkind, htype]⟩ hclash

theorem belongs_objectOf (entry : String × String)
    (h : (objectOf table entry).type = .table → entry.1 = table) :
    (objectOf table entry).Belongs table := by
  unfold Belongs
  cases htype : (objectOf table entry).type with
  | table => exact congrArg asciiLower (h htype)
  | index => exact rfl
  | trigger => exact rfl
  | view =>
      simp only [objectOf] at htype
      split_ifs at htype

theorem mem_rebuilt (h : Rebuilt sqlite table backup old new db after) {o : SqlObject} :
    o ∈ after.objects → (o ∈ db.objects ∧ ¬o.Belongs table) ∨ (∃ entry ∈ new, o = objectOf table entry ∧
      o.Belongs table) ∨ o ∈ extras old table db := by
  obtain ⟨sql, hsql, hobjects⟩ := h.objects
  rw [hobjects]
  intro ho
  simp only [List.mem_append, List.mem_filter, List.mem_singleton, List.mem_map, decide_eq_true_eq] at ho
  rcases ho with ((hkept | rfl) | ⟨entry, ⟨hentry, hne⟩, rfl⟩) | hextra
  · exact .inl hkept
  · exact .inr (.inl ⟨_, hsql, rfl, belongs_objectOf _ fun _ => rfl⟩)
  · exact .inr (.inl ⟨entry, hentry, rfl, belongs_objectOf _ fun htype => absurd htype (objectOf_type hne)⟩)
  · exact .inr (.inr hextra)

theorem mem_extras {o : SqlObject} (ho : o ∈ db.objects) (htype : o.type = .index ∨ o.type = .trigger)
    (hname : o.tblName = table) (hold : o.name ∉ old.map Prod.fst) : o ∈ extras old table db := by
  simp only [extras, List.mem_filter, List.mem_insertionSort, Bool.and_eq_true, Bool.or_eq_true,
    decide_eq_true_eq]
  exact ⟨⟨ho, hname, htype⟩, hold⟩

-- A rebuild keeps all but the triggers that spell the name of the table differently.
theorem rebuild_loses_nothing_iff (sqlite : Sqlite) (table backup : String) (old new : Ddl)
    (db after : Database) (hnamed : ∃ t ∈ db.objects, t.type = .table ∧ t.name = table)
    (h : rebuild sqlite none table old new backup db = .ok after) :
    LosesNothing sqlite table backup old new db after ↔
      ∀ o ∈ db.objects, o.type = .trigger → o.Belongs table → o.name ∉ old.map Prod.fst →
        o.tblName = table := by
  have hrebuilt := rebuild_spec h
  constructor
  · intro hkept o ho htype hbelongs hold
    rcases mem_rebuilt hrebuilt (hkept.attached o ho (.inr htype) hbelongs hold) with
      hother | ⟨entry, _, rfl, _⟩ | hextra
    · exact absurd hbelongs hother.2
    · rfl
    · exact (extras_type hextra).2.1
  · intro hspelled
    obtain ⟨sql, _, hobjects⟩ := hrebuilt.objects
    refine ⟨hrebuilt.rows, fun o ho htype hbelongs hold => ?_, hrebuilt.verified, fun o hother => ?_,
      fun o ho hbelongs => ?_, hrebuilt.others⟩
    · rw [hobjects]
      refine List.mem_append_right _ (mem_extras ho htype ?_ hold)
      rcases htype with hindex | htrigger
      · exact index_tblName hnamed ho hindex hbelongs
      · exact hspelled o ho htrigger hbelongs hold
    · constructor
      · intro hafter
        rcases mem_rebuilt hrebuilt hafter with hkept | ⟨_, _, _, hbelongs⟩ | hextra
        · exact hkept.1
        · exact absurd hbelongs hother
        · exact absurd (extras_belongs hextra) hother
      · intro ho
        rw [hobjects]
        refine List.mem_append_left _ (List.mem_append_left _ (List.mem_append_left _ ?_))
        exact List.mem_filter.mpr ⟨ho, decide_eq_true hother⟩
    · rcases mem_rebuilt hrebuilt ho with hkept | ⟨entry, hentry, rfl, _⟩ | hextra
      · exact absurd hbelongs hkept.2
      · exact .inl ⟨entry, hentry, rfl⟩
      · exact .inr (extras_type hextra).2.2.1

-- A table with one row and a trigger of the application, which spells its name in capitals or not

def firstVersion : BlobSchema :=
  { name := "n", version := 1, fields := [("title", ⟨.text, true, false⟩)], indexes := [], handlers := ["file"],
    validatorId := none, valid := by decide }

def secondVersion : BlobSchema :=
  { name := "n", version := 2, fields := [("body", ⟨.text, false, false⟩), ("title", ⟨.text, true, false⟩)],
    indexes := [], handlers := ["file"], validatorId := none, valid := by decide }

def sourceObjects : Ddl := orElse (Installation.schemaObjects firstVersion) []

def targetObjects : Ddl := orElse (Migrations.layoutObjects [firstVersion, secondVersion]) []

def audit (spelling : String) : SqlObject :=
  ⟨.trigger, "audit", spelling, "CREATE TRIGGER audit AFTER UPDATE ON " ++ spelling ++ " BEGIN SELECT 1; END"⟩

def coreTables : List SqlObject := (Installation.CORE.take 3).map fun entry => objectOf entry.1 entry

def rowOf (columns : List (String × Value)) : Row := fun name =>
  ((columns.find? fun column => column.1 = name).map Prod.snd).getD .null

def storedRows (table : String) : List Row :=
  if table = "ms_schemas" then [rowOf [("name", .text "n"), ("version", .int 1)]]
  else if table = "ms_blobs" then
    [rowOf [("id", .text "b1"), ("schema_name", .text "n"), ("schema_version", .int 1),
      ("state", .text "ready")]]
  else if table = "ms_data_6e" then
    [rowOf [("id", .text "b1"), ("schema_name", .text "n"), ("schema_version", .int 1), ("version", .int 1),
      ("title", .text "a")]]
  else []

-- Rows of a table without a parent
def orphaned (rows : String → List Row) (child parent : String) (columns : List (String × String)) : Bool :=
  (rows child).any fun row => !(rows parent).any fun other => columns.all fun column =>
    other column.2 = row column.1

def sample : Sqlite :=
  { columns := fun sql => ["id", "schema_name", "schema_version", "version", "title"] ++
      if ("ms_data_6e", sql) ∈ sourceObjects then [] else ["body"]
    accepts := fun _ row => match row "title" with
      | .text _ => true
      | _ => false
    incoming := fun _ _ => []
    violated := fun db =>
      orphaned db.rows "ms_blobs" "ms_schemas" [("schema_name", "name"), ("schema_version", "version")] ||
      orphaned db.rows "ms_data_6e" "ms_blobs"
        [("id", "id"), ("schema_name", "schema_name"), ("schema_version", "schema_version")] }

theorem sourceNames :
    sourceObjects.map Prod.fst = ["ms_data_6e", "ms_data_6e_update", "ms_data_6e_insert"] := by
  decide +kernel

theorem targetNames : targetObjects.map Prod.fst =
    ["ms_data_6e", "ms_data_6e_update", "ms_data_6e_insert", "ms_data_6e_delete"] := by
  decide +kernel

def auditedObjects (spelling : String) : List SqlObject :=
  coreTables ++ sourceObjects.map (objectOf "ms_data_6e") ++ [audit spelling]

theorem coreNames : coreTables.map SqlObject.name = ["ms_format", "ms_schemas", "ms_blobs"] := rfl

theorem auditedNames (spelling : String) : (auditedObjects spelling).map SqlObject.name =
    ["ms_format", "ms_schemas", "ms_blobs", "ms_data_6e", "ms_data_6e_update",
      "ms_data_6e_insert", "audit"] := by
  have hsource : (sourceObjects.map (objectOf "ms_data_6e")).map SqlObject.name =
    sourceObjects.map Prod.fst := by
    rw [List.map_map]
    rfl
  rw [auditedObjects, List.map_append, List.map_append, hsource, sourceNames]
  rfl

theorem mem_audited (spelling : String) : ∃ sql, ("ms_data_6e", sql) ∈ sourceObjects ∧
    ⟨.table, "ms_data_6e", "ms_data_6e", sql⟩ ∈ auditedObjects spelling := by
  have hname : "ms_data_6e" ∈ sourceObjects.map Prod.fst := by
    rw [sourceNames]
    exact List.mem_cons_self
  obtain ⟨⟨_, sql⟩, hentry, rfl⟩ := List.mem_map.mp hname
  exact ⟨sql, hentry, List.mem_append_left _ (List.mem_append_right _ (List.mem_map.mpr ⟨_, hentry, rfl⟩))⟩

def audited (spelling : String) (h : sameName "ms_data_6e" spelling) : Database :=
  { objects := auditedObjects spelling, rows := storedRows, temp := [],
    distinct := by
      have hnames : ((auditedObjects spelling).map SqlObject.name).Pairwise fun a b => ¬sameName a b := by
        rw [auditedNames]
        decide +kernel
      exact (List.pairwise_map.mp hnames).imp fun hne hclash => hne hclash.1
    attached := fun o ho => by
      obtain ⟨sql, -, ht⟩ := mem_audited spelling
      rcases List.mem_append.mp ho with ho | hlast
      · rcases List.mem_append.mp ho with hcore | hsource
        · obtain ⟨entry, -, rfl⟩ := List.mem_map.mp hcore
          simp [objectOf, AttachedIn]
        · obtain ⟨entry, -, rfl⟩ := List.mem_map.mp hsource
          exact attachedIn_objectOf ⟨_, ht, rfl, rfl⟩
      · rw [List.mem_singleton.mp hlast]
        exact ⟨_, ht, .inl rfl, h⟩ }

theorem audited_text (spelling : String) (h : sameName "ms_data_6e" spelling) :
    ∃ sql, ("ms_data_6e", sql) ∈ sourceObjects ∧ tableText (audited spelling h) "ms_data_6e" = some sql := by
  obtain ⟨text, -, ht⟩ := mem_audited spelling
  cases hfound : tableText (audited spelling h) "ms_data_6e" with
  | none =>
      rw [tableText, Option.map_eq_none_iff, List.find?_eq_none] at hfound
      exact absurd (by simp [sameName]) (hfound _ ht)
  | some sql =>
      refine ⟨sql, ?_, rfl⟩
      obtain ⟨o, ho, htype, hname, rfl⟩ := tableText_mem hfound
      rcases List.mem_append.mp ho with ho | hlast
      · rcases List.mem_append.mp ho with hcore | hsource
        · have hnot : ∀ name ∈ ["ms_format", "ms_schemas", "ms_blobs"],
            ¬sameName name "ms_data_6e" := by decide +kernel
          exact absurd hname (hnot o.name (coreNames ▸ List.mem_map_of_mem hcore))
        · obtain ⟨⟨name, sql⟩, hentry, rfl⟩ := List.mem_map.mp hsource
          obtain rfl := objectOf_table htype
          exact hentry
      · rw [List.mem_singleton.mp hlast] at htype
        cases htype

theorem sample_columns {sql : String} (h : ("ms_data_6e", sql) ∈ sourceObjects) :
    sample.columns sql = ["id", "schema_name", "schema_version", "version", "title"] := by
  show _ ++ ite _ _ _ = _
  rw [if_pos h, List.append_nil]

theorem audited_free (spelling : String) (h : sameName "ms_data_6e" spelling) :
    Free "ms_data_6e" "ms_rebuild_0123456789abcdef0123456789abcdef" sourceObjects targetObjects
    (audited spelling h) := by
  obtain ⟨sql, -, ht⟩ := mem_audited spelling
  have hentries : ∀ entry ∈ targetObjects,
      entry.1 ∈ ["ms_data_6e", "ms_data_6e_update", "ms_data_6e_insert",
        "ms_data_6e_delete"] := fun entry hentry => by
    rw [← targetNames]
    exact List.mem_map_of_mem hentry
  have hobjects : ∀ o ∈ auditedObjects spelling, o.name ∈
      ["ms_format", "ms_schemas", "ms_blobs", "ms_data_6e", "ms_data_6e_update",
        "ms_data_6e_insert", "audit"] :=
    fun o ho => by
      rw [← auditedNames spelling]
      exact List.mem_map_of_mem ho
  refine { named := ⟨_, ht, rfl, rfl⟩, distinct := ?_, internal := fun entry hentry => ?_,
           replaced := fun entry hentry o ho hsame => ?_, copy := ⟨fun o ho => ?_, fun entry hentry => ?_⟩ }
  · have hlower : targetObjects.map (fun entry => asciiLower entry.1) =
      (targetObjects.map Prod.fst).map asciiLower := by
      rw [List.map_map]
      rfl
    rw [hlower, targetNames]
    decide +kernel
  · exact (by decide +kernel : ∀ name ∈ ["ms_data_6e", "ms_data_6e_update", "ms_data_6e_insert",
      "ms_data_6e_delete"], isInternal name = false) _ (hentries entry hentry)
  · have hown : ∀ name ∈ ["ms_data_6e", "ms_data_6e_update", "ms_data_6e_insert", "ms_data_6e_delete"],
        ∀ other ∈ ["ms_format", "ms_schemas", "ms_blobs", "audit"], ¬sameName other name := by decide +kernel
    have hnot := hown entry.1 (hentries entry hentry)
    rcases List.mem_append.mp ho with ho | hlast
    · rcases List.mem_append.mp ho with hcore | hsource
      · exact absurd hsame
          (hnot o.name (List.mem_append_left ["audit"] (coreNames ▸ List.mem_map_of_mem hcore)))
      · obtain ⟨source, hentry, rfl⟩ := List.mem_map.mp hsource
        exact ⟨belongs_objectOf source objectOf_table, List.mem_map_of_mem hentry⟩
    · rw [List.mem_singleton.mp hlast] at hsame
      exact absurd hsame (hnot "audit" (by simp))
  · exact (by decide +kernel : ∀ name ∈
      ["ms_format", "ms_schemas", "ms_blobs", "ms_data_6e", "ms_data_6e_update", "ms_data_6e_insert", "audit"],
      ¬sameName name "ms_rebuild_0123456789abcdef0123456789abcdef") _ (hobjects o ho)
  · exact (by decide +kernel : ∀ name ∈ ["ms_data_6e", "ms_data_6e_update", "ms_data_6e_insert",
      "ms_data_6e_delete"],
      ¬sameName name "ms_rebuild_0123456789abcdef0123456789abcdef") _ (hentries entry hentry)

theorem exists_rebuild_audited (spelling : String) (h : sameName "ms_data_6e" spelling) :
    ∃ after, rebuild sample none "ms_data_6e" sourceObjects targetObjects
      "ms_rebuild_0123456789abcdef0123456789abcdef" (audited spelling h) = .ok after := by
  obtain ⟨source, hmem, hsource⟩ := audited_text spelling h
  have hsome : ((targetObjects.find? fun entry => entry.1 = "ms_data_6e").map Prod.snd).isSome =
    true := by decide +kernel
  obtain ⟨sql, hsql⟩ := Option.isSome_iff_exists.mp hsome
  refine exists_rebuild (audited_free spelling h) hsource hsql nofun (fun _ => rfl) (fun name hname => ?_) ?_
    fun after hafter => ?_
  · rw [sample_columns hmem] at hname
    exact List.mem_append_left _ hname
  · rw [sample_columns hmem]
    exact (by decide +kernel : ∀ row ∈ storedRows "ms_data_6e",
      sample.accepts "" (restricted ["id", "schema_name", "schema_version", "version", "title"] row) = true)
  · obtain ⟨text, htext, hrows⟩ := hafter.rows
    obtain rfl : source = text := Option.some.inj (hsource.symm.trans htext)
    have hblobs : after.rows "ms_blobs" = storedRows "ms_blobs" := hafter.others _ (by decide) (by decide)
    have hschemas : after.rows "ms_schemas" = storedRows "ms_schemas" := hafter.others _ (by decide) (by decide)
    rw [sample_columns hmem] at hrows
    have hnotes : after.rows "ms_data_6e" = (storedRows "ms_data_6e").map
        (restricted ["id", "schema_name", "schema_version", "version", "title"]) := hrows
    show (orphaned after.rows _ _ _ || orphaned after.rows _ _ _) = false
    rw [orphaned, orphaned, hblobs, hschemas, hnotes]
    decide +kernel

theorem audited_mem (spelling : String) : audit spelling ∈ auditedObjects spelling :=
  List.mem_append_right _ List.mem_cons_self

theorem audit_not_old (spelling : String) : (audit spelling).name ∉ sourceObjects.map Prod.fst := by
  rw [sourceNames]
  show "audit" ∉ _
  decide

def shouting : Database := audited "MS_DATA_6E" (by decide +kernel)

theorem shouting_loses_its_trigger : ∃ after,
    rebuild sample none "ms_data_6e" sourceObjects targetObjects
      "ms_rebuild_0123456789abcdef0123456789abcdef" shouting = .ok after ∧
    ¬LosesNothing sample "ms_data_6e" "ms_rebuild_0123456789abcdef0123456789abcdef" sourceObjects
      targetObjects shouting
      after := by
  obtain ⟨after, hafter⟩ := exists_rebuild_audited "MS_DATA_6E" (by decide +kernel)
  refine ⟨after, hafter, fun hkept => ?_⟩
  have hmem : audit "MS_DATA_6E" ∈ after.objects :=
    hkept.attached _ (audited_mem _) (.inr rfl) (by decide +kernel) (audit_not_old _)
  rcases mem_rebuilt (rebuild_spec hafter) hmem with hother | ⟨entry, _, hentry, _⟩ | hextra
  · exact hother.2 (by decide +kernel)
  · have hname : "MS_DATA_6E" = "ms_data_6e" := congrArg SqlObject.tblName hentry
    exact absurd hname (by decide)
  · exact absurd (extras_type hextra).2.1 (by decide)

def quiet : Database := audited "ms_data_6e" rfl

theorem quiet_named : ∃ t ∈ quiet.objects, t.type = .table ∧ t.name = "ms_data_6e" := by
  obtain ⟨sql, -, ht⟩ := mem_audited "ms_data_6e"
  exact ⟨_, ht, rfl, rfl⟩

theorem quiet_spelled {o : SqlObject} (ho : o ∈ auditedObjects "ms_data_6e") (htrigger : o.type = .trigger) :
    o.tblName = "ms_data_6e" := by
  rcases List.mem_append.mp ho with ho | hlast
  · rcases List.mem_append.mp ho with hcore | hsource
    · obtain ⟨entry, -, rfl⟩ := List.mem_map.mp hcore
      simp [objectOf] at htrigger
    · obtain ⟨entry, -, rfl⟩ := List.mem_map.mp hsource
      rfl
  · rw [List.mem_singleton.mp hlast]
    rfl

theorem quiet_loses_nothing : ∃ after,
    rebuild sample none "ms_data_6e" sourceObjects targetObjects
      "ms_rebuild_0123456789abcdef0123456789abcdef" quiet = .ok after ∧
    LosesNothing sample "ms_data_6e" "ms_rebuild_0123456789abcdef0123456789abcdef" sourceObjects
      targetObjects quiet
      after := by
  obtain ⟨after, hafter⟩ := exists_rebuild_audited "ms_data_6e" rfl
  exact ⟨after, hafter, (rebuild_loses_nothing_iff _ _ _ _ _ _ _ quiet_named hafter).mpr
    fun o ho htrigger _ _ =>
    quiet_spelled ho htrigger⟩

end MeldStore.Rebuild
