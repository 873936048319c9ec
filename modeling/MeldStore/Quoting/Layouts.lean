import MeldStore.Quoting.Statements

namespace MeldStore

open Library Library.Checked Library.Sql

-- The statements of a layout: versions are numbers, names stay between quotes

theorem spells_joined {separator : String} {texts : List String} {items : List (List Part)}
    (h : List.Forall₂ Spells texts items) :
    Spells (joined separator texts) (separated (utf8 separator) items) := by
  cases h with
  | nil => exact utf8_eq ""
  | cons hfirst hitems =>
      rw [Spells, utf8_joined, separated, spelled_append, show utf8 _ = _ from hfirst]
      congr 1
      induction hitems with
      | nil => rfl
      | cons hitem _ ih =>
          rw [List.flatMap_cons, List.flatMap_cons, spelled_append, ih, spelled_cons,
            show utf8 _ = _ from hitem]
          rfl

theorem forall₂_spells {α : Type} {write : α → Except Error String} {parts : α → List Part} {items : List α}
    {texts : List String} (h : items.mapM write = .ok texts)
    (hitem : ∀ i text, write i = .ok text → Spells text (parts i)) :
    List.Forall₂ Spells texts (items.map parts) := by
  rw [List.forall₂_map_right_iff]
  exact ((mapM_eq_ok _ _ _).mp h).flip.imp fun text i hwrite => hitem i text hwrite

theorem toString_version {i : Int} (h : 0 ≤ i) : toString i = toString i.toNat := by
  obtain ⟨n, rfl⟩ := Int.eq_ofNat_of_zero_le h
  rfl

theorem spells_version {i : Int} (h : 0 ≤ i) : Spells (toString i) [counted i.toNat] := by
  rw [toString_version h]
  exact spells_number _

theorem version_nonneg (schema : BlobSchema) : 0 ≤ schema.version := by
  have hversion := schema.one_le_version
  omega

namespace Migrations

def required (name : String) : List Part := [named name, phrase " IS NOT NULL"]

def absent (name : String) : List Part := [named name, phrase " IS NULL"]

def checkItems (union : List (String × Kind)) (schema : BlobSchema) : List (List Part) :=
  ((schema.fields.filter fun field => field.2.required).map fun field => required field.1) ++
    (union.filter fun column => column.1 ∉ schema.fields.map Prod.fst).map fun column => absent column.1

def versionParts (union : List (String × Kind)) (schema : BlobSchema) : List (List Part) :=
  if checkItems union schema = [] then []
  else [phrase "CHECK (schema_version!=" :: counted schema.version.toNat :: phrase " OR (" ::
    (separated (utf8 " AND ") (checkItems union schema) ++ [phrase "))"])]

theorem nullTest (name suffix text : String) :
    (do
      let quoted ← quoteIdentifier name
      pure (quoted ++ suffix)) = Except.ok (ε := Error) text ↔
      ∃ quoted, quoteIdentifier name = .ok quoted ∧ quoted ++ suffix = text := by
  simp only [bind_eq_ok, pure_eq_ok]

theorem spells_versionCheck {union : List (String × Kind)} {schema : BlobSchema} {checks : List String}
    (h : versionCheck union schema = .ok checks) : List.Forall₂ Spells checks (versionParts union schema) := by
  simp only [versionCheck, bind_eq_ok, -String.reduceAppend] at h
  obtain ⟨present, hpresent, missing, hmissing, h⟩ := h
  have hitems : List.Forall₂ Spells (present ++ missing) (checkItems union schema) := by
    refine List.rel_append (forall₂_spells hpresent fun field text htext => ?_)
      (forall₂_spells hmissing fun column text htext => ?_)
    · obtain ⟨quoted, hquoted, rfl⟩ := (nullTest _ _ _).mp htext
      exact (spells_quoted hquoted).append (spells_phrase _)
    · obtain ⟨quoted, hquoted, rfl⟩ := (nullTest _ _ _).mp htext
      exact (spells_quoted hquoted).append (spells_phrase _)
  split_ifs at h with hnil
  · rw [pure_eq_ok] at h
    rw [hnil] at hitems
    rw [← h, versionParts, if_pos (List.forall₂_nil_left_iff.mp hitems)]
    exact .nil
  · rw [pure_eq_ok] at h
    have hne : checkItems union schema ≠ [] :=
      fun hempty => hnil (List.forall₂_nil_right_iff.mp (hempty ▸ hitems))
    rw [← h, versionParts, if_neg hne]
    refine .cons ?_ .nil
    exact ((((spells_phrase _).append (spells_version (version_nonneg schema))).append (spells_phrase _)).append
      (spells_joined hitems)).append (spells_phrase _)

def layoutKey : String :=
  "FOREIGN KEY(id,schema_name,schema_version) REFERENCES ms_blobs(id,schema_name,schema_version) " ++
    "ON UPDATE NO ACTION ON DELETE RESTRICT DEFERRABLE INITIALLY DEFERRED"

def layoutColumns (name : String) (union : List (String × Kind)) (schemas : List BlobSchema) :
    List (List Part) :=
  [[phrase "\"id\" TEXT NOT NULL PRIMARY KEY"],
    [phrase "\"schema_name\" TEXT NOT NULL DEFAULT ", lettered name, phrase " CHECK (schema_name=",
      lettered name, phrase ")"],
    phrase "\"schema_version\" INTEGER NOT NULL CHECK (schema_version IN (" ::
      (separated (utf8 ",") (schemas.map fun schema => [counted schema.version.toNat]) ++ [phrase "))"]),
    [phrase "\"version\" INTEGER NOT NULL DEFAULT 1 CHECK (typeof(version)='integer' AND version>0)"]] ++
  (union.map fun column => columnParts column.1 ⟨column.2, false, false⟩) ++
  schemas.flatMap (versionParts union) ++ [[phrase layoutKey]]

def updateStart : String :=
  "\n" ++ "        WHEN NEW.id IS NOT OLD.id OR NEW.schema_name IS NOT OLD.schema_name\n" ++
    "        OR NEW.version != OLD.version+1\n" ++
    "        OR (NEW.schema_version=OLD.schema_version AND ("

def updateEnd : String :=
  "))\n" ++ "        OR (NEW.schema_version!=OLD.schema_version AND NOT (" ++ stepTaken ++ "))\n" ++
    "        BEGIN SELECT RAISE(ABORT, 'invalid metadata edit or migration'); END"

def insertEnd : String :=
  "\n" ++ "        BEGIN SELECT RAISE(ABORT, 'insert requires latest schema and initial version'); END"

def deleteEnd : String :=
  "\n" ++ "        BEGIN SELECT RAISE(ABORT, 'old metadata is frozen for migration'); END"

def triggerParts (table suffix event : String) (rest : List Part) : List Part :=
  phrase "CREATE TRIGGER " :: named (table ++ suffix) :: phrase event :: named table :: rest

def layoutIndexes (name : String) (schema : BlobSchema) : List (List Part) :=
  schema.indexes.zipIdx.map fun entry =>
    indexParts (name ++ "_v" ++ toString schema.version ++ "_i" ++ toString entry.2) name "," entry.1
      [phrase " WHERE schema_version=", counted schema.version.toNat]

def layoutParts (latest : BlobSchema) (union : List (String × Kind)) (schemas : List BlobSchema) :
    List (List Part) :=
  [[phrase "CREATE TABLE ", named (tableName latest), phrase " ("] ++
      separated (utf8 ", ") (layoutColumns latest.name union schemas) ++ [phrase ")"],
    triggerParts (tableName latest) "_update" " BEFORE UPDATE ON " (phrase updateStart ::
      (separated (utf8 " OR ") ([phrase "OLD.schema_version!=", counted latest.version.toNat] ::
        (latest.fields.filter fun field => field.2.immutable).map fun field => changedParts "" field.1) ++
        [phrase updateEnd])),
    triggerParts (tableName latest) "_insert" " BEFORE INSERT ON " [phrase ("\n" ++
      "        WHEN NEW.version!=1 OR NEW.schema_version!="), counted latest.version.toNat, phrase insertEnd],
    triggerParts (tableName latest) "_delete" " BEFORE DELETE ON "
      [phrase ("\n" ++ "        WHEN OLD.schema_version!="),
      counted latest.version.toNat, phrase deleteEnd]] ++
  schemas.flatMap (layoutIndexes (tableName latest))

theorem spells_changed {name text : String} (h : Installation.changed name = .ok text) :
    Spells text (changedParts "" name) := by
  have hchanged := utf8_changed "" h
  rwa [show utf8 "" = [] from utf8_eq "", List.nil_append] at hchanged

theorem spells_layoutColumns {name versions : String} {union : List (String × Kind)} {schemas : List BlobSchema}
    {columns : List String} {checks : List (List String)}
    (hversions : versions = joined "," (schemas.map fun schema => toString schema.version))
    (hcolumns : (union.mapM fun column => Installation.column column.1 ⟨column.2, false, false⟩) = .ok columns)
    (hchecks : schemas.mapM (versionCheck union) = .ok checks) :
    List.Forall₂ Spells (["\"id\" TEXT NOT NULL PRIMARY KEY",
      "\"schema_name\" TEXT NOT NULL DEFAULT " ++ literal name ++ " CHECK (schema_name=" ++ literal name ++ ")",
      "\"schema_version\" INTEGER NOT NULL CHECK (schema_version IN (" ++ versions ++ "))",
      "\"version\" INTEGER NOT NULL DEFAULT 1 CHECK (typeof(version)='integer' AND version>0)"] ++ columns ++
    checks.flatten ++
    ["FOREIGN KEY(id,schema_name,schema_version) REFERENCES ms_blobs(id,schema_name,schema_version) " ++
      "ON UPDATE NO ACTION ON DELETE RESTRICT DEFERRABLE INITIALLY DEFERRED"])
        (layoutColumns name union schemas) := by
  refine List.rel_append
    (List.rel_append (List.rel_append (.cons ?_ (.cons ?_ (.cons ?_ (.cons ?_ .nil)))) ?_) ?_) (.cons ?_ .nil)
  · exact spells_phrase _
  · exact ((((spells_phrase _).append (spells_literal _)).append (spells_phrase _)).append
      (spells_literal _)).append
      (spells_phrase _)
  · rw [hversions]
    refine ((spells_phrase _).append (spells_joined ?_)).append (spells_phrase _)
    rw [List.forall₂_map_left_iff, List.forall₂_map_right_iff]
    exact List.forall₂_same.mpr fun schema _ => spells_version (version_nonneg schema)
  · exact spells_phrase _
  · exact forall₂_spells hcolumns fun column text htext => spells_column htext
  · have hall := (mapM_eq_ok _ _ _).mp hchecks
    clear hchecks hversions
    induction hall with
    | nil => exact .nil
    | cons hfirst _ ih => exact List.rel_append (spells_versionCheck hfirst) ih
  · exact spells_phrase _

theorem spells_layoutObjects {schemas : List BlobSchema} {ddl : Ddl} (h : layoutObjects schemas = .ok ddl) :
    ∃ latest union, schemas.getLast? = some latest ∧ layout schemas = .ok union ∧
      List.Forall₂ (fun entry parts => Spells entry.2 parts) ddl (layoutParts latest union schemas) := by
  simp only [layoutObjects, bind_eq_ok, pure_eq_ok, fromOption_eq_ok, -String.reduceAppend] at h
  obtain ⟨latest, hlatest, table, htable, union, hunion, columns, hcolumns, checks, hchecks, immutable,
    himmutable, update, hupdate, insert, hinsert, delete, hdelete, indexes, hindexes, rfl⟩ := h
  refine ⟨latest, union, hlatest, hunion, List.rel_append (.cons ?_ (.cons ?_ (.cons ?_ (.cons ?_ .nil)))) ?_⟩
  · exact ((((spells_phrase _).append (spells_quoted htable)).append (spells_phrase _)).append
      (spells_joined (spells_layoutColumns rfl hcolumns hchecks))).append (spells_phrase _)
  · have hlist := @spells_joined " OR " _ _ (.cons ((spells_phrase "OLD.schema_version!=").append
      (spells_version (version_nonneg latest))) (forall₂_spells himmutable fun field text htext =>
        spells_changed htext))
    simp only [Spells] at hlist
    simp only [Spells, triggerParts, updateStart, updateEnd, utf8_append, utf8_of_quoted htable,
      utf8_of_quoted hupdate, hlist,
      spelled_append, spelled_cons, spelled_nil, text_phrase, List.append_assoc, List.append_nil,
        -String.reduceAppend]
    rfl
  · have hversion := spells_version (version_nonneg latest)
    simp only [Spells, spelled_cons, spelled_nil, List.append_nil] at hversion
    simp only [Spells, triggerParts, insertEnd, utf8_append, utf8_of_quoted htable,
      utf8_of_quoted hinsert, hversion,
      spelled_cons, spelled_nil, text_phrase, List.append_assoc, List.append_nil, -String.reduceAppend]
  · have hversion := spells_version (version_nonneg latest)
    simp only [Spells, spelled_cons, spelled_nil, List.append_nil] at hversion
    simp only [Spells, triggerParts, deleteEnd, utf8_append, utf8_of_quoted htable,
      utf8_of_quoted hdelete, hversion,
      spelled_cons, spelled_nil, text_phrase, List.append_assoc, List.append_nil, -String.reduceAppend]
  · have hall := (mapM_eq_ok _ _ _).mp hindexes
    clear hindexes hchecks hunion hlatest
    induction hall with
    | nil => exact .nil
    | @cons schema found _ _ hfirst _ ih =>
        refine List.rel_append ?_ ih
        rw [layoutIndexes, List.forall₂_map_right_iff]
        exact ((mapM_eq_ok _ _ _).mp hfirst).flip.imp fun _ _ hentry => spells_index htable
          ((spells_phrase _).append (spells_version (version_nonneg schema))) hentry

-- The parts fit, whatever the names and the versions.

theorem woven_numbered {text : String} {n : ℕ} {rest : List Part} {after : Option UInt8}
    (htext : ∀ d ∈ spell "0123456789", joinsNext (utf8 text) (some d) = true)
      (hhead : (head rest after).all stops = true)
    (hrest : Woven rest after) : Woven (phrase text :: counted n :: rest) after := by
  obtain ⟨d, hd, hdigit⟩ := head_counted n rest after
  refine ⟨?_, number_ne_nil n, fun _ => number_digits, hhead, hrest⟩
  rw [hd]
  exact htext d (digit_cases hdigit)

theorem woven_nullTest {name : String} (hname : (0 : UInt8) ∉ utf8 name) (mark : UInt8)
    (hmark : mark ∈ spell " )") :
    Woven (required name) (some mark) ∧ Woven (absent name) (some mark) := by
  have hall : ∀ mark ∈ spell " )", Woven (required "") (some mark) ∧ Woven (absent "") (some mark) := by decide
  have hfree : (∀ part ∈ required name, part.NulFree) ∧ ∀ part ∈ absent name, part.NulFree := by
    simp [required, absent, Part.NulFree, phrase, named, hname]
  exact ⟨woven_outline (hall mark hmark).1 hfree.1, woven_outline (hall mark hmark).2 hfree.2⟩

theorem woven_versionCheck {union : List (String × Kind)} {schema : BlobSchema} {checks : List String}
    (h : versionCheck union schema = .ok checks) (mark : UInt8) :
    ∀ parts ∈ versionParts union schema, Woven parts (some mark) := by
  simp only [versionCheck, bind_eq_ok, -String.reduceAppend] at h
  obtain ⟨present, hpresent, missing, hmissing, -⟩ := h
  have hitems : ∀ item ∈ checkItems union schema, ∃ name, (0 : UInt8) ∉ utf8 name ∧
    (item = required name ∨ item = absent name) := by
    intro item hitem
    rcases List.mem_append.mp hitem with hitem | hitem
    · obtain ⟨field, hfield, rfl⟩ := List.mem_map.mp hitem
      obtain ⟨text, _, htext⟩ := mapM_mem _ _ _ hpresent _ hfield
      obtain ⟨quoted, hquoted, _⟩ := (nullTest _ _ _).mp htext
      exact ⟨field.1, nul_of_quoted hquoted, .inl rfl⟩
    · obtain ⟨column, hcolumn, rfl⟩ := List.mem_map.mp hitem
      obtain ⟨text, _, htext⟩ := mapM_mem _ _ _ hmissing _ hcolumn
      obtain ⟨quoted, hquoted, _⟩ := (nullTest _ _ _).mp htext
      exact ⟨column.1, nul_of_quoted hquoted, .inr rfl⟩
  rw [versionParts]
  split_ifs with hne
  · exact List.forall_mem_nil _
  · have hclose : head [phrase "))"] (some mark) = some (ascii ')') := head_phrase rfl _ _
    refine List.forall_mem_singleton.mpr (woven_numbered (by decide) ?_
      ⟨joinsNext_closes (by decide) _, ?_⟩)
    · have hor : head (phrase " OR (" :: (separated (utf8 " AND ") (checkItems union schema) ++ [phrase "))"]))
        (some mark) = some 0x20 := head_phrase rfl _ _
      rw [hor]
      rfl
    · rw [woven_append, hclose]
      refine ⟨woven_separated rfl fun item hitem => ?_, ⟨joinsNext_closes (by decide) _, trivial⟩⟩
      obtain ⟨name, hname, rfl | rfl⟩ := hitems item hitem
      · exact ⟨(woven_nullTest hname _ (by decide)).1, (woven_nullTest hname _ (by decide)).1,
          _, rfl, by decide⟩
      · exact ⟨(woven_nullTest hname _ (by decide)).2, (woven_nullTest hname _ (by decide)).2,
          _, rfl, by decide⟩

theorem woven_layoutColumns {latest : BlobSchema} {union : List (String × Kind)} {schemas : List BlobSchema}
    {columns : List String} {checks : List (List String)}
    (hcolumns : (union.mapM fun column => Installation.column column.1 ⟨column.2, false, false⟩) = .ok columns)
    (hchecks : schemas.mapM (versionCheck union) = .ok checks) :
    Woven (separated (utf8 ", ") (layoutColumns latest.name union schemas)) (some (ascii ')')) := by
  have hname : (0 : UInt8) ∉ utf8 latest.name := nul_not_mem latest.valid.1
  have hstart (item : List Part) {b : UInt8} (h : (spelled item).head? = some b)
      (hjoins : joinsNext (utf8 ", ") (some b) = true) :
      ∃ b, (spelled item).head? = some b ∧ joinsNext (utf8 ", ") (some b) = true := ⟨b, h, hjoins⟩
  refine @woven_separated _ (ascii ',') _ _ rfl ?_
  simp only [layoutColumns, List.forall_mem_append, List.forall_mem_cons, List.forall_mem_map, List.mem_flatMap]
  refine ⟨⟨⟨⟨?_, ?_, ?_, ?_, nofun⟩, ?_⟩, ?_⟩, ?_, nofun⟩
  · decide
  · have hfree : ∀ part ∈ [phrase "\"schema_name\" TEXT NOT NULL DEFAULT ", lettered latest.name,
      phrase " CHECK (schema_name=", lettered latest.name, phrase ")"], part.NulFree := by
      simp [Part.NulFree, phrase, lettered, hname]
    refine ⟨woven_outline ?_ hfree, woven_outline ?_ hfree, @hstart _ (ascii '"') rfl (by decide)⟩
    all_goals
      simp only [List.map_cons, List.map_nil, outline_phrase, outline_lettered]
      decide
  · have hversions (mark : UInt8) : Woven
      (phrase "\"schema_version\" INTEGER NOT NULL CHECK (schema_version IN (" ::
        (separated (utf8 ",") (schemas.map fun schema => [counted schema.version.toNat]) ++ [phrase "))"]))
          (some mark) := by
      have hclose : head [phrase "))"] (some mark) = some (ascii ')') := head_phrase rfl _ _
      refine ⟨joinsNext_closes (by decide) _, ?_⟩
      rw [woven_append, hclose]
      refine ⟨@woven_separated _ (ascii ',') _ _ rfl ?_, ⟨joinsNext_closes (by decide) _, trivial⟩⟩
      simp only [List.forall_mem_map]
      intro schema _
      have hnumber (mark : UInt8) (hmark : stops mark = true) : Woven [counted schema.version.toNat]
        (some mark) :=
        ⟨number_ne_nil _, fun _ => number_digits, hmark, trivial⟩
      obtain ⟨d, hd, -⟩ := head_counted schema.version.toNat [] none
      refine ⟨hnumber _ (by decide), hnumber _ (by decide), d, ?_, joinsNext_closes (by decide) _⟩
      rwa [head, Option.or_none] at hd
    exact ⟨hversions _, hversions _, @hstart _ (ascii '"') rfl (by decide)⟩
  · decide
  · intro column hcolumn
    obtain ⟨text, _, htext⟩ := mapM_mem _ _ _ hcolumns _ hcolumn
    exact ⟨(woven_column htext).1, (woven_column htext).2, @hstart _ (ascii '"') rfl (by decide)⟩
  · rintro item ⟨schema, hschema, hitem⟩
    obtain ⟨text, _, htext⟩ := mapM_mem _ _ _ hchecks _ hschema
    refine ⟨woven_versionCheck htext _ _ hitem, woven_versionCheck htext _ _ hitem, ?_⟩
    rw [versionParts] at hitem
    split_ifs at hitem
    · cases hitem
    · rw [List.mem_singleton.mp hitem]
      exact @hstart _ (ascii 'C') rfl (by decide)
  · decide +kernel

theorem woven_unchanged {name text : String} (h : Installation.changed name = .ok text) (mark : UInt8)
    (hmark : mark ∈ spell " )") : Woven (changedParts "" name) (some mark) := by
  simp only [Installation.changed, bind_eq_ok, pure_eq_ok] at h
  obtain ⟨column, hcolumn, rfl⟩ := h
  have hall : ∀ mark ∈ spell " )", Woven (changedParts "" "") (some mark) := by decide
  refine woven_outline (hall mark hmark) ?_
  simp [changedParts, Part.NulFree, phrase, named, nul_of_quoted hcolumn]

theorem woven_trigger {table suffix event quoted trigger : String} {rest : List Part}
    (htable : quoteIdentifier table = .ok quoted)
    (htrigger : quoteIdentifier (table ++ suffix) = .ok trigger)
    (hevent : joinsNext (utf8 event) (some (ascii '"')) = true)
    (hfirst : (utf8 event).head? = some 0x20) (hhead : head rest none ≠ some (ascii '"'))
    (hrest : Woven rest none) :
    Woven (triggerParts table suffix event rest) none := by
  refine ⟨?_, by decide, nul_of_quoted htrigger, ?_, ?_, by decide, nul_of_quoted htable, ?_, hrest⟩
  · show joinsNext _ (some (ascii '"')) = true
    decide
  · rw [head_phrase hfirst]
    decide
  · exact hevent
  · exact hhead

theorem woven_layoutObjects {latest : BlobSchema} {union : List (String × Kind)} {schemas : List BlobSchema}
    {ddl : Ddl}
    (hlatest : schemas.getLast? = some latest) (hunion : layout schemas = .ok union)
    (h : layoutObjects schemas = .ok ddl) :
    ∀ parts ∈ layoutParts latest union schemas, Woven parts none := by
  simp only [layoutObjects, bind_eq_ok, pure_eq_ok, fromOption_eq_ok, -String.reduceAppend] at h
  obtain ⟨last, hlast, table, htable, columns, hcolumns, texts, htexts, checks, hchecks, immutable,
    himmutable, update, hupdate, insert, hinsert, delete, hdelete, indexes, hindexes, -⟩ := h
  obtain rfl : last = latest := Option.some.inj (hlast.symm.trans hlatest)
  obtain rfl : columns = union := Except.ok.inj (hcolumns.symm.trans hunion)
  simp only [layoutParts, List.forall_mem_append, List.forall_mem_cons, List.mem_flatMap]
  refine ⟨⟨?_, ?_, ?_, ?_, List.forall_mem_nil _⟩, ?_⟩
  · have hend : head [phrase ")"] none = some (ascii ')') := head_phrase rfl _ _
    rw [woven_append, woven_append, hend]
    refine ⟨⟨woven_outline ?_ ?_, woven_layoutColumns htexts hchecks⟩, ⟨rfl, trivial⟩⟩
    · rw [layoutColumns, List.cons_append, List.cons_append, List.cons_append, List.cons_append,
        @head_separated _ _ _ _ (ascii '"') rfl]
      simp only [List.map_cons, List.map_nil, outline_phrase, outline_named]
      decide
    · simp [Part.NulFree, phrase, named, nul_of_quoted htable]
  · refine woven_trigger htable hupdate (by decide) rfl ?_ ⟨joinsNext_closes (by decide +kernel) _, ?_⟩
    · rw [@head_phrase _ 0x0a rfl]
      decide
    have hend : head [phrase updateEnd] none = some (ascii ')') := by decide
    rw [woven_append, hend]
    refine ⟨@woven_separated _ 0x20 _ _ rfl ?_, ⟨rfl, trivial⟩⟩
    simp only [List.forall_mem_cons, List.forall_mem_map]
    have hnumber (mark : UInt8) (hmark : stops mark = true) :
        Woven [phrase "OLD.schema_version!=", counted last.version.toNat] (some mark) :=
      woven_numbered (by decide) hmark trivial
    refine ⟨⟨hnumber _ (by decide), hnumber _ (by decide), ascii 'O', rfl, by decide⟩, fun field hfield => ?_⟩
    obtain ⟨text, _, htext⟩ := mapM_mem _ _ _ himmutable _ hfield
    exact ⟨woven_unchanged htext _ (by decide), woven_unchanged htext _ (by decide), ascii 'N', rfl, by decide⟩
  · refine woven_trigger htable hinsert (by decide) rfl ?_ (woven_numbered (by decide) ?_ ⟨rfl, trivial⟩)
    · rw [@head_phrase _ 0x0a rfl]
      decide
    · decide
  · refine woven_trigger htable hdelete (by decide) rfl ?_ (woven_numbered (by decide) ?_ ⟨rfl, trivial⟩)
    · rw [@head_phrase _ 0x0a rfl]
      decide
    · decide
  · rintro parts ⟨schema, hschema, hparts⟩
    obtain ⟨entry, hentry, rfl⟩ := List.mem_map.mp hparts
    obtain ⟨objects, _, hobjects⟩ := mapM_mem _ _ _ hindexes _ hschema
    obtain ⟨object, _, hobject⟩ := mapM_mem _ _ _ hobjects _ hentry
    have hindex : entry.1 ∈ schema.indexes := (List.mem_zipIdx' hentry).2 ▸ List.getElem_mem _
    refine woven_index htable (nonempty_index schema hindex) rfl (by decide) ⟨?_, ?_⟩ hobject
    · exact joinsNext_closes (by decide) _
    · exact woven_numbered (by decide) rfl trivial

-- What the statements of a layout depend on beside names: the kinds of the columns, and for each
-- version its number, the numbers of its checks and its indexes.

def versionShape (union : List (String × Kind)) (schema : BlobSchema) : Int × ℕ × ℕ × List (Bool × ℕ) :=
  (schema.version, (schema.fields.filter fun field => field.2.required).length,
    (union.filter fun column => column.1 ∉ schema.fields.map Prod.fst).length,
    schema.indexes.map fun index => (index.unique, index.fields.length))

def immutables (schema : BlobSchema) : ℕ := (schema.fields.filter fun field => field.2.immutable).length

structure SameLayout (schemas others : List BlobSchema) : Prop where
  versions : ∀ union other, layout schemas = .ok union → layout others = .ok other →
    union.map Prod.snd = other.map Prod.snd ∧ schemas.map (versionShape union) = others.map (versionShape other)
  immutable : schemas.getLast?.map immutables = others.getLast?.map immutables

theorem outline_checkItems (union : List (String × Kind)) (schema : BlobSchema) :
    (checkItems union schema).map (fun item => item.map Part.outline) =
      List.replicate (versionShape union schema).2.1 (required "") ++
        List.replicate (versionShape union schema).2.2.1 (absent "") := by
  rw [checkItems, List.map_append, List.map_map, List.map_map]
  congr 1
  · exact List.map_eq_replicate_iff.mpr fun _ _ => rfl
  · exact List.map_eq_replicate_iff.mpr fun _ _ => rfl

theorem outline_versionParts {union other : List (String × Kind)} {schema schema' : BlobSchema}
    (h : versionShape union schema = versionShape other schema') :
    (versionParts union schema).map (fun parts => parts.map Part.outline) =
      (versionParts other schema').map fun parts => parts.map Part.outline := by
  have hitems : (checkItems union schema).map (fun item => item.map Part.outline) =
      (checkItems other schema').map fun item => item.map Part.outline := by
    rw [outline_checkItems, outline_checkItems, h]
  have hnil : checkItems union schema = [] ↔ checkItems other schema' = [] := by
    rw [← List.map_eq_nil_iff, hitems, List.map_eq_nil_iff]
  have hversion : schema.version = schema'.version := congrArg Prod.fst h
  rw [versionParts, versionParts]
  by_cases hempty : checkItems union schema = []
  · rw [if_pos hempty, if_pos (hnil.mp hempty)]
  · rw [if_neg hempty, if_neg (mt hnil.mpr hempty)]
    simp only [List.map_cons, List.map_append, List.map_nil, outline_separated, hitems, hversion]

theorem outline_layoutIndexes {union other : List (String × Kind)} {schema schema' : BlobSchema}
    (name name' : String) (h : versionShape union schema = versionShape other schema') :
    (layoutIndexes name schema).map (fun parts => parts.map Part.outline) =
      (layoutIndexes name' schema').map fun parts => parts.map Part.outline := by
  have hversion : schema.version = schema'.version := congrArg Prod.fst h
  have hindexes : schema.indexes.map (fun index => (index.unique, index.fields.length)) =
      schema'.indexes.map fun index => (index.unique, index.fields.length) :=
    congrArg (fun shape => shape.2.2.2) h
  have hshape (name : String) (schema : BlobSchema) :
      (layoutIndexes name schema).map (fun parts => parts.map Part.outline) =
        (schema.indexes.map fun index => (index.unique, index.fields.length)).map fun shape =>
          (indexParts "" "" "," ⟨List.replicate shape.2 "", shape.1⟩
            [phrase " WHERE schema_version=", counted schema.version.toNat]).map Part.outline := by
    rw [layoutIndexes, List.map_map, List.map_map]
    conv_rhs => rw [← List.zipIdx_map_fst 0 schema.indexes, List.map_map]
    exact List.map_congr_left fun entry _ => outline_index _ _ _ _ _
  rw [hshape, hshape, hindexes, hversion]

theorem flatMap_shape {β γ : Type} {f : BlobSchema → β} {g : BlobSchema → β}
    {parts parts' : BlobSchema → List γ}
    {schemas others : List BlobSchema} (hshape : schemas.map f = others.map g)
    (h : ∀ s t, f s = g t → parts s = parts' t) : schemas.flatMap parts = others.flatMap parts' := by
  induction schemas generalizing others with
  | nil =>
      rw [List.map_nil, eq_comm, List.map_eq_nil_iff] at hshape
      rw [hshape, List.flatMap_nil, List.flatMap_nil]
  | cons s schemas ih =>
      cases others with
      | nil => cases hshape
      | cons t others =>
          obtain ⟨hfirst, hrest⟩ := List.cons.inj hshape
          rw [List.flatMap_cons, List.flatMap_cons, h s t hfirst, ih hrest]

theorem outline_counted (n : ℕ) : (counted n).outline = counted n := rfl

theorem outline_layoutParts {schemas others : List BlobSchema} {latest latest' : BlobSchema}
    {union other : List (String × Kind)} (h : SameLayout schemas others)
    (hlatest : schemas.getLast? = some latest)
    (hlatest' : others.getLast? = some latest') (hunion : layout schemas = .ok union)
    (hother : layout others = .ok other) :
    (layoutParts latest union schemas).map (fun parts => parts.map Part.outline) =
      (layoutParts latest' other others).map fun parts => parts.map Part.outline := by
  obtain ⟨hkinds, hversions⟩ := h.versions union other hunion hother
  have hversion : latest.version = latest'.version := by
    have hlast := congrArg List.getLast? hversions
    rw [List.getLast?_map, List.getLast?_map, hlatest, hlatest'] at hlast
    exact congrArg Prod.fst (Option.some.inj hlast)
  have himmutable : immutables latest = immutables latest' := by
    have hlast := h.immutable
    rw [hlatest, hlatest'] at hlast
    exact Option.some.inj hlast
  have hnumbers : (schemas.map fun schema => [counted schema.version.toNat]) =
      others.map fun schema => [counted schema.version.toNat] := by
    have hfirst := congrArg (List.map fun shape => [counted shape.1.toNat]) hversions
    rwa [List.map_map, List.map_map] at hfirst
  have hcolumns (union : List (String × Kind)) :
      (union.map fun column => (columnParts column.1 ⟨column.2, false, false⟩).map Part.outline) =
        (union.map Prod.snd).map fun kind => (columnParts "" ⟨kind, false, false⟩).map Part.outline := by
    rw [List.map_map]
    exact List.map_congr_left fun column _ => outline_column _ _
  have hchecks : (schemas.flatMap (versionParts union)).map (fun parts => parts.map Part.outline) =
      (others.flatMap (versionParts other)).map fun parts => parts.map Part.outline := by
    rw [List.map_flatMap, List.map_flatMap]
    exact flatMap_shape hversions fun s t => outline_versionParts
  have hindexes : (schemas.flatMap (layoutIndexes (tableName latest))).map
    (fun parts => parts.map Part.outline) =
      (others.flatMap (layoutIndexes (tableName latest'))).map fun parts => parts.map Part.outline := by
    rw [List.map_flatMap, List.map_flatMap]
    exact flatMap_shape hversions fun s t => outline_layoutIndexes _ _
  have hchanges (schema : BlobSchema) : ((schema.fields.filter fun field => field.2.immutable).map fun field =>
      (changedParts "" field.1).map Part.outline) = List.replicate (immutables schema) (changedParts "" "") :=
    List.map_eq_replicate_iff.mpr fun _ _ => rfl
  simp only [layoutParts, layoutColumns, triggerParts, List.map_append, List.map_cons,
    List.map_nil, List.map_map,
    Function.comp_def, outline_separated, outline_phrase, outline_named, outline_lettered, outline_counted,
    hcolumns, hkinds, hchecks, hindexes, hchanges, himmutable, hversion, hnumbers]

theorem layoutObjects_structures {schemas others : List BlobSchema} {ddl other : Ddl}
    (h : SameLayout schemas others)
    (hddl : layoutObjects schemas = .ok ddl) (hother : layoutObjects others = .ok other) :
    structures ddl = structures other := by
  obtain ⟨latest, union, hlatest, hunion, hspelled⟩ := spells_layoutObjects hddl
  obtain ⟨latest', union', hlatest', hunion', hspelled'⟩ := spells_layoutObjects hother
  rw [structures_eq hspelled (woven_layoutObjects hlatest hunion hddl),
    structures_eq hspelled' (woven_layoutObjects hlatest' hunion' hother),
    outline_layoutParts h hlatest hlatest' hunion hunion']

end Migrations

end MeldStore
