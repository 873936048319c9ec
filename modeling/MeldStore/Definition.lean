import Mathlib.Data.List.Dedup
import MeldStore.Backup

namespace MeldStore

open Library Library.Checked

-- The constructors of Index and BlobSchema.

def Index.init (fields : List String) (unique : Bool) : Except Error Index := do
  require (fields ≠ [] ∧ fields.Nodup)
    (.ValidationError "Index needs distinct fields and a boolean unique flag")
  let _ ← fields.mapM identifier
  pure ⟨fields, unique⟩

def indexKey (a b : Index) : Prop := a.fields < b.fields ∨ (a.fields = b.fields ∧ a.unique ≤ b.unique)

instance : DecidableRel indexKey := fun a b => by unfold indexKey; infer_instance

namespace Declaration

-- What the constructor stores: fields, indexes and handlers in order.
def sorted (d : Declaration) : Declaration :=
  { d with
    fields := d.fields.insertionSort fun a b => a.1 ≤ b.1
    indexes := d.indexes.insertionSort indexKey
    handlers := d.handlers.insertionSort (· ≤ ·) }

def postInit (d : Declaration) : Except Error Unit := do
  let _ ← identifier d.name
  require (d.name.utf8ByteSize ≤ 48) (.ValidationError "Schema names must fit in 48 UTF-8 bytes")
  require (1 ≤ d.version ∧ d.version < 2 ^ 63) (.ValidationError "Schema version must be a positive int64")
  let _ ← d.fields.foldlM checkField RESERVED
  require d.indexes.Nodup (.ValidationError "Duplicate index")
  require (∀ index ∈ d.indexes, ∀ name ∈ index.fields, name ∈ d.fields.map Prod.fst)
    (.ValidationError "Index refers to an undeclared field")
  let _ ← d.handlers.mapM identifier
  require (d.handlers ≠ [] ∧ d.handlers.Nodup) (.ValidationError "At least one distinct handler ID is required")
  match d.validatorId with
  | none => pure ()
  | some id => do
      let _ ← identifier id
      pure ()

theorem mapM_identifier {names results : List String} (h : names.mapM identifier = .ok results) :
    ∀ name ∈ names, identifier name = .ok name := by
  intro name hname
  obtain ⟨result, _, hresult⟩ := mapM_mem _ _ _ h name hname
  exact identifier_eq_ok hresult

theorem init_valid {fields : List String} {unique : Bool} {index : Index}
    (h : Index.init fields unique = .ok index) :
    index = ⟨fields, unique⟩ ∧ index.Valid := by
  simp only [Index.init, bind_eq_ok, require_eq_ok, pure_eq_ok] at h
  obtain ⟨_, ⟨hne, hnodup⟩, _, hidentifiers, rfl⟩ := h
  exact ⟨rfl, hne, hnodup, mapM_identifier hidentifiers⟩

-- The declarations that the constructor accepts.
structure Accepted (d : Declaration) : Prop where
  name : identifier d.name = .ok d.name ∧ d.name.utf8ByteSize ≤ 48
  version : 1 ≤ d.version ∧ d.version < 2 ^ 63
  fields : Checked RESERVED d.fields
  indexes : d.indexes.Nodup ∧ ∀ index ∈ d.indexes, index.Valid ∧
    ∀ name ∈ index.fields, name ∈ d.fields.map Prod.fst
  handlers : (∀ handler ∈ d.handlers, identifier handler = .ok handler) ∧ d.handlers ≠ [] ∧ d.handlers.Nodup
  validator : ∀ validator ∈ d.validatorId, identifier validator = .ok validator

theorem init_of_valid {index : Index} (h : index.Valid) : Index.init index.fields index.unique = .ok index := by
  obtain ⟨hne, hnodup, hnames⟩ := h
  rw [Index.init, require_true ⟨hne, hnodup⟩, except_ok_bind, mapM_eq_ok_map _ _ id hnames]
  rfl

-- The Index objects are built before the declaration is.
def checks (d : Declaration) : Except Error Unit := do
  let _ ← d.indexes.mapM fun index => Index.init index.fields index.unique
  d.postInit

theorem checks_eq_ok {d : Declaration} : d.checks = .ok () ↔ d.Accepted := by
  constructor
  · intro h
    simp only [checks, postInit, bind_eq_ok, require_eq_ok] at h
    obtain ⟨built, hbuilt, _, hname, _, hsize, _, hversion, seen, hfields, _, hnodup, _,
      hdeclared, _, hhandlers, _, hdistinct, hvalidator⟩ := h
    refine ⟨⟨identifier_eq_ok hname, hsize⟩, hversion, foldlM_checkField.mp ⟨_, hfields⟩,
      ⟨hnodup, fun index hindex => ⟨?_, hdeclared index hindex⟩⟩, ⟨mapM_identifier hhandlers, hdistinct⟩, ?_⟩
    · obtain ⟨_, _, hinit⟩ := mapM_mem _ _ _ hbuilt index hindex
      obtain ⟨rfl, hvalid⟩ := init_valid hinit
      exact hvalid
    · intro validator hmem
      cases hid : d.validatorId with
      | none =>
          rw [hid] at hmem
          cases hmem
      | some id =>
          rw [hid] at hmem hvalidator
          obtain rfl := Option.some.inj hmem
          simp only [bind_eq_ok] at hvalidator
          obtain ⟨_, hidentifier, _⟩ := hvalidator
          exact identifier_eq_ok hidentifier
  · rintro ⟨⟨hname, hsize⟩, hversion, hfields, ⟨hnodup, hindexes⟩, ⟨hhandlers, hdistinct⟩, hvalidator⟩
    obtain ⟨seen, hseen⟩ := foldlM_checkField.mpr hfields
    have hbuilt : (d.indexes.mapM fun index => Index.init index.fields index.unique) = .ok (d.indexes.map id) :=
      mapM_eq_ok_map _ _ id fun index hindex => init_of_valid (hindexes index hindex).1
    rw [checks, hbuilt, except_ok_bind, postInit, hname, except_ok_bind, require_true hsize, except_ok_bind,
      require_true hversion, except_ok_bind, hseen, except_ok_bind, require_true hnodup, except_ok_bind,
      require_true fun index hindex => (hindexes index hindex).2, except_ok_bind,
      mapM_eq_ok_map _ _ id hhandlers, except_ok_bind, require_true hdistinct, except_ok_bind]
    cases hid : d.validatorId with
    | none => rfl
    | some id =>
        simp only [hvalidator id hid]
        rfl

instance : Std.Total fun a b : String × Field => a.1 ≤ b.1 := ⟨fun a b => le_total a.1 b.1⟩

instance : IsTrans (String × Field) fun a b => a.1 ≤ b.1 := ⟨fun _ _ _ h h' => le_trans h h'⟩

instance : Std.Total indexKey where
  total a b := by
    unfold indexKey
    rcases lt_trichotomy a.fields b.fields with hlt | heq | hgt
    · exact .inl (.inl hlt)
    · exact (le_total a.unique b.unique).imp (fun h => .inr ⟨heq, h⟩) fun h => .inr ⟨heq.symm, h⟩
    · exact .inr (.inl hgt)

instance : IsTrans Index indexKey where
  trans a b c := by
    unfold indexKey
    rintro (hab | ⟨hab, huv⟩) (hbc | ⟨hbc, hvw⟩)
    · exact .inl (lt_trans hab hbc)
    · exact .inl (hbc ▸ hab)
    · exact .inl (hab ▸ hbc)
    · exact .inr ⟨hab.trans hbc, le_trans huv hvw⟩

variable {d : Declaration}

theorem perm_fields : d.sorted.fields.Perm d.fields := List.perm_insertionSort _ _

theorem perm_indexes : d.sorted.indexes.Perm d.indexes := List.perm_insertionSort _ _

theorem perm_handlers : d.sorted.handlers.Perm d.handlers := List.perm_insertionSort _ _

theorem names_nodup (h : (d.fields.map fun field => asciiLower field.1).Nodup) :
    (d.fields.map Prod.fst).Nodup := by
  have hcomp : (d.fields.map Prod.fst).map asciiLower = d.fields.map fun field => asciiLower field.1 :=
    List.map_map
  exact (hcomp ▸ h).of_map _

theorem sorted_valid (h : d.Accepted) : d.sorted.Valid := by
  obtain ⟨⟨hname, hsize⟩, ⟨hfirst, hlast⟩, ⟨hfields, hdistinct⟩, ⟨hnodup, hindexes⟩, ⟨hhandlers, hne, hall⟩,
    hvalidator⟩ := h
  have hnames : (d.sorted.fields.map Prod.fst).Nodup :=
    (perm_fields.map _).nodup_iff.mpr (names_nodup hdistinct)
  refine ⟨hname, hsize, hfirst, hlast, fun field hfield => ?_, ?_, ?_, fun index hindex => ?_, ?_,
    fun handler hhandler => ?_, ?_, ?_, hvalidator⟩
  · obtain ⟨hidentifier, hseen, hreserved⟩ := hfields field (perm_fields.mem_iff.mp hfield)
    exact ⟨hidentifier, hseen, hreserved⟩
  · exact (perm_fields.map _).nodup_iff.mpr hdistinct
  · have hsorted : (d.sorted.fields.map Prod.fst).Pairwise (· ≤ ·) :=
      List.pairwise_map.mpr (List.pairwise_insertionSort (fun a b : String × Field => a.1 ≤ b.1) d.fields)
    exact (hsorted.and hnames).imp fun hab => lt_of_le_of_ne hab.1 hab.2
  · obtain ⟨hvalid, hdeclared⟩ := hindexes index (perm_indexes.mem_iff.mp hindex)
    exact ⟨hvalid, fun name hmem => (perm_fields.map _).mem_iff.mpr (hdeclared name hmem)⟩
  · have hsorted := List.pairwise_insertionSort indexKey d.indexes
    refine (hsorted.and (perm_indexes.nodup_iff.mpr hnodup)).imp ?_
    rintro a b ⟨hlt | ⟨heq, hle⟩, hab⟩
    · exact .inl hlt
    · exact .inr ⟨heq, lt_of_le_of_ne hle fun hunique => hab (by cases a; cases b; simp_all)⟩
  · exact hhandlers handler (perm_handlers.mem_iff.mp hhandler)
  · exact fun hnil => hne (List.perm_nil.mp (hnil ▸ perm_handlers).symm)
  · have hsorted := List.pairwise_insertionSort (· ≤ ·) d.handlers
    exact (hsorted.and (perm_handlers.nodup_iff.mpr hall)).imp fun hab => lt_of_le_of_ne hab.1 hab.2

-- What was declared, in whatever order.
structure Same (d e : Declaration) : Prop where
  name : d.name = e.name
  version : d.version = e.version
  validatorId : d.validatorId = e.validatorId
  fields : d.fields.Perm e.fields
  indexes : d.indexes.Perm e.indexes
  handlers : d.handlers.Perm e.handlers

variable {e : Declaration}

theorem Same.accepted (h : d.Same e) (hd : d.Accepted) : e.Accepted := by
  obtain ⟨hname, hversion, ⟨hfields, hdistinct⟩, ⟨hnodup, hindexes⟩, ⟨hhandlers, hne, hall⟩, hvalidator⟩ := hd
  refine ⟨h.name ▸ hname, h.version ▸ hversion,
    ⟨fun field hfield => hfields field (h.fields.mem_iff.mpr hfield),
    (h.fields.map _).nodup_iff.mp hdistinct⟩, ⟨h.indexes.nodup_iff.mp hnodup, fun index hindex => ?_⟩,
    ⟨fun handler hhandler => hhandlers handler (h.handlers.mem_iff.mpr hhandler), fun hnil => ?_,
      h.handlers.nodup_iff.mp hall⟩, h.validatorId ▸ hvalidator⟩
  · obtain ⟨hvalid, hdeclared⟩ := hindexes index (h.indexes.mem_iff.mpr hindex)
    exact ⟨hvalid, fun name hmem => (h.fields.map _).mem_iff.mp (hdeclared name hmem)⟩
  · exact hne (List.perm_nil.mp (hnil ▸ h.handlers))

-- A declaration is stored as any other that declares the same.
theorem Same.sorted_eq (h : d.Same e) (hd : d.Accepted) : d.sorted = e.sorted := by
  have hnames : (d.fields.map Prod.fst).Nodup := names_nodup hd.fields.distinct
  have hfields : d.sorted.fields = e.sorted.fields := by
    have hperm : d.sorted.fields.Perm e.sorted.fields := (perm_fields.trans h.fields).trans perm_fields.symm
    refine List.Perm.eq_of_pairwise (fun a b ha hb hab hba => ?_)
      (List.pairwise_insertionSort (fun a b : String × Field => a.1 ≤ b.1) _)
        (List.pairwise_insertionSort _ _) hperm
    exact List.inj_on_of_nodup_map hnames (perm_fields.mem_iff.mp ha)
      (h.fields.mem_iff.mpr (perm_fields.mem_iff.mp hb)) (le_antisymm hab hba)
  have hindexes : d.sorted.indexes = e.sorted.indexes := by
    have hperm : d.sorted.indexes.Perm e.sorted.indexes :=
      (perm_indexes.trans h.indexes).trans perm_indexes.symm
    refine List.Perm.eq_of_pairwise (fun a b _ _ hab hba => ?_) (List.pairwise_insertionSort indexKey _)
      (List.pairwise_insertionSort _ _) hperm
    rcases hab with hlt | ⟨hsame, hle⟩
    · rcases hba with hgt | ⟨hsame, _⟩
      · exact absurd hlt (lt_asymm hgt)
      · exact absurd hlt (hsame ▸ lt_irrefl _)
    · rcases hba with hgt | ⟨_, hge⟩
      · exact absurd hgt (hsame ▸ lt_irrefl _)
      · have hunique := le_antisymm hle hge
        cases a
        cases b
        simp_all
  have hhandlers : d.sorted.handlers = e.sorted.handlers := by
    have hperm : d.sorted.handlers.Perm e.sorted.handlers :=
      (perm_handlers.trans h.handlers).trans perm_handlers.symm
    exact List.Perm.eq_of_pairwise (fun _ _ _ _ => le_antisymm) (List.pairwise_insertionSort (· ≤ ·) _)
      (List.pairwise_insertionSort _ _) hperm
  have hmk (d : Declaration) : d.sorted =
      ⟨d.name, d.version, d.sorted.fields, d.sorted.indexes, d.sorted.handlers, d.validatorId⟩ := rfl
  rw [hmk d, hmk e, h.name, h.version, h.validatorId, hfields, hindexes, hhandlers]

theorem sorted_same (d : Declaration) : d.sorted.Same d :=
  ⟨rfl, rfl, rfl, perm_fields, perm_indexes, perm_handlers⟩

theorem accepted_of_valid (h : d.Valid) : d.Accepted := by
  obtain ⟨hname, hsize, hfirst, hlast, hfields, hdistinct, _, hindexes, hsorted, hhandlers, hne,
    hall, hvalidator⟩ := h
  refine ⟨⟨hname, hsize⟩, ⟨hfirst, hlast⟩, ⟨hfields, hdistinct⟩, ⟨hsorted.imp ?_, hindexes⟩,
    ⟨hhandlers, hne, hall.imp ne_of_lt⟩, hvalidator⟩
  rintro a b (hlt | ⟨_, hlt⟩) rfl
  · exact lt_irrefl _ hlt
  · exact lt_irrefl _ hlt

theorem sorted_of_valid (h : d.Valid) : d.sorted = d := by
  obtain ⟨_, _, _, _, _, _, hfields, _, hindexes, _, _, hhandlers, _⟩ := h
  have hsorted : d.fields.Pairwise fun a b => a.1 ≤ b.1 := (List.pairwise_map.mp hfields).imp le_of_lt
  have hkeys : d.indexes.Pairwise indexKey :=
    hindexes.imp fun hab => hab.imp id fun hab => ⟨hab.1, le_of_lt hab.2⟩
  have hnames : d.handlers.Pairwise (· ≤ ·) := hhandlers.imp le_of_lt
  rw [sorted, hsorted.insertionSort_eq, hkeys.insertionSort_eq, hnames.insertionSort_eq]

end Declaration

namespace BlobSchema

def init (d : Declaration) : Except Error BlobSchema :=
  match h : d.checks with
  | .ok _ => .ok ⟨d.sorted, Declaration.sorted_valid (Declaration.checks_eq_ok.mp h)⟩
  | .error raised => .error raised

theorem init_eq_ok {d : Declaration} {schema : BlobSchema} :
    init d = .ok schema ↔ d.Accepted ∧ schema.toDeclaration = d.sorted := by
  rw [← Declaration.checks_eq_ok, init]
  split
  · rename_i h
    refine ⟨fun hok => ⟨h, by cases hok; rfl⟩, fun hsorted => ?_⟩
    exact congrArg Except.ok (ext_declaration hsorted.2).symm
  · rename_i h
    refine ⟨nofun, fun hok => ?_⟩
    cases h.symm.trans hok.1

-- The canonical text of a declaration.

def fieldTree (spec : Field) : Json.Tree :=
  Backup.object [("kind", Backup.string spec.kind.name), ("required", .bool spec.required),
    ("immutable", .bool spec.immutable)]

def indexTree (index : Index) : Json.Tree :=
  Backup.object [("fields", .arr (index.fields.map Backup.string)), ("unique", .bool index.unique)]

def tree (schema : BlobSchema) : Json.Tree :=
  Backup.object
    [("name", Backup.string schema.name), ("version", Backup.number schema.version),
      ("fields", Backup.object (schema.fields.map fun field => (field.1, fieldTree field.2))),
      ("indexes", .arr (schema.indexes.map indexTree)),
      ("handlers", .arr (schema.handlers.map Backup.string)),
      ("validator_id", (schema.validatorId.map Backup.string).getD .null)]

def definition (schema : BlobSchema) : List Char := Json.dumps (Json.sortKeys schema.tree)

end BlobSchema

namespace Migrations

-- A text that is not the definition of a declaration is only known to be refused.
def malformed : Error := .PythonError "TypeError"

def textOf : Json.Tree → Option String
  | .str s => (s.mapM fun c => if Nat.isValidChar c then some (Char.ofNat c) else none).map String.ofList
  | _ => none

def flagOf : Json.Tree → Option Bool
  | .bool b => some b
  | _ => none

def integerOf : Json.Tree → Option Int
  | .num lexeme =>
      match Json.Number.ofLexeme lexeme with
      | .int i => some i
      | _ => none
  | _ => none

def listOf {α : Type} (item : Json.Tree → Option α) : Json.Tree → Option (List α)
  | .arr items => items.mapM item
  | _ => none

-- The value of a keyword of a call, and its default.
def keyword {α : Type} (members : List (Json.Str × Json.Tree)) (key : String) (value : Json.Tree → Option α)
    (default : Option α) : Option α :=
  match Json.lookup members (Json.ofString key) with
  | some tree => value tree
  | none => default

-- The members of a dict whose keys a call takes.
def keywords (keys : List String) : Json.Tree → Option (List (Json.Str × Json.Tree))
  | .obj members => if ∀ member ∈ members, member.1 ∈ keys.map Json.ofString then some members else none
  | _ => none

def kindOf (tree : Json.Tree) : Option Kind := do
  let name ← textOf tree
  [Kind.text, .int64, .float, .boolean, .timestamp].find? fun kind => kind.name = name

-- Field(**spec)
def fieldOf (tree : Json.Tree) : Option Field := do
  let members ← keywords ["kind", "required", "immutable"] tree
  let kind ← keyword members "kind" kindOf none
  let required ← keyword members "required" flagOf (some false)
  let immutable ← keyword members "immutable" flagOf (some false)
  some ⟨kind, required, immutable⟩

def indexOf (tree : Json.Tree) : Option Index := do
  let members ← (match tree with
    | .obj members => some members
    | _ => none)
  let fields ← keyword members "fields" (listOf textOf) none
  let unique ← keyword members "unique" flagOf none
  some ⟨fields, unique⟩

-- A dict has a key once, with the value of its last member.
def fieldsOf : Json.Tree → Option (List (String × Field))
  | .obj members => (members.map Prod.fst).dedup.mapM fun key => do
      let name ← textOf (.str key)
      let spec ← (Json.lookup members key).bind fieldOf
      some (name, spec)
  | _ => none

def validatorOf : Json.Tree → Option (Option String)
  | .null => some none
  | tree => (textOf tree).map some

def declarationOf (tree : Json.Tree) : Option Declaration := do
  let members ← keywords ["name", "version", "fields", "indexes", "handlers", "validator_id"] tree
  let fields ← keyword members "fields" fieldsOf none
  let indexes ← keyword members "indexes" (listOf indexOf) none
  let validatorId ← keyword members "validator_id" validatorOf none
  let name ← keyword members "name" textOf none
  let version ← keyword members "version" integerOf (some 1)
  let handlers ← keyword members "handlers" (listOf textOf) (some ["file"])
  some { name := name, version := version, fields := fields, indexes := indexes, handlers := handlers,
         validatorId := validatorId }

def decode (definition : List Char) : Except Error BlobSchema := do
  let d ← fromOption ((Json.decode definition).bind declarationOf) malformed
  BlobSchema.init d

-- Reading the canonical text back.

theorem mapM_some {α β : Type} {f : α → Option β} {g : α → β} {items : List α}
    (h : ∀ item ∈ items, f item = some (g item)) :
    items.mapM f = some (items.map g) := by
  induction items with
  | nil => rfl
  | cons item items ih =>
      rw [List.mapM_cons, h item List.mem_cons_self, ih fun other hother =>
        h other (List.mem_cons_of_mem _ hother)]
      rfl

theorem textOf_string (s : String) : textOf (Backup.string s) = some s := by
  have hchars : (Json.ofString s).mapM (fun c => if Nat.isValidChar c then some (Char.ofNat c) else none) =
      some s.toList := by
    rw [Json.ofString, List.mapM_map, mapM_some (g := id), List.map_id]
    intro c _
    simp only [Function.comp_apply, id, Char.ofNat_toNat]
    exact if_pos c.valid
  simp only [textOf, Backup.string, hchars, Option.map_some, String.ofList_toList]

theorem flagOf_bool (b : Bool) : flagOf (.bool b) = some b := rfl

theorem integerOf_number {i : Int} (h : 0 ≤ i) : integerOf (Backup.number i) = some i := by
  obtain ⟨n, rfl⟩ := Int.eq_ofNat_of_zero_le h
  have hlexeme : Json.Number.ofLexeme (Json.intLexeme n) = .int n := Json.ofLexeme_toDigits n
  simp only [integerOf, Backup.number, hlexeme]

theorem listOf_arr {α β : Type} {item : Json.Tree → Option β} {tree : α → Json.Tree}
    {value : α → β} {items : List α}
    (h : ∀ a ∈ items, item (tree a) = some (value a)) :
    listOf item (.arr (items.map tree)) = some (items.map value) := by
  rw [listOf, List.mapM_map]
  exact mapM_some h

-- The members of a sorted object.
def members (given : List (String × Json.Tree)) : List (Json.Str × Json.Tree) :=
  (given.map fun member => (Json.ofString member.1, Json.sortKeys member.2)).insertionSort Json.keyLe

variable {given : List (String × Json.Tree)}

theorem sortKeys_object (given : List (String × Json.Tree)) :
    Json.sortKeys (Backup.object given) = .obj (members given) := by
  rw [Backup.object, Json.sortKeys_obj, List.map_map]
  rfl

theorem perm_members (given : List (String × Json.Tree)) :
    (members given).Perm (given.map fun member => (Json.ofString member.1, Json.sortKeys member.2)) :=
  List.perm_insertionSort _ _

theorem keys_members (given : List (String × Json.Tree)) :
    ((members given).map Prod.fst).Perm ((given.map Prod.fst).map Json.ofString) := by
  have hperm := (perm_members given).map Prod.fst
  rw [List.map_map] at hperm ⊢
  exact hperm

theorem nodup_members (h : (given.map Prod.fst).Nodup) : ((members given).map Prod.fst).Nodup :=
  (keys_members given).nodup_iff.mpr (h.map Json.ofString_injective)

theorem lookup_members (h : (given.map Prod.fst).Nodup) {key : String} {item : Json.Tree}
    (hmem : (key, item) ∈ given) :
    Json.lookup (members given) (Json.ofString key) = some (Json.sortKeys item) :=
  @Json.lookup_of_mem _ (Json.ofString key, Json.sortKeys item) (nodup_members h)
    ((perm_members given).mem_iff.mpr (List.mem_map_of_mem (f := fun member : String × Json.Tree =>
      (Json.ofString member.1, Json.sortKeys member.2)) hmem))

theorem keyword_members {α : Type} (h : (given.map Prod.fst).Nodup) {key : String} {item : Json.Tree}
    (hmem : (key, item) ∈ given) {value : Json.Tree → Option α} {default : Option α} :
    keyword (members given) key value default = value (Json.sortKeys item) := by
  rw [keyword, lookup_members h hmem]

theorem keywords_object {keys : List String} (h : ∀ member ∈ given, member.1 ∈ keys) :
    keywords keys (.obj (members given)) = some (members given) := by
  refine if_pos fun member hmember => ?_
  obtain ⟨old, hold, rfl⟩ := List.mem_map.mp ((perm_members given).mem_iff.mp hmember)
  exact List.mem_map_of_mem (h old hold)

theorem sortKeys_arr {α : Type} (tree : α → Json.Tree) (items : List α) :
    Json.sortKeys (.arr (items.map tree)) = .arr (items.map fun item => Json.sortKeys (tree item)) := by
  rw [Json.sortKeys, Json.sortItems_eq, List.map_map]
  rfl

theorem sortKeys_bool (b : Bool) : Json.sortKeys (.bool b) = .bool b := rfl

theorem kindOf_name (kind : Kind) : kindOf (Backup.string kind.name) = some kind := by
  rw [kindOf, textOf_string]
  cases kind <;> decide

theorem fieldOf_fieldTree (spec : Field) : fieldOf (Json.sortKeys (BlobSchema.fieldTree spec)) = some spec := by
  have hkeys : (([("kind", Backup.string spec.kind.name), ("required", .bool spec.required),
      ("immutable", .bool spec.immutable)] : List (String × Json.Tree)).map Prod.fst).Nodup := by simp
  have hkind : Json.sortKeys (Backup.string spec.kind.name) = Backup.string spec.kind.name := rfl
  rw [BlobSchema.fieldTree, sortKeys_object, fieldOf, keywords_object (by simp)]
  simp only [Option.bind_eq_bind, Option.bind_some]
  rw [keyword_members hkeys List.mem_cons_self, hkind, kindOf_name, Option.bind_some,
    keyword_members hkeys (List.mem_cons_of_mem _ List.mem_cons_self), sortKeys_bool, flagOf_bool,
    Option.bind_some,
    keyword_members hkeys (List.mem_cons_of_mem _ (List.mem_cons_of_mem _ List.mem_cons_self)), sortKeys_bool,
    flagOf_bool, Option.bind_some]

theorem listOf_strings (names : List String) :
    listOf textOf (Json.sortKeys (.arr (names.map Backup.string))) = some names := by
  rw [sortKeys_arr]
  exact (listOf_arr fun name _ => textOf_string name).trans (by rw [List.map_id'])

theorem indexOf_indexTree (index : Index) :
    indexOf (Json.sortKeys (BlobSchema.indexTree index)) = some index := by
  have hkeys : (([("fields", .arr (index.fields.map Backup.string)), ("unique", .bool index.unique)] :
      List (String × Json.Tree)).map Prod.fst).Nodup := by simp
  rw [BlobSchema.indexTree, sortKeys_object, indexOf]
  simp only [Option.bind_eq_bind, Option.bind_some]
  rw [keyword_members hkeys List.mem_cons_self, listOf_strings, Option.bind_some,
    keyword_members hkeys (List.mem_cons_of_mem _ List.mem_cons_self), sortKeys_bool, flagOf_bool,
      Option.bind_some]

-- The fields come back in some order.
theorem fieldsOf_fields {fields : List (String × Field)} (h : (fields.map Prod.fst).Nodup) :
    ∃ found, fieldsOf
      (Json.sortKeys (Backup.object (fields.map fun field => (field.1, BlobSchema.fieldTree field.2)))) =
      some found ∧ found.Perm fields := by
  have hnames : ((fields.map fun field => (field.1, BlobSchema.fieldTree field.2)).map Prod.fst).Nodup := by
    rw [List.map_map]
    exact h
  obtain ⟨found, hperm, hfound⟩ : ∃ found : List (String × Field), found.Perm fields ∧
      (members (fields.map fun field => (field.1, BlobSchema.fieldTree field.2))).map Prod.fst =
        found.map fun field => Json.ofString field.1 := by
    refine ⟨fields.insertionSort fun a b => Json.keyLe (Json.ofString a.1, .null) (Json.ofString b.1, .null),
      List.perm_insertionSort _ _, ?_⟩
    have hsorted := List.map_insertionSort
      (fun a b : String × Field => Json.keyLe (Json.ofString a.1, .null) (Json.ofString b.1, .null)) Json.keyLe
      (fun field => (Json.ofString field.1, Json.sortKeys (BlobSchema.fieldTree field.2))) fields
      fun _ _ _ _ => Iff.rfl
    have hmembers : members (fields.map fun field => (field.1, BlobSchema.fieldTree field.2)) =
        (fields.map fun field =>
          (Json.ofString field.1, Json.sortKeys (BlobSchema.fieldTree field.2))).insertionSort
          Json.keyLe := by
      rw [members, List.map_map]
      rfl
    rw [hmembers, ← hsorted, List.map_map]
    rfl
  refine ⟨found, ?_, hperm⟩
  rw [sortKeys_object, fieldsOf, List.Nodup.dedup (nodup_members hnames), hfound, List.mapM_map]
  refine (mapM_some (g := id) fun field hfield => ?_).trans (by rw [List.map_id])
  have hmem : (field.1, BlobSchema.fieldTree field.2) ∈
      fields.map fun field => (field.1, BlobSchema.fieldTree field.2) :=
    List.mem_map_of_mem (hperm.mem_iff.mp hfield)
  have htext : textOf (.str (Json.ofString field.1)) = some field.1 := textOf_string field.1
  simp only [Function.comp_apply, htext, lookup_members hnames hmem, fieldOf_fieldTree, Option.bind_eq_bind,
    Option.bind_some, id]

theorem validatorOf_validator (validatorId : Option String) :
    validatorOf (Json.sortKeys ((validatorId.map Backup.string).getD .null)) = some validatorId := by
  cases validatorId with
  | none => rfl
  | some id =>
      have hstring : validatorOf (Backup.string id) = (textOf (Backup.string id)).map some := rfl
      exact hstring.trans (by rw [textOf_string]; rfl)

theorem declarationOf_tree (schema : BlobSchema) :
    ∃ fields, declarationOf (Json.sortKeys schema.tree) = some { schema.toDeclaration with fields := fields } ∧
      fields.Perm schema.fields := by
  have hversion : 0 ≤ schema.version := le_trans (by decide) schema.one_le_version
  obtain ⟨fields, hfields, hperm⟩ := fieldsOf_fields schema.names_nodup
  refine ⟨fields, ?_, hperm⟩
  have hname : Json.sortKeys (Backup.string schema.name) = Backup.string schema.name := rfl
  have hnumber : Json.sortKeys (Backup.number schema.version) = Backup.number schema.version := rfl
  have hindexes : listOf indexOf (Json.sortKeys (.arr (schema.indexes.map BlobSchema.indexTree))) =
      some schema.indexes := by
    rw [sortKeys_arr]
    exact (listOf_arr fun index _ => indexOf_indexTree index).trans (by rw [List.map_id'])
  rw [BlobSchema.tree, sortKeys_object, declarationOf, keywords_object (by simp)]
  simp only [Option.bind_eq_bind, Option.bind_some]
  have hkeys : (([("name", Backup.string schema.name), ("version", Backup.number schema.version),
      ("fields", Backup.object (schema.fields.map fun field => (field.1, BlobSchema.fieldTree field.2))),
      ("indexes", .arr (schema.indexes.map BlobSchema.indexTree)),
      ("handlers", .arr (schema.handlers.map Backup.string)),
      ("validator_id", (schema.validatorId.map Backup.string).getD .null)] :
        List (String × Json.Tree)).map Prod.fst).Nodup := by simp
  rw [keyword_members hkeys (List.mem_of_getElem? (i := 2) rfl), hfields, Option.bind_some,
    keyword_members hkeys (List.mem_of_getElem? (i := 3) rfl), hindexes, Option.bind_some,
    keyword_members hkeys (List.mem_of_getElem? (i := 5) rfl), validatorOf_validator, Option.bind_some,
    keyword_members hkeys (List.mem_of_getElem? (i := 0) rfl), hname, textOf_string, Option.bind_some,
    keyword_members hkeys (List.mem_of_getElem? (i := 1) rfl), hnumber, integerOf_number hversion,
    Option.bind_some,
    keyword_members hkeys (List.mem_of_getElem? (i := 4) rfl), listOf_strings, Option.bind_some]

theorem portable_object {given : List (String × Json.Tree)} (hkeys : (given.map Prod.fst).Nodup)
    (h : ∀ member ∈ given, member.2.portable = true) : (Backup.object given).portable = true :=
  Json.portable_obj hkeys h

theorem portable_strings (names : List String) : (Json.Tree.arr (names.map Backup.string)).portable = true := by
  refine Json.portable_arr fun item hitem => ?_
  obtain ⟨name, _, rfl⟩ := List.mem_map.mp hitem
  exact Json.portable_str name

theorem portable_fieldTree (spec : Field) : (BlobSchema.fieldTree spec).portable = true := by
  refine portable_object (by simp) fun member hmember => ?_
  simp only [List.mem_cons, List.not_mem_nil, or_false] at hmember
  rcases hmember with rfl | rfl | rfl
  · exact Json.portable_str _
  · rfl
  · rfl

theorem portable_indexTree (index : Index) : (BlobSchema.indexTree index).portable = true := by
  refine portable_object (by simp) fun member hmember => ?_
  simp only [List.mem_cons, List.not_mem_nil, or_false] at hmember
  rcases hmember with rfl | rfl
  · exact portable_strings _
  · rfl

theorem portable_tree (schema : BlobSchema) : schema.tree.portable = true := by
  refine portable_object (by simp) fun member hmember => ?_
  simp only [List.mem_cons, List.not_mem_nil, or_false] at hmember
  rcases hmember with rfl | rfl | rfl | rfl | rfl | rfl
  · exact Json.portable_str _
  · have hbounds : 1 ≤ schema.version ∧ schema.version < 2 ^ 63 := ⟨schema.valid.2.2.1, schema.valid.2.2.2.1⟩
    obtain ⟨n, hn⟩ := Int.eq_ofNat_of_zero_le (by omega : 0 ≤ schema.version)
    rw [hn]
    exact Json.portable_natural (by omega)
  · refine portable_object ?_ fun member hmember => ?_
    · rw [List.map_map]
      exact schema.names_nodup
    · obtain ⟨field, _, rfl⟩ := List.mem_map.mp hmember
      exact portable_fieldTree field.2
  · refine Json.portable_arr fun item hitem => ?_
    obtain ⟨index, _, rfl⟩ := List.mem_map.mp hitem
    exact portable_indexTree index
  · exact portable_strings _
  · cases schema.validatorId with
    | none => rfl
    | some id => exact Json.portable_str id

theorem decode_definition (schema : BlobSchema) : decode schema.definition = .ok schema := by
  obtain ⟨fields, hfields, hperm⟩ := declarationOf_tree schema
  have hsame : schema.toDeclaration.Same { schema.toDeclaration with fields := fields } :=
    ⟨rfl, rfl, rfl, hperm.symm, .refl _, .refl _⟩
  have haccepted := Declaration.accepted_of_valid schema.valid
  rw [decode, BlobSchema.definition, Json.decode_dumps (Json.Tree.portable_sortKeys (portable_tree schema)),
    Option.bind_some, hfields]
  refine BlobSchema.init_eq_ok.mpr ⟨hsame.accepted haccepted, ?_⟩
  rw [← hsame.sorted_eq haccepted, Declaration.sorted_of_valid schema.valid]

theorem definition_inj {s t : BlobSchema} : s.definition = t.definition ↔ s = t := by
  refine ⟨fun h => ?_, fun h => by rw [h]⟩
  have hdecode := decode_definition s
  rw [h, decode_definition t] at hdecode
  exact (Except.ok.inj hdecode).symm

end Migrations

end MeldStore
