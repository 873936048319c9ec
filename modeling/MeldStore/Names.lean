import Mathlib.Data.List.Flatten
import Mathlib.Data.List.GetD
import MeldStore.Ddl
import MeldStore.Library.Codes
import MeldStore.Library.Utf8

namespace MeldStore

open Library Library.Checked Library.Codes

-- The names of the generated objects.

theorem hexDigit_inj : ∀ a < 16, ∀ b < 16, hexDigits.getD a '0' = hexDigits.getD b '0' → a = b := by decide

theorem hexByte_injective : Function.Injective fun b : UInt8 =>
    [hexDigits.getD (b.toNat / 16) '0', hexDigits.getD (b.toNat % 16) '0'] := by
  intro a b h
  obtain ⟨hhigh, htail⟩ := List.cons.inj h
  obtain ⟨hlow, _⟩ := List.cons.inj htail
  have ha := a.toNat_lt
  have hb := b.toNat_lt
  have hdiv := hexDigit_inj _ (by omega) _ (by omega) hhigh
  have hmod := hexDigit_inj _ (by omega) _ (by omega) hlow
  exact UInt8.toNat_inj.mp (by omega)

theorem hex_injective : Function.Injective hex := by
  intro a b h
  have hwidth (c : UInt8) : [hexDigits.getD (c.toNat / 16) '0', hexDigits.getD (c.toNat % 16) '0'].length =
    1 + 1 := rfl
  exact flatMap_injective hwidth hexByte_injective (String.ofList_injective h)

theorem mem_hex {bytes : List UInt8} {c : Char} (h : c ∈ (hex bytes).toList) : c ∈ hexDigits := by
  have hdigit (n : ℕ) : hexDigits.getD n '0' ∈ hexDigits := by
    by_cases hn : n < hexDigits.length
    · rw [List.getD_eq_getElem _ _ hn]
      exact List.getElem_mem hn
    · rw [List.getD_eq_default _ _ (Nat.le_of_not_lt hn)]
      decide
  rw [hex, String.toList_ofList, List.mem_flatMap] at h
  obtain ⟨b, _, hc⟩ := h
  rcases List.mem_cons.mp hc with rfl | hc
  · exact hdigit _
  · exact List.mem_singleton.mp hc ▸ hdigit _

-- The characters of generated names, besides the digits.
def letters : List Char := "-_abcdefilmnprstuvy".toList

-- What an object is to its schema.
inductive Role
  | table
  | update
  | insert
  | delete
  | index (number : ℕ)
  | versionIndex (version : ℤ) (number : ℕ)
  | ready
  | retire
deriving DecidableEq, Repr

namespace Role

def suffix : Role → String
  | table => ""
  | update => "_update"
  | insert => "_insert"
  | delete => "_delete"
  | index number => "_i" ++ toString number
  | versionIndex version number => "_v" ++ toString version ++ "_i" ++ toString number
  | ready => "_ready"
  | retire => "_retire"

theorem suffix_delimits (role : Role) : Delimits '_' role.suffix.toList := by
  cases role with
  | table => exact .inl rfl
  | update => exact .inr ⟨_, rfl⟩
  | insert => exact .inr ⟨_, rfl⟩
  | delete => exact .inr ⟨_, rfl⟩
  | index number =>
      refine .inr ⟨'i' :: (toString number).toList, ?_⟩
      simp [suffix]
  | versionIndex version number =>
      refine .inr ⟨'v' :: ((toString version).toList ++ "_i".toList ++ (toString number).toList), ?_⟩
      simp [suffix]
  | ready => exact .inr ⟨_, rfl⟩
  | retire => exact .inr ⟨_, rfl⟩

theorem mem_suffix {role : Role} {c : Char} (h : c ∈ role.suffix.toList) : c.isDigit = true ∨ c ∈ letters := by
  have hword (word : String) (hall : ∀ c ∈ word.toList, c ∈ letters) (hc : c ∈ word.toList) :
      c.isDigit = true ∨ c ∈ letters := .inr (hall c hc)
  cases role with
  | table => exact hword "" (by decide) h
  | update => exact hword "_update" (by decide) h
  | insert => exact hword "_insert" (by decide) h
  | delete => exact hword "_delete" (by decide) h
  | ready => exact hword "_ready" (by decide) h
  | retire => exact hword "_retire" (by decide) h
  | index number =>
      rw [suffix, String.toList_append] at h
      rcases List.mem_append.mp h with hmark | hdigit
      · exact hword "_i" (by decide) hmark
      · exact .inl (isDigit_of_mem_toString hdigit)
  | versionIndex version number =>
      simp only [suffix, String.toList_append, List.mem_append] at h
      rcases h with ((hmark | hversion) | hmark) | hdigit
      · exact hword "_v" (by decide) hmark
      · rcases mem_toString_int hversion with hdigit | rfl
        · exact .inl hdigit
        · exact .inr (by decide)
      · exact hword "_i" (by decide) hmark
      · exact .inl (isDigit_of_mem_toString hdigit)

-- The first letters of a suffix say what it marks.
def mark : List Char → ℕ
  | [] => 0
  | '_' :: 'u' :: _ => 1
  | '_' :: 'i' :: 'n' :: _ => 2
  | '_' :: 'd' :: _ => 3
  | '_' :: 'i' :: _ => 4
  | '_' :: 'v' :: _ => 5
  | '_' :: 'r' :: 'e' :: 'a' :: _ => 6
  | _ => 7

def number : Role → ℕ
  | table => 0
  | update => 1
  | insert => 2
  | delete => 3
  | index _ => 4
  | versionIndex _ _ => 5
  | ready => 6
  | retire => 7

theorem mark_suffix (role : Role) : mark role.suffix.toList = role.number := by
  cases role with
  | table => rfl
  | update => rfl
  | insert => rfl
  | delete => rfl
  | ready => rfl
  | retire => rfl
  | index number =>
      rw [suffix, String.toList_append]
      show mark ('_' :: 'i' :: (toString number).toList) = 4
      cases hdigits : (toString number).toList with
      | nil => rfl
      | cons digit digits =>
          have hdigit : digit.isDigit = true := isDigit_of_mem_toString (hdigits ▸ List.mem_cons_self)
          have hne : digit ≠ 'n' := fun hn => absurd (hn ▸ hdigit) (by decide)
          simp [mark, hne]
  | versionIndex version number =>
      rw [suffix, String.toList_append, String.toList_append, String.toList_append]
      rfl

theorem suffix_injective : Function.Injective suffix := by
  intro a b h
  have hnumber : a.number = b.number := by rw [← mark_suffix, ← mark_suffix, h]
  have hlist := congrArg String.toList h
  cases a with
  | index m =>
      cases b with
      | index n =>
          rw [suffix, suffix, String.toList_append, String.toList_append] at hlist
          exact congrArg index (toString_nat_injective (String.toList_inj.mp (List.append_cancel_left hlist)))
      | _ => cases hnumber
  | versionIndex v m =>
      cases b with
      | versionIndex w n =>
          simp only [suffix, String.toList_append, List.append_assoc] at hlist
          have hrest := List.append_cancel_left hlist
          have hclean (i : ℤ) : '_' ∉ (toString i).toList := fun hmem => by
            rcases mem_toString_int hmem with hdigit | hsign
            · exact absurd hdigit (by decide)
            · exact absurd hsign (by decide)
          obtain ⟨hversion, htail⟩ := delimited_inj (hclean v) (hclean w) (.inr ⟨_, rfl⟩) (.inr ⟨_, rfl⟩) hrest
          have hnumbers : "_i".toList ++ (toString m).toList = "_i".toList ++ (toString n).toList := htail
          have hindex := toString_nat_injective (String.toList_inj.mp (List.append_cancel_left hnumbers))
          rw [toString_int_injective (String.toList_inj.mp hversion), hindex]
      | _ => cases hnumber
  | _ => cases b <;> first | rfl | cases hnumber

end Role

def objectName (schema : BlobSchema) (role : Role) : String := tableName schema ++ role.suffix

theorem asciiLower_eq_self {name : String} (h : ∀ c ∈ name.toList, ¬('A' ≤ c ∧ c ≤ 'Z')) :
    asciiLower name = name := by
  rw [asciiLower, List.map_congr_left fun c hc => if_neg (h c hc), List.map_id', String.ofList_toList]

theorem mem_objectName {schema : BlobSchema} {role : Role} {c : Char}
    (h : c ∈ (objectName schema role).toList) :
    c.isDigit = true ∨ c ∈ letters := by
  simp only [objectName, tableName, String.toList_append, List.mem_append] at h
  rcases h with (hstart | hdigit) | hsuffix
  · exact .inr ((by decide : ∀ c ∈ "ms_data_".toList, c ∈ letters) c hstart)
  · exact (by decide : ∀ c ∈ hexDigits, c.isDigit = true ∨ c ∈ letters) c (mem_hex hdigit)
  · exact Role.mem_suffix hsuffix

theorem isDigit_le {c : Char} (h : c.isDigit = true) : c ≤ '9' := by
  simp only [Char.isDigit, Bool.and_eq_true, decide_eq_true_eq] at h
  exact h.2

theorem asciiLower_objectName (schema : BlobSchema) (role : Role) :
    asciiLower (objectName schema role) = objectName schema role := by
  refine asciiLower_eq_self fun c hc hupper => ?_
  rcases mem_objectName hc with hdigit | hletter
  · exact absurd (le_trans hupper.1 (isDigit_le hdigit)) (by decide)
  · exact (by decide : ∀ c ∈ letters, ¬('A' ≤ c ∧ c ≤ 'Z')) c hletter hupper

theorem objectName_data (schema : BlobSchema) (role : Role) :
    "ms_data_".toList <+: (asciiLower (objectName schema role)).toList := by
  rw [asciiLower_objectName, objectName, tableName, String.toList_append, String.toList_append,
    List.append_assoc]
  exact List.prefix_append _ _

theorem objectName_inj {s t : BlobSchema} {a b : Role} (h : objectName s a = objectName t b) :
    s.name = t.name ∧ a = b := by
  have hlist := congrArg String.toList h
  simp only [objectName, tableName, String.toList_append, List.append_assoc] at hlist
  have hclean (schema : BlobSchema) : '_' ∉ (hex schema.name.toUTF8.toList).toList :=
    fun hmem => absurd (mem_hex hmem) (by decide)
  obtain ⟨hname, hsuffix⟩ := delimited_inj (hclean s) (hclean t) a.suffix_delimits b.suffix_delimits
    (List.append_cancel_left hlist)
  exact ⟨Utf8.toUTF8_injective (hex_injective (String.toList_inj.mp hname)),
    Role.suffix_injective (String.toList_inj.mp hsuffix)⟩

-- The names in the generated texts

def numbered (role : ℕ → Role) (schema : BlobSchema) : List Role := (List.range schema.indexes.length).map role

def schemaRoles (schema : BlobSchema) : List Role :=
  [.table, .update, .insert] ++ numbered .index schema

def layoutRoles (schemas : List BlobSchema) : List Role :=
  [.table, .update, .insert, .delete] ++ schemas.flatMap fun schema =>
    numbered (.versionIndex schema.version) schema

theorem indexObject_name {name table separator suffix : String} {index : Index} {entry : String × String}
    (h : Installation.indexObject name table separator suffix index = .ok entry) : entry.1 = name := by
  simp only [Installation.indexObject, bind_eq_ok, pure_eq_ok] at h
  obtain ⟨_, _, _, _, rfl⟩ := h
  rfl

theorem indexObjects_names (name : ℕ → String) {indexes : List Index} {table separator suffix : String}
    {ddl : Ddl}
    (h : (indexes.zipIdx.mapM fun entry => Installation.indexObject (name entry.2) table separator
      suffix entry.1) = .ok ddl) : ddl.map Prod.fst = (List.range indexes.length).map name := by
  rw [mapM_observed (fun entry : Index × ℕ => name entry.2) Prod.fst h fun _ _ _ => indexObject_name,
    List.range_eq_range', ← List.zipIdx_map_snd 0 indexes, List.map_map]
  rfl

theorem numbered_names (schema latest : BlobSchema) (role : ℕ → Role) :
    (numbered role schema).map (objectName latest) =
      (List.range schema.indexes.length).map fun number => objectName latest (role number) := by
  rw [numbered, List.map_map]
  rfl

theorem objectName_table (schema : BlobSchema) : objectName schema .table = tableName schema :=
    String.append_empty

theorem objectName_index (schema : BlobSchema) (number : ℕ) :
    objectName schema (.index number) = tableName schema ++ "_i" ++ toString number := String.append_assoc.symm

theorem objectName_versionIndex (schema : BlobSchema) (version : ℤ) (number : ℕ) :
    objectName schema (.versionIndex version number) =
      tableName schema ++ "_v" ++ toString version ++ "_i" ++ toString number := by
  simp only [objectName, Role.suffix, String.append_assoc]

theorem schemaObjects_names {schema : BlobSchema} {ddl : Ddl}
    (h : Installation.schemaObjects schema = .ok ddl) :
    ddl.map Prod.fst = (schemaRoles schema).map (objectName schema) := by
  simp only [Installation.schemaObjects, bind_eq_ok, pure_eq_ok] at h
  obtain ⟨_, _, _, _, _, _, _, _, _, _, indexes, hindexes, rfl⟩ := h
  have hnames := indexObjects_names (fun number => tableName schema ++ "_i" ++ toString number) hindexes
  rw [List.map_append, hnames, schemaRoles, List.map_append, numbered_names]
  simp only [objectName_index, List.map_cons, List.map_nil, objectName_table]
  rfl

theorem layoutObjects_names {schemas : List BlobSchema} {latest : BlobSchema} {ddl : Ddl}
    (hlatest : schemas.getLast? = some latest) (h : Migrations.layoutObjects schemas = .ok ddl) :
    ddl.map Prod.fst = (layoutRoles schemas).map (objectName latest) := by
  simp only [Migrations.layoutObjects, bind_eq_ok, pure_eq_ok, fromOption_eq_ok] at h
  obtain ⟨last, hlast, _, _, _, _, _, _, _, _, _, _, _, _, _, _, _, _, indexes, hindexes, rfl⟩ := h
  obtain rfl : last = latest := Option.some.inj (hlast.symm.trans hlatest)
  have hnames := mapM_observed (fun schema : BlobSchema => (List.range schema.indexes.length).map fun number =>
    tableName last ++ "_v" ++ toString schema.version ++ "_i" ++ toString number) (List.map Prod.fst) hindexes
    fun schema _ entries hentries => indexObjects_names _ hentries
  have hindexNames : indexes.flatten.map Prod.fst =
      (schemas.flatMap fun schema => numbered (.versionIndex schema.version) schema).map (objectName last) := by
    rw [List.map_flatten, hnames, List.map_flatMap]
    simp only [numbered_names, objectName_versionIndex, List.flatMap_def]
  rw [List.map_append, hindexNames, layoutRoles, List.map_append]
  simp only [List.map_cons, List.map_nil, objectName_table]
  rfl

-- The fixed objects: those that every catalog has, and those of the first migration.
def fixedObjects : Ddl := Installation.CORE ++ PayloadCatalog.DDL ++ Encodings.DDL ++ Lifecycle.DDL

def fixedNames : List String := (fixedObjects ++ Migrations.DDL).map Prod.fst

theorem fixedNames_nodup : (fixedNames.map asciiLower).Nodup := by decide +kernel

theorem fixedName_not_data {name : String} (h : name ∈ fixedNames) :
    ¬"ms_data_".toList <+: (asciiLower name).toList :=
  (by decide +kernel : ∀ name ∈ fixedNames, ¬"ms_data_".toList <+: (asciiLower name).toList) name h

theorem objectName_ne_fixed (schema : BlobSchema) (role : Role) {name : String} (h : name ∈ fixedNames) :
    asciiLower (objectName schema role) ≠ asciiLower name :=
  fun hsame => fixedName_not_data h (hsame ▸ objectName_data schema role)

-- The versions of one schema.
structure Versions (schemas : List BlobSchema) : Prop where
  named : ∀ s ∈ schemas, ∀ t ∈ schemas, s.name = t.name
  distinct : (schemas.map fun s => s.version).Nodup

-- Every object that any of the versions may have.
def roles (schemas : List BlobSchema) : List Role :=
  [.table, .update, .insert, .delete] ++
    (List.range ((schemas.map fun s => s.indexes.length).foldr max 0)).map Role.index ++
    (schemas.flatMap fun schema => numbered (.versionIndex schema.version) schema) ++ [.ready, .retire]

def generatedNames (schemas : List BlobSchema) : List String :=
  (schemas.getLast?.map fun latest => (roles schemas).map (objectName latest)).getD []

theorem versionRoles_nodup {schemas : List BlobSchema} (h : (schemas.map fun s => s.version).Nodup) :
    (schemas.flatMap fun schema => numbered (.versionIndex schema.version) schema).Nodup := by
  refine List.nodup_flatMap.mpr ⟨fun schema _ => ?_, ?_⟩
  · exact List.nodup_range.map fun m n h => (Role.versionIndex.inj h).2
  · refine (List.pairwise_map.mp h).imp fun {s t} hne => ?_
    intro role hs ht
    obtain ⟨m, _, rfl⟩ := List.mem_map.mp hs
    obtain ⟨n, _, hrole⟩ := List.mem_map.mp ht
    exact hne (Role.versionIndex.inj hrole).1.symm

theorem mem_versionRoles {schemas : List BlobSchema} {role : Role}
    (h : role ∈ schemas.flatMap fun schema => numbered (.versionIndex schema.version) schema) :
    role.number = 5 := by
  obtain ⟨schema, _, hrole⟩ := List.mem_flatMap.mp h
  obtain ⟨n, _, rfl⟩ := List.mem_map.mp hrole
  rfl

theorem roles_nodup {schemas : List BlobSchema} (h : (schemas.map fun s => s.version).Nodup) :
    (roles schemas).Nodup := by
  have hindex {bound : ℕ} {role : Role}
    (hrole : role ∈ (List.range bound).map Role.index) : role.number = 4 := by
    obtain ⟨n, _, rfl⟩ := List.mem_map.mp hrole
    rfl
  have hfirst : ∀ role ∈ [Role.table, .update, .insert, .delete], role.number < 4 := by decide
  have hlast : ∀ role ∈ [Role.ready, .retire], 5 < role.number := by decide
  rw [roles, List.nodup_append, List.nodup_append, List.nodup_append]
  refine ⟨⟨⟨by decide, List.nodup_range.map fun _ _ h => Role.index.inj h, ?_⟩, versionRoles_nodup h,
    ?_⟩, by decide, ?_⟩
  · rintro role hrole _ hother rfl
    have := hfirst role hrole
    have := hindex hother
    omega
  · rintro role hrole _ hother rfl
    have hversion := mem_versionRoles hother
    rcases List.mem_append.mp hrole with hrole | hrole
    · have := hfirst role hrole
      omega
    · have := hindex hrole
      omega
  · rintro role hrole _ hother rfl
    have hready := hlast role hother
    rcases List.mem_append.mp hrole with hrole | hrole
    · rcases List.mem_append.mp hrole with hrole | hrole
      · have := hfirst role hrole
        omega
      · have := hindex hrole
        omega
    · have := mem_versionRoles hrole
      omega

theorem length_le_most {schemas : List BlobSchema} {schema : BlobSchema} (h : schema ∈ schemas) :
    schema.indexes.length ≤ (schemas.map fun s => s.indexes.length).foldr max 0 := by
  induction schemas with
  | nil => cases h
  | cons s schemas ih =>
      rw [List.map_cons, List.foldr_cons]
      rcases List.mem_cons.mp h with rfl | h
      · exact le_max_left _ _
      · exact (ih h).trans (le_max_right _ _)

theorem schemaRoles_sublist {schemas : List BlobSchema} {schema : BlobSchema} (h : schema ∈ schemas) :
    (schemaRoles schema).Sublist (roles schemas) := by
  have hindexes : (numbered .index schema).Sublist _ :=
    (List.range_sublist.mpr (length_le_most h)).map Role.index
  have hfirst : [Role.table, .update, .insert].Sublist [Role.table, .update, .insert, .delete] := by decide
  rw [roles, List.append_assoc]
  exact (hfirst.append hindexes).trans (List.sublist_append_left _ _)

theorem layoutRoles_sublist {earlier schemas : List BlobSchema} (h : earlier.Sublist schemas) :
    (layoutRoles earlier).Sublist (roles schemas) := by
  have hversions := h.flatMap fun schema => numbered (.versionIndex schema.version) schema
  refine List.Sublist.trans ?_ (List.sublist_append_left _ _)
  exact (List.sublist_append_left _ _).append hversions

variable {schemas : List BlobSchema}

theorem generatedNames_eq (h : Versions schemas) {schema : BlobSchema} (hmem : schema ∈ schemas) :
    generatedNames schemas = (roles schemas).map (objectName schema) := by
  cases hlast : schemas.getLast? with
  | none => exact absurd (List.getLast?_eq_none_iff.mp hlast ▸ hmem) List.not_mem_nil
  | some latest =>
      have hname : objectName latest = objectName schema := by
        funext role
        rw [objectName, objectName, tableName, tableName,
          h.named latest (List.mem_of_getLast? hlast) schema hmem]
      rw [generatedNames, hlast, Option.map_some, Option.getD_some, hname]

-- The names that the four sources of objects give to one schema.
structure NamedIn (schemas : List BlobSchema) : Prop where
  schemaObjects : ∀ s ∈ schemas, ∀ ddl, Installation.schemaObjects s = .ok ddl →
    (ddl.map Prod.fst).Sublist (generatedNames schemas)
  layout : ∀ earlier, earlier.Sublist schemas → ∀ ddl, Migrations.layoutObjects earlier = .ok ddl →
    (ddl.map Prod.fst).Sublist (generatedNames schemas)
  guard : ∀ s ∈ schemas, ∀ evolved entry, PayloadCatalog.guard s evolved = .ok entry →
    entry.1 ∈ generatedNames schemas
  schemaGuard : ∀ s ∈ schemas, ∀ entry, Lifecycle.schemaGuard s = .ok entry → entry.1 ∈ generatedNames schemas

theorem namedIn (h : Versions schemas) : NamedIn schemas := by
  refine ⟨fun s hs ddl hddl => ?_, fun earlier hearlier ddl hddl => ?_, fun s hs evolved entry hentry => ?_,
    fun s hs entry hentry => ?_⟩
  · rw [schemaObjects_names hddl, generatedNames_eq h hs]
    exact (schemaRoles_sublist hs).map _
  · obtain ⟨latest, hlatest⟩ : ∃ latest, earlier.getLast? = some latest := by
      simp only [Migrations.layoutObjects, bind_eq_ok, fromOption_eq_ok] at hddl
      obtain ⟨latest, hlatest, _⟩ := hddl
      exact ⟨latest, hlatest⟩
    rw [layoutObjects_names hlatest hddl, generatedNames_eq h (hearlier.subset (List.mem_of_getLast? hlatest))]
    exact (layoutRoles_sublist hearlier).map _
  · simp only [PayloadCatalog.guard, bind_eq_ok, pure_eq_ok] at hentry
    obtain ⟨_, _, _, _, rfl⟩ := hentry
    rw [generatedNames_eq h hs]
    exact List.mem_map_of_mem (List.mem_append_right _ (List.mem_cons_self))
  · simp only [Lifecycle.schemaGuard, bind_eq_ok, pure_eq_ok] at hentry
    obtain ⟨_, _, _, _, rfl⟩ := hentry
    rw [generatedNames_eq h hs]
    exact List.mem_map_of_mem (List.mem_append_right _ (List.mem_cons_of_mem _ List.mem_cons_self))

theorem mem_generatedNames {name : String} (h : name ∈ generatedNames schemas) :
    ∃ schema ∈ schemas, ∃ role, name = objectName schema role := by
  cases hlast : schemas.getLast? with
  | none => simp [generatedNames, hlast] at h
  | some latest =>
      rw [generatedNames, hlast] at h
      obtain ⟨role, _, rfl⟩ := List.mem_map.mp h
      exact ⟨latest, List.mem_of_getLast? hlast, role, rfl⟩

theorem generatedNames_nodup (h : Versions schemas) : ((generatedNames schemas).map asciiLower).Nodup := by
  cases hlast : schemas.getLast? with
  | none => simp [generatedNames, hlast]
  | some latest =>
      rw [generatedNames_eq h (List.mem_of_getLast? hlast), List.map_map]
      refine (roles_nodup h.distinct).map fun a b hsame => ?_
      simp only [Function.comp_apply, asciiLower_objectName] at hsame
      exact (objectName_inj hsame).2

theorem generated_names_never_collide (chains : List (List BlobSchema))
    (hversions : ∀ schemas ∈ chains, Versions schemas)
    (hnames : chains.Pairwise fun a b => ∀ s ∈ a, ∀ t ∈ b, s.name ≠ t.name) :
    ((chains.flatMap generatedNames ++ fixedNames).map asciiLower).Nodup ∧
      ∀ schemas ∈ chains, NamedIn schemas := by
  refine ⟨?_, fun schemas hschemas => namedIn (hversions schemas hschemas)⟩
  rw [List.map_append, List.map_flatMap, List.nodup_append]
  refine ⟨List.nodup_flatMap.mpr ⟨fun schemas hschemas => generatedNames_nodup
    (hversions schemas hschemas), ?_⟩, fixedNames_nodup, ?_⟩
  · refine hnames.imp fun {a b} hne name ha hb => ?_
    obtain ⟨_, hfirst, rfl⟩ := List.mem_map.mp ha
    obtain ⟨_, hsecond, hsame⟩ := List.mem_map.mp hb
    obtain ⟨s, hs, role, rfl⟩ := mem_generatedNames hfirst
    obtain ⟨t, ht, other, rfl⟩ := mem_generatedNames hsecond
    rw [asciiLower_objectName, asciiLower_objectName] at hsame
    exact hne s hs t ht (objectName_inj hsame).1.symm
  · rintro _ hgenerated _ hfixed rfl
    obtain ⟨schemas, _, hmem⟩ := List.mem_flatMap.mp hgenerated
    obtain ⟨_, hname, hlower⟩ := List.mem_map.mp hmem
    obtain ⟨schema, _, role, rfl⟩ := mem_generatedNames hname
    obtain ⟨name, hname, hsame⟩ := List.mem_map.mp hfixed
    exact objectName_ne_fixed schema role hname (hlower.trans hsame.symm)

-- Two versions of one schema beside a schema with a longer name.

def scanned1 : BlobSchema :=
  { name := "scan", version := 1, fields := [("page", ⟨.int64, true, false⟩)], indexes := [⟨["page"], true⟩],
    handlers := ["file"], validatorId := none, valid := by decide }

def scanned2 : BlobSchema :=
  { name := "scan", version := 2, fields := [("page", ⟨.int64, true, false⟩), ("title", ⟨.text, false, false⟩)],
    indexes := [⟨["page"], true⟩, ⟨["title"], false⟩], handlers := ["file"], validatorId := none,
      valid := by decide }

def scanner : BlobSchema :=
  { name := "scan_i0", version := 1, fields := [], indexes := [], handlers := ["file"], validatorId := none,
    valid := by decide }

theorem scans_do_not_collide :
    (([[scanned1, scanned2], [scanner]].flatMap generatedNames ++ fixedNames).map asciiLower).Nodup ∧
      ∀ schemas ∈ [[scanned1, scanned2], [scanner]], NamedIn schemas := by
  have hpair : Versions [scanned1, scanned2] := ⟨by decide, by decide⟩
  have hsingle : Versions [scanner] := ⟨by decide, by decide⟩
  exact generated_names_never_collide _
    (List.forall_mem_cons.mpr ⟨hpair, List.forall_mem_singleton.mpr hsingle⟩)
    (by decide)

end MeldStore
