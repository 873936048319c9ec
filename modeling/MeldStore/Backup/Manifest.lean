import MeldStore.Backup.Audit

namespace MeldStore

open Library Library.Checked

namespace Backup

-- An entry whose blob a store has created: finalize has checked its id, and its
-- token, size and hash are those of _prepare_snapshot.
structure Created (e : Entry) : Prop where
  id : identifier e.id = .ok e.id
  token : ∃ token, e.token = .text token ∧ hexadecimal token.toList = true
  digest : ∃ digest, e.digest = .text digest ∧ hexadecimal digest.toList = true
  size : 0 ≤ e.byteSize ∧ e.byteSize < 2 ^ 63

-- What an entry of an accepted list looks like.
structure Plain (e : Entry) (storageId : String) : Prop where
  created : Created e
  storage : e.storageId = .text storageId
  key : ∃ key, e.objectKey = .text key ∧ keyPattern (.text key) = true

theorem width_number {n : Nat} (h : n < 2 ^ 63) : Json.width (Json.dumps (number n)) ≤ 19 := by
  show Json.width (Nat.toDigits 10 n) ≤ 19
  rw [Json.width_toDigits]
  exact Json.length_toDigits h

theorem isPlain_of_isHexChar {c : Char} (h : isHexChar c = true) : Json.isPlain c = true := by
  have hrange : 48 ≤ c.toNat ∧ c.toNat ≤ 57 ∨ 97 ≤ c.toNat ∧ c.toNat ≤ 102 := by
    simp only [isHexChar, Bool.or_eq_true, Bool.and_eq_true, decide_eq_true_eq] at h
    exact h
  have hquote : c ≠ '"' := by
    rintro rfl
    revert hrange
    decide
  have hslash : c ≠ '\\' := by
    rintro rfl
    revert hrange
    decide
  simp only [Json.isPlain, Bool.and_eq_true, decide_eq_true_eq, bne_iff_ne]
  exact ⟨⟨⟨by omega, by omega⟩, hquote⟩, hslash⟩

theorem width_hexadecimal {s : String} (h : hexadecimal s.toList = true) :
    Json.width (Json.dumps (string s)) = 34 := by
  simp only [hexadecimal, Bool.and_eq_true, beq_iff_eq, List.all_eq_true] at h
  have hwidth :=
    Json.width_quoted_plain (s := s) (List.all_eq_true.mpr fun c hc => isPlain_of_isHexChar (h.2 c hc))
  rw [← String.length_toList, h.1] at hwidth
  exact hwidth

theorem key_split {s : String} (h : keyPattern (.text s) = true) :
    s.toList = "objects/".toList ++ s.toList.drop 8 ∧ hexadecimal (s.toList.drop 8) = true := by
  simp only [keyPattern, Bool.and_eq_true, List.isPrefixOf_iff_prefix] at h
  obtain ⟨⟨rest, hrest⟩, hhex⟩ := h
  have hdrop : s.toList.drop 8 = rest := by
    rw [← hrest]
    exact List.drop_left' rfl
  exact ⟨by rw [hdrop, hrest], hhex⟩

theorem width_key {s : String} (h : keyPattern (.text s) = true) : Json.width (Json.dumps (string s)) = 42 := by
  obtain ⟨hsplit, hhex⟩ := key_split h
  simp only [hexadecimal, Bool.and_eq_true, beq_iff_eq, List.all_eq_true] at hhex
  have hobjects : "objects/".toList.all Json.isPlain = true := by decide
  have hplain : s.toList.all Json.isPlain = true := by
    rw [hsplit, List.all_append, hobjects, Bool.true_and, List.all_eq_true]
    exact fun c hc => isPlain_of_isHexChar (hhex.2 c hc)
  have hwidth := Json.width_quoted_plain hplain
  rw [← String.length_toList, hsplit, List.length_append, hhex.1] at hwidth
  exact hwidth

-- The braces, and for each member its key, the colon and the comma.
theorem width_object {members : List (String × Json.Tree)} (h : members ≠ []) :
    Json.width (Json.dumps (object members)) =
      1 + (members.map fun member =>
        Json.width (Json.quoted (Json.ofString member.1)) + Json.width (Json.dumps member.2) + 2).sum := by
  have hopen : '{'.utf8Size = 1 := rfl
  have hclose : '}'.utf8Size = 1 := rfl
  obtain ⟨member, members, rfl⟩ := List.exists_cons_of_ne_nil h
  simp only [object, Json.dumps, Json.width_append, Json.width_cons, Json.width_nil, Json.width_dumpsMembers,
    List.map_map, hopen, hclose, List.map_cons, List.sum_cons]
  have hmap : (members.map
    ((fun member => Json.width (Json.quoted member.1) + Json.width (Json.dumps member.2) + 2) ∘
      fun member : String × Json.Tree => (Json.ofString member.1, member.2))).sum =
      (members.map fun member =>
        Json.width (Json.quoted (Json.ofString member.1)) + Json.width (Json.dumps member.2) + 2).sum := rfl
  omega

theorem width_name {names : List String} (h : ∀ name ∈ names, name.toList.all Json.isPlain = true)
    (name : String)
    (hname : name ∈ names) : Json.width (Json.quoted (Json.ofString name)) = name.length + 2 :=
  Json.width_quoted_plain (h name hname)

theorem width_descriptor (d : Descriptor) : Json.width (Json.dumps d.tree) ≤ 77 := by
  have hnames : ∀ name ∈ ["byte_size", "digest"], name.toList.all Json.isPlain = true := by decide
  have hname := width_name hnames
  have hsize := width_number d.bounded
  have hdigest := width_hexadecimal d.hashed
  rw [Descriptor.tree, width_object (by simp)]
  simp only [List.map_cons, List.map_nil, List.sum_cons, List.sum_nil, hname "byte_size" (by simp),
    hname "digest" (by simp), hdigest]
  have hbyteSize : "byte_size".length = 9 := rfl
  have hdigestLength : "digest".length = 6 := rfl
  omega

-- The escapes of an id take at most six bytes for each byte of its own.
theorem width_id {id : String} (h : identifier id = .ok id) : Json.width (Json.dumps (string id)) ≤ 770 := by
  simp only [identifier, bind_eq_ok, require_eq_ok, pure_eq_ok] at h
  obtain ⟨_, _, _, hsize, _⟩ := h
  have hwidth : Json.width (Json.dumps (string id)) ≤ 6 * id.utf8ByteSize + 2 := Json.width_quoted id
  omega

-- Fields

theorem item_sortKeys {members : List (String × Json.Tree)} (hkeys : (members.map Prod.fst).Nodup)
    (name : String) (tree : Json.Tree) (h : (name, tree) ∈ members) :
    item (Json.sortKeys (object members)) name = some (Json.sortKeys tree) := by
  have hperm := (List.perm_insertionSort Json.keyLe
    ((members.map fun member => (Json.ofString member.1, member.2)).map fun member =>
      (member.1, Json.sortKeys member.2))).map Prod.fst
  have hnames : ((members.map fun member => (Json.ofString member.1, member.2)).map fun member =>
      (member.1, Json.sortKeys member.2)).map Prod.fst = (members.map Prod.fst).map Json.ofString := by
    simp [List.map_map, Function.comp_def]
  rw [hnames] at hperm
  rw [object, Json.sortKeys_obj]
  have hmember : (Json.ofString name, Json.sortKeys tree) ∈
      ((members.map fun member => (Json.ofString member.1, member.2)).map fun member =>
        (member.1, Json.sortKeys member.2)).insertionSort Json.keyLe :=
    Json.mem_sortKeys.mpr ⟨(Json.ofString name, tree), List.mem_map_of_mem h, rfl⟩
  exact Json.lookup_of_mem (hperm.nodup_iff.mpr (hkeys.map Json.ofString_injective)) hmember

theorem hasFields_sortKeys (members : List (String × Json.Tree)) :
    hasFields (members.map Prod.fst) (some (Json.sortKeys (object members))) = true := by
  rw [object, Json.sortKeys_obj, hasFields, Bool.and_eq_true, List.all_eq_true, List.all_eq_true]
  constructor
  · intro member hmember
    obtain ⟨_, hpair, rfl⟩ := Json.mem_sortKeys.mp hmember
    obtain ⟨old, hold, rfl⟩ := List.mem_map.mp hpair
    exact List.contains_iff_mem.mpr (List.mem_map_of_mem (List.mem_map_of_mem hold))
  · intro name hname
    obtain ⟨old, hold, rfl⟩ := List.mem_map.mp hname
    refine List.contains_iff_mem.mpr (List.mem_map.mpr ⟨(Json.ofString old.1, Json.sortKeys old.2), ?_, rfl⟩)
    exact Json.mem_sortKeys.mpr ⟨_, List.mem_map_of_mem hold, rfl⟩

theorem chars_ofString (s : String) : (Json.ofString s).map Char.ofNat = s.toList := by
  rw [Json.ofString, List.map_map]
  exact (List.map_congr_left fun c _ => Char.ofNat_toNat c).trans (List.map_id _)

theorem hexText_ofString {s : String} (h : hexadecimal s.toList = true) : hexText (Json.ofString s) = true := by
  rw [hexText, chars_ofString, h, Bool.true_and, Json.ofString, List.all_map, List.all_eq_true]
  intro c hc
  simp only [hexadecimal, Bool.and_eq_true, List.all_eq_true] at h
  have hplain := isPlain_of_isHexChar (h.2 c hc)
  simp only [Json.isPlain, Bool.and_eq_true, decide_eq_true_eq] at hplain
  exact decide_eq_true (by omega)

theorem keyText_ofString {s : String} (h : keyPattern (.text s) = true) : keyText (Json.ofString s) = true := by
  obtain ⟨hsplit, hhex⟩ := key_split h
  have hlist : Json.ofString s = Json.ofString "objects/" ++ Json.ofString
    (String.ofList (s.toList.drop 8)) := by
    rw [Json.ofString, hsplit, List.map_append, Json.ofString, Json.ofString, String.toList_ofList]
    simp
  have hrest := hexText_ofString (s := String.ofList (s.toList.drop 8)) (by rwa [String.toList_ofList])
  have hdrop : (Json.ofString s).drop 8 = Json.ofString (String.ofList (s.toList.drop 8)) := by
    rw [hlist]
    exact List.drop_left' rfl
  rw [keyText, hdrop, hrest, Bool.and_true, List.isPrefixOf_iff_prefix, hlist]
  exact List.prefix_append _ _

theorem isNatural_number (n : Nat) : isNatural (some (number n)) = true := by
  have hlexeme : Json.intLexeme n = Nat.toDigits 10 n := rfl
  rw [number, hlexeme, isNatural, Json.ofLexeme_toDigits]
  exact decide_eq_true (Int.natCast_nonneg n)

theorem Plain.tree {e : Entry} {storageId : String} (h : Plain e storageId)
    (hstorage : hexadecimal storageId.toList = true) :
    ∃ tree, e.tree = .ok tree ∧ tree.portable = true ∧ Json.width (Json.dumps tree) ≤ 1000 ∧
      isObjectDescriptor (Json.sortKeys tree) = true := by
  obtain ⟨⟨hid, ⟨token, htoken, htokenHex⟩, ⟨digest, hdigest, hdigestHex⟩, hlow, hhigh⟩, hroot, key,
    hkey, hpattern⟩ := h
  obtain ⟨size, hsize⟩ := Int.eq_ofNat_of_zero_le hlow
  have hbound : size < 2 ^ 63 := by omega
  obtain ⟨members, hmembers⟩ : ∃ members, members = [("id", string e.id), ("token", string token),
    ("storage_id", string storageId), ("object_key", string key), ("byte_size", number size),
    ("digest", string digest)] := ⟨_, rfl⟩
  have hkeys : (members.map Prod.fst).Nodup := by simp [hmembers]
  have htree : e.tree = .ok (object members) := by
    simp [Entry.tree, htoken, hroot, hkey, hdigest, column, hmembers, hsize, bind, Except.bind,
      pure, Except.pure]
  refine ⟨object members, htree, Json.portable_obj hkeys fun member hmember => ?_, ?_, ?_⟩
  · rw [hmembers] at hmember
    simp only [List.mem_cons, List.not_mem_nil, or_false] at hmember
    rcases hmember with rfl | rfl | rfl | rfl | rfl | rfl
    iterate 4 exact Json.portable_str _
    · exact Json.portable_natural hbound
    · exact Json.portable_str _
  · have hnames : ∀ name ∈ ["id", "token", "storage_id", "object_key", "byte_size", "digest"],
        name.toList.all Json.isPlain = true := by decide
    have hname := width_name hnames
    have hidWidth := width_id hid
    have hsizeWidth := width_number hbound
    have hlengths : "id".length = 2 ∧ "token".length = 5 ∧ "storage_id".length = 10 ∧ "object_key".length = 10 ∧
        "byte_size".length = 9 ∧ "digest".length = 6 := by decide
    rw [width_object (by simp [hmembers]), hmembers]
    simp only [List.map_cons, List.map_nil, List.sum_cons, List.sum_nil, hname "id" (by simp),
      hname "token" (by simp), hname "storage_id" (by simp), hname "object_key" (by simp),
      hname "byte_size" (by simp), hname "digest" (by simp), hlengths, width_hexadecimal htokenHex,
      width_hexadecimal hstorage, width_hexadecimal hdigestHex, width_key hpattern]
    omega
  · have hfields := hasFields_sortKeys members
    have hidItem := item_sortKeys hkeys "id" (string e.id) (by simp [hmembers])
    have htokenItem := item_sortKeys hkeys "token" (string token) (by simp [hmembers])
    have hrootItem := item_sortKeys hkeys "storage_id" (string storageId) (by simp [hmembers])
    have hkeyItem := item_sortKeys hkeys "object_key" (string key) (by simp [hmembers])
    have hsizeItem := item_sortKeys hkeys "byte_size" (number size) (by simp [hmembers])
    have hdigestItem := item_sortKeys hkeys "digest" (string digest) (by simp [hmembers])
    have hnames : members.map Prod.fst =
      ["id", "token", "storage_id", "object_key", "byte_size", "digest"] := by
      simp [hmembers]
    rw [hnames] at hfields
    simp only [isObjectDescriptor, hfields, List.all_cons, List.all_nil, hidItem, htokenItem,
      hrootItem, hkeyItem,
      hsizeItem, hdigestItem, string, Json.sortKeys, isText, keyText_ofString hpattern,
      hexText_ofString hdigestHex, Bool.and_true, Bool.true_and]
    exact isNatural_number size

-- The application

theorem descriptorJson_eq_ok {value : Json.Tree} {text : List Char} (h : descriptorJson value = .ok text) :
    isMapping value = true ∧ value.all (fun _ => true) Json.isFinite = true ∧
      text = Json.dumps (Json.sortKeys value) ∧ Json.width text ≤ 65536 ∧
      ∃ loaded, Json.decode text = some loaded ∧ loaded.equal value = true := by
  simp only [descriptorJson, bind_eq_ok, require_eq_ok, fromOption_eq_ok, pure_eq_ok] at h
  obtain ⟨_, hmapping, _, hfinite, loaded, hloaded, _, ⟨hequal, hwidth⟩, rfl⟩ := h
  exact ⟨hmapping, hfinite, rfl, hwidth, loaded, hloaded, hequal⟩

-- What an accepted application is turned into: accepted again, and then unchanged.
structure Canonical (app : Json.Tree) : Prop where
  portable : app.portable = true
  sorted : Json.sortKeys app = app
  width : Json.width (Json.dumps app) ≤ 65536
  accepted : application app = .ok app

def members (taken : Taken) (objects : List Json.Tree) : List (String × Json.Tree) :=
  [("format", string "meldstore-backup"), ("version", number 1), ("hash_algorithm", string "xxh3_128"),
    ("created_at", string (String.ofList taken.createdAt.isoformat)), ("application", taken.application),
    ("storage_id", string taken.storageId), ("catalog", taken.catalog.tree), ("sql", taken.sql.tree),
    ("identity", taken.identity.tree), ("objects", .arr objects)]

structure Written (taken : Taken) (objects : List Json.Tree) : Prop where
  application : Canonical taken.application
  entries : taken.objects.mapM Entry.tree = .ok objects
  each : ∀ tree ∈ objects, tree.portable = true ∧ Json.width (Json.dumps tree) ≤ 1000 ∧
    isObjectDescriptor (Json.sortKeys tree) = true

theorem names_members (taken : Taken) (objects : List Json.Tree) :
    (members taken objects).map Prod.fst = manifestFields := rfl

theorem keys_members (taken : Taken) (objects : List Json.Tree) :
    ((members taken objects).map Prod.fst).Nodup := by
  rw [names_members]
  decide

theorem Descriptor.portable (d : Descriptor) : d.tree.portable = true := by
  refine Json.portable_obj (by simp) fun member hmember => ?_
  simp only [List.mem_cons, List.not_mem_nil, or_false] at hmember
  rcases hmember with rfl | rfl
  · exact Json.portable_natural d.bounded
  · exact Json.portable_str _

theorem Written.portable {taken : Taken} {objects : List Json.Tree} (h : Written taken objects) :
    (object (members taken objects)).portable = true := by
  refine Json.portable_obj (keys_members taken objects) fun member hmember => ?_
  simp only [members, List.mem_cons, List.not_mem_nil, or_false] at hmember
  rcases hmember with rfl | rfl | rfl | rfl | rfl | rfl | rfl | rfl | rfl | rfl
  · exact Json.portable_str _
  · exact Json.portable_natural (n := 1) (by decide)
  · exact Json.portable_str _
  · exact Json.portable_str _
  · exact h.application.portable
  · exact Json.portable_str _
  · exact taken.catalog.portable
  · exact taken.sql.portable
  · exact taken.identity.portable
  · exact Json.portable_arr fun tree htree => (h.each tree htree).1

theorem width_objects {objects : List Json.Tree} (h : ∀ tree ∈ objects, Json.width (Json.dumps tree) ≤ 1000) :
    Json.width (Json.dumps (.arr objects)) ≤ 2 + 1001 * objects.length := by
  have hopen : '['.utf8Size = 1 := rfl
  have hclose : ']'.utf8Size = 1 := rfl
  have hsum : (objects.map fun tree => Json.width (Json.dumps tree) + 1).sum ≤ 1001 * objects.length := by
    induction objects with
    | nil => exact Nat.le_refl _
    | cons tree objects ih =>
        have htree := h tree List.mem_cons_self
        have hrest := ih fun other hother => h other (List.mem_cons_of_mem _ hother)
        rw [List.map_cons, List.sum_cons, List.length_cons]
        omega
  simp only [Json.dumps, Json.width_append, Json.width_cons, Json.width_nil,
    Json.width_dumpsItems, hopen, hclose]
  omega

theorem width_isoformat (d : DateTime) : Json.width (Json.dumps (string (String.ofList d.isoformat))) = 29 := by
  have hdigit : ∀ n, Json.isPlain (Nat.digitChar (n % 10)) = true := by
    have hall : ∀ m < 10, Json.isPlain (Nat.digitChar m) = true := by decide
    exact fun n => hall _ (Nat.mod_lt n (by decide))
  have hmarks : Json.isPlain '-' = true ∧ Json.isPlain ':' = true ∧ Json.isPlain 'T' = true ∧
      Json.isPlain '.' = true ∧ Json.isPlain 'Z' = true := by decide
  have hplain : (String.ofList d.isoformat).toList.all Json.isPlain = true := by
    rw [String.toList_ofList]
    simp [DateTime.isoformat, DateTime.pad, hdigit, hmarks]
  have hwidth := Json.width_quoted_plain hplain
  rw [← String.length_toList, String.toList_ofList] at hwidth
  exact hwidth

theorem Written.width {taken : Taken} {objects : List Json.Tree} (h : Written taken objects) :
    Json.width (Json.dumps (object (members taken objects))) ≤ 65536 + 449 + 1001 * objects.length := by
  have hnames : ∀ name ∈ manifestFields, name.toList.all Json.isPlain = true := by decide
  have hname := width_name hnames
  have hlengths : "format".length = 6 ∧ "version".length = 7 ∧ "hash_algorithm".length = 14 ∧
      "created_at".length = 10 ∧ "application".length = 11 ∧ "storage_id".length = 10 ∧ "catalog".length = 7 ∧
      "sql".length = 3 ∧ "identity".length = 8 ∧ "objects".length = 7 := by decide
  have hformat : Json.width (Json.dumps (string "meldstore-backup")) = 18 := Json.width_quoted_plain (by decide)
  have hhash : Json.width (Json.dumps (string "xxh3_128")) = 10 := Json.width_quoted_plain (by decide)
  have hone : Json.width (Json.dumps (number 1)) = 1 := rfl
  have happ := h.application.width
  have hcatalog := width_descriptor taken.catalog
  have hsql := width_descriptor taken.sql
  have hidentity := width_descriptor taken.identity
  have hobjects := width_objects fun tree htree => (h.each tree htree).2.1
  have hne : members taken objects ≠ [] := List.cons_ne_nil _ _
  rw [width_object hne, members]
  simp only [List.map_cons, List.map_nil, List.sum_cons, List.sum_nil, hformat, hhash, hone,
    width_isoformat taken.createdAt, width_hexadecimal taken.identified,
    hname "format" (by simp [manifestFields]), hname "version" (by simp [manifestFields]),
    hname "hash_algorithm" (by simp [manifestFields]), hname "created_at" (by simp [manifestFields]),
    hname "application" (by simp [manifestFields]), hname "storage_id" (by simp [manifestFields]),
    hname "catalog" (by simp [manifestFields]), hname "sql" (by simp [manifestFields]),
    hname "identity" (by simp [manifestFields]), hname "objects" (by simp [manifestFields]), hlengths]
  omega

theorem fromUTF8?_toUTF8 (s : String) : String.fromUTF8? s.toUTF8 = some s := by
  rw [String.fromUTF8?, dif_pos (show s.toUTF8.IsValidUTF8 from s.isValidUTF8)]
  rfl

-- What _manifest has accepted.
structure Accepted (file : Option ByteArray) (value : Json.Tree) : Prop where
  unrepeated : ∃ content text tree, file = some content ∧ String.fromUTF8? content = some text ∧
    Json.loads text.toList = some tree ∧ tree.distinct = true
  fields : ∃ members, value = .obj members ∧
    ∀ key, key ∈ members.map Prod.fst ↔ ∃ name ∈ manifestFields, key = Json.ofString name
  keys : ∃ objects, item value "objects" = some (.arr objects) ∧
    ∀ entry ∈ objects, isText keyText (item entry "object_key") = true

end Backup

end MeldStore
