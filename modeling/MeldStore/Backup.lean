import MeldStore.Catalog.Effects
import MeldStore.Library.Json.Decode
import MeldStore.Maintenance
import MeldStore.Migrations

namespace MeldStore

open Library Library.Checked Library.Keyed

def hexDigits : List Char := "0123456789abcdef".toList

def hex (bytes : List UInt8) : String :=
  String.ofList (bytes.flatMap fun b => [hexDigits.getD (b.toNat / 16) '0', hexDigits.getD (b.toNat % 16) '0'])

def tableName (schema : BlobSchema) : String := "ms_data_" ++ hex schema.name.toUTF8.toList

-- installation._verify of one object.
def modified (name : String) : Error :=
  .SchemaConflictError s!"Missing or modified MeldStore SQL object: {name}"

namespace Catalog

-- The CHECKs of integrity_check. Those of the fixed tables are the types of their rows.
def Checked (db : Catalog) : Prop := ∀ m ∈ db.metadata, db.Admits m

-- The references of foreign_key_check, immediate and deferred, table by table.
def References (db : Catalog) : Prop :=
  (∀ s ∈ db.payloadSchemas, db.hasSchema s.1 s.2) ∧
  (∀ b ∈ db.blobs, db.hasSchema b.schemaName b.schemaVersion) ∧
  (∀ p ∈ db.prepared, db.hasSchema p.schemaName p.schemaVersion) ∧
  (∀ o ∈ db.objects, (∃ b ∈ db.blobs, b.id = o.blobId) ∧ ∃ p ∈ db.prepared, p.token = o.token) ∧
  (∀ e ∈ db.encodings, ∃ p ∈ db.prepared, p.token = e.token) ∧
  (∀ r ∈ db.retired, (∃ p ∈ db.prepared, p.token = r.token) ∧ db.hasSchema r.schemaName r.schemaVersion) ∧
  (∀ g ∈ db.gc, ∀ id ∈ g.blobId, ∃ r ∈ db.retired, r.blobId = id) ∧
  (∀ m ∈ db.metadata, db.hasParent m) ∧
  (∀ j ∈ db.migrations, db.hasSchema j.schemaName j.sourceVersion ∧ db.hasSchema j.schemaName j.targetVersion) ∧
  ∀ s ∈ db.steps, (∃ b ∈ db.blobs, b.id = s.blobId) ∧ ∃ j ∈ db.migrations, j.name = s.migrationName

instance (db : Catalog) (m : MetaRow) : Decidable (db.Admits m) := by
  unfold Admits
  infer_instance

instance (db : Catalog) : Decidable db.Checked := by
  unfold Checked
  infer_instance

instance (db : Catalog) : Decidable db.References := by
  unfold References
  infer_instance

end Catalog

namespace Backup

-- [0-9a-f]{32}
def hexadecimal (text : List Char) : Bool := text.length == 32 && text.all isHexChar

-- KEY_PATTERN: objects/[0-9a-f]{32}
def keyPattern : TextCell → Bool
  | .text key => "objects/".toList.isPrefixOf key.toList && hexadecimal (key.toList.drop 8)
  | .blob _ => false

structure Entry where
  id : String
  token : TextCell
  storageId : TextCell
  objectKey : TextCell
  byteSize : Int
  digest : TextCell
deriving DecidableEq, Repr

-- The LEFT JOIN of a blob with its metadata finds one row, of its version.
def consistent (db : Catalog) (b : BlobRow) : Prop :=
  (∃ m ∈ db.tableRows b.schemaName, m.id = .text b.id) ∧
    ∀ m ∈ db.tableRows b.schemaName, m.id = .text b.id → m.schemaVersion = b.schemaVersion

instance (db : Catalog) (b : BlobRow) : Decidable (consistent db b) := by
  unfold consistent
  infer_instance

-- Operations that a backup does not wait for.
def unfinished (db : Catalog) : Prop :=
  (∃ b ∈ db.blobs, b.state ≠ .ready) ∨ (∃ g ∈ db.gc, g.state ≠ .done) ∨
    ∃ p ∈ db.prepared, (∀ o ∈ db.objects, o.token ≠ p.token) ∧
      ∀ g ∈ db.gc, ¬(g.token = some p.token ∧ g.state = .done)

instance (db : Catalog) : Decidable (unfinished db) := by
  unfold unfinished
  infer_instance

def listed (b : BlobRow) (p : PreparedRow) : Entry :=
  { id := b.id, token := p.token, storageId := p.storageId, objectKey := p.objectKey,
    byteSize := p.byteSize, digest := p.digest }

def entry (storageId : String) (row : BlobRow × Option PreparedRow) : Except Error Entry :=
  match row.2 with
  | some p => do
      require (p.storageId = .text storageId ∧ keyPattern p.objectKey)
        (.IntegrityError "Invalid or missing object association")
      pure (listed row.1 p)
  | none => .error (.IntegrityError "Invalid or missing object association")

-- The manifest

def isMapping : Json.Tree → Bool
  | .obj _ => true
  | _ => false

def descriptorJson (value : Json.Tree) : Except Error (List Char) := do
  require (isMapping value) (.ValidationError "Handler descriptor must be a JSON object")
  require (value.all (fun _ => true) Json.isFinite) (.ValidationError "Invalid handler descriptor")
  let text := Json.dumps (Json.sortKeys value)
  let loaded ← fromOption (Json.decode text) (.ValidationError "Invalid handler descriptor")
  require (loaded.equal value ∧ Json.width text ≤ 65536) (.ValidationError "Invalid handler descriptor")
  pure text

def item (value : Json.Tree) (key : String) : Option Json.Tree :=
  match value with
  | .obj members => Json.lookup members (Json.ofString key)
  | _ => none

def isText (accept : Json.Str → Bool) : Option Json.Tree → Bool
  | some (.str s) => accept s
  | _ => false

def application (value : Json.Tree) : Except Error Json.Tree := do
  let text ← descriptorJson value
  let value ← fromOption (Json.decode text) (.PythonError "ValueError")
  require (∀ key ∈ ["id", "schema_revision"], isText (· ≠ []) (item value key))
    (.ValidationError "application requires nonempty id and schema_revision strings")
  pure value

-- What hash_file gives for a file.
structure Descriptor where
  byteSize : Nat
  digest : String
  bounded : byteSize < 2 ^ 63
  hashed : hexadecimal digest.toList = true
deriving DecidableEq

def number (n : Int) : Json.Tree := .num (Json.intLexeme n)

def string (s : String) : Json.Tree := .str (Json.ofString s)

def object (members : List (String × Json.Tree)) : Json.Tree :=
  .obj (members.map fun member => (Json.ofString member.1, member.2))

def Descriptor.tree (d : Descriptor) : Json.Tree :=
  object [("byte_size", number d.byteSize), ("digest", string d.digest)]

-- json.dump has no form for bytes.
def column : TextCell → Except Error Json.Tree
  | .text s => .ok (string s)
  | .blob _ => .error (.PythonError "TypeError")

def Entry.tree (e : Entry) : Except Error Json.Tree := do
  let token ← column e.token
  let storageId ← column e.storageId
  let objectKey ← column e.objectKey
  let digest ← column e.digest
  pure (object [("id", string e.id), ("token", token), ("storage_id", storageId), ("object_key", objectKey),
    ("byte_size", number e.byteSize), ("digest", digest)])

-- What backup has taken when it writes its manifest. The identity of a storage has
-- been checked against [0-9a-f]{32}.
structure Taken where
  createdAt : DateTime
  application : Json.Tree
  storageId : String
  catalog : Descriptor
  sql : Descriptor
  identity : Descriptor
  objects : List Entry
  dated : createdAt.Valid
  identified : hexadecimal storageId.toList = true

def hexText (s : Json.Str) : Bool := hexadecimal (s.map Char.ofNat) && s.all (· < 128)

def keyText (s : Json.Str) : Bool := (Json.ofString "objects/").isPrefixOf s && hexText (s.drop 8)

-- An int, which True is not, of at least zero.
def isNatural : Option Json.Tree → Bool
  | some (.num lexeme) =>
      match Json.Number.ofLexeme lexeme with
      | .int n => 0 ≤ n
      | _ => false
  | _ => false

def hasFields (names : List String) : Option Json.Tree → Bool
  | some (.obj members) =>
      members.all (fun member => (names.map Json.ofString).contains member.1) &&
        names.all fun name => (members.map Prod.fst).contains (Json.ofString name)
  | _ => false

def isObjectDescriptor (value : Json.Tree) : Bool :=
  hasFields ["id", "token", "storage_id", "object_key", "byte_size", "digest"] (some value) &&
    (["id", "token", "storage_id", "object_key", "digest"].all fun key =>
      isText (fun _ => true) (item value key)) &&
    isNatural (item value "byte_size") && isText keyText (item value "object_key") &&
    isText hexText (item value "digest")

def isOne : Option Json.Tree → Bool
  | some (.num lexeme) => Json.Number.ofLexeme lexeme = .int 1
  | _ => false

def manifestFields : List String :=
  ["format", "version", "hash_algorithm", "created_at", "application", "storage_id", "catalog",
    "sql", "identity", "objects"]

end Backup

end MeldStore
