import MeldStore.Definition

namespace MeldStore

open Library Library.Checked

-- The texts of the generated tables, triggers and indexes.

abbrev Ddl := List (String × String)

def doubled (quote : Char) (value : String) : String :=
  String.ofList (value.toList.flatMap fun c => if c = quote then [quote, quote] else [c])

def quoteIdentifier (value : String) : Except Error String := do
  let value ← identifier value
  pure ("\"" ++ doubled '"' value ++ "\"")

def literal (value : String) : String := "'" ++ doubled (Char.ofNat 39) value ++ "'"

def joined (separator : String) (parts : List String) : String := separator.intercalate parts

namespace Installation

def CORE : Ddl :=
  [("ms_format", "CREATE TABLE ms_format (\n" ++
      "        singleton INTEGER NOT NULL PRIMARY KEY CHECK (singleton = 1),\n" ++
      "        version INTEGER NOT NULL CHECK (version = 1)\n" ++
      "    )"),
    ("ms_schemas", "CREATE TABLE ms_schemas (\n" ++
      "        name TEXT NOT NULL,\n" ++
      "        version INTEGER NOT NULL CHECK (version > 0),\n" ++
      "        table_name TEXT NOT NULL,\n" ++
      "        definition TEXT NOT NULL,\n" ++
      "        PRIMARY KEY (name, version)\n" ++
      "    )"),
    ("ms_blobs", "CREATE TABLE ms_blobs (\n" ++
      "        id TEXT NOT NULL PRIMARY KEY CHECK (typeof(id) = 'text' AND length(id) > 0),\n" ++
      "        schema_name TEXT NOT NULL,\n" ++
      "        schema_version INTEGER NOT NULL,\n" ++
      "        state TEXT NOT NULL DEFAULT 'publishing'\n" ++
      "            CHECK (state IN ('publishing', 'ready', 'pending_delete')),\n" ++
      "        UNIQUE (id, schema_name, schema_version),\n" ++
      "        FOREIGN KEY (schema_name, schema_version) REFERENCES ms_schemas(name, version)\n" ++
      "            ON UPDATE RESTRICT ON DELETE RESTRICT\n" ++
      "    )"),
    ("ms_blob_identity", "CREATE TRIGGER ms_blob_identity BEFORE UPDATE ON ms_blobs\n" ++
      "        WHEN NEW.id IS NOT OLD.id OR NEW.schema_name IS NOT OLD.schema_name\n" ++
      "        BEGIN SELECT RAISE(ABORT, 'blob identity is immutable'); END")]

def columnType : Kind → String
  | .text => "TEXT"
  | .timestamp => "TEXT"
  | .int64 => "INTEGER"
  | .float => "REAL"
  | .boolean => "INTEGER"

def columnCheck (column : String) : Kind → String
  | .text => "typeof(" ++ column ++ ") = 'text'"
  | .int64 => "typeof(" ++ column ++ ") = 'integer'"
  | .float => "typeof(" ++ column ++ ") = 'real' AND abs(" ++ column ++ ") <= 1.7976931348623157e308"
  | .boolean => "typeof(" ++ column ++ ") = 'integer' AND " ++ column ++ " IN (0, 1)"
  | .timestamp =>
      "typeof(" ++ column ++ ") = 'text' AND " ++ column ++ " GLOB " ++
        "'[0-9][0-9][0-9][0-9]-[0-9][0-9]-[0-9][0-9]T" ++
        "[0-9][0-9]:[0-9][0-9]:[0-9][0-9].[0-9][0-9][0-9][0-9][0-9][0-9]Z'"

def column (name : String) (spec : Field) : Except Error String := do
  let column ← quoteIdentifier name
  let null := if spec.required then " NOT NULL" else ""
  pure (column ++ " " ++ columnType spec.kind ++ null ++ " CHECK (" ++ column ++ " IS NULL OR (" ++
    columnCheck column spec.kind ++ "))")

def changed (name : String) : Except Error String := do
  let column ← quoteIdentifier name
  pure ("NEW." ++ column ++ " IS NOT OLD." ++ column)

def indexObject (name table separator suffix : String) (index : Index) : Except Error (String × String) := do
  let unique := if index.unique then "UNIQUE " else ""
  let quoted ← quoteIdentifier name
  let columns ← index.fields.mapM quoteIdentifier
  pure (name, "CREATE " ++ unique ++ "INDEX " ++ quoted ++ " ON " ++ table ++ " (" ++
    joined separator columns ++ ")" ++ suffix)

def schemaObjects (schema : BlobSchema) : Except Error Ddl := do
  let name := tableName schema
  let table ← quoteIdentifier name
  let columns ← schema.fields.mapM fun field => column field.1 field.2
  let columns :=
    ["\"id\" TEXT NOT NULL PRIMARY KEY",
      "\"schema_name\" TEXT NOT NULL DEFAULT " ++ literal schema.name ++
        " CHECK (\"schema_name\" = " ++ literal schema.name ++ ")",
      "\"schema_version\" INTEGER NOT NULL DEFAULT 1 CHECK (\"schema_version\" = 1)",
      "\"version\" INTEGER NOT NULL DEFAULT 1 " ++
        "CHECK (typeof(\"version\") = 'integer' AND \"version\" > 0)"] ++ columns ++
    ["FOREIGN KEY (\"id\", \"schema_name\", \"schema_version\") " ++
      "REFERENCES ms_blobs(id, schema_name, schema_version) " ++ "ON UPDATE RESTRICT ON DELETE RESTRICT"]
  let immutable := ["id", "schema_name", "schema_version"] ++
    (schema.fields.filter fun field => field.2.immutable).map Prod.fst
  let predicate ← immutable.mapM changed
  let update ← quoteIdentifier (name ++ "_update")
  let insert ← quoteIdentifier (name ++ "_insert")
  let indexes ← schema.indexes.zipIdx.mapM fun entry =>
    indexObject (name ++ "_i" ++ toString entry.2) table ", " "" entry.1
  pure ([(name, "CREATE TABLE " ++ table ++ " (" ++ joined ", " columns ++ ")"),
    (name ++ "_update", "CREATE TRIGGER " ++ update ++ " BEFORE UPDATE ON " ++ table ++ "\n        WHEN (" ++
      joined " OR " predicate ++ ") OR NEW.version != OLD.version + 1\n" ++
      "        BEGIN SELECT RAISE(ABORT, 'immutable field or invalid concurrency version'); END"),
    (name ++ "_insert", "CREATE TRIGGER " ++ insert ++ " BEFORE INSERT ON " ++ table ++
      "\n        WHEN NEW.version != 1\n" ++
      "        BEGIN SELECT RAISE(ABORT, 'initial concurrency version must be 1'); END")] ++ indexes)

end Installation

namespace PayloadCatalog

def DDL : Ddl :=
  [("ms_payload_format",
      "CREATE TABLE ms_payload_format (version INTEGER NOT NULL PRIMARY KEY CHECK (version=1))"),
    ("ms_payload_schemas", "CREATE TABLE ms_payload_schemas (\n" ++
      "        schema_name TEXT NOT NULL,\n" ++
      "        schema_version INTEGER NOT NULL,\n" ++
      "        PRIMARY KEY (schema_name, schema_version),\n" ++
      "        FOREIGN KEY (schema_name, schema_version) REFERENCES ms_schemas(name, version)\n" ++
      "            ON UPDATE RESTRICT ON DELETE RESTRICT\n" ++
      "    )"),
    ("ms_prepared", "CREATE TABLE ms_prepared (\n" ++
      "        token TEXT NOT NULL PRIMARY KEY,\n" ++
      "        storage_id TEXT NOT NULL,\n" ++
      "        object_key TEXT NOT NULL,\n" ++
      "        byte_size INTEGER NOT NULL CHECK (typeof(byte_size)='integer' AND byte_size>=0),\n" ++
      "        digest TEXT NOT NULL CHECK (length(digest)=32 AND digest NOT GLOB '*[^0-9a-f]*'),\n" ++
      "        hash_algorithm TEXT NOT NULL CHECK (hash_algorithm='xxh3_128'),\n" ++
      "        handler_id TEXT NOT NULL CHECK (handler_id='file'),\n" ++
      "        handler_version INTEGER NOT NULL CHECK (handler_version=1),\n" ++
      "        schema_name TEXT NOT NULL,\n" ++
      "        schema_version INTEGER NOT NULL,\n" ++
      "        UNIQUE (storage_id, object_key),\n" ++
      "        FOREIGN KEY (schema_name, schema_version) REFERENCES ms_schemas(name, version)\n" ++
      "            ON UPDATE RESTRICT ON DELETE RESTRICT\n" ++
      "    )"),
    ("ms_objects", "CREATE TABLE ms_objects (\n" ++
      "        blob_id TEXT NOT NULL PRIMARY KEY REFERENCES ms_blobs(id) ON UPDATE RESTRICT ON " ++
      "DELETE RESTRICT,\n" ++
      "        token TEXT NOT NULL UNIQUE REFERENCES ms_prepared(token) ON UPDATE RESTRICT ON " ++
      "DELETE RESTRICT\n" ++
      "    )"),
    ("ms_prepared_immutable", "CREATE TRIGGER ms_prepared_immutable BEFORE UPDATE ON ms_prepared\n" ++
      "        BEGIN SELECT RAISE(ABORT, 'prepared descriptor is immutable'); END"),
    ("ms_objects_immutable", "CREATE TRIGGER ms_objects_immutable BEFORE UPDATE ON ms_objects\n" ++
      "        BEGIN SELECT RAISE(ABORT, 'object association is immutable'); END"),
    ("ms_insert_publishing", "CREATE TRIGGER ms_insert_publishing BEFORE INSERT ON ms_blobs\n" ++
      "        WHEN NEW.state != 'publishing'\n" ++
      "        BEGIN SELECT RAISE(ABORT, 'new blobs must start publishing'); END")]

def guard (schema : BlobSchema) (evolved : Bool) : Except Error (String × String) := do
  let name := tableName schema ++ "_ready"
  let quoted ← quoteIdentifier name
  let table ← quoteIdentifier (tableName schema)
  let comparison := if evolved then "<=" else "="
  pure (name, "CREATE TRIGGER " ++ quoted ++ " BEFORE UPDATE OF state ON ms_blobs\n" ++
    "        WHEN NEW.schema_name=" ++ literal schema.name ++ " AND NEW.state='ready'\n" ++
    "        AND (NOT EXISTS (SELECT 1 FROM " ++ table ++ " m\n" ++
    "            WHERE m.id=NEW.id AND m.schema_version=NEW.schema_version)\n" ++
    "        OR NOT EXISTS (SELECT 1 FROM ms_objects o JOIN ms_prepared p ON o.token=p.token\n" ++
    "            WHERE o.blob_id=NEW.id AND p.schema_name=NEW.schema_name\n" ++
    "                AND p.schema_version" ++ comparison ++ "NEW.schema_version))\n" ++
    "        BEGIN SELECT RAISE(ABORT, 'blob is not ready for publication'); END")

end PayloadCatalog

namespace Encodings

def DDL : Ddl :=
  [("ms_encoding_format", "CREATE TABLE ms_encoding_format (version INTEGER PRIMARY KEY CHECK(version=1))"),
    ("ms_encodings", "CREATE TABLE ms_encodings (\n" ++
      "        token TEXT NOT NULL PRIMARY KEY REFERENCES ms_prepared(token)\n" ++
      "            ON DELETE RESTRICT DEFERRABLE INITIALLY DEFERRED,\n" ++
      "        encoding_id TEXT NOT NULL CHECK(length(encoding_id)>0 AND encoding_id!='file'),\n" ++
      "        encoding_version INTEGER NOT NULL CHECK(typeof(encoding_version)='integer' AND " ++
      "encoding_version>0),\n" ++
      "        descriptor TEXT NOT NULL CHECK(length(descriptor)<=65536)\n" ++
      "    )"),
    ("ms_encoding_insert", "CREATE TRIGGER ms_encoding_insert BEFORE INSERT ON ms_encodings\n" ++
      "        WHEN EXISTS(SELECT 1 FROM ms_prepared WHERE token=NEW.token)\n" ++
      "        BEGIN SELECT RAISE(ABORT, 'encoding must precede physical journal'); END"),
    ("ms_encoding_update", "CREATE TRIGGER ms_encoding_update BEFORE UPDATE ON ms_encodings\n" ++
      "        BEGIN SELECT RAISE(ABORT, 'encoding is immutable'); END"),
    ("ms_encoding_delete", "CREATE TRIGGER ms_encoding_delete BEFORE DELETE ON ms_encodings\n" ++
      "        BEGIN SELECT RAISE(ABORT, 'encoding is retained for recovery'); END")]

end Encodings

namespace Lifecycle

def DDL : Ddl :=
  [("ms_lifecycle_format",
      "CREATE TABLE ms_lifecycle_format (version INTEGER NOT NULL PRIMARY KEY CHECK(version=1))"),
    ("ms_lifecycle_schemas", "CREATE TABLE ms_lifecycle_schemas (schema_name TEXT NOT NULL PRIMARY KEY)"),
    ("ms_retired", "CREATE TABLE ms_retired (\n" ++
      "        blob_id TEXT NOT NULL PRIMARY KEY, token TEXT NOT NULL UNIQUE REFERENCES " ++
      "ms_prepared(token) ON DELETE RESTRICT,\n" ++
      "        schema_name TEXT NOT NULL, schema_version INTEGER NOT NULL,\n" ++
      "        metadata_version INTEGER NOT NULL CHECK(typeof(metadata_version)='integer' AND " ++
      "metadata_version>0),\n" ++
      "        FOREIGN KEY(schema_name,schema_version) REFERENCES ms_schemas(name,version) ON " ++
      "DELETE RESTRICT)"),
    ("ms_gc", "CREATE TABLE ms_gc (\n" ++
      "        storage_id TEXT NOT NULL, object_key TEXT NOT NULL, token TEXT UNIQUE,\n" ++
      "        blob_id TEXT UNIQUE REFERENCES ms_retired(blob_id) ON DELETE RESTRICT,\n" ++
      "        reason TEXT NOT NULL CHECK(reason IN ('retired','discarded','orphan')),\n" ++
      "        state TEXT NOT NULL DEFAULT 'pending' CHECK(state IN ('pending','done')),\n" ++
      "        last_error TEXT, PRIMARY KEY(storage_id,object_key))"),
    ("ms_state_transition", "CREATE TRIGGER ms_state_transition BEFORE UPDATE OF state ON ms_blobs\n" ++
      "        WHEN NEW.state!=OLD.state AND NOT ((OLD.state='publishing' AND NEW.state='ready')\n" ++
      "        OR (NEW.state='pending_delete' AND EXISTS(SELECT 1 FROM ms_retired WHERE " ++
      "blob_id=OLD.id)))\n" ++
      "        BEGIN SELECT RAISE(ABORT,'invalid lifecycle transition'); END"),
    ("ms_no_resurrection", "CREATE TRIGGER ms_no_resurrection BEFORE INSERT ON ms_blobs\n" ++
      "        WHEN EXISTS(SELECT 1 FROM ms_retired WHERE blob_id=NEW.id)\n" ++
      "        BEGIN SELECT RAISE(ABORT,'retired blob IDs cannot be reused'); END"),
    ("ms_retire_identity", "CREATE TRIGGER ms_retire_identity BEFORE DELETE ON ms_blobs\n" ++
      "        WHEN OLD.state!='pending_delete' OR NOT EXISTS(SELECT 1 FROM ms_retired WHERE " ++
      "blob_id=OLD.id)\n" ++
      "        BEGIN SELECT RAISE(ABORT,'blob retirement requires queued deletion'); END"),
    ("ms_retire_object", "CREATE TRIGGER ms_retire_object BEFORE DELETE ON ms_objects\n" ++
      "        WHEN NOT EXISTS(SELECT 1 FROM ms_retired WHERE blob_id=OLD.blob_id AND token=OLD.token)\n" ++
      "        BEGIN SELECT RAISE(ABORT,'object association requires explicit retirement'); END"),
    ("ms_unrevoked_object", "CREATE TRIGGER ms_unrevoked_object BEFORE INSERT ON ms_objects\n" ++
      "        WHEN EXISTS(SELECT 1 FROM ms_gc WHERE token=NEW.token)\n" ++
      "        BEGIN SELECT RAISE(ABORT,'prepared token is revoked'); END"),
    ("ms_fresh_object_key", "CREATE TRIGGER ms_fresh_object_key BEFORE INSERT ON ms_prepared\n" ++
      "        WHEN EXISTS(SELECT 1 FROM ms_gc WHERE storage_id=NEW.storage_id AND " ++
      "object_key=NEW.object_key)\n" ++
      "        BEGIN SELECT RAISE(ABORT,'object key was queued for cleanup'); END"),
    ("ms_gc_identity", "CREATE TRIGGER ms_gc_identity BEFORE UPDATE ON ms_gc\n" ++
      "        WHEN NEW.storage_id IS NOT OLD.storage_id OR NEW.object_key IS NOT OLD.object_key\n" ++
      "        OR NEW.token IS NOT OLD.token OR NEW.blob_id IS NOT OLD.blob_id OR NEW.reason IS " ++
      "NOT OLD.reason\n" ++
      "        OR (OLD.state='done' AND NEW.state!='done')\n" ++
      "        BEGIN SELECT RAISE(ABORT,'cleanup identity is immutable'); END"),
    ("ms_gc_retain", "CREATE TRIGGER ms_gc_retain BEFORE DELETE ON ms_gc\n" ++
      "        BEGIN SELECT RAISE(ABORT,'cleanup history must be retained'); END"),
    ("ms_retired_update", "CREATE TRIGGER ms_retired_update BEFORE UPDATE ON ms_retired\n" ++
      "        BEGIN SELECT RAISE(ABORT,'retirement identity is immutable'); END"),
    ("ms_retired_delete", "CREATE TRIGGER ms_retired_delete BEFORE DELETE ON ms_retired\n" ++
      "        BEGIN SELECT RAISE(ABORT,'retirement history must be retained'); END")]

def schemaGuard (schema : BlobSchema) : Except Error (String × String) := do
  let name := tableName schema ++ "_retire"
  let quoted ← quoteIdentifier name
  let table ← quoteIdentifier (tableName schema)
  pure (name, "CREATE TRIGGER " ++ quoted ++ " BEFORE DELETE ON " ++ table ++ "\n" ++
    "        WHEN NOT EXISTS(SELECT 1 FROM ms_retired WHERE blob_id=OLD.id)\n" ++
    "        BEGIN SELECT RAISE(ABORT,'metadata deletion requires explicit retirement'); END")

end Lifecycle

namespace Migrations

def DDL : Ddl :=
  [("ms_metadata_layouts", "CREATE TABLE ms_metadata_layouts (schema_name TEXT NOT NULL PRIMARY KEY, " ++
      "layout_version INTEGER NOT NULL CHECK (layout_version=1))"),
    ("ms_migrations", "CREATE TABLE ms_migrations (\n" ++
      "        name TEXT NOT NULL PRIMARY KEY, schema_name TEXT NOT NULL,\n" ++
      "        source_version INTEGER NOT NULL, target_version INTEGER NOT NULL,\n" ++
      "        transform_id TEXT NOT NULL, state TEXT NOT NULL CHECK (state IN ('running','complete')),\n" ++
      "        total_rows INTEGER NOT NULL, migrated_rows INTEGER NOT NULL DEFAULT 0,\n" ++
      "        last_id TEXT, UNIQUE(schema_name,target_version),\n" ++
      "        FOREIGN KEY(schema_name,source_version) REFERENCES ms_schemas(name,version),\n" ++
      "        FOREIGN KEY(schema_name,target_version) REFERENCES ms_schemas(name,version))"),
    ("ms_migrations_active", "CREATE UNIQUE INDEX ms_migrations_active ON ms_migrations(schema_name) " ++
      "WHERE state='running'"),
    ("ms_migration_steps", "CREATE TABLE ms_migration_steps (\n" ++
      "        blob_id TEXT NOT NULL PRIMARY KEY REFERENCES ms_blobs(id),\n" ++
      "        migration_name TEXT NOT NULL REFERENCES ms_migrations(name),\n" ++
      "        expected_version INTEGER NOT NULL)")]

-- The checks of one version: its required fields are there, those of others are not.
def versionCheck (union : List (String × Kind)) (schema : BlobSchema) : Except Error (List String) := do
  let required ← (schema.fields.filter fun field => field.2.required).mapM fun field => do
    let column ← quoteIdentifier field.1
    pure (column ++ " IS NOT NULL")
  let absent ← (union.filter fun column => column.1 ∉ schema.fields.map Prod.fst).mapM fun column => do
    let quoted ← quoteIdentifier column.1
    pure (quoted ++ " IS NULL")
  let checks := required ++ absent
  if checks = [] then pure []
  else pure ["CHECK (schema_version!=" ++ toString schema.version ++ " OR (" ++ joined " AND " checks ++ "))"]

def stepTaken : String :=
  "EXISTS (SELECT 1 FROM ms_migration_steps s JOIN ms_migrations j ON j.name=s.migration_name\n" ++
  "        WHERE s.blob_id=OLD.id AND s.expected_version=OLD.version AND j.state='running'\n" ++
  "        AND j.schema_name=OLD.schema_name AND j.source_version=OLD.schema_version\n" ++
  "        AND j.target_version=NEW.schema_version)"

def layoutObjects (schemas : List BlobSchema) : Except Error Ddl := do
  let latest ← fromOption schemas.getLast? (.PythonError "IndexError")
  let name := tableName latest
  let table ← quoteIdentifier name
  let union ← layout schemas
  let columns ← union.mapM fun column => Installation.column column.1 ⟨column.2, false, false⟩
  let checks ← schemas.mapM (versionCheck union)
  let versions := joined "," (schemas.map fun schema => toString schema.version)
  let columns :=
    ["\"id\" TEXT NOT NULL PRIMARY KEY",
      "\"schema_name\" TEXT NOT NULL DEFAULT " ++ literal latest.name ++
        " CHECK (schema_name=" ++ literal latest.name ++ ")",
      "\"schema_version\" INTEGER NOT NULL CHECK (schema_version IN (" ++ versions ++ "))",
      "\"version\" INTEGER NOT NULL DEFAULT 1 CHECK (typeof(version)='integer' AND version>0)"] ++ columns ++
    checks.flatten ++
    ["FOREIGN KEY(id,schema_name,schema_version) REFERENCES ms_blobs(id,schema_name,schema_version) " ++
      "ON UPDATE NO ACTION ON DELETE RESTRICT DEFERRABLE INITIALLY DEFERRED"]
  let immutable ← (latest.fields.filter fun field => field.2.immutable).mapM fun field =>
      Installation.changed field.1
  let unchanged := joined " OR " (("OLD.schema_version!=" ++ toString latest.version) :: immutable)
  let update ← quoteIdentifier (name ++ "_update")
  let insert ← quoteIdentifier (name ++ "_insert")
  let delete ← quoteIdentifier (name ++ "_delete")
  let indexes ← schemas.mapM fun schema => schema.indexes.zipIdx.mapM fun entry =>
    Installation.indexObject (name ++ "_v" ++ toString schema.version ++ "_i" ++ toString entry.2) table ","
      (" WHERE schema_version=" ++ toString schema.version) entry.1
  pure ([(name, "CREATE TABLE " ++ table ++ " (" ++ joined ", " columns ++ ")"),
    (name ++ "_update", "CREATE TRIGGER " ++ update ++ " BEFORE UPDATE ON " ++ table ++ "\n" ++
      "        WHEN NEW.id IS NOT OLD.id OR NEW.schema_name IS NOT OLD.schema_name\n" ++
      "        OR NEW.version != OLD.version+1\n" ++
      "        OR (NEW.schema_version=OLD.schema_version AND (" ++ unchanged ++ "))\n" ++
      "        OR (NEW.schema_version!=OLD.schema_version AND NOT (" ++ stepTaken ++ "))\n" ++
      "        BEGIN SELECT RAISE(ABORT, 'invalid metadata edit or migration'); END"),
    (name ++ "_insert", "CREATE TRIGGER " ++ insert ++ " BEFORE INSERT ON " ++ table ++ "\n" ++
      "        WHEN NEW.version!=1 OR NEW.schema_version!=" ++ toString latest.version ++ "\n" ++
      "        BEGIN SELECT RAISE(ABORT, 'insert requires latest schema and initial version'); END"),
    (name ++ "_delete", "CREATE TRIGGER " ++ delete ++ " BEFORE DELETE ON " ++ table ++ "\n" ++
      "        WHEN OLD.schema_version!=" ++ toString latest.version ++ "\n" ++
      "        BEGIN SELECT RAISE(ABORT, 'old metadata is frozen for migration'); END")] ++ indexes.flatten)

end Migrations

namespace Store

-- The objects of install_query_indexes.
def queryIndexes : Ddl :=
  [("ms_gc_pending", "CREATE INDEX ms_gc_pending ON ms_gc(storage_id,object_key) WHERE state='pending'")]

end Store

end MeldStore
