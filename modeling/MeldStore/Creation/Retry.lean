import MeldStore.Backup.Manifest
import MeldStore.Creation
import MeldStore.Library.Json.Untyped

namespace MeldStore

open Library Library.Checked

namespace Store

-- A ready blob that put has created, and a later put under its id with the same schema,
-- metadata and storage. Each handler has returned a value for its descriptor.
structure Repeated (db : Catalog) (storage : String) (call : Creation) (existing : Record) (row : EncodingRow)
    (e : Encoding) (stored wanted : Json.Value) : Prop where
  found : record db call.id false = .ok existing
  ready : existing.state = .ready
  schema : existing.schemaName = call.schema.name ∧ existing.schemaVersion = call.schema.version
  metadata : sameMetadata existing.metadata call.values = true
  storage : existing.storageId = .text storage
  journaled : Encodings.read db existing.token = some row
  stored : ∃ text, Backup.descriptorJson stored.tree = .ok text ∧ row.descriptor = .text (String.ofList text)
  encoding : call.encoding = some e
  wanted : ∃ text, Backup.descriptorJson wanted.tree = .ok text ∧ e.descriptor = String.ofList text

-- The encodings are the same: size and digest of the payload, handler, and the text of
-- the descriptor.
structure Identical (call : Creation) (existing : Record) (row : EncodingRow) (e : Encoding) : Prop where
  byteSize : existing.byteSize = call.byteSize
  digest : existing.digest = .text call.digest
  handlerId : row.encodingId = .text e.encodingId
  handlerVersion : row.encodingVersion = e.encodingVersion
  descriptor : row.descriptor = .text e.descriptor

def Exact (db : Catalog) (storage : String) (call : Creation) (existing : Record)
    (row : EncodingRow) (e : Encoding) : Prop :=
  (∀ r, retry storage call db = .ok (some r) → r = existing ∧ Identical call existing row e) ∧
    (row.descriptor ≠ .text e.descriptor → ∃ message, retry storage call db = .error (.ConflictError message))

-- The descriptors are the same once every bool, and every float with the value of an
-- int, is written as that int.
def SameUntyped (stored wanted : Json.Value) : Prop :=
  Json.untyped (Json.sortKeys stored.tree) = Json.untyped (Json.sortKeys wanted.tree)

theorem loads_descriptorJson {value : Json.Value} {text : List Char}
    (h : Backup.descriptorJson value.tree = .ok text) :
    text = Json.dumps (Json.sortKeys value.tree) ∧
      loadsDescriptor (.text (String.ofList text)) = .ok (Json.sortKeys value.tree) ∧
      (Json.sortKeys value.tree).isPlain = true := by
  obtain ⟨_, hfinite, rfl, _, loaded, hloaded, hequal⟩ := Backup.descriptorJson_eq_ok h
  obtain ⟨rfl, hportable⟩ := Json.decode_of_equal hfinite hloaded hequal
  refine ⟨rfl, ?_, Json.isPlain_of_portable hportable⟩
  simp only [loadsDescriptor, Option.bind_some, String.toList_ofList, Json.loads_dumps_portable hportable]

variable {db : Catalog} {storage : String} {call : Creation} {existing : Record}
  {row : EncodingRow} {e : Encoding}
  {stored wanted : Json.Value}

theorem Repeated.handler (h : Repeated db storage call existing row e stored wanted) :
    existing.handlerId = row.encodingId ∧ existing.handlerVersion = row.encodingVersion ∧
      existing.descriptor = some (Json.sortKeys stored.tree) := by
  obtain ⟨b, o, p, m, _, hshows, _⟩ := record_shows h.found
  obtain ⟨text, htext, hdescriptor⟩ := h.stored
  obtain ⟨hid, hversion, tree, htree, hfound⟩ := hshows.encoded row (hshows.token ▸ h.journaled)
  rw [hdescriptor, (loads_descriptorJson htext).2.1] at htree
  exact ⟨hid, hversion, by rw [hfound, ← Except.ok.inj htree]⟩

-- What is left for _retry to compare.
theorem Repeated.agrees_iff (h : Repeated db storage call existing row e stored wanted) :
    call.agrees storage existing = true ↔ existing.byteSize = call.byteSize ∧
    existing.digest = .text call.digest ∧
      row.encodingId = .text e.encodingId ∧ row.encodingVersion = e.encodingVersion := by
  obtain ⟨hid, hversion, _⟩ := h.handler
  simp only [Creation.agrees, Bool.and_eq_true, decide_eq_true_eq, h.schema.1, h.schema.2,
    h.metadata, h.storage,
    h.ready, h.encoding, hid, hversion, Option.map_some, Option.getD_some, true_and, and_true, and_assoc]

theorem Repeated.sameDescriptor_iff (h : Repeated db storage call existing row e stored wanted) :
    ∃ tree, loadsDescriptor (.text e.descriptor) = .ok tree ∧
      (sameDescriptor existing.descriptor tree = true ↔ SameUntyped stored wanted) := by
  obtain ⟨text, htext, _⟩ := h.stored
  obtain ⟨text', htext', hdescriptor⟩ := h.wanted
  obtain ⟨_, hloads, hplain'⟩ := loads_descriptorJson htext'
  obtain ⟨_, _, hplain⟩ := loads_descriptorJson htext
  refine ⟨_, hdescriptor ▸ hloads, ?_⟩
  rw [h.handler.2.2, sameDescriptor, Json.equal_iff_untyped hplain hplain', Json.sortKeys_sortKeys,
    Json.sortKeys_sortKeys, SameUntyped]

theorem Repeated.retry_eq (hs : db.Settled) (h : Repeated db storage call existing row e stored wanted) :
    (call.agrees storage existing = true ∧ SameUntyped stored wanted ∧
      retry storage call db = .ok (some existing)) ∨
    (¬(call.agrees storage existing = true ∧ SameUntyped stored wanted) ∧
      ∃ message, retry storage call db = .error (.ConflictError message)) := by
  obtain ⟨b, o, p, m, hc, _, _⟩ := record_shows h.found
  obtain ⟨tree, htree, hsame⟩ := h.sameDescriptor_iff
  have hlive : ∀ r ∈ db.retired, r.blobId ≠ call.id :=
    fun gone hgone he => hs.wf.retiredGone gone hgone b hc.blob (hc.blobId.trans he.symm)
  have hpresent : ¬∀ b ∈ db.blobs, b.id ≠ call.id := fun hnone => hnone b hc.blob hc.blobId
  simp only [retry, require, if_pos hlive, if_neg hpresent, h.found, h.encoding, htree, bind, Except.bind]
  by_cases hagrees : call.agrees storage existing = true
  · by_cases huntyped : SameUntyped stored wanted
    · left
      simp only [hagrees, huntyped, if_true, hsame.mpr huntyped, true_and]
      rfl
    · right
      rw [if_pos hagrees]
      simp only [huntyped, and_false, not_false_eq_true, true_and, mt hsame.mp huntyped]
      exact ⟨_, rfl⟩
  · right
    rw [if_neg hagrees]
    exact ⟨fun hboth => hagrees hboth.1, _, rfl⟩

-- A retry matches an identical encoding only, unless the descriptors differ in the
-- types of their numbers alone.
theorem retry_exact_iff (hreach : Reachable db) (h : Repeated db storage call existing row e stored wanted) :
    Exact db storage call existing row e ↔
      (existing.byteSize = call.byteSize → existing.digest = .text call.digest →
        row.encodingId = .text e.encodingId →
        row.encodingVersion = e.encodingVersion → SameUntyped stored wanted →
        row.descriptor = .text e.descriptor) := by
  constructor
  · rintro ⟨hmatched, _⟩ hsize hdigest hid hversion huntyped
    rcases h.retry_eq hreach.settled with ⟨_, _, hretry⟩ | ⟨hdiffers, _⟩
    · exact (hmatched _ hretry).2.descriptor
    · exact absurd ⟨h.agrees_iff.mpr ⟨hsize, hdigest, hid, hversion⟩, huntyped⟩ hdiffers
  · intro hcondition
    rcases h.retry_eq hreach.settled with ⟨hagrees, huntyped, hretry⟩ | ⟨_, message, hretry⟩
    · obtain ⟨hsize, hdigest, hid, hversion⟩ := h.agrees_iff.mp hagrees
      have hdescriptor := hcondition hsize hdigest hid hversion huntyped
      refine ⟨fun r hr => ?_, fun hne => absurd hdescriptor hne⟩
      rw [hretry, Except.ok.injEq, Option.some.injEq] at hr
      exact ⟨hr.symm, hsize, hdigest, hid, hversion, hdescriptor⟩
    · refine ⟨fun r hr => ?_, fun _ => ⟨message, hretry⟩⟩
      rw [hretry] at hr
      cases hr

-- A handler that has written 1 and now writes true.

def gauge : BlobSchema :=
  { name := "gauge", version := 1, fields := [], indexes := [], handlers := ["h"], validatorId := none,
    valid := by decide }

def one : Json.Value where
  tree := Backup.object [("n", Backup.number 1)]
  distinct := by decide
  codePoints := by decide
  numbers := by decide

def flag : Json.Value where
  tree := Backup.object [("n", .bool true)]
  distinct := by decide
  codePoints := by decide
  numbers := by decide

def oneEncoding : Encoding := ⟨"h", 1, "\x7b\"n\":1\x7d"⟩

def flagEncoding : Encoding := ⟨"h", 1, "\x7b\"n\":true\x7d"⟩

def reading : PreparedFile :=
  prepareSnapshot "s" "t1" "0123456789abcdef0123456789abcdef" gauge 3 "0123456789abcdef0123456789abcdef"
    (some oneEncoding)

def gaugeCatalog : Catalog := orElse (transact [.installSchema gauge] Catalog.empty) Catalog.empty

def readingJournal : Catalog := orElse (Store.journal gaugeCatalog gauge reading) gaugeCatalog

def readingCatalog : Catalog :=
  orElse (transact [.finalize "s" reading gauge [] "r1", .publish "s" "r1"] readingJournal) readingJournal

def readingRecord : Record :=
  { id := "r1", schemaName := "gauge", schemaVersion := 1, state := .ready, token := .text "t1",
    storageId := .text "s",
    objectKey := .text "objects/0123456789abcdef0123456789abcdef", byteSize := 3,
    digest := .text "0123456789abcdef0123456789abcdef",
    hashAlgorithm := "xxh3_128", handlerId := .text "h", handlerVersion := 1, version := 1, metadata := [],
    descriptor := some one.tree }

def readingRow : EncodingRow := ⟨.text "t1", .text "h", 1, .text "\x7b\"n\":1\x7d"⟩

def rereading : Creation :=
  ⟨"r1", gauge, [], [], 3, "0123456789abcdef0123456789abcdef", some flagEncoding⟩

theorem rereading_repeated :
    Repeated readingCatalog "s" rereading readingRecord readingRow flagEncoding one flag where
  found := by rfl
  ready := rfl
  schema := ⟨rfl, rfl⟩
  metadata := rfl
  storage := rfl
  journaled := by decide
  stored := ⟨"\x7b\"n\":1\x7d".toList, rfl, rfl⟩
  encoding := rfl
  wanted := ⟨"\x7b\"n\":true\x7d".toList, rfl, rfl⟩

theorem readingCatalog_reachable : Reachable readingCatalog := by
  have hgauge : Commit Catalog.empty gaugeCatalog :=
    .transaction [.installSchema gauge] gaugeCatalog (orElse_of_isOk (by decide) _)
  have hjournal : Commit gaugeCatalog readingJournal :=
    .journaling gauge reading readingJournal (by decide +kernel) (orElse_of_isOk (by decide +kernel) _)
      (by decide +kernel)
  have hreading : Commit readingJournal readingCatalog :=
    .transaction [.finalize "s" reading gauge [] "r1", .publish "s" "r1"] readingCatalog
      (orElse_of_isOk (by decide +kernel) _)
  exact .tail (.tail (.single hgauge) hjournal) hreading

theorem retyped_descriptor_matches :
    Repeated readingCatalog "s" rereading readingRecord readingRow flagEncoding one flag ∧
      ¬Exact readingCatalog "s" rereading readingRecord readingRow flagEncoding := by
  refine ⟨rereading_repeated, fun hexact => ?_⟩
  have hmatched : retry "s" rereading readingCatalog = .ok (some readingRecord) := by
    rcases rereading_repeated.retry_eq readingCatalog_reachable.settled with ⟨_, _, hretry⟩ | ⟨hdiffers, _⟩
    · exact hretry
    · exact absurd ⟨by decide +kernel, rfl⟩ hdiffers
  have hdescriptor := (hexact.1 _ hmatched).2.descriptor
  revert hdescriptor
  decide

theorem rereading_exact_iff : Exact readingCatalog "s" rereading readingRecord readingRow flagEncoding ↔
    (readingRecord.byteSize = rereading.byteSize → readingRecord.digest = .text rereading.digest →
      readingRow.encodingId = .text flagEncoding.encodingId →
        readingRow.encodingVersion = flagEncoding.encodingVersion → SameUntyped one flag →
          readingRow.descriptor = .text flagEncoding.descriptor) :=
  retry_exact_iff readingCatalog_reachable rereading_repeated

end Store

end MeldStore
