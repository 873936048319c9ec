import MeldStore.Backup
import MeldStore.Deletion
import MeldStore.Identity
import MeldStore.Library.Hashing

namespace MeldStore

open Library Library.Checked Library.Hashing

-- Payload bytes between a storage and the local files of a call.

def CHUNK_SIZE : ℕ := 1024 * 1024

variable (xxh3 : Hasher)

def hashFile (file : Bytes) : ℕ × String := hashChunks xxh3 (reads CHUNK_SIZE file.length file)

-- What obstore.get gives for a key: no object, another failure, or the reported size,
-- the chunks of its stream, and whether the stream ends without a failure.
inductive Got
  | missing
  | failed
  | found (size : ℕ) (chunks : List Bytes) (complete : Bool)
deriving DecidableEq

namespace LocalStorage

-- The local variables of the loop of materialize, with the temporary file.
structure Reading where
  file : Bytes
  actual : xxh3.State
  size : Int

def opened : Reading xxh3 := { file := [], actual := xxh3.fresh, size := 0 }

variable {xxh3}

def readChunk (byteSize : Int) (reading : Reading xxh3) (chunk : Bytes) : Except Error (Reading xxh3) := do
  let size := reading.size + chunk.length
  require (size ≤ byteSize) (.IntegrityError "Stored data exceeds catalog size")
  pure { file := reading.file ++ chunk, actual := xxh3.update reading.actual chunk, size := size }

variable (xxh3)

-- The content of the path it yields.
def materialize (backing : TextCell → Got) (key : TextCell) (byteSize : Int) (digest : TextCell) :
    Except Error Bytes := do
  require (Backup.keyPattern key) (.ValidationError "Invalid MeldStore object key")
  match backing key with
  | .missing => .error (.IntegrityError "Catalog references a missing object")
  | .failed => .error (.StorageError "Could not read the stored object")
  | .found size chunks complete => do
      require ((size : Int) = byteSize) (.IntegrityError "Stored size differs from catalog")
      let reading ← chunks.foldlM (readChunk byteSize) (opened xxh3)
      require complete (.StorageError "Could not read the stored object")
      require (reading.size = byteSize ∧ .text (xxh3.hexdigest reading.actual) = digest)
        (.IntegrityError "Stored bytes fail XXH3-128 verification")
      pure reading.file

end LocalStorage

-- A registered codec.
structure Handler (α : Type) where
  id : String
  version : Int
  read : Bytes → Option Json.Tree → Except Error α

namespace Store

-- `storage` is the identity of the configured storage.
def materialize (storage : String) (backing : TextCell → Got) (id : String) (db : Catalog) :
    Except Error Bytes := do
  let found ← stat db id
  require (found.storageId = .text storage)
    (.ValidationError "Configured local storage identity does not match this blob")
  LocalStorage.materialize xxh3 backing found.objectKey found.byteSize found.digest

-- What get hands to codec.read. materialize reads the record again, from the catalog
-- of a later transaction.
def decoding {α : Type} (handlers : List (Handler α)) (storage : String) (backing : TextCell → Got)
    (id : String) (db later : Catalog) : Except Error (Handler α × Bytes × Option Json.Tree) := do
  let found ← stat db id
  require (found.handlerId ≠ .text "file") (.PythonError "UnsupportedHandlerError")
  let codec ← fromOption (handlers.find? fun h => .text h.id = found.handlerId && h.version =
    found.handlerVersion)
    (.PythonError "UnsupportedHandlerError")
  let path ← materialize xxh3 storage backing id later
  pure (codec, path, found.descriptor)

def get {α : Type} (handlers : List (Handler α)) (storage : String) (backing : TextCell → Got) (id : String)
    (db later : Catalog) : Except Error α := do
  let (codec, path, descriptor) ← decoding xxh3 handlers storage backing id db later
  codec.read path descriptor

-- The staged copy that export_file links to its destination; `copy` is what copyfileobj
-- leaves of the verified file.
def staging (storage : String) (backing : TextCell → Got) (copy : Bytes → Except Error Bytes) (id : String)
    (db later : Catalog) : Except Error Bytes := do
  let found ← stat db id
  let verified ← materialize xxh3 storage backing id later
  let staged ← copy verified
  let (size, digest) := hashFile xxh3 staged
  require ((size : Int) = found.byteSize ∧ .text digest = found.digest)
    (.IntegrityError "Exported copy fails size/XXH3-128 verification")
  pure staged

-- The token of _prepare_snapshot for the bytes of a staged file.
def prepareFile (storage token key : String) (schema : BlobSchema) (staged : Bytes)
    (encoding : Option Encoding) : PreparedFile :=
  prepareSnapshot storage token key schema (hashFile xxh3 staged).1 (hashFile xxh3 staged).2 encoding

end Store

variable {xxh3}

theorem hashFile_eq (xxh3 : Hasher) (file : Bytes) : hashFile xxh3 file = (file.length, xxh3.hash file) := by
  rw [hashFile, hashChunks_eq, flatten_reads (by decide) _ _ (le_refl _)]

namespace LocalStorage

def Reading.after (reading : Reading xxh3) (chunks : List Bytes) : Reading xxh3 :=
  { file := reading.file ++ chunks.flatten, actual := chunks.foldl xxh3.update reading.actual,
    size := reading.size + chunks.flatten.length }

theorem foldlM_readChunk {byteSize : Int} (chunks : List Bytes) (reading : Reading xxh3)
    (hsize : reading.size ≤ byteSize) : chunks.foldlM (readChunk byteSize) reading =
      if reading.size + chunks.flatten.length ≤ byteSize then .ok (reading.after chunks)
      else .error (.IntegrityError "Stored data exceeds catalog size") := by
  induction chunks generalizing reading with
  | nil => simp [hsize, Reading.after, pure, Except.pure]
  | cons chunk chunks ih =>
      rw [List.foldlM_cons, readChunk]
      by_cases hfits : reading.size + chunk.length ≤ byteSize
      · simp only [require, if_pos hfits, bind, Except.bind, pure, Except.pure]
        rw [ih _ hfits]
        simp only [Reading.after, List.flatten_cons, List.length_append, List.foldl_cons, List.append_assoc,
          Int.natCast_add, Int.add_assoc]
      · have hexceeds : ¬reading.size + (chunk :: chunks).flatten.length ≤ byteSize := by
          rw [List.flatten_cons, List.length_append]
          omega
        simp only [require, if_neg hfits, if_neg hexceeds, bind, Except.bind]

-- How a call with a valid key ends, by what the backing store gives.
theorem materialize_eq (backing : TextCell → Got) {key : TextCell} (hkey : Backup.keyPattern key = true)
    (byteSize : Int) (digest : TextCell) : materialize xxh3 backing key byteSize digest =
      match backing key with
      | .missing => .error (.IntegrityError "Catalog references a missing object")
      | .failed => .error (.StorageError "Could not read the stored object")
      | .found size chunks complete =>
          if (size : Int) ≠ byteSize then .error (.IntegrityError "Stored size differs from catalog")
          else if size < chunks.flatten.length then .error (.IntegrityError "Stored data exceeds catalog size")
          else if complete = false then .error (.StorageError "Could not read the stored object")
          else if chunks.flatten.length = size ∧ .text (xxh3.hash chunks.flatten) = digest then
            .ok chunks.flatten
          else .error (.IntegrityError "Stored bytes fail XXH3-128 verification") := by
  simp only [materialize, require_true hkey, except_ok_bind]
  cases backing key with
  | missing => rfl
  | failed => rfl
  | found size chunks complete =>
      by_cases hsize : (size : Int) = byteSize
      · subst hsize
        have hopened : (opened xxh3).size ≤ (size : Int) := Int.natCast_nonneg size
        have hstart : (opened xxh3).size + (chunks.flatten.length : Int) = chunks.flatten.length :=
          Int.zero_add _
        simp only [require_true, except_ok_bind, foldlM_readChunk chunks _ hopened, hstart, Int.ofNat_le, ne_eq,
          not_true_eq_false, if_false]
        by_cases hfits : chunks.flatten.length ≤ size
        · have hafter : (opened xxh3).after chunks =
              { file := chunks.flatten, actual := chunks.foldl xxh3.update xxh3.fresh,
                size := chunks.flatten.length } := by
            simp [Reading.after, opened]
          have hstreamed : xxh3.hexdigest (chunks.foldl xxh3.update xxh3.fresh) = xxh3.hash chunks.flatten :=
            xxh3.streams chunks
          rw [if_pos hfits, if_neg (by omega), hafter, except_ok_bind, hstreamed]
          cases complete with
          | false => rfl
          | true =>
              simp only [require_true, except_ok_bind, Bool.true_eq_false, if_false, Int.natCast_inj]
              by_cases hverified : chunks.flatten.length = size ∧ .text (xxh3.hash chunks.flatten) = digest
              · rw [if_pos hverified, require_true hverified]
                rfl
              · rw [if_neg hverified]
                exact congrArg (· >>= fun _ => pure chunks.flatten) (if_neg hverified)
        · rw [if_neg hfits, if_pos (by omega)]
          rfl
      · simp only [require, ne_eq, hsize, not_false_eq_true, if_true]
        rfl

-- The file after any chunks that the loop has written.
theorem foldlM_readChunk_written {byteSize : Int} {chunks : List Bytes} {reading : Reading xxh3}
    (hbyteSize : 0 ≤ byteSize) (h : chunks.foldlM (readChunk byteSize) (opened xxh3) = .ok reading) :
    reading.file = chunks.flatten ∧ (reading.file.length : Int) ≤ byteSize := by
  rw [foldlM_readChunk chunks _ hbyteSize] at h
  by_cases hfits : (opened xxh3).size + (chunks.flatten.length : Int) ≤ byteSize
  · rw [if_pos hfits] at h
    cases h
    exact ⟨rfl, by simpa [Reading.after, opened] using hfits⟩
  · rw [if_neg hfits] at h
    cases h

end LocalStorage

namespace Got

-- What the catalog's size and digest say of an object.
def Verified (xxh3 : Hasher) (digest : TextCell) (got : Got) (byteSize : Int) (file : Bytes) : Prop :=
  ∃ chunks, got = .found file.length chunks true ∧ file = chunks.flatten ∧ (file.length : Int) = byteSize ∧
    .text (xxh3.hash file) = digest

inductive Mismatched (xxh3 : Hasher) (byteSize : Int) (digest : TextCell) : Got → Prop
  | missing : Mismatched xxh3 byteSize digest .missing
  | size {size : ℕ} {chunks : List Bytes} {complete : Bool} (h : (size : Int) ≠ byteSize) :
      Mismatched xxh3 byteSize digest (.found size chunks complete)
  | exceeds {size : ℕ} {chunks : List Bytes} {complete : Bool} (h : byteSize < chunks.flatten.length) :
      Mismatched xxh3 byteSize digest (.found size chunks complete)
  | ends {size : ℕ} {chunks : List Bytes}
      (h : (chunks.flatten.length : Int) ≠ byteSize ∨ .text (xxh3.hash chunks.flatten) ≠ digest) :
      Mismatched xxh3 byteSize digest (.found size chunks true)

inductive Unread : Got → Prop
  | failed : Unread .failed
  | stopped {size : ℕ} {chunks : List Bytes} : Unread (.found size chunks false)

end Got

namespace LocalStorage

structure Verifies (xxh3 : Hasher) (backing : TextCell → Got) (key : TextCell) (byteSize : Int)
    (digest : TextCell) : Prop where
  yields : ∀ file, materialize xxh3 backing key byteSize digest = .ok file ↔
    Backup.keyPattern key = true ∧ (backing key).Verified xxh3 digest byteSize file
  mismatched : Backup.keyPattern key = true →
    ((∃ message, materialize xxh3 backing key byteSize digest = .error (.IntegrityError message)) ↔
      (backing key).Mismatched xxh3 byteSize digest)
  unread : Backup.keyPattern key = true →
    ((∃ message, materialize xxh3 backing key byteSize digest = .error (.StorageError message)) ↔
      (backing key).Unread ∧ ¬(backing key).Mismatched xxh3 byteSize digest)
  bounded : ∀ size chunks complete, backing key = .found size chunks complete → (size : Int) = byteSize →
    ∀ written reading, written <+: chunks → written.foldlM (readChunk byteSize) (opened xxh3) = .ok reading →
      reading.file = written.flatten ∧ (reading.file.length : Int) ≤ byteSize
  chunked : ∀ other size chunks chunks' complete, backing key = .found size chunks complete →
    other key = .found size chunks' complete → chunks.flatten = chunks'.flatten →
      materialize xxh3 backing key byteSize digest = materialize xxh3 other key byteSize digest

section

variable {backing : TextCell → Got} {key : TextCell} {byteSize : Int} {digest : TextCell}

-- An object the catalog does not describe ends in an IntegrityError.
theorem materialize_mismatched (hkey : Backup.keyPattern key = true)
    (h : (backing key).Mismatched xxh3 byteSize digest) :
    ∃ message, materialize xxh3 backing key byteSize digest = .error (.IntegrityError message) := by
  rw [materialize_eq backing hkey]
  generalize backing key = got at h
  cases h with
  | missing => exact ⟨_, rfl⟩
  | size hsize => exact ⟨_, if_pos hsize⟩
  | exceeds hexceeds =>
      rename_i size chunks complete
      by_cases hsize : (size : Int) = byteSize
      · have hfits : size < chunks.flatten.length := by omega
        exact ⟨_, (if_neg (not_not.mpr hsize)).trans (if_pos hfits)⟩
      · exact ⟨_, if_pos hsize⟩
  | ends hends =>
      rename_i size chunks
      by_cases hsize : (size : Int) = byteSize
      · by_cases hfits : size < chunks.flatten.length
        · exact ⟨_, (if_neg (not_not.mpr hsize)).trans (if_pos hfits)⟩
        · have hdiffers : ¬(chunks.flatten.length = size ∧ .text (xxh3.hash chunks.flatten) = digest) := by
            rintro ⟨hlength, hdigest⟩
            rcases hends with hlong | hbytes
            · exact hlong (by omega)
            · exact hbytes hdigest
          simp only [hsize, hfits, hdiffers, ne_eq, not_true_eq_false, Bool.true_eq_false, if_false]
          exact ⟨_, rfl⟩
      · exact ⟨_, if_pos hsize⟩

-- The others are read to the end and yielded, or fail to be read.
theorem materialize_described (hkey : Backup.keyPattern key = true)
    (h : ¬(backing key).Mismatched xxh3 byteSize digest) :
    (∃ file, (backing key).Verified xxh3 digest byteSize file ∧ ¬(backing key).Unread ∧
      materialize xxh3 backing key byteSize digest = .ok file) ∨
    (backing key).Unread ∧
      materialize xxh3 backing key byteSize digest =
      .error (.StorageError "Could not read the stored object") := by
  rw [materialize_eq backing hkey]
  generalize backing key = got at h
  cases got with
  | missing => exact absurd .missing h
  | failed => exact .inr ⟨.failed, rfl⟩
  | found size chunks complete =>
      have hsize : (size : Int) = byteSize := by
        by_contra hne
        exact h (.size hne)
      have hfits : ¬size < chunks.flatten.length := fun hlong => h (.exceeds (by omega))
      simp only [hsize, hfits, ne_eq, not_true_eq_false, if_false]
      cases complete with
      | false => exact .inr ⟨.stopped, rfl⟩
      | true =>
          have hlength : chunks.flatten.length = size := by
            by_contra hne
            exact h (.ends (.inl (by omega)))
          have hdigest : .text (xxh3.hash chunks.flatten) = digest := by
            by_contra hne
            exact h (.ends (.inr hne))
          subst hsize
          simp only [Bool.true_eq_false, if_false]
          exact .inl ⟨chunks.flatten, ⟨chunks, by rw [hlength], rfl, by rw [hlength], hdigest⟩, nofun,
            if_pos ⟨hlength, hdigest⟩⟩

theorem not_mismatched_of_verified {got : Got} {file : Bytes} (h : got.Verified xxh3 digest byteSize file) :
    ¬got.Mismatched xxh3 byteSize digest := by
  obtain ⟨chunks, rfl, rfl, rfl, hdigest⟩ := h
  intro hmismatched
  cases hmismatched with
  | size hsize => exact hsize rfl
  | exceeds hexceeds => exact absurd hexceeds (lt_irrefl _)
  | ends hends => exact hends.elim (fun hlong => hlong rfl) fun hbytes => hbytes hdigest

theorem eq_of_verified {got : Got} {file other : Bytes} (h : got.Verified xxh3 digest byteSize file)
    (h' : got.Verified xxh3 digest byteSize other) : file = other := by
  obtain ⟨chunks, hgot, hfile, _⟩ := h
  obtain ⟨chunks', hgot', hother, _⟩ := h'
  rw [hgot, Got.found.injEq] at hgot'
  rw [hfile, hother, hgot'.2.1]

theorem verifies (xxh3 : Hasher) (backing : TextCell → Got) (key : TextCell) (byteSize : Int)
    (digest : TextCell) :
    Verifies xxh3 backing key byteSize digest := by
  refine ⟨fun file => ⟨fun h => ?_, ?_⟩, fun hkey => ⟨?_, materialize_mismatched hkey⟩, fun hkey => ⟨?_, ?_⟩,
    fun size chunks complete _ hsize written reading _ h => ?_,
    fun other size chunks chunks' complete hgot hother hflat => ?_⟩
  · have hkey : Backup.keyPattern key = true := by
      simp only [materialize, bind_eq_ok, require_eq_ok] at h
      obtain ⟨_, hkey, _⟩ := h
      exact hkey
    refine ⟨hkey, ?_⟩
    by_cases hmismatched : (backing key).Mismatched xxh3 byteSize digest
    · obtain ⟨_, herror⟩ := materialize_mismatched hkey hmismatched
      cases h.symm.trans herror
    · rcases materialize_described hkey hmismatched with ⟨_, hverified, _, hok⟩ | ⟨_, herror⟩
      · cases h.symm.trans hok
        exact hverified
      · cases h.symm.trans herror
  · rintro ⟨hkey, hverified⟩
    rcases materialize_described hkey (not_mismatched_of_verified hverified) with
      ⟨_, hread, _, hok⟩ | ⟨hunread, _⟩
    · rw [hok, eq_of_verified hverified hread]
    · obtain ⟨chunks, hgot, _⟩ := hverified
      rw [hgot] at hunread
      cases hunread
  · rintro ⟨message, h⟩
    by_contra hdescribed
    rcases materialize_described hkey hdescribed with ⟨_, _, _, hok⟩ | ⟨_, herror⟩
    · cases h.symm.trans hok
    · exact absurd (h.symm.trans herror) (by simp)
  · rintro ⟨message, h⟩
    by_cases hmismatched : (backing key).Mismatched xxh3 byteSize digest
    · obtain ⟨_, herror⟩ := materialize_mismatched hkey hmismatched
      exact absurd (h.symm.trans herror) (by simp)
    · rcases materialize_described hkey hmismatched with ⟨_, _, _, hok⟩ | ⟨hunread, _⟩
      · cases h.symm.trans hok
      · exact ⟨hunread, hmismatched⟩
  · rintro ⟨hunread, hdescribed⟩
    rcases materialize_described hkey hdescribed with ⟨_, _, hread, _⟩ | ⟨_, herror⟩
    · exact absurd hunread hread
    · exact ⟨_, herror⟩
  · exact foldlM_readChunk_written (hsize ▸ Int.natCast_nonneg size) h
  · by_cases hkey : Backup.keyPattern key = true
    · rw [materialize_eq backing hkey, materialize_eq other hkey, hgot, hother]
      simp only [hflat]
    · simp only [materialize, require, if_neg hkey]
      rfl

end

end LocalStorage

namespace Store

-- What the journal keeps of the bytes of a blob's staged file.
structure Recorded (xxh3 : Hasher) (db : Catalog) (id : String) (file : Bytes)
    (prepared : PreparedFile) : Prop where
  prepares : db.Prepares prepared
  reports : ∀ found, stat db id = .ok found → found.Reports prepared
  recorded : hashFile xxh3 file = (file.length, prepared.digest) ∧ (file.length : Int) = prepared.byteSize
  staged : ∀ storage token key schema staged encoding,
    prepared = prepareFile xxh3 storage token key schema staged encoding →
      hashFile xxh3 file = hashFile xxh3 staged

variable {db later : Catalog} {id : String}

theorem recorded_of_digest {file : Bytes} {prepared : PreparedFile} (hprepares : db.Prepares prepared)
    (hreports : ∀ found, stat db id = .ok found → found.Reports prepared)
    (hsize : (file.length : Int) = prepared.byteSize) (hdigest : xxh3.hash file = prepared.digest) :
    Recorded xxh3 db id file prepared := by
  refine ⟨hprepares, hreports, ⟨?_, hsize⟩, ?_⟩
  · rw [hashFile_eq, hdigest]
  · rintro storage token key schema staged encoding rfl
    rw [hashFile_eq, hashFile_eq, Prod.mk.injEq]
    simp only [prepareFile, prepareSnapshot, hashFile_eq] at hsize hdigest
    exact ⟨Int.natCast_inj.mp hsize, hdigest⟩

-- The records of one id, at any two times while the blob lives, report one call.
theorem stat_reports {found : Record} (h : Reachable db) (hlater : Commits db later)
    (hfound : stat db id = .ok found) :
    ∃ prepared, db.Prepares prepared ∧ found.Reports prepared ∧
      ∀ again, stat later id = .ok again → again.Reports prepared := by
  have hs := Reachable.settled h
  obtain ⟨b, o, p, m, hc, hshows, _⟩ := record_shows (stat_record hfound)
  obtain ⟨prepared, hprepares, rfl⟩ := Reachable.prepares h p hc.prepared
  obtain ⟨hbears, hsealed⟩ := hprepares.bears
  have htoken : o.token = .text prepared.token := hc.preparedToken.symm
  refine ⟨prepared, hprepares, Record.reports hs.wf hbears hsealed ⟨o, hc.object, ?_, htoken⟩
    (stat_record hfound), fun again hagain => ?_⟩
  · exact hc.objectBlob
  · obtain ⟨b', _, _, _, hc', _⟩ := record_shows (stat_record hagain)
    obtain ⟨o', ho', hblob, htoken'⟩ :=
      Commits.bound hs hlater hc.blob hc'.blob (hc'.blobId.trans hc.blobId.symm) hc.object
        (hc.objectBlob.trans hc.blobId.symm)
    refine Record.reports (Commits.settled hs hlater).wf (Commits.bears hs hbears hlater) hsealed
      ⟨o', ho', hblob.trans hc.blobId, htoken'.trans htoken⟩ (stat_record hagain)

-- The path of a blob has the bytes of the call that journaled it.
theorem materialize_recorded {storage : String} {backing : TextCell → Got} {file : Bytes}
    {prepared : PreparedFile} (hreports : ∀ again, stat db id = .ok again → again.Reports prepared)
    (h : materialize xxh3 storage backing id db = .ok file) :
    (file.length : Int) = prepared.byteSize ∧ xxh3.hash file = prepared.digest := by
  simp only [materialize, bind_eq_ok, require_eq_ok] at h
  obtain ⟨found, hfound, _, _, hread⟩ := h
  have hreported := hreports found hfound
  obtain ⟨_, chunks, _, _, hsize, hdigest⟩ :=
    ((LocalStorage.verifies xxh3 backing _ _ _).yields file).mp hread
  exact ⟨hsize.trans hreported.byteSize, TextCell.text.inj (hdigest.trans hreported.digest)⟩

-- Only verified bytes are exposed, by materialize, get and export_file.
theorem only_verified_bytes_are_exposed (xxh3 : Hasher) (db : Catalog) (h : Reachable db) :
    (∀ backing key byteSize digest, LocalStorage.Verifies xxh3 backing key byteSize digest) ∧
    ∀ storage backing id later, Commits db later →
      (∀ (α : Type) (handlers : List (Handler α)),
        (∃ raised, decoding xxh3 handlers storage backing id db later = .error raised ∧
          get xxh3 handlers storage backing id db later = .error raised) ∨
        ∃ codec file descriptor prepared,
          decoding xxh3 handlers storage backing id db later = .ok (codec, file, descriptor) ∧
          Recorded xxh3 db id file prepared ∧
          get xxh3 handlers storage backing id db later = codec.read file descriptor) ∧
      ∀ copy staged, staging xxh3 storage backing copy id db later = .ok staged →
        ∃ prepared, Recorded xxh3 db id staged prepared := by
  refine ⟨LocalStorage.verifies xxh3, fun storage backing id later hlater =>
    ⟨fun α handlers => ?_, fun copy staged hexport => ?_⟩⟩
  · cases hget : decoding xxh3 handlers storage backing id db later with
    | error raised => exact .inl ⟨raised, rfl, by rw [get, hget]; rfl⟩
    | ok decoded =>
        obtain ⟨codec, file, descriptor⟩ := decoded
        have hresult : get xxh3 handlers storage backing id db later = codec.read file descriptor := by
          rw [get, hget]
          rfl
        simp only [decoding, bind_eq_ok, require_eq_ok, fromOption_eq_ok, pure_eq_ok, Prod.mk.injEq] at hget
        obtain ⟨found, hfound, _, _, _, _, _, hread, rfl, rfl, rfl⟩ := hget
        obtain ⟨prepared, hprepares, hreported, hagain⟩ := stat_reports h hlater hfound
        obtain ⟨hsize, hdigest⟩ := materialize_recorded hagain hread
        refine .inr ⟨_, _, _, prepared, rfl, recorded_of_digest hprepares (fun same hsame => ?_) hsize hdigest,
          hresult⟩
        cases hfound.symm.trans hsame
        exact hreported
  · simp only [staging, bind_eq_ok, require_eq_ok, pure_eq_ok] at hexport
    obtain ⟨found, hfound, _, _, copied, _, _, ⟨hsize, hdigest⟩, rfl⟩ := hexport
    obtain ⟨prepared, hprepares, hreported, _⟩ := stat_reports h hlater hfound
    rw [hashFile_eq] at hsize hdigest
    refine ⟨prepared, recorded_of_digest hprepares (fun same hsame => ?_) (hsize.trans hreported.byteSize)
      (TextCell.text.inj (hdigest.trans hreported.digest))⟩
    cases hfound.symm.trans hsame
    exact hreported

-- A file of three bytes with its hash, under a handler that reads it as it is.
def letters : Bytes := [0x61, 0x62, 0x63]

def lettersHash : Hasher :=
  { State := Bytes, fresh := [], update := fun read chunk => read ++ chunk,
    hexdigest := fun read => if read = letters then "06b05ab6733a618578af5f94892f3950" else hex read,
    streams := fun chunks => by
      have hread : ∀ read : Bytes, chunks.foldl (fun read chunk => read ++ chunk) read =
        read ++ chunks.flatten := by
        induction chunks with
        | nil => simp
        | cons chunk chunks ih => simp [ih]
      simp [hread] }

def page : BlobSchema :=
  { name := "page", version := 1, fields := [("title", ⟨.text, true, false⟩)], indexes := [],
    handlers := ["text"], validatorId := none, valid := by decide }

def pageHandler : Handler Bytes := { id := "text", version := 1, read := fun file _ => .ok file }

def lettersDraft : PreparedFile :=
  prepareFile lettersHash "s" "t1" "0123456789abcdef0123456789abcdef" page letters
    (some ⟨"text", 1, "\x7b\x7d"⟩)

def paged : Catalog := orElse (transact [.installSchema page] Catalog.empty) Catalog.empty

def lettered : Catalog :=
  orElse (transact [.finalize "s" lettersDraft page [("title", .str "a")] "b1", .publish "s" "b1"]
    (orElse (journal paged page lettersDraft) paged)) paged

theorem lettered_reachable : Reachable lettered := by
  have hpaged : Reachable paged := .single (.transaction _ _ (orElse_of_isOk (by decide) _))
  exact (hpaged.tail (.journaling page lettersDraft _ (by decide) (orElse_of_isOk (by decide) _)
    (by decide))).tail
    (.transaction _ _ (orElse_of_isOk (by decide) _))

-- The title changes between the record of a call and its read, which comes in two chunks.
def relettered : Catalog :=
  orElse (transact [.updateMetadata "b1" page [("title", .str "b")] 1] lettered) lettered

theorem lettered_commits : Commits lettered relettered :=
    .single (.transaction _ _ (orElse_of_isOk (by decide) _))

def lettersBacking (_ : TextCell) : Got := .found 3 [[0x61], [0x62, 0x63]] true

theorem letters_are_exposed :
    get lettersHash [pageHandler] "s" lettersBacking "b1" lettered relettered = .ok letters ∧
      (∃ codec file descriptor prepared,
        decoding lettersHash [pageHandler] "s" lettersBacking "b1" lettered relettered =
        .ok (codec, file, descriptor) ∧
        Recorded lettersHash lettered "b1" file prepared ∧ codec.read file descriptor = .ok letters) ∧
      ∃ prepared, Recorded lettersHash lettered "b1" letters prepared := by
  have hread : get lettersHash [pageHandler] "s" lettersBacking "b1" lettered relettered =
    .ok letters := by decide
  have hexport : staging lettersHash "s" lettersBacking (fun file => .ok file) "b1" lettered relettered =
    .ok letters := by
    decide
  obtain ⟨hget, hstaging⟩ :=
    (only_verified_bytes_are_exposed lettersHash lettered lettered_reachable).2 "s" lettersBacking
    "b1" relettered lettered_commits
  refine ⟨hread, ?_, hstaging _ letters hexport⟩
  rcases hget Bytes [pageHandler] with
    ⟨raised, -, herror⟩ | ⟨codec, file, descriptor, prepared, hdecoded, hrecorded, hsame⟩
  · cases hread.symm.trans herror
  · exact ⟨codec, file, descriptor, prepared, hdecoded, hrecorded, hsame.symm.trans hread⟩

end Store

end MeldStore
