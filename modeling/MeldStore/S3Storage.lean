import MeldStore.Backup.Manifest
import MeldStore.Upload

namespace MeldStore

open Library Library.Checked Library.Hashing Library.Interleaved

-- The initialization of S3 storages on one prefix.

namespace S3Storage

open Backup

def MARKER_LIMIT : ℕ := 2048

def REMOTE_MARKER : String := "meldstore-storage.json"

def decode (raw : Bytes) (fields : List String) : Except Error Json.Tree := do
  require (raw.length ≤ MARKER_LIMIT) (.ValidationError "Storage identity exceeds 2 KiB")
  let text ← fromOption (String.fromUTF8? ⟨raw.toArray⟩) (.PythonError "UnicodeDecodeError")
  let tree ← fromOption (Json.loads text.toList) (.PythonError "JSONDecodeError")
  require tree.distinct (.ValidationError "Duplicate storage identity field")
  let data ← fromOption (Json.decode text.toList) (.PythonError "ValueError")
  require (hasFields fields (some data) ∧ isOne (item data "version") ∧
    isText hexText (item data "coordinator_id"))
    (.ValidationError "Invalid storage identity")
  pure data

def encode (data : Json.Tree) : Except Error Bytes := do
  let raw := (String.ofList (Json.dumps (Json.sortKeys data))).toUTF8.data.toList
  require (raw.length ≤ MARKER_LIMIT) (.ValidationError "Storage identity exceeds 2 KiB")
  pure raw

structure Location where
  endpoint : String
  bucket : String
  path : String
deriving DecidableEq

def Location.tree (location : Location) : Json.Tree :=
  object [("endpoint", string location.endpoint), ("bucket", string location.bucket),
    ("prefix", string location.path)]

-- A call of the constructor: `root` is the canonical path of its coordination directory,
-- `storageId` is _storage_id or uuid4().hex.
structure Opening where
  root : String
  location : Location
  storageId : String
  fresh : Bool

variable (uuid5 : String → String)

def Opening.coordinatorId (opening : Opening) : String := uuid5 opening.root

def Opening.marker (opening : Opening) : Json.Tree :=
  object [("version", number 1), ("location", opening.location.tree), ("storage_id", string opening.storageId),
    ("coordinator_id", string (opening.coordinatorId uuid5))]

def identity (storageId : Json.Str) (coordinatorId : String) : Json.Tree :=
  .obj [(Json.ofString "version", number 1), (Json.ofString "id", .str storageId),
    (Json.ofString "coordinator_id", string coordinatorId)]

-- meldstore-s3.json of a coordination directory, with the call that created it; `none`
-- for one from before.
structure Marker (ι : Type) where
  content : Bytes
  writer : Option ι

structure State (ι : Type) where
  directories : String → Bool
  leases : String → Option ι
  markers : String → Option (Marker ι)
  remote : Upload.Objects ι

inductive Request
  | mkdir
  | lease
  | existsMarker
  | readMarker
  | createMarker
  | writeMarker (raw : Bytes)
  | list
  | put (raw : Bytes)
  | get
  | close

def Value : Request → Type
  | .existsMarker => Bool
  | .readMarker => Bytes
  | .list => Bool
  | .get => ℕ × Bytes
  | _ => Unit

-- `none` is an exception.
abbrev Reply (request : Request) : Type := Option (Value request)

-- The storage_id and the coordinator_id of a constructed storage.
abbrev Result := Except Error (Json.Str × String)

abbrev Call := Program Request Reply Result

def failed : Error := .StorageError "Could not initialize S3 storage; identity artifacts retained"

def attempt (request : Request) (next : Value request → Call) : Call :=
  .call request fun
    | some value => next value
    | none => .done (.error failed)

def remoteIdentity (size : ℕ) (raw : Bytes) : Except Error Json.Tree := do
  require (size ≤ MARKER_LIMIT) (.ValidationError "Remote storage identity exceeds 2 KiB")
  let data ← decode raw ["version", "id", "coordinator_id"]
  require (isText hexText (item data "id")) (.ValidationError "Invalid remote storage identity")
  pure data

-- The checks of a local marker, and the storage_id it gives.
def localIdentity (opening : Opening) (raw : Bytes) : Except Error Json.Str := do
  let data ← decode raw ["version", "location", "storage_id", "coordinator_id"]
  match item data "storage_id", item data "location", item data "coordinator_id" with
  | some (.str storageId), some location, some coordinator => do
      require (hexText storageId ∧ location.equal opening.location.tree ∧
        coordinator.equal (string (opening.coordinatorId uuid5)))
        (.ValidationError "S3 coordination identity/location mismatch")
      pure storageId
  | _, _, _ => .error (.ValidationError "S3 coordination identity/location mismatch")

def storageIdOf (raw : Bytes) : Except Error Json.Str := do
  let data ← decode raw ["version", "location", "storage_id", "coordinator_id"]
  match item data "storage_id" with
  | some (.str storageId) => pure storageId
  | _ => .error (.PythonError "TypeError")

def reopen (opening : Opening) : Call :=
  attempt .readMarker fun (raw : Bytes) =>
  match localIdentity uuid5 opening raw with
  | .error _ => .done (.error failed)
  | .ok storageId =>
      attempt .get fun (found : ℕ × Bytes) =>
      match remoteIdentity found.1 found.2 with
      | .error _ => .done (.error failed)
      | .ok remote =>
          if remote.equal (identity storageId (opening.coordinatorId uuid5)) then
            .done (.ok (storageId, opening.coordinatorId uuid5))
          else .done (.error failed)

def create (opening : Opening) (locationBytes : Bytes) : Call :=
  attempt .list fun (occupied : Bool) =>
  if occupied then .done (.error failed)
  else
  match storageIdOf locationBytes with
  | .error _ => .done (.error failed)
  | .ok storageId =>
      attempt .createMarker fun _ =>
      attempt (.writeMarker locationBytes) fun _ =>
      match encode (identity storageId (opening.coordinatorId uuid5)) with
      | .error _ => .done (.error failed)
      | .ok raw => attempt (.put raw) fun _ => .done (.ok (storageId, opening.coordinatorId uuid5))

def init (opening : Opening) : Call :=
  match encode (opening.marker uuid5) with
  | .error error => .done (.error error)
  | .ok locationBytes =>
      attempt .mkdir fun _ =>
      attempt .lease fun _ =>
      (attempt .existsMarker fun (found : Bool) =>
        if found then reopen uuid5 opening else create uuid5 opening locationBytes).bind fun result =>
      .call .close fun _ => .done result

variable {ι : Type}

def State.closed [DecidableEq ι] (s : State ι) (i : ι) : State ι :=
  { s with leases := fun root => if s.leases root = some i then none else s.leases root }

variable (openings : ι → Opening)

-- Any request can fail, before or after its effect; a write can stop short.
def serves [DecidableEq ι] (i : ι) : (request : Request) → State ι → State ι → Reply request → Prop
  | .mkdir, s, t, answer =>
      t = s ∧ answer = none ∨
      t = { s with directories := Function.update s.directories (openings i).root true } ∧
        (answer = some () → ¬((openings i).fresh = true ∧ s.directories (openings i).root = true))
  | .lease, s, t, answer =>
      t = s ∧ answer = none ∨
      s.leases (openings i).root = none ∧
        t = { s with leases := Function.update s.leases (openings i).root (some i) } ∧ answer = some ()
  | .existsMarker, s, t, answer =>
      t = s ∧ ∀ found, answer = some found → found = (s.markers (openings i).root).isSome
  | .readMarker, s, t, answer =>
      t = s ∧ ∀ raw, answer = some raw → ∃ marker, s.markers (openings i).root = some marker ∧
        raw = marker.content.take (MARKER_LIMIT + 1)
  | .createMarker, s, t, answer =>
      t = s ∧ answer = none ∨
      s.markers (openings i).root = none ∧
        t = { s with markers := Function.update s.markers (openings i).root (some ⟨[], some i⟩) }
  | .writeMarker raw, s, t, answer =>
      t = s ∧ answer = none ∨
      ∃ written, written <+: raw ∧ (answer = some () → written = raw) ∧
        t = { s with markers := Function.update s.markers (openings i).root (some ⟨written, some i⟩) }
  | .list, s, t, answer =>
      t = s ∧ ∀ occupied, answer = some occupied → (occupied = true ↔ ∃ key, s.remote key ≠ none)
  | .put raw, s, t, answer =>
      t = s ∧ answer = none ∨
      t = { s with remote := (Upload.perform i (.create REMOTE_MARKER raw) s.remote).1 } ∧
        (answer = some () → (Upload.perform i (.create REMOTE_MARKER raw) s.remote).2 = true)
  | .get, s, t, answer =>
      t = s ∧ ∀ found, answer = some found → ∃ object, s.remote REMOTE_MARKER = some object ∧
        found = (object.content.length, object.content.take (MARKER_LIMIT + 1))
  | .close, s, t, _ => t = s.closed i

-- The constructed storages upload and delete objects and stages.
def Outside (s t : State ι) : Prop :=
  ∃ key object, Maintenance.cleanupKey key = true ∧ t = { s with remote := Function.update s.remote key object }

def server [DecidableEq ι] : Server ι (State ι) Request Reply :=
  { serves := serves openings, late := fun request => ∃ raw, request = .put raw,
    released := fun i s => s.closed i, outside := Outside }

variable {uuid5 openings}

-- What a remote marker says, to whoever reads it.
def Identifies (raw : Bytes) (storageId : Json.Str) (coordinatorId : String) : Prop :=
  ∃ text data, String.fromUTF8? ⟨raw.toArray⟩ = some text ∧ Json.decode text.toList = some data ∧
    item data "id" = some (.str storageId) ∧ item data "coordinator_id" = some (string coordinatorId)

theorem Identifies.unique {raw : Bytes} {storageId storageId' : Json.Str}
    {coordinatorId coordinatorId' : String}
    (h : Identifies raw storageId coordinatorId) (h' : Identifies raw storageId' coordinatorId') :
    storageId = storageId' ∧ coordinatorId = coordinatorId' := by
  obtain ⟨text, data, htext, hdata, hid, hcoordinator⟩ := h
  obtain ⟨text', data', htext', hdata', hid', hcoordinator'⟩ := h'
  obtain rfl := Option.some.inj (htext.symm.trans htext')
  obtain rfl := Option.some.inj (hdata.symm.trans hdata')
  have hids := hid.symm.trans hid'
  have hcoordinators := hcoordinator.symm.trans hcoordinator'
  simp only [Option.some.injEq, Json.Tree.str.injEq, string] at hids hcoordinators
  exact ⟨hids, Json.ofString_injective hcoordinators⟩

-- A value that equals a dict has the strings of its members.
theorem item_of_equal {data : Json.Tree} {members : List (Json.Str × Json.Tree)} {name : String}
    {text : Json.Str} (h : data.equal (.obj members) = true) (hnames : (members.map Prod.fst).Nodup)
    (hmem : (Json.ofString name, .str text) ∈ members) : item data name = some (.str text) := by
  rw [Json.Tree.equal] at h
  cases data with
  | obj found =>
      obtain ⟨_, hright⟩ := (Bool.and_eq_true _ _).mp h
      have hkey : Json.ofString name ∈ members.map Prod.fst := List.mem_map.mpr ⟨_, hmem, rfl⟩
      obtain ⟨x, y, less, _, hx, hy, hequal⟩ := Json.equal_of_coveredBy hright (Json.ofString name) hkey
      rw [Json.lookup_of_mem hnames hmem, Option.some.injEq] at hx
      subst hx
      rw [item, hy]
      cases less with
      | zero => cases hequal
      | succ less =>
          cases y with
          | str t =>
              have hsame : text = t := of_decide_eq_true hequal
              rw [hsame]
          | _ => cases hequal
  | _ => cases h

theorem decode_eq_ok {raw : Bytes} {fields : List String} {data : Json.Tree}
    (h : decode raw fields = .ok data) :
    ∃ text, String.fromUTF8? ⟨raw.toArray⟩ = some text ∧ Json.decode text.toList = some data := by
  simp only [decode, bind_eq_ok, require_eq_ok, fromOption_eq_ok, pure_eq_ok] at h
  obtain ⟨_, _, text, htext, _, _, _, _, _, hdata, _, _, rfl⟩ := h
  exact ⟨text, htext, hdata⟩

theorem encode_eq_ok {data : Json.Tree} {raw : Bytes} (h : encode data = .ok raw)
    (hportable : data.portable = true) :
    ∃ text, String.fromUTF8? ⟨raw.toArray⟩ = some text ∧ Json.decode text.toList =
      some (Json.sortKeys data) := by
  simp only [encode, bind_eq_ok, require_eq_ok, pure_eq_ok] at h
  obtain ⟨_, _, rfl⟩ := h
  refine ⟨String.ofList (Json.dumps (Json.sortKeys data)), ?_, ?_⟩
  · rw [Array.toArray_toList]
    exact fromUTF8?_toUTF8 _
  · rw [String.toList_ofList]
    exact Json.decode_dumps (Json.Tree.portable_sortKeys hportable)

-- The programs below only branch on what these give.
attribute [local irreducible] encode decode

theorem names_nodup : (["version", "id", "coordinator_id"] : List String).Nodup := by decide

theorem portable_one : (number 1).portable = true := Json.portable_natural (by decide : (1 : ℕ) < 2 ^ 63)

-- The remote marker of a new storage.
theorem identifies_encode {storageId coordinatorId : String} {raw : Bytes}
    (h : encode (identity (Json.ofString storageId) coordinatorId) = .ok raw) :
    Identifies raw (Json.ofString storageId) coordinatorId := by
  have hobject : identity (Json.ofString storageId) coordinatorId =
      object [("version", number 1), ("id", string storageId), ("coordinator_id", string coordinatorId)] := rfl
  rw [hobject] at h
  obtain ⟨text, htext, hdata⟩ := encode_eq_ok h (Json.portable_obj names_nodup (by
    intro member hmember
    simp only [List.mem_cons, List.not_mem_nil, or_false] at hmember
    rcases hmember with rfl | rfl | rfl
    · exact portable_one
    · exact Json.portable_str _
    · exact Json.portable_str _))
  have hitem := @item_sortKeys [("version", number 1), ("id", string storageId),
    ("coordinator_id", string coordinatorId)] names_nodup
  exact ⟨text, _, htext, hdata, hitem "id" (string storageId) (by simp),
    hitem "coordinator_id" (string coordinatorId) (by simp)⟩

-- A remote marker that a reopened storage accepts.
theorem identifies_remote {content : Bytes} {remote : Json.Tree} {storageId : Json.Str} {coordinatorId : String}
    (h : remoteIdentity content.length (content.take (MARKER_LIMIT + 1)) = .ok remote)
    (hequal : remote.equal (identity storageId coordinatorId) = true) :
    Identifies content storageId coordinatorId := by
  simp only [remoteIdentity, bind_eq_ok, require_eq_ok, pure_eq_ok] at h
  obtain ⟨_, hsize, data, hdecode, _, _, rfl⟩ := h
  rw [List.take_of_length_le (by omega)] at hdecode
  obtain ⟨text, htext, hdata⟩ := decode_eq_ok hdecode
  have hnames := names_nodup.map Json.ofString_injective
  exact ⟨text, data, htext, hdata, item_of_equal hequal hnames (by simp),
    item_of_equal hequal hnames (by simp [string])⟩

-- The storage_id that a new storage reads back from its own bytes.
theorem storageIdOf_encode {opening : Opening} {raw : Bytes} {storageId : Json.Str}
    (h : encode (opening.marker uuid5) = .ok raw) (hread : storageIdOf raw = .ok storageId) :
    storageId = Json.ofString opening.storageId := by
  have hnames : (["version", "location", "storage_id", "coordinator_id"] : List String).Nodup := by decide
  have hlocation : opening.location.tree.portable = true := by
    refine Json.portable_obj (by simp) fun member hmember => ?_
    simp only [List.mem_cons, List.not_mem_nil, or_false] at hmember
    rcases hmember with rfl | rfl | rfl <;> exact Json.portable_str _
  obtain ⟨text, htext, hdata⟩ := encode_eq_ok h (Json.portable_obj hnames (by
    intro member hmember
    simp only [List.mem_cons, List.not_mem_nil, or_false] at hmember
    rcases hmember with rfl | rfl | rfl | rfl
    · exact portable_one
    · exact hlocation
    · exact Json.portable_str _
    · exact Json.portable_str _))
  simp only [storageIdOf, bind_eq_ok] at hread
  obtain ⟨data, hdecode, hread⟩ := hread
  obtain ⟨text', htext', hdata'⟩ := decode_eq_ok hdecode
  obtain rfl := Option.some.inj (htext.symm.trans htext')
  obtain rfl := Option.some.inj (hdata.symm.trans hdata')
  have hitem := @item_sortKeys [("version", number 1), ("location", opening.location.tree),
    ("storage_id", string opening.storageId), ("coordinator_id", string (opening.coordinatorId uuid5))] hnames
    "storage_id" (string opening.storageId) (by simp)
  rw [Opening.marker, hitem] at hread
  exact (Except.ok.inj hread).symm

-- What one step of a constructor changes: it creates the remote marker where there is
-- none, and its local marker, which it writes once, perhaps not to its end.
structure Keeps (uuid5 : String → String) (openings : ι → Opening) (i : ι) (s t : State ι) : Prop where
  remote : t.remote = s.remote ∨ s.remote REMOTE_MARKER = none ∧
    ∃ raw, t.remote = Function.update s.remote REMOTE_MARKER (some ⟨raw, some i⟩) ∧
      Identifies raw (Json.ofString (openings i).storageId) ((openings i).coordinatorId uuid5)
  others : ∀ root, root ≠ (openings i).root → t.markers root = s.markers root
  marker : t.markers (openings i).root = s.markers (openings i).root ∨
    s.markers (openings i).root = none ∧ t.markers (openings i).root = some ⟨[], some i⟩ ∨
    s.markers (openings i).root = some ⟨[], some i⟩ ∧ ∃ raw written,
      encode ((openings i).marker uuid5) = .ok raw ∧ written <+: raw ∧
        t.markers (openings i).root = some ⟨written, some i⟩

-- What an empty marker may become.
def Begun (uuid5 : String → String) (openings : ι → Opening) (marker kept : Marker ι) : Prop :=
  ∃ j raw, marker.writer = some j ∧ encode ((openings j).marker uuid5) = .ok raw ∧ kept.content <+: raw

def Constructed (uuid5 : String → String) (openings : ι → Opening) (i : ι) : Result → State ι → Prop
  | .ok (storageId, coordinatorId), s => coordinatorId = (openings i).coordinatorId uuid5 ∧
      ∃ object, s.remote REMOTE_MARKER = some object ∧ Identifies object.content storageId coordinatorId
  | .error _, _ => True

-- What the others and the uploads leave to a constructor.
structure Relied (openings : ι → Opening) (i : ι) (s t : State ι) : Prop where
  remote : ∀ object, s.remote REMOTE_MARKER = some object → t.remote REMOTE_MARKER = some object
  marker : s.markers (openings i).root = some ⟨[], some i⟩ → t.markers (openings i).root = some ⟨[], some i⟩

theorem Relied.refl (i : ι) (s : State ι) : Relied openings i s s := ⟨fun _ h => h, id⟩

theorem Relied.trans {i : ι} {s t u : State ι} (h : Relied openings i s t) (h' : Relied openings i t u) :
    Relied openings i s u :=
  ⟨fun object hs => h'.remote object (h.remote object hs), fun hs => h'.marker (h.marker hs)⟩

theorem Keeps.remote_kept {i : ι} {s t : State ι} (h : Keeps uuid5 openings i s t) {object : Upload.Object ι}
    (hs : s.remote REMOTE_MARKER = some object) : t.remote REMOTE_MARKER = some object := by
  rcases h.remote with hsame | ⟨hnone, _⟩
  · rw [hsame, hs]
  · rw [hs] at hnone
    cases hnone

-- A local marker keeps its bytes, once it has any.
theorem Keeps.marker_kept {i : ι} {s t : State ι} (h : Keeps uuid5 openings i s t) {root : String}
    {marker : Marker ι} (hmarker : s.markers root = some marker) : ∃ kept, t.markers root = some kept ∧
      kept.writer = marker.writer ∧ (kept = marker ∨ marker.content = [] ∧
        Begun uuid5 openings marker kept) := by
  by_cases hroot : root = (openings i).root
  · subst hroot
    rcases h.marker with hsame | ⟨hnone, _⟩ | ⟨hown, raw, written, hraw, hprefix, hwritten⟩
    · exact ⟨marker, hsame.trans hmarker, rfl, .inl rfl⟩
    · rw [hmarker] at hnone
      cases hnone
    · obtain rfl := Option.some.inj (hmarker.symm.trans hown)
      exact ⟨_, hwritten, rfl, .inr ⟨rfl, i, raw, rfl, hraw, hprefix⟩⟩
  · exact ⟨marker, (h.others root hroot).trans hmarker, rfl, .inl rfl⟩

theorem Outside.remote_kept {s t : State ι} (h : Outside s t) :
    t.remote REMOTE_MARKER = s.remote REMOTE_MARKER := by
  obtain ⟨key, object, hkey, rfl⟩ := h
  refine Function.update_of_ne ?_ _ _
  rintro rfl
  exact absurd hkey (by decide)

theorem Outside.markers {s t : State ι} (h : Outside s t) : t.markers = s.markers := by
  obtain ⟨key, object, _, rfl⟩ := h
  rfl

theorem Constructed.relied {i : ι} {result : Result} {s t : State ι}
    (hs : Constructed uuid5 openings i result s)
    (h : Relied openings i s t) : Constructed uuid5 openings i result t := by
  cases result with
  | error _ => trivial
  | ok ids =>
      obtain ⟨hcoordinator, object, hobject, hidentifies⟩ := hs
      exact ⟨hcoordinator, object, h.remote object hobject, hidentifies⟩

theorem Keeps.refl (i : ι) (s : State ι) : Keeps uuid5 openings i s s := ⟨.inl rfl, fun _ _ => rfl, .inl rfl⟩

variable [DecidableEq ι]

theorem keeps_closed (i : ι) (s : State ι) : Keeps uuid5 openings i s (s.closed i) :=
  ⟨.inl rfl, fun _ _ => rfl, .inl rfl⟩

theorem relied_of_interferes {i : ι} {s t : State ι}
    (h : Interferes (server openings) (Keeps uuid5 openings) i s t) :
    Relied openings i s t := by
  refine Runs.relates (fun _ => True) (Relied openings i) (fun _ _ _ _ => trivial) (Relied.refl i)
    (fun _ _ _ => Relied.trans) (fun s t _ hstep => ?_) h trivial
  cases hstep with
  | outside houtside =>
      exact ⟨fun object hs => houtside.remote_kept.trans hs, fun hs => by rw [Outside.markers houtside, hs]⟩
  | call j hne hkeeps =>
      refine ⟨fun object hs => hkeeps.remote_kept hs, fun hs => ?_⟩
      by_cases hroot : (openings i).root = (openings j).root
      · rw [hroot] at hs ⊢
        rcases hkeeps.marker with hsame | ⟨hnone, _⟩ | ⟨hown, _⟩
        · exact hsame.trans hs
        · rw [hs] at hnone
          cases hnone
        · rw [hs] at hown
          simp only [Option.some.injEq, Marker.mk.injEq, true_and] at hown
          exact absurd hown.symm hne
      · exact (hkeeps.others _ hroot).trans hs

abbrev Rests (uuid5 : String → String) (openings : ι → Opening) (i : ι) : Call → State ι → Prop :=
  Safe (server openings) (Keeps uuid5 openings) (Constructed uuid5 openings) i

theorem rests_done {i : ι} {s : State ι} {result : Result} (h : Constructed uuid5 openings i result s) :
    Rests uuid5 openings i (.done result) s :=
  fun _ ht => h.relied (relied_of_interferes ht)

theorem rests_failed (i : ι) (s : State ι) (error : Error) : Rests uuid5 openings i (.done (.error error)) s :=
  fun _ _ => trivial

-- One request: what it can do to the state, also after its call, and what follows it.
theorem rests_attempt {i : ι} {s : State ι} {request : Request} {next : Value request → Call}
    (hkeeps : ∀ t, Relied openings i s t → ∀ u answer, serves openings i request t u answer →
      Keeps uuid5 openings i t u)
    (hnext : ∀ t, Relied openings i s t → ∀ u value, serves openings i request t u (some value) →
      Rests uuid5 openings i (next value) u) :
    Rests uuid5 openings i (attempt request next) s := by
  intro t ht
  have hrelied := relied_of_interferes ht
  refine ⟨fun _ u hu => hkeeps u ?_, fun u answer hserved => ⟨hkeeps t hrelied u answer hserved, ?_⟩⟩
  · have hclosed : Relied openings i t (t.closed i) := ⟨fun _ h => h, id⟩
    exact (hrelied.trans hclosed).trans (relied_of_interferes hu)
  · cases answer with
    | none => exact rests_failed i u failed
    | some value => exact hnext t hrelied u value hserved

theorem rests_ask {i : ι} {s : State ι} {request : Request} {next : Value request → Call}
    (hplain : ∀ t u answer, serves openings i request t u answer → u = t)
    (hnext : ∀ t, Relied openings i s t → ∀ value, serves openings i request t t (some value) →
      Rests uuid5 openings i (next value) t) :
    Rests uuid5 openings i (attempt request next) s := by
  refine rests_attempt (fun t _ u answer hserved => ?_) fun t ht u value hserved => ?_
  · rw [hplain t u answer hserved]
    exact .refl i t
  · obtain rfl := hplain t u _ hserved
    exact hnext u ht value hserved

theorem reopen_rests (i : ι) (s : State ι) : Rests uuid5 openings i (reopen uuid5 (openings i)) s := by
  refine rests_ask (fun _ _ _ h => h.1) fun t _ raw _ => ?_
  cases localIdentity uuid5 (openings i) raw with
  | error _ => exact rests_failed i t failed
  | ok storageId =>
      refine rests_ask (fun _ _ _ h => h.1) fun u _ found hserved => ?_
      obtain ⟨object, hobject, rfl⟩ := hserved.2 found rfl
      cases hremote : remoteIdentity object.content.length (object.content.take (MARKER_LIMIT + 1)) with
      | error _ => exact rests_failed i u failed
      | ok remote =>
          show Rests uuid5 openings i (if _ then _ else _) u
          by_cases hequal : remote.equal (identity storageId ((openings i).coordinatorId uuid5)) = true
          · rw [if_pos hequal]
            exact rests_done ⟨rfl, object, hobject, identifies_remote hremote hequal⟩
          · rw [if_neg hequal]
            exact rests_failed i u failed

-- The conditional put of the remote marker.
theorem put_rests {i : ι} (s : State ι) {storageId : Json.Str} {raw : Bytes}
    (hstorage : storageId = Json.ofString (openings i).storageId)
    (hraw : encode (identity storageId ((openings i).coordinatorId uuid5)) = .ok raw) :
    Rests uuid5 openings i
      (attempt (.put raw) fun _ => .done (.ok (storageId, (openings i).coordinatorId uuid5))) s := by
  subst hstorage
  have hidentifies := identifies_encode hraw
  refine rests_attempt (fun t _ u answer hserved => ?_) fun t _ u value hserved => rests_done ?_
  · rcases hserved with ⟨rfl, _⟩ | ⟨rfl, _⟩
    · exact .refl i u
    · cases hobject : t.remote REMOTE_MARKER with
      | some object =>
          simp only [Upload.perform, hobject, Option.isSome_some, if_true]
          exact .refl i t
      | none =>
          simp only [Upload.perform, hobject, Option.isSome_none, Bool.false_eq_true, if_false]
          exact ⟨.inr ⟨hobject, raw, rfl, hidentifies⟩, fun _ _ => rfl, .inl rfl⟩
  · rcases hserved with ⟨_, hfailed⟩ | ⟨rfl, hcreated⟩
    · cases hfailed
    · have hcreated := hcreated rfl
      cases hobject : t.remote REMOTE_MARKER with
      | some object =>
          simp only [Upload.perform, hobject, Option.isSome_some, if_true] at hcreated
          cases hcreated
      | none =>
          simp only [Upload.perform, hobject, Option.isSome_none, Bool.false_eq_true, if_false]
          have hnew : Function.update t.remote REMOTE_MARKER (some ⟨raw, some i⟩) REMOTE_MARKER =
            some ⟨raw, some i⟩ :=
            Function.update_self _ _ _
          exact ⟨rfl, ⟨raw, some i⟩, hnew, hidentifies⟩

theorem create_rests {i : ι} (s : State ι) {locationBytes : Bytes}
    (hbytes : encode ((openings i).marker uuid5) = .ok locationBytes) :
    Rests uuid5 openings i (create uuid5 (openings i) locationBytes) s := by
  refine rests_ask (fun _ _ _ h => h.1) fun t _ occupied _ => ?_
  cases occupied with
  | true => exact rests_failed i t failed
  | false =>
      cases hstorage : storageIdOf locationBytes with
      | error _ => exact rests_failed i t failed
      | ok storageId =>
          refine rests_attempt (fun u _ v answer hserved => ?_) fun u _ v _ hserved => ?_
          · rcases hserved with ⟨rfl, _⟩ | ⟨hnone, rfl⟩
            · exact .refl i v
            · exact ⟨.inl rfl, fun _ hne => Function.update_of_ne hne _ _,
                .inr (.inl ⟨hnone, Function.update_self _ _ _⟩)⟩
          · rcases hserved with ⟨_, hfailed⟩ | ⟨_, rfl⟩
            · cases hfailed
            · refine rests_attempt (fun w hw x answer hserved => ?_) fun w _ x _ _ => ?_
              · rcases hserved with ⟨rfl, _⟩ | ⟨written, hprefix, _, rfl⟩
                · exact .refl i x
                · exact ⟨.inl rfl, fun _ hne => Function.update_of_ne hne _ _,
                    .inr (.inr ⟨hw.marker (Function.update_self _ _ _), locationBytes, written, hbytes, hprefix,
                      Function.update_self _ _ _⟩)⟩
              · cases hraw : encode (identity storageId ((openings i).coordinatorId uuid5)) with
                | error _ => exact rests_failed i x failed
                | ok raw => exact put_rests x (storageIdOf_encode hbytes hstorage) hraw

theorem init_safe (i : ι) (s : State ι) :
    Safe (server openings) (Keeps uuid5 openings) (Constructed uuid5 openings) i
    (init uuid5 (openings i)) s := by
  rw [init]
  cases hbytes : encode ((openings i).marker uuid5) with
  | error error => exact rests_failed i s error
  | ok locationBytes =>
      refine rests_attempt (fun t _ u answer hserved => ?_) fun t _ u _ _ => ?_
      · rcases hserved with ⟨rfl, _⟩ | ⟨rfl, _⟩
        · exact .refl i u
        · exact ⟨.inl rfl, fun _ _ => rfl, .inl rfl⟩
      · refine rests_attempt (fun v _ w answer hserved => ?_) fun v _ w _ _ => ?_
        · rcases hserved with ⟨rfl, _⟩ | ⟨_, rfl, _⟩
          · exact .refl i w
          · exact ⟨.inl rfl, fun _ _ => rfl, .inl rfl⟩
        · have hleased : Rests uuid5 openings i (attempt .existsMarker fun (found : Bool) =>
              if found then reopen uuid5 (openings i) else create uuid5 (openings i) locationBytes) w := by
            refine rests_ask (fun _ _ _ h => h.1) fun x _ found _ => ?_
            cases found with
            | true => exact reopen_rests i x
            | false => exact create_rests x hbytes
          refine Safe.bind hleased fun result x hconstructed y hy => ⟨?_, fun z _ hserved => ?_⟩
          · rintro ⟨raw, hput⟩
            cases hput
          · have hclosed : z = y.closed i := hserved
            subst hclosed
            have hrelied : Relied openings i y (y.closed i) := ⟨fun _ h => h, id⟩
            exact ⟨keeps_closed i y,
              rests_done ((hconstructed.relied (relied_of_interferes hy)).relied hrelied)⟩

-- Any number of constructors, and of later attempts, on one empty prefix.
def constructors (uuid5 : String → String) (openings : ι → Opening) (directories : String → Bool)
    (markers : String → Option Bytes) : Configuration ι (State ι) Request Reply Result :=
  { shared := { directories := directories, leases := fun _ => none,
                markers := fun root => (markers root).map fun content => ⟨content, none⟩,
                  remote := fun _ => none },
    threads := fun i => .running (init uuid5 (openings i)) }

theorem constructors_sound (directories : String → Bool) (markers : String → Option Bytes) :
    Sound (server openings) (Keeps uuid5 openings) (Constructed uuid5 openings)
      (constructors uuid5 openings directories markers) :=
  Sound.of_safe fun i => init_safe i _

theorem keeps_released (i : ι) (s : State ι) : Keeps uuid5 openings i s ((server openings).released i s) :=
  keeps_closed i s

-- The remote marker is the one of the constructor that created it.
theorem remote_identifies {directories : String → Bool} {markers : String → Option Bytes}
    {system : Configuration ι (State ι) Request Reply Result}
    (h : Steps (server openings) (constructors uuid5 openings directories markers) system) :
    ∀ object, system.shared.remote REMOTE_MARKER = some object → ∃ j, object.writer = some j ∧
      Identifies object.content (Json.ofString (openings j).storageId) ((openings j).coordinatorId uuid5) := by
  refine Steps.keeps Keeps.refl keeps_released
    (fun s : State ι => ∀ object, s.remote REMOTE_MARKER = some object → ∃ j, object.writer = some j ∧
      Identifies object.content (Json.ofString (openings j).storageId) ((openings j).coordinatorId uuid5))
    (fun i s t hs hkeeps object hobject => ?_) (fun s t hs houtside object hobject => ?_) h
    (constructors_sound directories markers) ?_
  · rcases hkeeps.remote with hsame | ⟨_, raw, hnew, hidentifies⟩
    · rw [hsame] at hobject
      exact hs object hobject
    · rw [hnew, Function.update_self, Option.some.injEq] at hobject
      subst hobject
      exact ⟨i, rfl, hidentifies⟩
  · rw [Outside.remote_kept houtside] at hobject
    exact hs object hobject
  · intro object hobject
    cases hobject

section

variable {directories : String → Bool} {markers : String → Option Bytes}
  {system after : Configuration ι (State ι) Request Reply Result}

-- A storage is constructed on the ids of the remote marker only.
theorem constructed_of_returned
    (h : Steps (server openings) (constructors uuid5 openings directories markers) system)
    {i : ι} {ids : Json.Str × String} (hreturned : system.threads i = .returned (.ok ids)) :
    ∃ object j, system.shared.remote REMOTE_MARKER = some object ∧ object.writer = some j ∧
      ids = (Json.ofString (openings j).storageId, (openings j).coordinatorId uuid5) ∧
      (openings i).coordinatorId uuid5 = (openings j).coordinatorId uuid5 := by
  have howes := Steps.sound Keeps.refl keeps_released h (constructors_sound directories markers) i
  rw [hreturned] at howes
  obtain ⟨storageId, coordinatorId⟩ := ids
  obtain ⟨hcoordinator, object, hobject, hidentifies⟩ := howes _ .refl
  obtain ⟨j, hwriter, hcreated⟩ := remote_identifies h object hobject
  obtain ⟨rfl, rfl⟩ := hidentifies.unique hcreated
  exact ⟨object, j, hobject, hwriter, rfl, hcoordinator.symm⟩

theorem remote_kept
    (hsound : Sound (server openings) (Keeps uuid5 openings) (Constructed uuid5 openings) system)
    (h : Steps (server openings) system after) {object : Upload.Object ι}
    (hobject : system.shared.remote REMOTE_MARKER = some object) :
    after.shared.remote REMOTE_MARKER = some object :=
  Steps.keeps Keeps.refl keeps_released (fun s : State ι => s.remote REMOTE_MARKER = some object)
    (fun _ _ _ hs hkeeps => hkeeps.remote_kept hs)
      (fun _ _ hs houtside => (Outside.remote_kept houtside).trans hs)
    h hsound hobject

end

-- One coordinator per S3 prefix.
theorem one_coordinator_per_prefix (uuid5 : String → String) (openings : ι → Opening)
    (hdistinct : ∀ i j, uuid5 (openings i).root = uuid5 (openings j).root →
      (openings i).root = (openings j).root)
    (directories : String → Bool) (markers : String → Option Bytes)
    (system : Configuration ι (State ι) Request Reply Result)
    (h : Steps (server openings) (constructors uuid5 openings directories markers) system) :
    (∀ i j ids ids', system.threads i = .returned (.ok ids) → system.threads j = .returned (.ok ids') →
      ids = ids' ∧ (openings i).root = (openings j).root) ∧
    (∀ object, system.shared.remote REMOTE_MARKER = some object → ∃ j, object.writer = some j ∧
      ∀ after, Steps (server openings) system after →
        after.shared.remote REMOTE_MARKER = some object ∧
        ∀ i ids, (openings i).root ≠ (openings j).root → after.threads i ≠ .returned (.ok ids)) ∧
    ∀ actor after, Step (server openings) actor system after → ∀ root marker,
      system.shared.markers root = some marker → ∃ kept, after.shared.markers root = some kept ∧
        kept.writer = marker.writer ∧ (kept = marker ∨ marker.content = [] ∧
          Begun uuid5 openings marker kept) := by
  have hsound : Sound (server openings) (Keeps uuid5 openings) (Constructed uuid5 openings) system :=
    Steps.sound Keeps.refl keeps_released h (constructors_sound directories markers)
  refine ⟨fun i j ids ids' hi hj => ?_, fun object hobject => ?_,
    fun actor after hstep root marker hmarker => ?_⟩
  · obtain ⟨object, k, hobject, hwriter, hids, hcoordinator⟩ := constructed_of_returned h hi
    obtain ⟨object', k', hobject', hwriter', hids', hcoordinator'⟩ := constructed_of_returned h hj
    obtain rfl := Option.some.inj (hobject.symm.trans hobject')
    obtain rfl := Option.some.inj (hwriter.symm.trans hwriter')
    exact ⟨hids.trans hids'.symm, hdistinct i j (hcoordinator.trans hcoordinator'.symm)⟩
  · obtain ⟨j, hwriter, _⟩ := remote_identifies h object hobject
    refine ⟨j, hwriter, fun after hafter => ⟨remote_kept hsound hafter hobject,
      fun i ids hroot hreturned => hroot ?_⟩⟩
    obtain ⟨object', k, hobject', hwriter', _, hcoordinator⟩ :=
      constructed_of_returned (h.trans hafter) hreturned
    obtain rfl := Option.some.inj ((remote_kept hsound hafter hobject).symm.trans hobject')
    obtain rfl := Option.some.inj (hwriter.symm.trans hwriter')
    exact hdistinct i j hcoordinator
  · obtain ⟨_, hcalls, houtside⟩ := hstep.sound Keeps.refl keeps_released hsound
    cases actor with
    | some i => exact (hcalls i rfl).marker_kept hmarker
    | none => exact ⟨marker, by rw [Outside.markers (houtside rfl), hmarker], rfl, .inl rfl⟩

-- Two coordination directories, of which the first is constructed.
def hexOf (root : String) : String :=
  if root = "/a" then "7ce5cf26973c54e98b41f7c40986664a" else "911a5d37640e5307ab69fa76c1df1b0e"

def rivals (i : Bool) : Opening :=
  { root := if i then "/b" else "/a", location := ⟨"http://localhost", "bucket", "p"⟩,
    storageId := "00112233445566778899aabbccddeeff", fresh := false }

def rivalry : Configuration Bool (State Bool) Request Reply Result :=
  constructors hexOf rivals (fun _ => false) fun _ => none

def ids : Json.Str × String := (Json.ofString "00112233445566778899aabbccddeeff", hexOf "/a")

theorem encode_rival : ∃ locationBytes raw, encode ((rivals false).marker hexOf) = .ok locationBytes ∧
    storageIdOf locationBytes = .ok ids.1 ∧ encode (identity ids.1 ids.2) = .ok raw := by
  have hlocation : (encode ((rivals false).marker hexOf)).isOk = true := by decide +kernel
  have hidentity : (encode (identity ids.1 ids.2)).isOk = true := by decide +kernel
  have hread : (encode ((rivals false).marker hexOf) >>= storageIdOf) = .ok ids.1 := by decide +kernel
  obtain ⟨locationBytes, hlocation⟩ := exists_of_isOk hlocation
  obtain ⟨raw, hraw⟩ := exists_of_isOk hidentity
  rw [hlocation, except_ok_bind] at hread
  exact ⟨locationBytes, raw, hlocation, hread, hraw⟩

def constructed (locationBytes raw : Bytes) : State Bool :=
  State.closed
    { directories := Function.update (fun _ => false) "/a" true
      leases := Function.update (fun _ => none) "/a" (some false)
      markers := Function.update (Function.update (fun _ => none) "/a" (some ⟨[], some false⟩)) "/a"
        (some ⟨locationBytes, some false⟩)
      remote := Function.update (fun _ => none) REMOTE_MARKER (some ⟨raw, some false⟩) } false

theorem constructed_remote (locationBytes raw : Bytes) :
    (constructed locationBytes raw).remote REMOTE_MARKER = some ⟨raw, some false⟩ := by
  simp only [constructed, State.closed, Function.update_self]

theorem performs_rival {locationBytes raw : Bytes}
    (hlocation : encode ((rivals false).marker hexOf) = .ok locationBytes)
    (hread : storageIdOf locationBytes = .ok ids.1) (hraw : encode (identity ids.1 ids.2) = .ok raw) :
    Performs (server rivals) false (init hexOf (rivals false)) rivalry.shared (.ok ids)
      (constructed locationBytes raw) := by
  have hempty : (false = true ↔ ∃ key, (fun _ => none : Upload.Objects Bool) key ≠ none) := by simp
  have hput : encode (identity ids.1 ((rivals false).coordinatorId hexOf)) = .ok raw := hraw
  rw [init, hlocation]
  refine .call (some ()) (.inr ⟨rfl, fun _ => nofun⟩) (.call (some ()) (.inr ⟨rfl, rfl, rfl⟩) ?_)
  refine .call (some false) ⟨rfl, ?_⟩ (.call (some false) ⟨rfl, ?_⟩ ?_)
  · rintro _ ⟨⟩
    rfl
  · rintro _ ⟨⟩
    exact hempty
  · simp only [Bool.false_eq_true, if_false, hread]
    refine .call (some ()) (.inr ⟨rfl, rfl⟩)
      (.call (some ()) (.inr ⟨locationBytes, List.prefix_refl _, fun _ => rfl, rfl⟩) ?_)
    simp only [hput]
    exact .call (some ()) (.inr ⟨rfl, fun _ => rfl⟩) (.call (some ()) rfl .done)

theorem rival_never_succeeds : ∃ system, Steps (server rivals) rivalry system ∧
    system.threads false = .returned (.ok ids) ∧
    ∀ after, Steps (server rivals) system after → ∀ ids', after.threads true ≠ .returned (.ok ids') := by
  obtain ⟨locationBytes, raw, hlocation, hread, hraw⟩ := encode_rival
  have hrun := (performs_rival hlocation hread hraw).steps (show rivalry.shared = rivalry.shared from rfl) rfl
  have hdistinct : ∀ i j, hexOf (rivals i).root = hexOf (rivals j).root →
    (rivals i).root = (rivals j).root := by
    decide
  obtain ⟨_, hremote, _⟩ := one_coordinator_per_prefix hexOf rivals hdistinct _ _ _ hrun
  obtain ⟨j, hwriter, hlater⟩ := hremote ⟨raw, some false⟩ (constructed_remote locationBytes raw)
  cases hwriter
  exact ⟨_, hrun, Configuration.threads_moved _ _ _ _, fun after hafter ids' =>
    (hlater after hafter).2 true ids' (by decide)⟩

end S3Storage

end MeldStore
