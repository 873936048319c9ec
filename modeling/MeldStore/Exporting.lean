import MeldStore.Library.Interleaved
import MeldStore.Payload

namespace MeldStore

open Library Library.Checked Library.Hashing Library.Interleaved

-- Verified copy-out to one destination name, among other exports to it.

namespace Exporting

-- What is raised inside export_file, as its handlers tell it apart.
inductive Raised
  | FileExistsError
  | OSError
  | other (error : Error)

-- What stands under the destination name: the file an export linked, or a file or
-- directory of somebody else.
inductive Entry (ι : Type)
  | exported (call : ι) (content : Bytes)
  | foreign (content : Option Bytes)

-- `taken` is a call that met an existing destination; `littered` is one that could not
-- remove a temporary directory.
structure State (ι : Type) where
  db : Catalog
  objects : TextCell → Option Bytes
  destination : Option (Entry ι)
  taken : ι → Bool
  littered : ι → Bool

inductive Request
  | resolve
  | lexists
  | isProtected
  | stat (id : String)
  | materialize (id : String)
  | temporaryDirectory
  | copyfileobj (verified : Bytes)
  | hashFile (staged : Bytes)
  | link (staged : Bytes)
  | cleanup

def Value : Request → Type
  | .lexists => Bool
  | .isProtected => Bool
  | .stat _ => Record
  | .materialize _ => Bytes
  | .copyfileobj _ => Bytes
  | .hashFile _ => ℕ × String
  | _ => Unit

abbrev Reply (request : Request) : Type := Except Raised (Value request)

abbrev Call := Program Request Reply (Except Raised Unit)

variable {ι : Type}

def State.met [DecidableEq ι] (s : State ι) (i : ι) : State ι :=
  { s with taken := Function.update s.taken i true }

def State.leaves [DecidableEq ι] (s : State ι) (i : ι) : State ι :=
  { s with littered := Function.update s.littered i true }

-- Any request can fail. lexists is also False where lstat fails; a copy can be anything.
def serves [DecidableEq ι] (xxh3 : Hasher) (storage : String) (i : ι) :
    (request : Request) → State ι → State ι → Reply request → Prop
  | .lexists, s, t, answer =>
      answer = .ok true ∧ s.destination ≠ none ∧ t = s.met i ∨ answer ≠ .ok true ∧ t = s
  | .stat id, s, t, answer => t = s ∧ ∀ record, answer = .ok record → Store.stat s.db id = .ok record
  | .materialize id, s, t, answer => t = s ∧ ∀ file, answer = .ok file →
      ∃ backing, Store.materialize xxh3 storage backing id s.db = .ok file
  | .hashFile staged, s, t, answer =>
      t = s ∧ ∀ found, answer = .ok found → found = MeldStore.hashFile xxh3 staged
  | .link staged, s, t, answer =>
      s.destination = none ∧ t = { s with destination := some (.exported i staged) } ∧
        (answer = .ok () ∨ answer = .error .OSError) ∨
      s.destination ≠ none ∧ t = s.met i ∧ answer = .error .FileExistsError ∨
      t = s ∧ answer = .error .OSError
  | .cleanup, s, t, answer => t = s ∧ answer = .ok () ∨ t = s.leaves i ∧ answer = .error .OSError
  | _, s, t, _ => t = s

-- Others create the name, or use the store.
inductive Outside : State ι → State ι → Prop
  | creates (s : State ι) (hnone : s.destination = none) (content : Option Bytes) :
      Outside s { s with destination := some (.foreign content) }
  | commits (s : State ι) (db : Catalog) (h : Commits s.db db) (objects : TextCell → Option Bytes) :
      Outside s { s with db := db, objects := objects }

def server (ι : Type) [DecidableEq ι] (xxh3 : Hasher) (storage : String) : Server ι (State ι) Request Reply :=
  { serves := serves xxh3 storage, late := fun _ => True, released := fun _ s => s, outside := Outside }

def attempt (request : Request) (next : Value request → Call) : Call :=
  .call request fun
    | .ok value => next value
    | .error raised => .done (.error raised)

-- The end of a with block over a TemporaryDirectory.
def within (body : Call) : Call :=
  body.bind fun result => .call .cleanup fun
    | .ok _ => .done result
    | .error raised => .done (.error raised)

def copyOut (id : String) : Call :=
  attempt .resolve fun _ =>
  attempt .lexists fun (found : Bool) =>
  if found then
    .done (.error (.other (.ConflictError "Export destination already exists; it is never overwritten")))
  else
  attempt .isProtected fun (inside : Bool) =>
  if inside then
    .done (.error (.other
      (.ValidationError "Export destination must be outside managed storage/catalog files")))
  else
  attempt (.stat id) fun (record : Record) =>
  attempt (.materialize id) fun (verified : Bytes) => within <|
  attempt .temporaryDirectory fun _ => within <|
  attempt (.copyfileobj verified) fun (staged : Bytes) =>
  attempt (.hashFile staged) fun (found : ℕ × String) =>
  if (found.1 : Int) = record.byteSize ∧ .text found.2 = record.digest then
    attempt (.link staged) fun _ => .done (.ok ())
  else .done (.error (.other (.IntegrityError "Exported copy fails size/XXH3-128 verification")))

def failed : Error :=
  .StorageError "Local export failed; inspect the destination for an already published complete file"

-- The handlers of export_file.
def handled : Except Raised Unit → Except Error Unit
  | .ok _ => .ok ()
  | .error .FileExistsError =>
      .error (.ConflictError "Export destination was created concurrently; it was not overwritten")
  | .error .OSError => .error failed
  | .error (.other error) => .error error

def exportFile (id : String) : Program Request Reply (Except Error Unit) :=
  (copyOut id).bind fun result => .done (handled result)

variable {xxh3 : Hasher} {storage : String} {ids : ι → String}

-- The whole file of a blob: what the journal recorded of it when it was prepared.
def Complete (xxh3 : Hasher) (id : String) (content : Bytes) (db : Catalog) : Prop :=
  ∃ earlier prepared, Reachable earlier ∧ Commits earlier db ∧ Store.Recorded xxh3 earlier id content prepared

-- What one step of an export changes.
structure Keeps (xxh3 : Hasher) (ids : ι → String) (i : ι) (s t : State ι) : Prop where
  db : t.db = s.db
  objects : t.objects = s.objects
  destination : t.destination = s.destination ∨
    s.destination = none ∧ ∃ content, t.destination = some (.exported i content) ∧
      Complete xxh3 (ids i) content s.db
  taken : ∀ j, j ≠ i → t.taken j = s.taken j
  littered : ∀ j, j ≠ i → t.littered j = s.littered j

def Raised.conflicts : Raised → Prop
  | .FileExistsError => True
  | .OSError => False
  | .other error => error.isConflictError = true

def Published (xxh3 : Hasher) (ids : ι → String) (i : ι) (s : State ι) : Prop :=
  ∃ content, s.destination = some (.exported i content) ∧ Complete xxh3 (ids i) content s.db

-- How an export ends, inside its handlers and for its caller.
def Ends (xxh3 : Hasher) (ids : ι → String) (i : ι) : Except Raised Unit → State ι → Prop
  | .ok _, s => Published xxh3 ids i s
  | .error raised, s => s.taken i = true →
      (s.littered i = false → raised.conflicts) ∧ (s.littered i = true → raised = .OSError)

def Returns (xxh3 : Hasher) (ids : ι → String) (i : ι) : Except Error Unit → State ι → Prop
  | .ok _, s => Published xxh3 ids i s
  | .error error, s => s.taken i = true →
      (s.littered i = false → error.isConflictError = true) ∧ (s.littered i = true → error = failed)

-- An export that has met no destination yet.
structure Clean (i : ι) (s : State ι) : Prop where
  reachable : Reachable s.db
  taken : s.taken i = false
  littered : s.littered i = false

-- The record that stat has returned to an export.
def Described (id : String) (record : Record) (s : State ι) : Prop :=
  ∃ earlier, Reachable earlier ∧ Commits earlier s.db ∧ Store.stat earlier id = .ok record

theorem Complete.commits {id : String} {content : Bytes} {db after : Catalog} (h : Complete xxh3 id content db)
    (hafter : Commits db after) : Complete xxh3 id content after := by
  obtain ⟨earlier, prepared, hreachable, hcommits, hrecorded⟩ := h
  exact ⟨earlier, prepared, hreachable, hcommits.trans hafter, hrecorded⟩

theorem Keeps.refl (i : ι) (s : State ι) : Keeps xxh3 ids i s s :=
  ⟨rfl, rfl, .inl rfl, fun _ _ => rfl, fun _ _ => rfl⟩

theorem keeps_met [DecidableEq ι] (i : ι) (s : State ι) : Keeps xxh3 ids i s (s.met i) :=
  ⟨rfl, rfl, .inl rfl, fun _ hne => Function.update_of_ne hne _ _, fun _ _ => rfl⟩

theorem keeps_leaves [DecidableEq ι] (i : ι) (s : State ι) : Keeps xxh3 ids i s (s.leaves i) :=
  ⟨rfl, rfl, .inl rfl, fun _ _ => rfl, fun _ hne => Function.update_of_ne hne _ _⟩

-- What the others and the outside leave to an export.
structure Relied (i : ι) (s t : State ι) : Prop where
  commits : Commits s.db t.db
  destination : ∀ entry, s.destination = some entry → t.destination = some entry
  taken : t.taken i = s.taken i
  littered : t.littered i = s.littered i

theorem Relied.refl (i : ι) (s : State ι) : Relied i s s := ⟨.refl, fun _ h => h, rfl, rfl⟩

theorem Relied.trans {i : ι} {s t u : State ι} (h : Relied i s t) (h' : Relied i t u) : Relied i s u :=
  ⟨h.commits.trans h'.commits, fun entry hs => h'.destination entry (h.destination entry hs),
    h'.taken.trans h.taken, h'.littered.trans h.littered⟩

theorem Keeps.destination_kept {i : ι} {s t : State ι} (h : Keeps xxh3 ids i s t) {entry : Entry ι}
    (hs : s.destination = some entry) : t.destination = some entry := by
  rcases h.destination with hsame | ⟨hnone, _⟩
  · exact hsame.trans hs
  · rw [hs] at hnone
    cases hnone

theorem Outside.destination_kept {s t : State ι} (h : Outside s t) {entry : Entry ι}
    (hs : s.destination = some entry) : t.destination = some entry := by
  cases h with
  | creates hnone content =>
      rw [hs] at hnone
      cases hnone
  | commits db h objects => exact hs

theorem relied_of_interferes [DecidableEq ι] {i : ι} {s t : State ι}
    (h : Interferes (server ι xxh3 storage) (Keeps xxh3 ids) i s t) : Relied i s t := by
  refine Runs.relates (fun _ => True) (Relied i) (fun _ _ _ _ => trivial) (Relied.refl i)
    (fun _ _ _ => Relied.trans) (fun s t _ hstep => ?_) h trivial
  cases hstep with
  | call j hne hkeeps =>
      refine ⟨?_, fun entry hs => hkeeps.destination_kept hs, hkeeps.taken i hne.symm,
        hkeeps.littered i hne.symm⟩
      exact hkeeps.db ▸ .refl
  | outside houtside =>
      refine ⟨?_, fun entry hs => houtside.destination_kept hs, ?_, ?_⟩
      all_goals cases houtside with
        | creates hnone content => first | exact .refl | rfl
        | commits db h objects => first | exact h | rfl

theorem Clean.relied {i : ι} {s t : State ι} (hs : Clean i s) (h : Relied i s t) : Clean i t :=
  ⟨hs.reachable.trans h.commits, h.taken.trans hs.taken, h.littered.trans hs.littered⟩

theorem Described.relied {i : ι} {id : String} {record : Record} {s t : State ι} (hs : Described id record s)
    (h : Relied i s t) : Described id record t := by
  obtain ⟨earlier, hreachable, hcommits, hstat⟩ := hs
  exact ⟨earlier, hreachable, hcommits.trans h.commits, hstat⟩

theorem Published.relied {i : ι} {s t : State ι} (hs : Published xxh3 ids i s) (h : Relied i s t) :
    Published xxh3 ids i t := by
  obtain ⟨content, hentry, hcomplete⟩ := hs
  exact ⟨content, h.destination _ hentry, hcomplete.commits h.commits⟩

theorem Ends.relied {i : ι} {result : Except Raised Unit} {s t : State ι} (hs : Ends xxh3 ids i result s)
    (h : Relied i s t) : Ends xxh3 ids i result t := by
  cases result with
  | ok _ => exact Published.relied hs h
  | error raised =>
      simp only [Ends, h.taken, h.littered]
      exact hs

theorem Returns.relied {i : ι} {result : Except Error Unit} {s t : State ι} (hs : Returns xxh3 ids i result s)
    (h : Relied i s t) : Returns xxh3 ids i result t := by
  cases result with
  | ok _ => exact Published.relied hs h
  | error error =>
      simp only [Returns, h.taken, h.littered]
      exact hs

theorem Clean.ends {i : ι} {s : State ι} (h : Clean i s) (raised : Raised) :
    Ends xxh3 ids i (.error raised) s := by
  intro htaken
  rw [h.taken] at htaken
  cases htaken

theorem complete_of_described {i : ι} {record : Record} {s : State ι} {staged : Bytes}
    (h : Described (ids i) record s) (hsize : ((hashFile xxh3 staged).1 : Int) = record.byteSize)
    (hdigest : TextCell.text (hashFile xxh3 staged).2 = record.digest) : Complete xxh3 (ids i) staged s.db := by
  obtain ⟨earlier, hreachable, hcommits, hstat⟩ := h
  obtain ⟨prepared, hprepares, hreported, _⟩ := Store.stat_reports hreachable .refl hstat
  rw [hashFile_eq] at hsize hdigest
  refine ⟨earlier, prepared, hreachable, hcommits, Store.recorded_of_digest hprepares (fun same hsame => ?_)
    (hsize.trans hreported.byteSize) (TextCell.text.inj (hdigest.trans hreported.digest))⟩
  cases hstat.symm.trans hsame
  exact hreported

variable [DecidableEq ι]

abbrev Rests (xxh3 : Hasher) (storage : String) (ids : ι → String) (i : ι) : Call → State ι → Prop :=
  Safe (server ι xxh3 storage) (Keeps xxh3 ids) (Ends xxh3 ids) i

theorem rests_done {i : ι} {s : State ι} {result : Except Raised Unit} (h : Ends xxh3 ids i result s) :
    Rests xxh3 storage ids i (.done result) s :=
  fun _ ht => h.relied (relied_of_interferes ht)

-- One request: what it can do to the state, and what follows its success.
theorem rests_attempt {i : ι} {s : State ι} {request : Request} {next : Value request → Call}
    (hkeeps : ∀ t, Relied i s t → ∀ u answer, serves xxh3 storage i request t u answer → Keeps xxh3 ids i t u)
    (hnext : ∀ t, Relied i s t → ∀ u value, serves xxh3 storage i request t u (.ok value) →
      Rests xxh3 storage ids i (next value) u)
    (herror : ∀ t, Relied i s t → ∀ u raised, serves xxh3 storage i request t u (.error raised) →
      Ends xxh3 ids i (.error raised) u) :
    Rests xxh3 storage ids i (attempt request next) s := by
  intro t ht
  refine ⟨fun _ u hu => hkeeps u (relied_of_interferes (ht.trans hu)), fun u answer hserved =>
    ⟨hkeeps t (relied_of_interferes ht) u answer hserved, ?_⟩⟩
  cases answer with
  | ok value => exact hnext t (relied_of_interferes ht) u value hserved
  | error raised => exact rests_done (herror t (relied_of_interferes ht) u raised hserved)

-- A request that leaves the state alone.
theorem rests_ask {i : ι} {s : State ι} {request : Request} {next : Value request → Call} (hclean : Clean i s)
    (hplain : ∀ t u answer, serves xxh3 storage i request t u answer → u = t)
    (hnext : ∀ t, Relied i s t → ∀ value, serves xxh3 storage i request t t (.ok value) →
      Rests xxh3 storage ids i (next value) t) :
    Rests xxh3 storage ids i (attempt request next) s := by
  refine rests_attempt (fun t _ u answer hserved => ?_) (fun t ht u value hserved => ?_)
    fun t ht u raised hserved => ?_
  · rw [hplain t u answer hserved]
    exact .refl i t
  · have hsame := hplain t u _ hserved
    subst hsame
    exact hnext u ht value hserved
  · rw [hplain t u _ hserved]
    exact (hclean.relied ht).ends raised

-- The removal of a temporary directory.
theorem rests_within {i : ι} {s : State ι} {body : Call} (h : Rests xxh3 storage ids i body s) :
    Rests xxh3 storage ids i (within body) s := by
  refine Safe.bind h fun result t hends => ?_
  have hserves : ∀ u, ∀ v answer, serves xxh3 storage i .cleanup u v answer → Keeps xxh3 ids i u v := by
    intro u v answer hserved
    rcases hserved with ⟨rfl, _⟩ | ⟨rfl, _⟩
    · exact .refl i v
    · exact keeps_leaves i u
  intro u hu
  refine ⟨fun _ v hv => hserves v, fun v answer hserved => ⟨hserves u v answer hserved, ?_⟩⟩
  rcases hserved with ⟨rfl, rfl⟩ | ⟨rfl, rfl⟩
  · exact rests_done (hends.relied (relied_of_interferes hu))
  · refine rests_done fun _ => ⟨fun hlittered => ?_, fun _ => rfl⟩
    simp only [State.leaves, Function.update_self] at hlittered
    cases hlittered

-- The link publishes the whole staged file where the name was free.
theorem rests_link {i : ι} {s : State ι} {staged : Bytes} (hclean : Clean i s)
    (hcomplete : ∀ t, Relied i s t → Complete xxh3 (ids i) staged t.db) :
    Rests xxh3 storage ids i (attempt (.link staged) fun _ => .done (.ok ())) s := by
  refine rests_attempt (fun t ht u answer hserved => ?_) (fun t ht u value hserved => rests_done ?_)
    fun t ht u raised hserved => ?_
  · rcases hserved with ⟨hnone, rfl, _⟩ | ⟨_, rfl, _⟩ | ⟨rfl, _⟩
    · exact ⟨rfl, rfl, .inr ⟨hnone, staged, rfl, hcomplete t ht⟩, fun _ _ => rfl, fun _ _ => rfl⟩
    · exact keeps_met i t
    · exact .refl i u
  · rcases hserved with ⟨hnone, rfl, _⟩ | ⟨_, _, herror⟩ | ⟨_, herror⟩
    · exact ⟨staged, rfl, hcomplete t ht⟩
    · cases herror
    · cases herror
  · rcases hserved with ⟨hnone, rfl, _⟩ | ⟨_, rfl, herror⟩ | ⟨rfl, _⟩
    · intro htaken
      exact absurd ((hclean.relied ht).taken.symm.trans htaken) nofun
    · cases herror
      intro _
      refine ⟨fun _ => trivial, fun hlittered => ?_⟩
      exact absurd ((hclean.relied ht).littered.symm.trans hlittered) nofun
    · exact (hclean.relied ht).ends raised

-- From the staged copy on.
theorem staged_rests {i : ι} {s : State ι} {record : Record} {verified : Bytes} (hclean : Clean i s)
    (hdescribed : Described (ids i) record s) :
    Rests xxh3 storage ids i (attempt (.copyfileobj verified) fun (staged : Bytes) =>
      attempt (.hashFile staged) fun (found : ℕ × String) =>
      if (found.1 : Int) = record.byteSize ∧ .text found.2 = record.digest then
        attempt (.link staged) fun _ => .done (.ok ())
      else .done (.error (.other (.IntegrityError "Exported copy fails size/XXH3-128 verification")))) s := by
  refine rests_ask hclean (fun _ _ _ h => h) fun t ht staged _ => ?_
  have hclean' := hclean.relied ht
  refine rests_ask hclean' (fun _ _ _ h => h.1) fun u hu found hserved => ?_
  obtain rfl := hserved.2 found rfl
  by_cases hverified : ((hashFile xxh3 staged).1 : Int) = record.byteSize ∧
      .text (hashFile xxh3 staged).2 = record.digest
  · rw [if_pos hverified]
    refine rests_link (hclean'.relied hu) fun v hv => ?_
    exact complete_of_described ((hdescribed.relied ht).relied (hu.trans hv)) hverified.1 hverified.2
  · rw [if_neg hverified]
    exact rests_done ((hclean'.relied hu).ends _)

-- From the early check on.
theorem free_rests {i : ι} {s : State ι} (hclean : Clean i s) :
    Rests xxh3 storage ids i (attempt .isProtected fun (inside : Bool) =>
      if inside then
        .done (.error (.other
          (.ValidationError "Export destination must be outside managed storage/catalog files")))
      else
      attempt (.stat (ids i)) fun (record : Record) =>
      attempt (.materialize (ids i)) fun (verified : Bytes) => within <|
      attempt .temporaryDirectory fun _ => within <|
      attempt (.copyfileobj verified) fun (staged : Bytes) =>
      attempt (.hashFile staged) fun (found : ℕ × String) =>
      if (found.1 : Int) = record.byteSize ∧ .text found.2 = record.digest then
        attempt (.link staged) fun _ => .done (.ok ())
      else .done (.error (.other (.IntegrityError "Exported copy fails size/XXH3-128 verification")))) s := by
  refine rests_ask hclean (fun _ _ _ h => h) fun s₁ h₁ inside _ => ?_
  have hclean₁ := hclean.relied h₁
  cases inside with
  | true => exact rests_done (hclean₁.ends _)
  | false =>
      refine rests_ask hclean₁ (fun _ _ _ h => h.1) fun s₂ h₂ record hstat => ?_
      have hclean₂ := hclean₁.relied h₂
      have hdescribed : Described (ids i) record s₂ := ⟨s₂.db, hclean₂.reachable, .refl, hstat.2 record rfl⟩
      refine rests_ask hclean₂ (fun _ _ _ h => h.1) fun s₃ h₃ verified _ => rests_within ?_
      have hclean₃ := hclean₂.relied h₃
      refine rests_ask hclean₃ (fun _ _ _ h => h) fun s₄ h₄ _ _ => rests_within ?_
      exact staged_rests (hclean₃.relied h₄) (hdescribed.relied (h₃.trans h₄))

theorem copyOut_rests {i : ι} {s : State ι} (hclean : Clean i s) :
    Rests xxh3 storage ids i (copyOut (ids i)) s := by
  refine rests_ask hclean (fun _ _ _ h => h) fun s₁ h₁ _ _ => ?_
  have hclean₁ := hclean.relied h₁
  refine rests_attempt (fun t _ u answer hserved => ?_) (fun t ht u found hserved => ?_)
    fun t ht u raised hserved => ?_
  · rcases hserved with ⟨_, _, rfl⟩ | ⟨_, rfl⟩
    · exact keeps_met i t
    · exact .refl i u
  · rcases hserved with ⟨hfound, _, rfl⟩ | ⟨hfound, rfl⟩
    · cases hfound
      refine rests_done fun _ => ⟨fun _ => rfl, fun hlittered => ?_⟩
      exact absurd ((hclean₁.relied ht).littered.symm.trans hlittered) nofun
    · cases found with
      | true => exact absurd rfl hfound
      | false => exact free_rests (hclean₁.relied ht)
  · rcases hserved with ⟨hfound, _⟩ | ⟨_, rfl⟩
    · cases hfound
    · exact (hclean₁.relied ht).ends raised

theorem exportFile_safe {i : ι} {s : State ι} (hclean : Clean i s) :
    Safe (server ι xxh3 storage) (Keeps xxh3 ids) (Returns xxh3 ids) i (exportFile (ids i)) s := by
  refine Safe.bind (copyOut_rests hclean) fun result t hends u hu => ?_
  refine Returns.relied ?_ (relied_of_interferes hu)
  cases result with
  | ok _ => exact hends
  | error raised =>
      cases raised with
      | FileExistsError => exact fun htaken => ⟨fun _ => rfl, fun h => absurd ((hends htaken).2 h) nofun⟩
      | OSError => exact fun htaken => ⟨fun h => absurd ((hends htaken).1 h) id, fun _ => rfl⟩
      | other error => exact fun htaken => ⟨(hends htaken).1, fun h => absurd ((hends htaken).2 h) nofun⟩

-- Any number of exports to one name, where `before` may already stand.
def exports (ids : ι → String) (db : Catalog) (objects : TextCell → Option Bytes)
    (before : Option (Option Bytes)) : Configuration ι (State ι) Request Reply (Except Error Unit) :=
  { shared := { db := db, objects := objects, destination := before.map .foreign, taken := fun _ => false,
                littered := fun _ => false },
    threads := fun i => .running (exportFile (ids i)) }

-- Export is create-only and all-or-nothing.
theorem export_is_create_only (xxh3 : Hasher) (storage : String) (ids : ι → String) (db : Catalog)
    (hreachable : Reachable db) (objects : TextCell → Option Bytes) (before : Option (Option Bytes))
    (system : Configuration ι (State ι) Request Reply (Except Error Unit))
    (h : Steps (server ι xxh3 storage) (exports ids db objects before) system) :
    (∀ actor after, Step (server ι xxh3 storage) actor system after →
      (∀ entry, system.shared.destination = some entry → after.shared.destination = some entry) ∧
      ∀ i, actor = some i →
        after.shared.db = system.shared.db ∧ after.shared.objects = system.shared.objects) ∧
    (∀ i, system.threads i = .returned (.ok ()) → Published xxh3 ids i system.shared) ∧
    (∀ i content, system.shared.destination = some (.exported i content) →
      Complete xxh3 (ids i) content system.shared.db) ∧
    ∀ i error, system.threads i = .returned (.error error) → system.shared.taken i = true →
      (system.shared.littered i = false → error.isConflictError = true) ∧
      (system.shared.littered i = true → error = failed) := by
  have hidle : ∀ i s, Keeps xxh3 ids i s s := Keeps.refl
  have hstart : Sound (server ι xxh3 storage) (Keeps xxh3 ids) (Returns xxh3 ids)
    (exports ids db objects before) :=
    Sound.of_safe fun i => exportFile_safe ⟨hreachable, rfl, rfl⟩
  have hsound := Steps.sound hidle hidle h hstart
  refine ⟨fun actor after hstep => ?_, fun i hi => ?_, fun i content hentry => ?_, fun i error hi => ?_⟩
  · obtain ⟨_, hcalls, houtside⟩ := hstep.sound hidle hidle hsound
    refine ⟨fun entry hentry => ?_, fun i hi => ⟨(hcalls i hi).db, (hcalls i hi).objects⟩⟩
    cases actor with
    | none => exact (houtside rfl).destination_kept hentry
    | some i => exact (hcalls i rfl).destination_kept hentry
  · have howes := hsound i
    rw [hi] at howes
    exact howes _ .refl
  · have hcomplete := Steps.keeps hidle hidle
      (fun s : State ι => ∀ i content, s.destination = some (.exported i content) →
        Complete xxh3 (ids i) content s.db)
      (fun i s t hs hkeeps j content hentry => ?_) (fun s t hs houtside j content hentry => ?_) h hstart ?_
    · exact hcomplete i content hentry
    · rw [hkeeps.db]
      rcases hkeeps.destination with hsame | ⟨_, published, hpublished, hcomplete⟩
      · exact hs j content (hsame.symm.trans hentry)
      · cases hpublished.symm.trans hentry
        exact hcomplete
    · cases houtside with
      | creates hnone other => cases hentry
      | commits db hcommits objects => exact (hs j content hentry).commits hcommits
    · intro i content hentry
      simp only [exports, Option.map_eq_some_iff] at hentry
      obtain ⟨_, _, hforeign⟩ := hentry
      cases hforeign
  · have howes := hsound i
    rw [hi] at howes
    exact howes _ .refl

-- The letters again, in two exports to one name. The title changes while the first one runs.
def paired : Configuration Bool (State Bool) Request Reply (Except Error Unit) :=
  exports (fun _ => "b1") Store.lettered (fun _ => some Store.letters) none

def retitled : State Bool := { paired.shared with db := Store.relettered }

def linked : State Bool := { retitled with destination := some (.exported false Store.letters) }

theorem materialize_relettered :
    Store.materialize Store.lettersHash "s" Store.lettersBacking "b1" Store.relettered =
    .ok Store.letters := by decide

theorem hashFile_letters :
    hashFile Store.lettersHash Store.letters = (3, "06b05ab6733a618578af5f94892f3950") := by decide

theorem stat_lettered : ∃ record, Store.stat Store.lettered "b1" = .ok record ∧ record.byteSize = 3 ∧
    record.digest = .text "06b05ab6733a618578af5f94892f3950" := by
  have h : (Store.stat Store.lettered "b1").map (fun r => (r.byteSize, r.digest)) =
      .ok (3, .text "06b05ab6733a618578af5f94892f3950") := by decide
  cases hstat : Store.stat Store.lettered "b1" with
  | error error => rw [hstat] at h; cases h
  | ok record =>
      rw [hstat] at h
      simp only [Except.map, Except.ok.injEq, Prod.mk.injEq] at h
      exact ⟨record, rfl, h⟩

-- Up to the link, the first export meets nothing.
theorem performs_link {result : Except Error Unit} {s : State Bool}
    (h : Performs (server Bool Store.lettersHash "s") false
      ((within (within (attempt (.link Store.letters) fun _ => .done (.ok ())))).bind fun result =>
        .done (handled result))
      retitled result s) :
    Performs (server Bool Store.lettersHash "s") false (exportFile "b1") paired.shared result s := by
  obtain ⟨record, hstat, hsize, hdigest⟩ := stat_lettered
  refine .call (.ok ()) rfl (.call (.ok false) (.inr ⟨nofun, rfl⟩) (.call (.ok false) rfl ?_))
  refine .call (.ok record) ⟨rfl, ?_⟩
    (.outside (.commits _ Store.relettered Store.lettered_commits paired.shared.objects) ?_)
  · rintro _ ⟨⟩
    exact hstat
  refine .call (.ok Store.letters) ⟨rfl, ?_⟩ (.call (.ok ()) rfl (.call (.ok Store.letters) rfl ?_))
  · rintro _ ⟨⟩
    exact ⟨_, materialize_relettered⟩
  · have hverified : ((3 : ℕ) : Int) = record.byteSize ∧
      .text "06b05ab6733a618578af5f94892f3950" = record.digest :=
      ⟨hsize.symm, hdigest.symm⟩
    refine .call (.ok (3, "06b05ab6733a618578af5f94892f3950")) ⟨rfl, ?_⟩ ?_
    · rintro _ ⟨⟩
      exact hashFile_letters.symm
    · simp only [if_pos hverified]
      exact h

theorem performs_first :
    Performs (server Bool Store.lettersHash "s") false (exportFile "b1") paired.shared (.ok ()) linked :=
  performs_link (.call (.ok ()) (.inl ⟨rfl, rfl, .inl rfl⟩) (.call (.ok ()) (.inl ⟨rfl, rfl⟩)
    (.call (.ok ()) (.inl ⟨rfl, rfl⟩) .done)))

theorem performs_second : Performs (server Bool Store.lettersHash "s") true (exportFile "b1") linked
    (.error (.ConflictError "Export destination already exists; it is never overwritten")) (linked.met true) :=
  .call (.ok ()) rfl (.call (.ok true) (.inl ⟨rfl, nofun, rfl⟩) .done)

theorem second_export_conflicts : ∃ system error, Steps (server Bool Store.lettersHash "s") paired system ∧
    Published Store.lettersHash (fun _ : Bool => "b1") false system.shared ∧
    system.threads true = .returned (.error error) ∧ error.isConflictError = true := by
  have hfirst : Steps (server Bool Store.lettersHash "s") paired
    (paired.moved linked false (.returned (.ok ()))) :=
    performs_first.steps rfl rfl
  have hsecond : Steps (server Bool Store.lettersHash "s") (paired.moved linked false (.returned (.ok ())))
      ((paired.moved linked false (.returned (.ok ()))).moved (linked.met true) true
        (.returned (.error (.ConflictError "Export destination already exists; it is never overwritten")))) :=
    performs_second.steps rfl rfl
  obtain ⟨-, hpublished, -, hconflicts⟩ :=
    export_is_create_only Store.lettersHash "s" (fun _ => "b1") Store.lettered
    Store.lettered_reachable _ none _ (hfirst.trans hsecond)
  exact ⟨_, _, hfirst.trans hsecond, hpublished false rfl, rfl, (hconflicts true _ rfl rfl).1 rfl⟩

def overtaken : State Bool :=
  State.leaves (State.met { retitled with destination := some (.foreign none) } false) false

theorem littered_export_hides_the_conflict :
    ∃ system, Steps (server Bool Store.lettersHash "s") paired system ∧ system.shared.taken false = true ∧
      system.shared.destination = some (.foreign none) ∧ system.threads false = .returned (.error failed) := by
  have hperforms : Performs (server Bool Store.lettersHash "s") false (exportFile "b1")
    paired.shared (.error failed)
      overtaken :=
    performs_link (.outside (.creates _ rfl none)
      (.call (.error .FileExistsError) (.inr (.inl ⟨nofun, rfl, rfl⟩))
      (.call (.error .OSError) (.inr ⟨rfl, rfl⟩) (.call (.ok ()) (.inl ⟨rfl, rfl⟩) .done))))
  exact ⟨_, hperforms.steps rfl rfl, rfl, rfl, Configuration.threads_moved _ _ _ _⟩

end Exporting

end MeldStore
