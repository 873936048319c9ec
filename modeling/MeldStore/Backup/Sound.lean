import Mathlib.Data.List.Sort
import MeldStore.Backup
import MeldStore.Guards
import MeldStore.Committed
import MeldStore.Migrations.DryRun

namespace MeldStore

open Library Library.Checked Library.Keyed

variable {db after : Catalog}

-- Declarations

theorem orderedInsert_append {α : Type*} {r : α → α → Prop} [DecidableRel r] {a last : α} (h : r a last)
    (l : List α) : List.orderedInsert r a (l ++ [last]) = List.orderedInsert r a l ++ [last] := by
  induction l with
  | nil => simp [List.orderedInsert, h]
  | cons b l ih =>
      simp only [List.cons_append, List.orderedInsert, ih]
      split <;> rfl

theorem insertionSort_append {α : Type*} {r : α → α → Prop} [DecidableRel r] {last : α} (l : List α)
    (h : ∀ a ∈ l, r a last) : (l ++ [last]).insertionSort r = l.insertionSort r ++ [last] := by
  induction l with
  | nil => rfl
  | cons a l ih =>
      simp only [List.cons_append, List.insertionSort_cons]
      rw [ih fun b hb => h b (List.mem_cons_of_mem _ hb), orderedInsert_append (h a List.mem_cons_self)]

theorem declarations_append_other (row : SchemaRow) (hafter : after.schemas = db.schemas ++ [row])
    {name : String} (hne : row.name ≠ name) : after.declarations name = db.declarations name := by
  simp [Catalog.declarations, hafter, List.filter_append, hne]

-- The next version of a schema is declared after all others.
theorem declarations_append_last {row : SchemaRow} (hafter : after.schemas = db.schemas ++ [row])
    (hlast : ∀ s ∈ db.schemas, s.name = row.name → s.version ≤ row.version) :
    after.declarations row.name = db.declarations row.name ++ [row.definition] := by
  simp only [Catalog.declarations, hafter, List.filter_append, List.filter_cons, decide_true, if_true,
    List.filter_nil]
  rw [insertionSort_append, List.map_append]
  · rfl
  · intro s hs
    obtain ⟨hmem, hname⟩ := List.mem_filter.mp hs
    exact hlast s hmem (of_decide_eq_true hname)

-- What the registries of a catalog say of one another, beyond the constraints.
structure Catalog.Registered (db : Catalog) : Prop where
  conforming : db.Conforming
  payload : ∀ s ∈ db.schemas, (s.name, s.version) ∈ db.payloadSchemas
  declared : ∀ s ∈ db.payloadSchemas, db.hasSchema s.1 s.2
  layouts : ∀ name ∈ db.layouts, (∃ s ∈ db.schemas, s.name = name) ∧
    ∃ union, Migrations.layout (db.declarations name) = .ok union
  prepared : ∀ p ∈ db.prepared, db.hasSchema p.schemaName p.schemaVersion
  retired : ∀ r ∈ db.retired, db.hasSchema r.schemaName r.schemaVersion
  gc : ∀ g ∈ db.gc, ∀ id ∈ g.blobId, ∃ r ∈ db.retired, r.blobId = id
  jobs : ∀ j ∈ db.migrations, db.hasSchema j.schemaName j.sourceVersion ∧
    db.hasSchema j.schemaName j.targetVersion
  rebuilt : ∀ j ∈ db.migrations, j.schemaName ∈ db.layouts

theorem Catalog.empty_registered : Catalog.empty.Registered :=
  { conforming := empty_conforming, payload := by simp [empty], declared := by simp [empty],
    layouts := by simp [empty], prepared := by simp [empty], retired := by simp [empty],
    gc := by simp [empty], jobs := by simp [empty], rebuilt := by simp [empty] }

theorem Catalog.Registered.started (hr : db.Registered) : ∀ j ∈ db.migrations,
    (db.hasSchema j.schemaName j.sourceVersion ∧ db.hasSchema j.schemaName j.targetVersion) ∧
      j.schemaName ∈ db.layouts :=
  fun j hj => ⟨hr.jobs j hj, hr.rebuilt j hj⟩

-- A change of rows that leaves the registries alone.
structure SameRegistries (db after : Catalog) : Prop where
  schemas : after.schemas = db.schemas
  payload : after.payloadSchemas = db.payloadSchemas
  layouts : after.layouts = db.layouts

theorem Catalog.Registered.kept (hr : db.Registered) (hsame : SameRegistries db after)
    (hconforming : after.Conforming)
    (hprepared : ∀ p ∈ after.prepared, db.hasSchema p.schemaName p.schemaVersion)
    (hretired : ∀ r ∈ after.retired, db.hasSchema r.schemaName r.schemaVersion)
    (hgc : ∀ g ∈ after.gc, ∀ id ∈ g.blobId, ∃ r ∈ after.retired, r.blobId = id)
    (hjobs : ∀ j ∈ after.migrations, (db.hasSchema j.schemaName j.sourceVersion ∧
      db.hasSchema j.schemaName j.targetVersion) ∧ j.schemaName ∈ db.layouts) : after.Registered := by
  obtain ⟨hschemas, hpayload, hlayouts⟩ := hsame
  have hhas : ∀ name version, after.hasSchema name version ↔ db.hasSchema name version := by
    intro name version
    rw [Catalog.hasSchema, hschemas, Catalog.hasSchema]
  have hdeclarations : ∀ name, after.declarations name = db.declarations name := by
    intro name
    rw [Catalog.declarations, hschemas, Catalog.declarations]
  refine ⟨hconforming, ?_, ?_, ?_, ?_, ?_, hgc, ?_, hlayouts ▸ fun j hj => (hjobs j hj).2⟩
  · rw [hschemas, hpayload]
    exact hr.payload
  · rw [hpayload]
    exact fun s hs => (hhas _ _).mpr (hr.declared s hs)
  · rw [hlayouts, hschemas]
    exact fun name hname => hdeclarations name ▸ hr.layouts name hname
  · exact fun p hp => (hhas _ _).mpr (hprepared p hp)
  · exact fun r hmem => (hhas _ _).mpr (hretired r hmem)
  · exact fun j hj => ⟨(hhas _ _).mpr (hjobs j hj).1.1, (hhas _ _).mpr (hjobs j hj).1.2⟩

theorem Installs.registered {schema : BlobSchema} (hr : db.Registered) (h : Installs db schema after) :
    after.Registered := by
  have hconforming := h.conforming hr.conforming
  obtain ⟨schemas, guards, payload, rfl, hschemas, hpayload⟩ := h
  have hmono : ∀ s ∈ db.schemas, s ∈ db.schemas ++ schemas := fun _ hs => List.mem_append_left _ hs
  refine ⟨hconforming, fun s hs => ?_, fun s hs => ?_, fun name hname => ?_, fun p hp => ?_, fun r hmem => ?_,
    hr.gc, fun j hj => ?_, hr.rebuilt⟩
  · rcases List.mem_append.mp hs with hs | hs
    · exact List.mem_append_left _ (hr.payload s hs)
    · rcases hschemas with ⟨rfl, _⟩ | ⟨rfl, _⟩
      · cases hs
      · rw [List.mem_singleton.mp hs]
        rcases hpayload with ⟨rfl, rfl, _, henrolled⟩ | ⟨rfl, rfl, _⟩
        · exact List.mem_append_left _ henrolled
        · exact List.mem_append_right _ (List.mem_singleton.mpr rfl)
  · rcases List.mem_append.mp hs with hold | hnew
    · exact hasSchema_mono hmono (hr.declared s hold)
    · rcases hpayload with ⟨rfl, rfl, _⟩ | ⟨rfl, rfl, _⟩
      · cases hnew
      · rw [List.mem_singleton.mp hnew]
        rcases hschemas with ⟨rfl, hfound⟩ | ⟨rfl, _⟩
        · obtain ⟨row, hrow, _⟩ := Option.map_eq_some_iff.mp hfound
          obtain ⟨hmem, hname, hversion⟩ := mem_of_schema? hrow
          exact ⟨row, hmono row hmem, hname, hversion⟩
        · exact ⟨_, List.mem_append_right _ (List.mem_singleton.mpr rfl), rfl, rfl⟩
  · obtain ⟨⟨s, hs, hsname⟩, hlayout⟩ := hr.layouts name hname
    refine ⟨⟨s, hmono s hs, hsname⟩, ?_⟩
    rcases hschemas with ⟨rfl, _⟩ | ⟨rfl, hfresh, hone⟩
    · simpa [Catalog.declarations] using hlayout
    · -- a table that has been rebuilt has a first version already
      have hne : schema.name ≠ name := by
        rintro rfl
        have hfirst := hr.conforming.first s hs
        rw [hsname, ← hone] at hfirst
        exact hfresh hfirst
      refine (congrArg (fun schemas => ∃ union, Migrations.layout schemas = .ok union)
        (declarations_append_other ⟨schema.name, schema.version, schema⟩ ?_ hne)).mpr hlayout
      rfl
  · exact hasSchema_mono hmono (hr.prepared p hp)
  · exact hasSchema_mono hmono (hr.retired r hmem)
  · exact ⟨hasSchema_mono hmono (hr.jobs j hj).1, hasSchema_mono hmono (hr.jobs j hj).2⟩

-- A migration declares its target after all other versions.
theorem declarations_started {plan : MetadataMigration} (hw : db.Wf)
    (hlatest : db.latestVersion plan.source.name = some plan.source.version) :
    (Migrations.started plan db).declarations plan.source.name = db.declarations plan.source.name ++
    [plan.target] := by
  obtain ⟨row, hschemas, hrow⟩ : ∃ row, (Migrations.started plan db).schemas = db.schemas ++ [row] ∧
      row = { name := plan.target.name, version := plan.target.version, definition := plan.target } :=
    ⟨_, rfl, rfl⟩
  have hlast : ∀ s ∈ db.schemas, s.name = row.name → s.version ≤ row.version := by
    intro s hs hname
    have hbound := (Catalog.latestVersion_isLatest hw hlatest).2 s hs
    rw [hrow] at hname ⊢
    show s.version ≤ plan.target.version
    have := hbound (hname.trans plan.sameSchema.symm)
    have := plan.nextVersion
    omega
  have hdeclarations := declarations_append_last hschemas hlast
  rw [hrow, ← plan.sameSchema] at hdeclarations
  exact hdeclarations

theorem declarations_started_other {plan : MetadataMigration} {name : String} (hne : plan.source.name ≠ name) :
    (Migrations.started plan db).declarations name = db.declarations name := by
  refine declarations_append_other ⟨plan.target.name, plan.target.version, plan.target⟩ rfl ?_
  rw [← plan.sameSchema]
  exact hne

theorem started_registered {plan : MetadataMigration} (hw : db.Wf) (hr : db.Registered)
    (hconforming : (Migrations.started plan db).Conforming)
    (hlatest : db.latestVersion plan.source.name = some plan.source.version)
    (hlayout : ∃ union, Migrations.layout (db.declarations plan.source.name ++ [plan.target]) = .ok union) :
    (Migrations.started plan db).Registered := by
  have hmono : ∀ s ∈ db.schemas, s ∈ (Migrations.started plan db).schemas :=
    fun _ hs => List.mem_append_left _ hs
  have hsource : db.hasSchema plan.source.name plan.source.version :=
    (Catalog.latestVersion_isLatest hw hlatest).1
  have htarget : (Migrations.started plan db).hasSchema plan.target.name plan.target.version :=
    ⟨_, List.mem_append_right _ (List.mem_singleton.mpr rfl), rfl, rfl⟩
  refine ⟨hconforming, fun s hs => ?_, fun s hs => ?_, fun name hname => ?_,
    fun p hp => hasSchema_mono hmono (hr.prepared p hp), fun r hmem => hasSchema_mono hmono (hr.retired r hmem),
    hr.gc, fun j hj => ?_, fun j hj => ?_⟩
  · rcases List.mem_append.mp hs with hs | hs
    · exact List.mem_append_left _ (hr.payload s hs)
    · rw [List.mem_singleton.mp hs]
      exact List.mem_append_right _ (List.mem_singleton.mpr rfl)
  · rcases List.mem_append.mp hs with hold | hnew
    · exact hasSchema_mono hmono (hr.declared s hold)
    · rw [List.mem_singleton.mp hnew]
      exact htarget
  · by_cases hsame : plan.source.name = name
    · subst hsame
      obtain ⟨s, hs, hsname, _⟩ := hsource
      refine ⟨⟨s, hmono s hs, hsname⟩, ?_⟩
      rw [declarations_started hw hlatest]
      exact hlayout
    · have hold : name ∈ db.layouts := by
        have hmem : name ∈ if db.evolved plan.source.name then db.layouts
          else db.layouts ++ [plan.source.name] :=
          hname
        split at hmem
        · exact hmem
        · exact (List.mem_append.mp hmem).resolve_right fun h => hsame (List.mem_singleton.mp h).symm
      obtain ⟨⟨s, hs, hsname⟩, hunion⟩ := hr.layouts name hold
      refine ⟨⟨s, hmono s hs, hsname⟩, ?_⟩
      rw [declarations_started_other hsame]
      exact hunion
  · rcases List.mem_append.mp hj with hj | hj
    · exact ⟨hasSchema_mono hmono (hr.jobs j hj).1, hasSchema_mono hmono (hr.jobs j hj).2⟩
    · rw [List.mem_singleton.mp hj]
      refine ⟨hasSchema_mono hmono hsource, ?_⟩
      rw [← plan.sameSchema] at htarget
      exact htarget
  · show j.schemaName ∈ if db.evolved plan.source.name then db.layouts else db.layouts ++ [plan.source.name]
    split_ifs with hevolved
    · rcases List.mem_append.mp hj with hj | hj
      · exact hr.rebuilt j hj
      · rw [List.mem_singleton.mp hj]
        exact (evolved_iff _ _).mp hevolved
    · rcases List.mem_append.mp hj with hj | hj
      · exact List.mem_append_left _ (hr.rebuilt j hj)
      · rw [List.mem_singleton.mp hj]
        exact List.mem_append_right _ (List.mem_singleton.mpr rfl)

theorem RowChange.registered (hr : db.Registered) (hconforming : after.Conforming) (h : RowChange db after) :
    after.Registered := by
  have hadded : ∀ g : GcRow, g.blobId = none → ∀ other ∈ db.gc ++ [g], ∀ id ∈ other.blobId,
      ∃ r ∈ db.retired, r.blobId = id := by
    intro g hnone other hother id hid
    rcases List.mem_append.mp hother with hother | hother
    · exact hr.gc other hother id hid
    · rw [List.mem_singleton.mp hother, hnone] at hid
      cases hid
  cases h with
  | finalized | published | edited =>
      exact hr.kept ⟨rfl, rfl, rfl⟩ hconforming hr.prepared hr.retired hr.gc hr.started
  | retired b o p m r g _ _ _ _ hretired hg _ hdeclared =>
      refine hr.kept ⟨rfl, rfl, rfl⟩ hconforming hr.prepared (fun other hother => ?_)
        (fun other hother id hid => ?_)
        hr.started
      · rcases List.mem_append.mp hother with hother | hother
        · exact hr.retired other hother
        · exact List.mem_singleton.mp hother ▸ hdeclared
      · rcases List.mem_append.mp hother with hother | hother
        · obtain ⟨found, hfound, hfoundId⟩ := hr.gc other hother id hid
          exact ⟨found, List.mem_append_left _ hfound, hfoundId⟩
        · rw [List.mem_singleton.mp hother, hg] at hid
          exact ⟨r, List.mem_append_right _ (List.mem_singleton.mpr rfl),
            hretired.1.trans (Option.mem_some_iff.mp hid)⟩
  | discarded p g _ hg =>
      exact hr.kept ⟨rfl, rfl, rfl⟩ hconforming hr.prepared hr.retired (hadded g (by rw [hg])) hr.started
  | orphaned g _ hblob =>
      exact hr.kept ⟨rfl, rfl, rfl⟩ hconforming hr.prepared hr.retired (hadded g hblob) hr.started

theorem Effect.registered (hw : db.Wf) (hr : db.Registered) (h : Effect db after) : after.Registered := by
  have hconforming := h.conforming hw hr.conforming
  cases h with
  | installed schema _ h => exact h.registered hr
  | enrolled => exact hr.kept ⟨rfl, rfl, rfl⟩ hconforming hr.prepared hr.retired hr.gc hr.started
  | rows _ h => exact h.registered hr hconforming
  | migration _ h =>
      cases h with
      | initialized plan _ hlatest _ _ _ _ hlayout =>
          exact started_registered hw hr hconforming hlatest hlayout
      | moved => exact hr.kept ⟨rfl, rfl, rfl⟩ hconforming hr.prepared hr.retired hr.gc hr.started
      | progressed =>
          refine hr.kept ⟨rfl, rfl, rfl⟩ hconforming hr.prepared hr.retired hr.gc fun j hj => ?_
          rcases (mem_rewrite _ _ _ _).mp hj with ⟨hj, _⟩ | ⟨old, hold, _, rfl⟩
          · exact hr.started j hj
          · exact hr.started old hold

theorem Change.registered (hw : db.Wf) (hr : db.Registered) (h : Change db after) : after.Registered := by
  rcases h with h | ⟨prepared, h⟩ | h
  · exact h.registered hw hr
  · obtain ⟨_, _, _, _, _, _, hschema⟩ := h
    refine hr.kept ⟨rfl, rfl, rfl⟩ (hr.conforming.kept rfl rfl hr.conforming.rows)
      (fun p hp => ?_) hr.retired hr.gc
      hr.started
    rcases List.mem_append.mp hp with hp | hp
    · exact hr.prepared p hp
    · exact List.mem_singleton.mp hp ▸ hschema
  · obtain ⟨old, new, hold, _, hnew⟩ := h
    refine hr.kept ⟨rfl, rfl, rfl⟩ (hr.conforming.kept rfl rfl hr.conforming.rows) hr.prepared hr.retired
      (fun g hg id hid => ?_) hr.started
    rcases (mem_rewrite _ _ _ _).mp hg with ⟨hg, _⟩ | ⟨_, _, _, rfl⟩
    · exact hr.gc g hg id hid
    · rw [hnew] at hid
      exact hr.gc old hold id hid

theorem Changes.registered (hw : db.Wf) (hr : db.Registered) (h : Changes db after) : after.Registered :=
  (Runs.invariant (fun db : Catalog => db.Wf ∧ db.Registered)
    (fun _ _ hs h => ⟨h.wf hs.1, h.registered hs.1 hs.2⟩) h ⟨hw, hr⟩).2

namespace Backup

-- One committed transaction of a store on schemas that Store.install_schema has
-- installed. _prepare_snapshot draws the token and the name of an object as 32
-- hexadecimal digits, and hash_file gives its size and hash.
inductive Operates (db : Catalog) : Catalog → Prop
  | writes (actions : List Action) (after : Catalog)
      (hwrites : ∀ action ∈ actions, action.migrates = false)
      (h : transact actions db = .ok after) : Operates db after
  | begins (plan : MetadataMigration) (after : Catalog) (henrolled : plan.source.name ∈ db.lifecycleSchemas)
      (h : transact [.initializeJob plan] db = .ok after) : Operates db after
  | moves (plan : MetadataMigration) (batchSize : Nat) (after : Catalog)
      (h : transact [.batch plan batchSize] db = .ok after) : Operates db after
  | journaling (schema : BlobSchema) (storage token key : String) (byteSize : Int) (digest : String)
      (encoding : Option Encoding) (after : Catalog)
      (hdrawn : hexadecimal token.toList = true ∧ hexadecimal key.toList = true)
      (hfile : 0 ≤ byteSize ∧ byteSize < 2 ^ 63 ∧ hexadecimal digest.toList = true)
      (hsealed : (Store.prepareSnapshot storage token key schema byteSize digest encoding).Sealed)
      (h : Store.journal db schema (Store.prepareSnapshot storage token key schema byteSize digest encoding) =
        .ok after)
      (hkeys : after.DeferredKeys) : Operates db after
  | recording (job : GcRow) (error : Option String) (after : Catalog)
      (h : Maintenance.recordCleanup job error db = .ok after) : Operates db after

-- The catalogs a store leaves: its first schema creates the fixed objects.
def Operated (db : Catalog) : Prop :=
  ∃ schema first, transact [.installSchema schema] Catalog.empty = .ok first ∧ Runs.Run Operates first db

theorem Operates.commit (h : Operates db after) : Commit db after := by
  cases h with
  | writes actions _ _ h => exact .transaction actions _ h
  | begins plan _ _ h => exact .transaction _ _ h
  | moves plan batchSize _ h => exact .transaction _ _ h
  | journaling schema storage token key byteSize digest encoding _ _ _ hsealed h hkeys =>
      exact .journaling schema _ _ hsealed h hkeys
  | recording job error _ h => exact .recording job error _ h

structure Drawn (p : PreparedRow) : Prop where
  token : ∃ token, p.token = .text token ∧ hexadecimal token.toList = true
  key : keyPattern p.objectKey = true
  digest : ∃ digest, p.digest = .text digest ∧ hexadecimal digest.toList = true
  size : 0 ≤ p.byteSize ∧ p.byteSize < 2 ^ 63

structure Sound (db : Catalog) : Prop where
  settled : db.Settled
  registered : db.Registered
  enrolled : db.Enrolled
  drawn : ∀ p ∈ db.prepared, Drawn p
  identified : ∀ b ∈ db.blobs, identifier b.id = .ok b.id

theorem RowChange.identified (hi : ∀ b ∈ db.blobs, identifier b.id = .ok b.id) (h : RowChange db after) :
    ∀ b ∈ after.blobs, identifier b.id = .ok b.id := by
  cases h with
  | finalized schema b m o p _ _ _ _ _ _ _ _ _ _ _ _ _ _ hidentifier =>
      intro other hother
      rcases List.mem_append.mp hother with hother | hother
      · exact hi other hother
      · exact List.mem_singleton.mp hother ▸ hidentifier
  | published b hb =>
      intro other hother
      rcases (mem_rewrite _ _ _ _).mp hother with ⟨hother, _⟩ | ⟨_, _, _, rfl⟩
      · exact hi other hother
      · exact hi b hb
  | retired => exact fun other hother => hi other (List.mem_filter.mp hother).1
  | edited | discarded | orphaned => exact hi

theorem Change.identified (hi : ∀ b ∈ db.blobs, identifier b.id = .ok b.id) (h : Change db after) :
    ∀ b ∈ after.blobs, identifier b.id = .ok b.id := by
  rcases h with h | ⟨_, h⟩ | h
  · cases h with
    | installed _ _ h =>
        obtain ⟨_, _, _, rfl, _⟩ := h
        exact hi
    | enrolled => exact hi
    | rows _ h => exact RowChange.identified hi h
    | migration _ h =>
        cases h with
        | moved plan b _ _ _ hb =>
            intro other hother
            rcases (mem_rewrite _ _ _ _).mp hother with ⟨hother, _⟩ | ⟨_, _, _, rfl⟩
            · exact hi other hother
            · exact hi b hb
        | initialized | progressed => exact hi
  · cases h
    exact hi
  · cases h
    exact hi

theorem transact_enrolled {actions : List Action} (hw : db.Wf) (he : db.Enrolled)
    (hwrites : ∀ action ∈ actions, action.migrates = false) (h : transact actions db = .ok after) :
    after.Enrolled := by
  refine (foldlM_invariant (fun now : Catalog => now.Wf ∧ now.Enrolled) _ actions db _
    (Migrations.transact_eq_ok h).1 ⟨hw, he⟩ fun action haction before next hbefore hstep => ?_).2
  refine ⟨exec_wf hbefore.1 hstep, exec_enrolled hbefore.1 hbefore.2 hstep fun plan hplan => ?_⟩
  have hfalse := hwrites action haction
  rw [hplan] at hfalse
  cases hfalse

theorem keyPattern_of_drawn {key : String} (h : hexadecimal key.toList = true) :
    keyPattern (.text ("objects/" ++ key)) = true := by
  have hlist : ("objects/" ++ key).toList = "objects/".toList ++ key.toList := String.toList_append ..
  have hdrop : ("objects/".toList ++ key.toList).drop 8 = key.toList := List.drop_left' rfl
  simp only [keyPattern, hlist, hdrop, h, Bool.and_true, List.isPrefixOf_iff_prefix]
  exact List.prefix_append _ _

theorem Operates.sound (hs : Sound db) (h : Operates db after) : Sound after := by
  have hsettled := h.commit.settled hs.settled
  have hchanges := h.commit.changes hs.settled.wf
  have hregistered := hchanges.registered hs.settled.wf hs.registered
  have hidentified := Runs.invariant _ (fun _ _ hi h => Change.identified hi h) hchanges hs.identified
  have hdrawn : after.prepared = db.prepared → ∀ p ∈ after.prepared, Drawn p := fun he => he ▸ hs.drawn
  cases h with
  | writes actions _ hwrites h =>
      exact ⟨hsettled, hregistered, transact_enrolled hs.settled.wf hs.enrolled hwrites h,
        hdrawn (transact_effects hs.settled.wf h).1.prepared_kept, hidentified⟩
  | begins plan _ henrolled h =>
      refine ⟨hsettled, hregistered, ?_, hdrawn (transact_effects hs.settled.wf h).1.prepared_kept, hidentified⟩
      exact exec_enrolled hs.settled.wf hs.enrolled (Migrations.transact_single h).1 fun other hother => by
        cases hother
        exact henrolled
  | moves plan batchSize _ h =>
      refine ⟨hsettled, hregistered, ?_, hdrawn (transact_effects hs.settled.wf h).1.prepared_kept, hidentified⟩
      exact exec_enrolled hs.settled.wf hs.enrolled (Migrations.transact_single h).1
        fun _ hother => by cases hother
  | journaling schema storage token key byteSize digest encoding _ hnames hfile _ h _ =>
      obtain ⟨_, _, _, _, _, _, _⟩ := journal_effect h
      refine ⟨hsettled, hregistered, hs.enrolled, fun p hp => ?_, hidentified⟩
      rcases List.mem_append.mp hp with hp | hp
      · exact hs.drawn p hp
      · rw [List.mem_singleton.mp hp]
        exact ⟨⟨token, rfl, hnames.1⟩, keyPattern_of_drawn hnames.2, ⟨digest, rfl, hfile.2.2⟩,
          hfile.1, hfile.2.1⟩
  | recording job error _ h =>
      rcases recordCleanup_effect h with rfl | ⟨_, _, _, _, rfl, _⟩ <;>
        exact ⟨hsettled, hregistered, hs.enrolled, hs.drawn, hidentified⟩

theorem empty_sound : Sound Catalog.empty :=
  { settled := Catalog.empty_settled, registered := Catalog.empty_registered,
    enrolled := by simp [Catalog.Enrolled, Catalog.empty], drawn := by simp [Catalog.empty],
    identified := by simp [Catalog.empty] }

theorem Operated.sound (h : Operated db) : Sound db := by
  obtain ⟨schema, first, hfirst, hrun⟩ := h
  have hinstall : Operates Catalog.empty first :=
    .writes [.installSchema schema] first (by simp [Action.migrates]) hfirst
  exact Runs.invariant Sound (fun _ _ hs h => h.sound hs) hrun (hinstall.sound empty_sound)

end Backup

end MeldStore
