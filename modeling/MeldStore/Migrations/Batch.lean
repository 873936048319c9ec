import MeldStore.Migrations.Jobs

namespace MeldStore

open Library Library.Checked Library.Keyed

namespace Migrations

-- The source rows a plan has still to move.
abbrev pending (plan : MetadataMigration) (db : Catalog) : List MetaRow :=
  sourceRows db plan.source.name plan.source.version

-- A source row takes the target version with the transformed metadata, and its
-- blob with it.
def Moves (plan : MetadataMigration) (m : MetaRow) (db after : Catalog) : Prop :=
  m ∈ db.metadata ∧ ∃ values, transformed plan m = .ok values ∧
    (∃ m' ∈ after.metadata, m'.table = m.table ∧ m'.id = m.id ∧ m'.fields = Store.cellsOf values ∧
      (∀ name, name ∉ plan.target.fields.map Prod.fst → m'.fields name = .null) ∧
      m'.schemaVersion = plan.target.version ∧ m'.version = m.version + 1) ∧
    ∃ b ∈ after.blobs, m.id = .text b.id ∧ b.schemaVersion = plan.target.version

variable {plan : MetadataMigration} {db after : Catalog}

theorem mem_pending (m : MetaRow) : m ∈ pending plan db ↔
    m ∈ db.metadata ∧ m.table = plan.source.name ∧ m.schemaVersion = plan.source.version := by
  simp [pending, sourceRows]

theorem target_ne_source (plan : MetadataMigration) : plan.target.version ≠ plan.source.version := by
  have := plan.nextVersion
  omega

-- Two pending rows with one id are one row.
theorem pending_eq (hw : db.Wf) {m n : MetaRow} (hm : m ∈ pending plan db) (hn : n ∈ pending plan db)
    (hid : m.id = n.id) : m = n := by
  rw [mem_pending] at hm hn
  exact hw.meta_eq hm.1 hn.1 (hm.2.1.trans hn.2.1.symm) hid

theorem pending_distinct (hw : db.Wf) :
    (pending plan db).Pairwise fun a b => a.sameKey b = false ∧ b.sameKey a = false := by
  have hkeys : UniqueOn (fun m => some (m.table, m.id)) (pending plan db) := hw.metaKey.filter _
  refine List.Pairwise.imp_of_mem (fun {m n} hm hn h => ?_) hkeys
  rw [mem_pending] at hm hn
  have hne : m.id ≠ n.id := by simpa [hm.2.1, hn.2.1] using h
  constructor <;> rw [Bool.eq_false_iff, ne_eq, sameKey_iff] <;> rintro ⟨_, he⟩
  · exact hne he
  · exact hne he.symm

theorem normalized_names {schema : BlobSchema} {values : BlobSchema.Metadata}
    {result : List (String × Value)} (h : schema.normalizeMetadata values = .ok result) :
    ∀ entry ∈ result, entry.1 ∈ schema.fields.map Prod.fst := by
  simp only [BlobSchema.normalizeMetadata, bind_eq_ok] at h
  obtain ⟨_, _, h⟩ := h
  intro entry hentry
  obtain ⟨field, hfield, hstep⟩ := mapM_mem_result _ _ _ h entry hentry
  simp only [bind_eq_ok, pure_eq_ok] at hstep
  obtain ⟨_, _, rfl⟩ := hstep
  exact List.mem_map_of_mem hfield

theorem cellsOf_undeclared {values : List (String × Value)} {names : List String}
    (h : ∀ entry ∈ values, entry.1 ∈ names) {name : String} (hname : name ∉ names) :
    Store.cellsOf values name = .null := by
  have hnone : (values.find? fun entry => entry.1 = name) = none := by
    refine List.find?_eq_none.mpr fun entry hentry he => hname ?_
    rw [← of_decide_eq_true he]
    exact h entry hentry
  simp [Store.cellsOf, hnone]

-- The columns of a declared target hold every transformed value.
theorem restrictTo_cellsOf {values : List (String × Value)}
    (hdeclared : plan.target ∈ db.declarations plan.source.name)
    (h : ∀ entry ∈ values, entry.1 ∈ plan.target.fields.map Prod.fst) :
    restrictTo (db.columns plan.source.name) (Store.cellsOf values) = Store.cellsOf values := by
  funext name
  unfold restrictTo
  split
  · rfl
  · rename_i hcolumn
    refine (cellsOf_undeclared h fun hname => hcolumn ?_).symm
    obtain ⟨field, hfield, rfl⟩ := List.mem_map.mp hname
    exact List.mem_map_of_mem (mem_columns hdeclared hfield)

-- What one row of a batch leaves.
structure RowMoved (plan : MetadataMigration) (row : MetaRow) (db after : Catalog) : Prop where
  change : MigrationChange db after
  moves : Moves plan row db after
  migrations : after.migrations = db.migrations
  schemas : after.schemas = db.schemas
  pending : pending plan after = (pending plan db).filter fun m => !m.sameKey row
  metadata : ∀ m ∈ db.metadata, m.sameKey row = false → m ∈ after.metadata
  blobs : ∀ b ∈ db.blobs, row.id ≠ .text b.id → b ∈ after.blobs

theorem migrateRow_moves (hw : db.Wf) (hdeclared : plan.target ∈ db.declarations plan.source.name)
    {row : MetaRow} (hrow : row ∈ pending plan db) (h : migrateRow plan db row = .ok after) :
    RowMoved plan row db after := by
  obtain ⟨values, b, old, new, hvalues, hold, htable, hid, hversion, _, hb, hbid, hfields,
    ⟨hntable, hnid, hnversion, hbump⟩, _, rfl, hchange⟩ := migrateRow_effect h
  have hsame : old = row := by
    refine pending_eq hw ?_ hrow hid
    exact (mem_pending old).mpr ⟨hold, htable, hversion⟩
  subst hsame
  have hnames : ∀ entry ∈ values, entry.1 ∈ plan.target.fields.map Prod.fst := by
    simp only [transformed, bind_eq_ok] at hvalues
    obtain ⟨_, _, _, _, hnormal⟩ := hvalues
    exact normalized_names hnormal
  rw [restrictTo_cellsOf hdeclared hnames] at hfields
  refine ⟨hchange, ⟨hold, values, hvalues, ⟨new, ?_, hntable, hnid, hfields, ?_, hnversion, hbump⟩,
    ⟨{ b with schemaVersion := plan.target.version }, ?_, hbid, rfl⟩⟩, rfl, rfl, ?_, ?_, ?_⟩
  · exact (mem_rewrite _ _ _ _).mpr (Or.inr ⟨old, hold, by simp [sameKey_iff], rfl⟩)
  · intro name hname
    rw [hfields]
    exact cellsOf_undeclared hnames hname
  · exact (mem_rewrite _ _ _ _).mpr (Or.inr ⟨b, hb, by simp, rfl⟩)
  · refine filter_rewrite_gone _ _ _ _ fun m _ => ?_
    simp [hnversion, target_ne_source plan]
  · exact fun m hm hne => (mem_rewrite _ _ _ _).mpr (Or.inl ⟨hm, hne⟩)
  · refine fun c hc hne => (mem_rewrite _ _ _ _).mpr (Or.inl ⟨hc, ?_⟩)
    rw [hbid] at hne
    simpa using Ne.symm hne

-- What a loop over distinct pending rows leaves.
structure RowsMoved (plan : MetadataMigration) (rows : List MetaRow) (db after : Catalog) : Prop where
  changes : MigrationChanges db after
  moves : ∀ row ∈ rows, Moves plan row db after
  migrations : after.migrations = db.migrations
  schemas : after.schemas = db.schemas
  pending : pending plan after = (pending plan db).filter fun m => rows.all fun row => !m.sameKey row
  metadata : ∀ m ∈ db.metadata, (∀ row ∈ rows, m.sameKey row = false) → m ∈ after.metadata
  blobs : ∀ b ∈ db.blobs, (∀ row ∈ rows, row.id ≠ .text b.id) → b ∈ after.blobs

theorem migrateRows_moves (rows : List MetaRow) (hw : db.Wf)
    (hdeclared : plan.target ∈ db.declarations plan.source.name)
    (hrows : ∀ row ∈ rows, row ∈ pending plan db)
    (hdistinct : rows.Pairwise fun a b => a.sameKey b = false ∧ b.sameKey a = false)
    (h : rows.foldlM (migrateRow plan) db = .ok after) : RowsMoved plan rows db after := by
  induction rows generalizing db with
  | nil =>
      simp only [List.foldlM_nil, pure_eq_ok] at h
      subst h
      exact { changes := .refl, moves := by simp, migrations := rfl, schemas := rfl,
              pending := by simp, metadata := fun _ hm _ => hm, blobs := fun _ hb _ => hb }
  | cons row rest ih =>
      simp only [List.foldlM_cons, bind_eq_ok] at h
      obtain ⟨mid, hfirst, hrest⟩ := h
      obtain ⟨hhead, htail⟩ := List.pairwise_cons.mp hdistinct
      have hrow := hrows row List.mem_cons_self
      have hone := migrateRow_moves hw hdeclared hrow hfirst
      have hwmid : mid.Wf := (Effect.migration _ hone.change).wf hw
      have hdeclaredMid : plan.target ∈ mid.declarations plan.source.name := by
        simpa only [Catalog.declarations, hone.schemas] using hdeclared
      have hkept : ∀ r ∈ rest, r ∈ pending plan mid := by
        intro r hr
        rw [hone.pending, List.mem_filter]
        exact ⟨hrows r (List.mem_cons_of_mem _ hr), by simp [(hhead r hr).2]⟩
      have hmore := ih hwmid hdeclaredMid hkept htail hrest
      refine ⟨.head hone.change hmore.changes, ?_, hmore.migrations.trans hone.migrations,
        hmore.schemas.trans hone.schemas, ?_, ?_, ?_⟩
      · intro r hr
        rcases List.mem_cons.mp hr with rfl | hr
        · -- later rows have other keys, so they leave this one as it is
          obtain ⟨hmem, values, hvalues, ⟨m', hm', htable, hid, hm'rest⟩, b, hb, hbid, hbversion⟩ := hone.moves
          refine ⟨hmem, values, hvalues, ⟨m', hmore.metadata m' hm' fun other hother => ?_,
            htable, hid, hm'rest⟩, b, hmore.blobs b hb fun other hother => ?_, hbid, hbversion⟩
          · have := (hhead other hother).1
            rw [Bool.eq_false_iff, ne_eq, sameKey_iff] at this ⊢
            rw [htable, hid]
            exact this
          · intro he
            have hsame := (mem_pending r).mp hrow
            have hother' := (mem_pending other).mp (hrows other (List.mem_cons_of_mem _ hother))
            have hkey := (hhead other hother).1
            rw [Bool.eq_false_iff, ne_eq, sameKey_iff] at hkey
            exact hkey ⟨hsame.2.1.trans hother'.2.1.symm, hbid.trans he.symm⟩
        · obtain ⟨_, hmoves⟩ := hmore.moves r hr
          exact ⟨((mem_pending r).mp (hrows r (List.mem_cons_of_mem _ hr))).1, hmoves⟩
      · rw [hmore.pending, hone.pending, List.filter_filter]
        refine List.filter_congr fun m _ => ?_
        rw [List.all_cons, Bool.and_comm]
      · intro m hm hne
        exact hmore.metadata m (hone.metadata m hm (hne row List.mem_cons_self))
          fun other hother => hne other (List.mem_cons_of_mem _ hother)
      · intro b hb hne
        exact hmore.blobs b (hone.blobs b hb (hne row List.mem_cons_self))
          fun other hother => hne other (List.mem_cons_of_mem _ hother)

-- The rows a batch selects.

section Selected

variable (hw : db.Wf) {lastId : Option TextCell} (batchSize : Nat)

theorem mem_selected {row : MetaRow} (h : row ∈ selected db plan lastId batchSize) :
    row ∈ pending plan db ∧ ∀ last ∈ lastId, last < row.id := by
  have := List.mem_of_mem_take h
  rw [List.mem_insertionSort, List.mem_filter] at this
  simpa using this

include hw

theorem selected_distinct :
    (selected db plan lastId batchSize).Pairwise fun a b => a.sameKey b = false ∧ b.sameKey a = false := by
  have hfiltered : ((pending plan db).filter fun m => ∀ last ∈ lastId, last < m.id).Pairwise
      fun a b => a.sameKey b = false ∧ b.sameKey a = false := (pending_distinct hw).filter _
  have hsorted := ((List.perm_insertionSort (fun a b : MetaRow => a.id ≤ b.id) _).pairwise_iff
    fun {a b} (h : a.sameKey b = false ∧ b.sameKey a = false) => ⟨h.2, h.1⟩).mpr hfiltered
  exact hsorted.sublist (List.take_sublist _ _)

-- When no pending row is behind the checkpoint, a batch takes the first rows in
-- the order of their ids and leaves the others, all of them further on.
theorem selected_split (hahead : ∀ last ∈ lastId, ∀ m ∈ pending plan db, last < m.id) :
    ∃ rest, (pending plan db).Perm (selected db plan lastId batchSize ++ rest) ∧
      ((pending plan db).filter fun m =>
        (selected db plan lastId batchSize).all fun row => !m.sameKey row).Perm rest ∧
      ∀ last ∈ (selected db plan lastId batchSize).getLast?, ∀ m ∈ rest, last.id < m.id := by
  have hall : ((pending plan db).filter fun m => ∀ last ∈ lastId, last < m.id) = pending plan db := by
    refine List.filter_eq_self.mpr fun m hm => ?_
    exact decide_eq_true fun last hlast => hahead last hlast m hm
  obtain ⟨sorted, hsortedDef⟩ : ∃ sorted, sorted =
      (pending plan db).insertionSort fun a b => a.id ≤ b.id := ⟨_, rfl⟩
  have hperm : (pending plan db).Perm sorted := by
    rw [hsortedDef]
    exact (List.perm_insertionSort _ _).symm
  have hselected : selected db plan lastId batchSize = sorted.take batchSize := by
    rw [selected, hall, hsortedDef]
  have hsplit := List.take_append_drop batchSize sorted
  have hdistinct : sorted.Pairwise fun a b => a.sameKey b = false ∧ b.sameKey a = false :=
    (hperm.pairwise_iff fun {a b} (h : a.sameKey b = false ∧ b.sameKey a = false) => ⟨h.2, h.1⟩).mp
      (pending_distinct hw)
  have hcross := (List.pairwise_append.mp (hsplit.symm ▸ hdistinct)).2.2
  refine ⟨sorted.drop batchSize, ?_, ?_, ?_⟩
  · rw [hselected, hsplit]
    exact hperm
  · refine (hperm.filter _).trans (List.Perm.of_eq ?_)
    conv_lhs => rw [← hsplit]
    rw [hselected, List.filter_append]
    have htaken : ((sorted.take batchSize).filter fun m =>
        (sorted.take batchSize).all fun row => !m.sameKey row) = [] := by
      refine List.filter_eq_nil_iff.mpr fun m hm hall => ?_
      have := List.all_eq_true.mp hall m hm
      simp [(sameKey_iff m m).mpr ⟨rfl, rfl⟩] at this
    have hleft : ((sorted.drop batchSize).filter fun m =>
        (sorted.take batchSize).all fun row => !m.sameKey row) = sorted.drop batchSize := by
      refine List.filter_eq_self.mpr fun m hm => List.all_eq_true.mpr fun row hrow => ?_
      simp [(hcross row hrow m hm).2]
    rw [htaken, hleft, List.nil_append]
  · intro last hlast m hm
    rw [hselected] at hlast
    have hlastMem := List.mem_of_getLast? hlast
    have htotal : Std.Total fun a b : MetaRow => a.id ≤ b.id := ⟨fun _ _ => le_total _ _⟩
    have htrans : IsTrans MetaRow fun a b => a.id ≤ b.id := ⟨fun _ _ _ => le_trans⟩
    have hordered : sorted.Pairwise fun a b => a.id ≤ b.id := by
      rw [hsortedDef]
      exact List.pairwise_insertionSort _ _
    have hle := (List.pairwise_append.mp (hsplit.symm ▸ hordered)).2.2 last hlastMem m hm
    refine lt_of_le_of_ne hle fun he => ?_
    have hpendingLast := (mem_pending last).mp (hperm.mem_iff.mpr (List.mem_of_mem_take hlastMem))
    have hpendingM := (mem_pending m).mp (hperm.mem_iff.mpr (List.mem_of_mem_drop hm))
    have hkey := (hcross last hlastMem m hm).1
    rw [Bool.eq_false_iff, ne_eq, sameKey_iff] at hkey
    exact hkey ⟨hpendingLast.2.1.trans hpendingM.2.1.symm, he⟩

end Selected

end Migrations

end MeldStore
