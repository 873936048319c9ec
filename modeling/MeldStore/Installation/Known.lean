import MeldStore.Installation.Standing

namespace MeldStore

open Library Library.Checked Rebuild Rebuild.SqlObject

-- The reserved names as a set of objects: what each installer reads and adds

-- No two names of the set differ in case only.
def Distinct (known : Set SqlObject) : Prop :=
  ∀ o ∈ known, reserved o.name = true ∧ ∀ other ∈ known, sameName o.name other.name → o = other

theorem Distinct.mono {known more : Set SqlObject} (h : Distinct more) (hsub : known ⊆ more) : Distinct known :=
  fun o ho => ⟨(h o (hsub ho)).1, fun other hother => (h o (hsub ho)).2 other (hsub hother)⟩

def listed (objects : List SqlObject) : Set SqlObject := { o | o ∈ objects }

structure Holds (known : Set SqlObject) (database : Rebuild.Database) : Prop where
  objects : ∀ o, reserved o.name = true → (o ∈ database.objects ↔ o ∈ known)
  distinct : Distinct known

theorem reserved_of_sameName {a b : String} (h : sameName a b) (hb : reserved b = true) :
    reserved a = true := by
  rw [reserved, h]
  exact hb

section

variable {known : Set SqlObject} {database : Rebuild.Database} {name sql : String}

theorem Holds.lookup (h : Holds known database) (hname : reserved name = true) :
    objectsOf database name = some sql ↔ ∃ o ∈ known, o.name = name ∧ o.sql = sql := by
  have hinternal := reserved_not_internal hname
  rw [objectsOf, Option.map_eq_some_iff]
  constructor
  · rintro ⟨o, hlast, hsql⟩
    obtain ⟨hmem, htest⟩ := List.mem_filter.mp (List.mem_of_getLast? hlast)
    simp only [Bool.and_eq_true, decide_eq_true_eq] at htest
    exact ⟨o, (h.objects o (htest.1 ▸ hname)).mp hmem, htest.1, hsql⟩
  · rintro ⟨o, ho, hsame, hsql⟩
    have hmem : o ∈ database.objects.filter fun o => o.name = name && !isInternal o.name := by
      refine List.mem_filter.mpr ⟨(h.objects o (hsame ▸ hname)).mpr ho, ?_⟩
      simp [hsame, hinternal]
    cases hlast : (database.objects.filter fun o => o.name = name && !isInternal o.name).getLast? with
    | none => exact absurd (List.getLast?_eq_none_iff.mp hlast ▸ hmem) List.not_mem_nil
    | some last =>
        obtain ⟨hmem', htest⟩ := List.mem_filter.mp (List.mem_of_getLast? hlast)
        simp only [Bool.and_eq_true, decide_eq_true_eq] at htest
        have hlast' := (h.objects last (htest.1 ▸ hname)).mp hmem'
        have hnames : o.name = last.name := hsame.trans htest.1.symm
        obtain rfl := (h.distinct o ho).2 last hlast' (congrArg asciiLower hnames)
        exact ⟨o, rfl, hsql⟩

theorem Holds.missing (h : Holds known database) (hname : reserved name = true) :
    objectsOf database name = none ↔ ∀ o ∈ known, o.name ≠ name := by
  constructor
  · intro hnone o ho hsame
    have hfound := (@Holds.lookup _ _ _ o.sql h hname).mpr ⟨o, ho, hsame, rfl⟩
    rw [hnone] at hfound
    cases hfound
  · intro hnew
    cases hfound : objectsOf database name with
    | none => rfl
    | some sql =>
        obtain ⟨o, ho, hsame, _⟩ := (h.lookup hname).mp hfound
        exact absurd hsame (hnew o ho)

theorem Holds.verifies (h : Holds known database) {expected : Ddl}
    (hexpected : ∀ entry ∈ expected, ∃ o ∈ known, o.name = entry.1 ∧ o.sql = entry.2) :
    verifyObjects (objectsOf database) expected = .ok () := by
  refine verifyObjects_eq_ok.mpr fun entry hentry => ?_
  obtain ⟨o, ho, hname, hsql⟩ := hexpected entry hentry
  exact (h.lookup (hname ▸ (h.distinct o ho).1)).mpr ⟨o, ho, hname, hsql⟩

-- Only the reserved objects and the rows of the format tables matter to the installers.
theorem Holds.congr {after : Rebuild.Database} (h : Holds known database)
    (hobjects : ∀ o, reserved o.name = true → (o ∈ after.objects ↔ o ∈ database.objects)) : Holds known after :=
  ⟨fun o ho => (hobjects o ho).trans (h.objects o ho), h.distinct⟩

end

-- Every object comes after the table it is on.
def Ordered (objects : List SqlObject) : List SqlObject → Prop
  | [] => True
  | o :: rest => o.AttachedIn objects ∧ Ordered (objects ++ [o]) rest

instance Ordered.decidable : (objects rest : List SqlObject) → Decidable (Ordered objects rest)
  | _, [] => isTrue trivial
  | objects, o :: rest => @instDecidableAnd _ _ _ (Ordered.decidable (objects ++ [o]) rest)

theorem attachedIn_mono {o : SqlObject} {objects more : List SqlObject} (h : o.AttachedIn objects)
    (hsub : ∀ t ∈ objects, t ∈ more) : o.AttachedIn more := by
  unfold AttachedIn at h ⊢
  cases htype : o.type with
  | table => trivial
  | view => trivial
  | index =>
      rw [htype] at h
      obtain ⟨t, ht, hrest⟩ := h
      exact ⟨t, hsub t ht, hrest⟩
  | trigger =>
      rw [htype] at h
      obtain ⟨t, ht, hrest⟩ := h
      exact ⟨t, hsub t ht, hrest⟩

theorem Ordered.mono {objects more rest : List SqlObject} (h : Ordered objects rest)
    (hsub : ∀ t ∈ objects, t ∈ more) : Ordered more rest := by
  induction rest generalizing objects more with
  | nil => trivial
  | cons o rest ih =>
      refine ⟨attachedIn_mono h.1 hsub, ih h.2 fun t ht => ?_⟩
      rcases List.mem_append.mp ht with hold | hnew
      · exact List.mem_append_left _ (hsub t hold)
      · exact List.mem_append_right _ hnew

theorem ordered_objectOf {objects : List SqlObject} {table : String} {ddl : Ddl}
    (h : ∃ t ∈ objects, t.type = .table ∧ t.name = table) : Ordered objects (ddl.map (objectOf table)) := by
  induction ddl generalizing objects with
  | nil => trivial
  | cons entry ddl ih =>
      obtain ⟨t, ht, hrest⟩ := h
      exact ⟨attachedIn_objectOf ⟨t, ht, hrest⟩, ih ⟨t, List.mem_append_left _ ht, hrest⟩⟩

-- What the statements of an installer leave.
structure Executed (news : List SqlObject) (s after : SqlCatalog) : Prop where
  objects : after.database.objects = s.database.objects ++ news
  temp : after.database.temp = s.database.temp
  created : ∀ o ∈ news, o.type = .table → after.database.rows o.name = []
  others : ∀ table, (∀ o ∈ news, o.type = .table → o.name ≠ table) →
    after.database.rows table = s.database.rows table
  rows : after.rows = s.rows

theorem exists_execute {known : Set SqlObject} {s : SqlCatalog} {object : String × String → SqlObject}
    {ddl : Ddl} (h : Holds known s.database) (hdistinct : Distinct (known ∪ listed (ddl.map object)))
    (hnew : ∀ o ∈ ddl.map object, o ∉ known) (hnodup : (ddl.map object).Nodup)
    (hordered : Ordered s.database.objects (ddl.map object)) :
    ∃ after, s.execute object ddl = .ok after ∧ Executed (ddl.map object) s after := by
  have hfree : ∀ other ∈ s.database.objects, ∀ o ∈ ddl.map object, ¬other.Clashes o := by
    intro other hother o ho hclash
    have hreserved := (hdistinct o (.inr ho)).1
    have hknown := (h.objects other (reserved_of_sameName hclash.1 hreserved)).mp hother
    have hsame := (hdistinct other (.inl hknown)).2 o (.inr ho) hclash.1
    exact hnew o ho (hsame ▸ hknown)
  have hpairwise : (ddl.map object).Pairwise fun a b => ¬a.Clashes b := by
    refine hnodup.imp_of_mem fun {a b} ha hb hne hclash => hne ?_
    exact (hdistinct a (.inr ha)).2 b (.inr hb) hclash.1
  clear hnodup hnew hdistinct h
  induction ddl generalizing s with
  | nil => exact ⟨s, rfl, (List.append_nil _).symm, rfl, by simp, fun _ _ => rfl, rfl⟩
  | cons entry ddl ih =>
      obtain ⟨database, hcreate, hobjects, htemp, hrows⟩ := exists_create
        (fun other hother => hfree other hother _ List.mem_cons_self) hordered.1
      obtain ⟨hfirst, hrest⟩ := List.pairwise_cons.mp hpairwise
      obtain ⟨after, hexecute, hafter⟩ := ih (s := { s with database := database, writes := s.writes + 1 })
        (by simpa only [hobjects] using hordered.2) (fun other hother o ho => by
          rcases List.mem_append.mp (hobjects ▸ hother) with hold | hadded
          · exact hfree other hold o (List.mem_cons_of_mem _ ho)
          · exact List.mem_singleton.mp hadded ▸ hfirst o ho) hrest
      have hone : s.statement (create (object entry)) =
        .ok { s with database := database, writes := s.writes + 1 } := by
        rw [SqlCatalog.statement, hcreate]
        rfl
      refine ⟨after, ?_, ?_, hafter.temp.trans htemp, fun o ho htype => ?_, fun table hother => ?_, hafter.rows⟩
      · rw [SqlCatalog.execute, List.foldlM_cons, hone]
        exact hexecute
      · rw [hafter.objects]
        show database.objects ++ _ = _
        rw [hobjects, List.append_assoc]
        rfl
      · by_cases hlater : ∃ later ∈ ddl.map object, later.type = .table ∧ later.name = o.name
        · obtain ⟨later, hlater, htable, hname⟩ := hlater
          rw [← hname]
          exact hafter.created later hlater htable
        · rcases List.mem_cons.mp ho with rfl | ho
          · rw [hafter.others _ fun later hmem htable hname => hlater ⟨later, hmem, htable, hname⟩]
            show database.rows _ = _
            rw [hrows, if_pos htype, Function.update_self]
          · exact absurd ⟨o, ho, htype, rfl⟩ hlater
      · rw [hafter.others table fun o ho => hother o (List.mem_cons_of_mem _ ho)]
        show database.rows _ = _
        rw [hrows]
        split_ifs with htype
        · rw [Function.update_of_ne (hother _ List.mem_cons_self htype).symm]
        · rfl

theorem Executed.holds {known : Set SqlObject} {s after : SqlCatalog} {news : List SqlObject}
    (h : Holds known s.database) (hdistinct : Distinct (known ∪ listed news)) (he : Executed news s after) :
    Holds (known ∪ listed news) after.database := by
  refine ⟨fun o ho => ?_, hdistinct⟩
  rw [he.objects, List.mem_append, h.objects o ho]
  rfl

end MeldStore
