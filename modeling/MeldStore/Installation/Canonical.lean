import MeldStore.Installation.Idempotence

namespace MeldStore

open Library Library.Checked Rebuild

-- A declaration is its canonical text, and what is generated from stored texts is what stands

namespace Declaration

variable {d e f : Declaration}

theorem Same.symm (h : d.Same e) : e.Same d :=
  ⟨h.name.symm, h.version.symm, h.validatorId.symm, h.fields.symm, h.indexes.symm, h.handlers.symm⟩

theorem Same.trans (h : d.Same e) (h' : e.Same f) : d.Same f :=
  ⟨h.name.trans h'.name, h.version.trans h'.version, h.validatorId.trans h'.validatorId,
    h.fields.trans h'.fields, h.indexes.trans h'.indexes, h.handlers.trans h'.handlers⟩

end Declaration

namespace BlobSchema

variable {d e : Declaration} {schema other : BlobSchema}

theorem definition_same (hd : init d = .ok schema) (he : init e = .ok other) :
    schema.definition = other.definition ↔ d.Same e := by
  obtain ⟨haccepted, hschema⟩ := init_eq_ok.mp hd
  obtain ⟨-, hother⟩ := init_eq_ok.mp he
  rw [Migrations.definition_inj]
  constructor
  · rintro rfl
    have hsorted : d.sorted = e.sorted := hschema.symm.trans hother
    exact d.sorted_same.symm.trans (hsorted ▸ e.sorted_same)
  · intro hsame
    exact ext_declaration (by rw [hschema, hother, hsame.sorted_eq haccepted])

theorem init_self (schema : BlobSchema) : init schema.toDeclaration = .ok schema :=
  init_eq_ok.mpr ⟨Declaration.accepted_of_valid schema.valid, (Declaration.sorted_of_valid schema.valid).symm⟩

end BlobSchema

-- The objects of the versions that are installed under a name.
def standingObjects (evolved : Bool) (schemas : List BlobSchema) (latest : BlobSchema) : Except Error Ddl :=
  if evolved then Migrations.layoutObjects schemas else Installation.schemaObjects latest

theorem Settled.verifies {s : SqlCatalog} (hs : Settled s) {name : String} {latest : BlobSchema}
    (hlatest : (s.rows.declarations name).getLast? = some latest) :
    ∃ decoded ddl ready, s.declarations name = .ok decoded ∧ decoded = s.rows.declarations name ∧
      standingObjects (s.evolved name) decoded latest = .ok ddl ∧ verifyObjects s.objects ddl = .ok () ∧
      PayloadCatalog.guard latest (s.evolved name) = .ok ready ∧ verifyObjects s.objects [ready] = .ok () ∧
      (s.evolved name = true → SqlCatalog.Migrations.verify name s = .ok ()) := by
  have hdeclared : s.rows.declared name := by
    obtain ⟨row, hrow, hname, _⟩ := mem_declarations.mp (List.mem_of_getLast? hlatest)
    exact ⟨row, hrow, hname⟩
  obtain ⟨extended, indexed, hstanding⟩ : ∃ extended indexed, Standing extended indexed s := by
    rcases hs with hopen | hstanding
    · obtain ⟨row, hrow, _⟩ := hdeclared
      rw [hopen.rows] at hrow
      cases hrow
    · exact hstanding
  obtain ⟨ddl, ready, _, hddl, hready, _, howned, hguard, _⟩ := hstanding.own_mem hdeclared hlatest
  rw [← hstanding.evolved_eq] at hddl hready
  exact ⟨_, ddl, ready, Standing.declarations_eq s name, rfl, hddl,
    hstanding.holds.verifies fun entry hentry => ⟨_, howned entry hentry, rfl, rfl⟩, hready,
    hstanding.verifies_one hguard,
    fun hevolved => hstanding.migrationsVerify (hstanding.evolved_eq name ▸ hevolved) hdeclared⟩

theorem definitions_are_canonical (s : SqlCatalog) (h : SqlCatalog.Reached s) :
    (∀ d e schema other, BlobSchema.init d = .ok schema → BlobSchema.init e = .ok other →
      (schema.definition = other.definition ↔ d.Same e)) ∧
    (∀ schema : BlobSchema, Migrations.decode schema.definition = .ok schema ∧
      BlobSchema.init schema.toDeclaration = .ok schema) ∧
    ∀ name latest, (s.rows.declarations name).getLast? = some latest →
      ∃ decoded ddl ready, s.declarations name = .ok decoded ∧ decoded = s.rows.declarations name ∧
        standingObjects (s.evolved name) decoded latest = .ok ddl ∧ verifyObjects s.objects ddl = .ok () ∧
        PayloadCatalog.guard latest (s.evolved name) = .ok ready ∧ verifyObjects s.objects [ready] = .ok () ∧
        (s.evolved name = true → SqlCatalog.Migrations.verify name s = .ok ()) :=
  ⟨fun _ _ _ _ => BlobSchema.definition_same,
    fun schema => ⟨Migrations.decode_definition schema, schema.init_self⟩, fun _ _ => h.settled.verifies⟩

-- The same declaration, with its handlers in another order.
def scanning (handlers : List String) : Declaration :=
  { name := "scan", version := 1, fields := [], indexes := [], handlers := handlers, validatorId := none }

theorem scans_are_canonical :
    (∃ schema other, BlobSchema.init (scanning ["file", "bytes"]) = .ok schema ∧
      BlobSchema.init (scanning ["bytes", "file"]) = .ok other ∧ schema.definition = other.definition) ∧
    ∃ ddl, standingObjects ((opened scanned1 blank).evolved "scan") [scanned1] scanned1 = .ok ddl ∧
      verifyObjects (opened scanned1 blank).objects ddl = .ok () := by
  have hopen : Unopened blank := ⟨rfl, by decide⟩
  have haddable : Addable blank scanned1 := by
    refine ⟨fun ⟨row, hrow, _⟩ => (nomatch hrow), rfl, exists_schemaObjects_of_few (by decide),
      fun _ o ho => ?_⟩
    rw [List.mem_singleton.mp ho]
    decide
  have hrows := (opened_added (.inl hopen) haddable).2.1
  obtain ⟨hsame, -, hverifies⟩ := definitions_are_canonical _ ⟨blank, hopen, .single (.installs scanned1)⟩
  have hlatest : ((opened scanned1 blank).rows.declarations "scan").getLast? = some scanned1 := by
    rw [hrows]
    rfl
  obtain ⟨decoded, ddl, _, _, hdecoded, hddl, hstands, _⟩ := hverifies "scan" scanned1 hlatest
  have hdeclarations : decoded = [scanned1] := by
    rw [hdecoded, hrows]
    rfl
  have haccepted (handlers : List String) (h : (scanning handlers).checks = .ok ()) :
      ∃ schema, BlobSchema.init (scanning handlers) = .ok schema :=
    ⟨⟨_, Declaration.sorted_valid (Declaration.checks_eq_ok.mp h)⟩, BlobSchema.init_eq_ok.mpr
      ⟨Declaration.checks_eq_ok.mp h, rfl⟩⟩
  obtain ⟨schema, hschema⟩ := haccepted ["file", "bytes"] (by decide)
  obtain ⟨other, hother⟩ := haccepted ["bytes", "file"] (by decide)
  refine ⟨⟨schema, other, hschema, hother, (hsame _ _ _ _ hschema hother).mpr ?_⟩, ddl,
    hdeclarations ▸ hddl, hstands⟩
  exact ⟨rfl, rfl, rfl, .refl _, .refl _, .swap _ _ _⟩

end MeldStore
