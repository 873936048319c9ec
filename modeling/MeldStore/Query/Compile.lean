import MeldStore.Query.Meaning

namespace MeldStore

open Library Library.Checked Library.Keyset
open Codecs (Argument Cell)

namespace Query

-- The driver binds every parameter of the condition.
def Clause.Bindable (clause : Clause) : Prop := ∀ param ∈ clause.2, param.Bindable

theorem compare_holds (col : String) (op : Comparison) (param : Cell) (row : Row) :
    Clause.holds (.compare (column col) op, [param]) row = (op.apply (cell row col) param.value).holds := by
  simp [Clause.holds, Clause.params, Cond.eval, column_value]

theorem nullClause_bound (col : Column) (isNull : Bool) : (nullClause col isNull).Bound := by
  cases isNull <;> rfl

theorem nullClause_holds (col : String) (isNull : Bool) (row : Row) :
    (nullClause (column col) isNull).holds row = true ↔
      if isNull then cell row col = .null else cell row col ≠ .null := by
  cases isNull <;>
    simp [nullClause, Clause.holds, Cond.eval, column_value, Value.is, Value.isNot]

theorem comparison_eq (op : String) (compiled : Comparison) (h : comparison op = some compiled) :
    compiled = .eq ↔ op = "eq" := by
  unfold comparison at h
  split at h <;> cases h <;> simp

-- A parameter that is not NULL is compared as the operator says.
theorem comparison_holds (op : String) (compiled : Comparison) (h : comparison op = some compiled)
    (x y : Value) (hy : y ≠ .null) :
    (compiled.apply x y).holds = true ↔ x ≠ .null ∧ compares op x y := by
  unfold comparison at h
  split at h <;> cases h <;> simp only [Comparison.apply, compares]
  · rw [Value.holds_eq]
    tauto
  · rw [Value.holds_ne]
    tauto
  · rw [Value.holds_lt]
    tauto
  · rw [Value.holds_le]
    tauto
  · rw [Value.gt_eq_lt, Value.holds_lt]
    tauto
  · rw [Value.ge_eq_le, Value.holds_le]
    tauto

theorem anyEqual_holds (x : Value) (hx : x ≠ .null) (values : List Value)
    (hvalues : ∀ y ∈ values, y ≠ .null) : anyEqual x values = some (decide (x ∈ values)) := by
  have hfold : ∀ (values : List Value) (start : Bool), (∀ y ∈ values, y ≠ .null) →
      (values.map fun y => Value.eq x y).foldl Truth.or (some start) =
        some (start || decide (x ∈ values)) := by
    intro values
    induction values with
    | nil => simp
    | cons y rest ih =>
        intro start h
        rw [List.map_cons, List.foldl_cons, Value.eq_of_ne_null hx (h y List.mem_cons_self), Truth.or_some,
          ih _ fun z hz => h z (List.mem_cons_of_mem _ hz)]
        simp [Bool.or_assoc]
  simpa [anyEqual] using hfold values false hvalues

theorem anyEqual_null (values : List Value) (hne : values ≠ []) : anyEqual .null values = none := by
  have hfold : ∀ values : List Value,
      (values.map fun y => Value.eq .null y).foldl Truth.or none = none := by
    intro values
    induction values with
    | nil => rfl
    | cons y rest ih => exact ih
  cases values with
  | nil => exact absurd rfl hne
  | cons y rest => exact hfold rest

-- The parameters of a membership are the normalized values, none of them NULL.
theorem mem_normalized {spec : Field} {values : List Argument} {params : List Cell}
    (h : values.mapM (Codecs.normalize spec) = .ok params) (x : Cell) :
    x ∈ params ↔ ∃ value ∈ values, Codecs.normalize spec value = .ok x := by
  constructor
  · exact mapM_mem_result _ _ _ h x
  · rintro ⟨value, hvalue, hx⟩
    obtain ⟨param, hparam, he⟩ := mapM_mem _ _ _ h value hvalue
    rwa [show x = param from Except.ok.inj (hx.symm.trans he)]

theorem mem_values {params : List Cell} (hbind : ∀ param ∈ params, param.Bindable) (x : Value) :
    x ∈ params.map Cell.value ↔ .ofValue x ∈ params := by
  constructor
  · intro h
    obtain ⟨param, hparam, rfl⟩ := List.mem_map.mp h
    rwa [Codecs.ofValue_value (hbind param hparam)]
  · intro h
    exact List.mem_map.mpr ⟨.ofValue x, h, Codecs.value_ofValue x⟩

theorem member_holds (negated : Bool) (col : String) (params : List Cell) (hne : params ≠ [])
    (hbind : ∀ param ∈ params, param.Bindable) (hparams : ∀ y ∈ params, y ≠ .null) (row : Row) :
    Clause.holds (.member negated (column col) params.length, params) row = true ↔
      cell row col ≠ .null ∧ (.ofValue (cell row col) ∈ params ↔ negated = false) := by
  have hlength : params.length = (params.map Cell.value).length := by rw [List.length_map]
  simp only [Clause.holds, Clause.params, Cond.eval, column_value, hlength, List.take_length]
  by_cases hx : cell row col = .null
  · rw [hx, anyEqual_null _ fun hnil => hne (List.map_eq_nil_iff.mp hnil)]
    cases negated <;> simp [Truth.not]
  · have hvalues : ∀ y ∈ params.map Cell.value, y ≠ .null := by
      intro y hy hnull
      obtain ⟨param, hparam, rfl⟩ := List.mem_map.mp hy
      exact hparams param hparam ((Codecs.value_eq_null (hbind param hparam)).mp hnull)
    rw [anyEqual_holds _ hx _ hvalues]
    simp only [mem_values hbind]
    cases negated <;> simp [hx]

-- The condition compiled for a term holds exactly for the rows the term means.
theorem compileTerm_holds (schema : BlobSchema) (term : Predicate) (clause : Clause)
    (h : compileTerm schema term = .ok clause) :
    clause.Bound ∧ (clause.Bindable → ∀ row, clause.holds row = true ↔ term.Holds schema row) := by
  simp only [compileTerm, bind_eq_ok] at h
  obtain ⟨spec, hspec, h⟩ := h
  have hholds : ∀ row, term.Holds schema row ↔
      means spec term.op (cell row term.field) term.value := by
    intro row
    simp [Predicate.Holds, hspec]
  simp only [hholds]
  split at h
  · rename_i hop
    simp only [bind_eq_ok, require_eq_ok, pure_eq_ok] at h
    obtain ⟨_, hnone, rfl⟩ := h
    have hvalue : term.value = .one .none := by
      unfold Operand.isNone at hnone
      split at hnone
      · assumption
      · cases hnone
    refine ⟨nullClause_bound _ _, fun _ row => ?_⟩
    rw [nullClause_holds, hvalue]
    rcases hop with hop | hop <;> simp [means, hop]
  · rename_i hnulls
    split at h
    · rename_i hop
      split at h
      · cases h
      · rename_i values hvalues
        simp only [bind_eq_ok, require_eq_ok, pure_eq_ok] at h
        obtain ⟨_, hcount, _, hnone, params, hparams, rfl⟩ := h
        have hlength : params.length = values.length := ((mapM_eq_ok _ _ _).mp hparams).length_eq.symm
        have hne : params ≠ [] := by
          rintro rfl
          simp only [List.length_nil] at hlength
          omega
        have hnull : ∀ y ∈ params, y ≠ .null := by
          rintro y hy rfl
          obtain ⟨value, hvalue, he⟩ := (mem_normalized hparams _).mp hy
          exact hnone (Codecs.normalize_eq_null he ▸ hvalue)
        rw [← hlength]
        refine ⟨rfl, fun hbind row => ?_⟩
        rw [member_holds _ _ _ hne hbind hnull, hvalues, mem_normalized hparams]
        rcases hop with hop | hop <;> simp [means, hop]
    · split at h
      · cases h
      · rename_i op hop
        split at h
        · rename_i hvalue
          simp only [bind_eq_ok, require_eq_ok, pure_eq_ok] at h
          obtain ⟨_, hrange, rfl⟩ := h
          refine ⟨nullClause_bound _ _, fun _ row => ?_⟩
          rw [nullClause_holds, hvalue]
          rw [not_or] at hnulls
          simp [means, (comparison_eq _ _ hop), hnulls.1]
        · rename_i value hnone hvalue
          simp only [bind_eq_ok, pure_eq_ok] at h
          obtain ⟨param, hparam, rfl⟩ := h
          have hnull : param ≠ .null := by
            rintro rfl
            exact hnone (Codecs.normalize_eq_null hparam)
          refine ⟨rfl, fun hbind row => ?_⟩
          have hbound := hbind param (List.mem_singleton_self _)
          have hvalue' : param.value ≠ .null := fun hzero => hnull ((Codecs.value_eq_null hbound).mp hzero)
          rw [compare_holds, comparison_holds term.op op hop _ _ hvalue', hvalue]
          simp only [means, hparam, Except.ok.injEq]
          refine and_congr_right fun _ =>
            ⟨fun hcompares => ⟨param.value, (Codecs.ofValue_value hbound).symm, hcompares⟩, ?_⟩
          rintro ⟨y, rfl, hcompares⟩
          rwa [Codecs.value_ofValue]
        · cases h

-- Sorting

theorem comesFirst_iff (descending : Bool) (x y : Value) :
    ComesFirst descending x y ↔ Before descending x y := by
  cases descending
  · simp only [ComesFirst, Before, Bool.false_eq_true, if_false]
    constructor
    · rintro ⟨hy, rfl | h⟩
      · exact Value.null_lt y hy
      · exact h
    · intro h
      exact ⟨fun hy => Value.not_lt_null x (hy ▸ h), Or.inr h⟩
  · simp only [ComesFirst, Before, if_true]
    constructor
    · rintro ⟨hx, rfl | h⟩
      · exact Value.null_lt x hx
      · exact h
    · intro h
      exact ⟨fun hx => Value.not_lt_null y (hx ▸ h), Or.inr h⟩

-- What an accepted ordering is: the given keys, with the id key at their end.
theorem ordering_effect (schema : BlobSchema) (orderBy order : List Order)
    (h : ordering schema orderBy = .ok order) :
    (order.map Order.field).Nodup ∧ (∀ item ∈ order, ∃ spec, field schema item.field = .ok spec) ∧
      (order = orderBy ∧ "id" ∈ orderBy.map Order.field ∨ order = orderBy ++ [⟨"id", false⟩]) := by
  simp only [ordering, bind_eq_ok, require_eq_ok, pure_eq_ok] at h
  obtain ⟨_, _, items, hitems, rfl⟩ := h
  generalize hgiven : (if orderBy = [] then [⟨"id", false⟩] else orderBy) = given at hitems
  have hitem : ∀ entry ∈ given.zipIdx, (∃ spec, field schema entry.1.field = .ok spec) ∧
      entry.1.field ∉ (given.take entry.2).map Order.field := by
    intro entry hentry
    obtain ⟨_, _, hstep⟩ := mapM_mem _ _ _ hitems entry hentry
    simp only [orderItem, bind_eq_ok, require_eq_ok, pure_eq_ok] at hstep
    obtain ⟨spec, hspec, _, hdistinct, _⟩ := hstep
    exact ⟨⟨spec, hspec⟩, hdistinct.1⟩
  have hsame : items = given := by
    rw [mapM_eq_map _ _ _ Prod.fst hitems fun entry _ result hstep => ?_, List.zipIdx_map_fst]
    simp only [orderItem, bind_eq_ok, require_eq_ok, pure_eq_ok] at hstep
    obtain ⟨_, _, _, _, rfl⟩ := hstep
    rfl
  subst hsame
  have hnodup : (items.map Order.field).Nodup := by
    rw [List.nodup_iff_pairwise_ne, List.pairwise_map, List.pairwise_iff_getElem]
    intro i j hi hj hij he
    refine (hitem (items[j], j) ?_).2 ?_
    · exact List.mk_mem_zipIdx_iff_getElem?.mpr (List.getElem?_eq_getElem hj)
    · rw [← he]
      exact List.mem_map_of_mem (List.mem_take_iff_getElem.mpr ⟨i, by omega, rfl⟩)
  have hfields : ∀ item ∈ items, ∃ spec, field schema item.field = .ok spec := by
    intro item hmem
    obtain ⟨i, hi, rfl⟩ := List.getElem_of_mem hmem
    exact (hitem (items[i], i) (List.mk_mem_zipIdx_iff_getElem?.mpr (List.getElem?_eq_getElem hi))).1
  by_cases hid : "id" ∈ items.map Order.field
  · simp only [if_pos hid]
    refine ⟨hnodup, hfields, ?_⟩
    split at hgiven
    · rename_i hempty
      exact Or.inr (by rw [hempty, ← hgiven]; rfl)
    · exact Or.inl ⟨hgiven.symm, hgiven ▸ hid⟩
  · simp only [if_neg hid]
    have hgiven' : orderBy = items := by
      split at hgiven
      · exact absurd (by rw [← hgiven]; simp) hid
      · exact hgiven
    refine ⟨?_, ?_, Or.inr (by rw [hgiven'])⟩
    · rw [List.map_append, List.nodup_append]
      exact ⟨hnodup, by simp, fun a ha b hb => by rintro rfl; simp at hb; exact hid (hb ▸ ha)⟩
    · intro item hmem
      rcases List.mem_append.mp hmem with h | h
      · exact hfields item h
      · rw [List.mem_singleton.mp h]
        exact ⟨Text true, by simp [field]⟩

def keysOf (order : List Order) (values : String → Value) : List Value :=
  order.map fun item => values item.field

abbrev byId : Order := ⟨"id", false⟩

theorem inOrder_append_id (orderBy : List Order) (a b : String → Value) :
    InOrder orderBy a b ↔ Precedes ((orderBy ++ [byId]).map Order.descending)
      (keysOf (orderBy ++ [byId]) a) (keysOf (orderBy ++ [byId]) b) := by
  induction orderBy with
  | nil => simp [InOrder, Precedes, keysOf, comesFirst_iff, byId]
  | cons item rest ih =>
      simp only [InOrder, comesFirst_iff, ih]
      simp [Precedes, keysOf]

-- An explicit id key leaves nothing to the implicit one.
theorem precedes_append_id (order : List Order) (a b : String → Value)
    (hid : "id" ∈ order.map Order.field) :
    Precedes ((order ++ [byId]).map Order.descending)
      (keysOf (order ++ [byId]) a) (keysOf (order ++ [byId]) b) ↔
    Precedes (order.map Order.descending) (keysOf order a) (keysOf order b) := by
  have hsplit : ∀ order : List Order, Precedes ((order ++ [byId]).map Order.descending)
      (keysOf (order ++ [byId]) a) (keysOf (order ++ [byId]) b) ↔
      Precedes (order.map Order.descending) (keysOf order a) (keysOf order b) ∨
        (keysOf order a = keysOf order b ∧ Before false (a "id") (b "id")) := by
    intro order
    induction order with
    | nil => simp [Precedes, keysOf, byId]
    | cons item rest ih =>
        simp only [keysOf] at ih
        simp only [keysOf, List.cons_append, List.map_cons, Precedes, ih, List.cons.injEq]
        tauto
  rw [hsplit]
  constructor
  · rintro (h | ⟨heq, h⟩)
    · exact h
    · obtain ⟨item, hitem, hname⟩ := List.mem_map.mp hid
      have hsame : a "id" = b "id" := by
        rw [← hname]
        exact List.map_inj_left.mp heq item hitem
      exact absurd (hsame ▸ h) (before_irrefl _ _)
  · exact Or.inl

-- The reference order is the order of the key tuples of the accepted ordering.
theorem inOrder_iff (schema : BlobSchema) (orderBy order : List Order)
    (h : ordering schema orderBy = .ok order) (a b : String → Value) :
    InOrder orderBy a b ↔
      Precedes (order.map Order.descending) (keysOf order a) (keysOf order b) := by
  rcases (ordering_effect schema orderBy order h).2.2 with ⟨rfl, hid⟩ | rfl
  · rw [inOrder_append_id, precedes_append_id _ _ _ hid]
  · exact inOrder_append_id orderBy a b

-- The clause of a cursor

theorem equally_holds (item : Order) (value : Cell) (row : Row) :
    (equally item value).holds row = true ↔ cell row item.field = value.value := by
  simp [equally, compare_holds, Comparison.apply, Value.is]

theorem strictly_bound (item : Order) (value : Cell) : (strictly item value).Bound := by
  unfold strictly
  split
  · split <;> rfl
  · split <;> rfl

theorem strictly_holds (item : Order) {value : Cell} (hbind : value.Bindable) (row : Row) :
    (strictly item value).holds row = true ↔ Before item.descending value.value (cell row item.field) := by
  rw [← comesFirst_iff]
  unfold strictly ComesFirst
  by_cases hnull : value = .null
  · subst hnull
    cases item.descending <;>
      simp [Clause.holds, Clause.params, Cond.eval, column_value, Value.isNot,
        show Cell.null.value = .null from rfl]
  · have hvalue : value.value ≠ .null := fun hzero => hnull ((Codecs.value_eq_null hbind).mp hzero)
    cases item.descending
    · simp only [hnull, hvalue, if_false, Bool.false_eq_true, compare_holds, Comparison.apply, Value.gt_eq_lt,
        Value.holds_lt]
      tauto
    · simp only [hnull, hvalue, if_true, if_false, Clause.holds, Clause.params, Cond.eval,
        Truth.holds_or, column_value,
        Comparison.apply, List.map_cons, List.headD_cons, Bool.or_eq_true, Value.holds_lt, Value.is,
        Truth.holds_some, decide_eq_true_eq]
      tauto

-- Equality with the values at the keys before the i-th.
theorem take_zip_eq (order : List Order) (values : List Cell) (row : Row) (i : Nat)
    (hlength : values.length = order.length) :
    (∀ entry ∈ (order.zip values).take i, cell row entry.1.field = entry.2.value) ↔
      (values.map Cell.value).take i = (keysOf order (cell row)).take i := by
  induction order generalizing values i with
  | nil => simp_all [keysOf]
  | cons item rest ih =>
      cases values with
      | nil => simp at hlength
      | cons value values =>
          cases i with
          | zero => simp
          | succ i =>
              have hrest := ih values i (by simpa using hlength)
              simp only [keysOf] at hrest
              simp [keysOf, ← hrest, eq_comm]

theorem branch_holds (order : List Order) (values : List Cell) (i : Nat) (item : Order)
    (value : Cell) (hitem : order[i]? = some item) (hvalue : values[i]? = some value) :
    (branch order values i).Bound ∧ (value.Bindable → ∀ row, (branch order values i).holds row = true ↔
      (∀ entry ∈ (order.zip values).take i, cell row entry.1.field = entry.2.value) ∧
        Before item.descending value.value (cell row item.field)) := by
  have hbound : ∀ c ∈ ((order.zip values).take i).map (fun entry => equally entry.1 entry.2) ++
      [strictly item value], c.Bound := by
    intro c hc
    rcases List.mem_append.mp hc with h | h
    · obtain ⟨entry, _, rfl⟩ := List.mem_map.mp h
      rfl
    · rw [List.mem_singleton.mp h]
      exact strictly_bound item value
  obtain ⟨hb, hrows⟩ := conj_holds _ (by simp) hbound
  simp only [branch, hitem, hvalue]
  refine ⟨hb, fun hbind row => ?_⟩
  rw [hrows row, List.forall_mem_append, List.forall_mem_singleton, strictly_holds item hbind,
    List.forall_mem_map]
  simp only [equally_holds]

-- The disjunction of all branches is the order of the key tuples.
theorem branches_hold (order : List Order) (values : List Cell)
    (hlength : values.length = order.length) :
    (disj ((List.range order.length).map (branch order values))).Bound ∧
      ((∀ value ∈ values, value.Bindable) → ∀ row,
        (disj ((List.range order.length).map (branch order values))).holds row = true ↔
          Precedes (order.map Order.descending) (values.map Cell.value) (keysOf order (cell row))) := by
  have hbranch : ∀ i < order.length, ∃ item value, order[i]? = some item ∧ values[i]? = some value := by
    intro i hi
    exact ⟨order[i], values[i], List.getElem?_eq_getElem hi, List.getElem?_eq_getElem (by omega)⟩
  have hbound : ∀ c ∈ (List.range order.length).map (branch order values), c.Bound := by
    intro c hc
    obtain ⟨i, hi, rfl⟩ := List.mem_map.mp hc
    obtain ⟨item, value, hitem, hvalue⟩ := hbranch i (List.mem_range.mp hi)
    exact (branch_holds order values i item value hitem hvalue).1
  obtain ⟨hb, hrows⟩ := disj_holds _ hbound
  refine ⟨hb, fun hbind row => ?_⟩
  rw [hrows row, precedes_iff_branch _ _ _ (by simpa using hlength) (by simp [keysOf])]
  constructor
  · rintro ⟨c, hc, hholds⟩
    obtain ⟨i, hi, rfl⟩ := List.mem_map.mp hc
    obtain ⟨item, value, hitem, hvalue⟩ := hbranch i (List.mem_range.mp hi)
    have hvalueBind := hbind value (List.mem_of_getElem? hvalue)
    obtain ⟨hsame, hstrict⟩ :=
      ((branch_holds order values i item value hitem hvalue).2 hvalueBind row).mp hholds
    refine ⟨i, item.descending, value.value, cell row item.field, ?_, ?_, ?_, ?_, hstrict⟩
    · rw [List.getElem?_map, hitem]
      rfl
    · rw [List.getElem?_map, hvalue]
      rfl
    · rw [keysOf, List.getElem?_map, hitem]
      rfl
    · exact (take_zip_eq order values row i hlength).mp hsame
  · rintro ⟨i, d, x, y, hd, hx, hy, htake, hbefore⟩
    rw [List.getElem?_map, Option.map_eq_some_iff] at hd hx
    obtain ⟨item, hitem, rfl⟩ := hd
    obtain ⟨value, hvalue, rfl⟩ := hx
    rw [keysOf, List.getElem?_map, hitem] at hy
    cases hy
    refine ⟨branch order values i, List.mem_map_of_mem (List.mem_range.mpr ?_), ?_⟩
    · exact (List.getElem?_eq_some_iff.mp hitem).1
    · exact ((branch_holds order values i item value hitem hvalue).2 (hbind value (List.mem_of_getElem? hvalue))
        row).mpr
        ⟨(take_zip_eq order values row i hlength).mpr htake, hbefore⟩

-- A cursor value that is accepted is bound as it is.
theorem cursorValue_eq (schema : BlobSchema) (item : Order) (value result : Cell)
    (h : cursorValue schema item value = .ok result) : result = value := by
  simp only [cursorValue, bind_eq_ok] at h
  obtain ⟨spec, _, h⟩ := h
  split at h
  · rename_i hnull
    simp only [bind_eq_ok, require_eq_ok, pure_eq_ok] at h
    obtain ⟨_, _, hresult⟩ := h
    exact hresult.symm.trans hnull.symm
  · simp only [bind_eq_ok] at h
    obtain ⟨given, hgiven, hresult⟩ := h
    rw [Codecs.normalize_fromSql hgiven] at hresult
    exact (Except.ok.inj hresult).symm

theorem keysOf_cell (cursor : FindCursor) (hnodup : (cursor.order.map Order.field).Nodup)
    (hlength : cursor.values.length = cursor.order.length) :
    keysOf cursor.order cursor.cell = cursor.values.map Cell.value := by
  have hkeys : ∀ (order : List Order) (values : List Cell), (order.map Order.field).Nodup →
      values.length = order.length → (order.map fun item =>
        (((order.zip values).find? fun entry => entry.1.field = item.field).map fun entry => entry.2.value).getD
          .null) =
        values.map Cell.value := by
    intro order
    induction order with
    | nil => simp_all
    | cons item rest ih =>
        intro values hnodup hlength
        cases values with
        | nil => simp at hlength
        | cons value values =>
            obtain ⟨hfresh, hrest⟩ := List.nodup_cons.mp hnodup
            have htail : (rest.map fun other => ((((item :: rest).zip (value :: values)).find?
                fun entry => entry.1.field = other.field).map fun entry => entry.2.value).getD .null) =
                values.map Cell.value := by
              refine Eq.trans ?_ (ih values hrest (by simpa using hlength))
              refine List.map_congr_left fun other hother => ?_
              have hne : item.field ≠ other.field := fun he => hfresh (he ▸ List.mem_map_of_mem hother)
              simp [hne]
            rw [List.map_cons, htail]
            simp
  exact hkeys cursor.order cursor.values hnodup hlength

theorem conj_bindable {clauses : List Clause} : (conj clauses).Bindable ↔ ∀ c ∈ clauses, c.Bindable := by
  rw [Clause.Bindable, conj_params]
  simp only [List.mem_flatMap, forall_exists_index, and_imp]
  exact ⟨fun h c hc param hparam => h param c hc hparam, fun h param c hc hparam => h c hc param hparam⟩

theorem disj_bindable {clauses : List Clause} : (disj clauses).Bindable ↔ ∀ c ∈ clauses, c.Bindable := by
  rw [Clause.Bindable, disj_params]
  simp only [List.mem_flatMap, forall_exists_index, and_imp]
  exact ⟨fun h c hc param hparam => h param c hc hparam, fun h param c hc hparam => h c hc param hparam⟩

-- Every value of a cursor is a parameter of its clause, or NULL.
theorem values_bindable {order : List Order} {values : List Cell} (hlength : values.length = order.length)
    (hbind : (disj ((List.range order.length).map (branch order values))).Bindable) :
    ∀ value ∈ values, value.Bindable := by
  intro value hvalue
  obtain ⟨i, hi⟩ := List.mem_iff_getElem?.mp hvalue
  have hlt : i < order.length := hlength ▸ (List.getElem?_eq_some_iff.mp hi).1
  have hbranch := disj_bindable.mp hbind _ (List.mem_map_of_mem (List.mem_range.mpr hlt))
  rw [branch, List.getElem?_eq_getElem hlt, hi] at hbranch
  have hstrictly := conj_bindable.mp hbranch _ (List.mem_append_right _ (List.mem_singleton_self _))
  by_cases hnull : value = .null
  · rw [hnull]
    trivial
  · refine hstrictly value ?_
    rw [strictly, if_neg hnull]
    split_ifs <;> exact List.mem_singleton_self _

-- The clause compiled for a cursor selects exactly the rows behind it.
theorem compileAfter_holds (schema : BlobSchema) (orderBy order : List Order) (after : After)
    (behind : List Clause) (horder : ordering schema orderBy = .ok order)
    (h : compileAfter schema order after = .ok behind) :
    (∀ c ∈ behind, c.Bound) ∧ ((∀ c ∈ behind, c.Bindable) →
      ∀ row, (∀ c ∈ behind, c.holds row = true) ↔ Behind orderBy after row) := by
  have hcursor : ∀ (cursor : FindCursor) (start : String → Value),
      compileAfter schema order (.cursor cursor) = .ok behind →
      (cursor.order = order → cursor.values.length = order.length →
        keysOf order start = cursor.values.map Cell.value) →
      (∀ c ∈ behind, c.Bound) ∧ ((∀ c ∈ behind, c.Bindable) →
        ∀ row, (∀ c ∈ behind, c.holds row = true) ↔ InOrder orderBy start (cell row)) := by
    intro cursor start h hstart
    simp only [compileAfter, bind_eq_ok, require_eq_ok, pure_eq_ok] at h
    obtain ⟨_, ⟨_, _, hsame, hlength⟩, values, hvalues, rfl⟩ := h
    have hvalues' : values = cursor.values := by
      rw [mapM_eq_map _ _ _ Prod.snd hvalues fun entry _ result hr => cursorValue_eq _ _ _ _ hr]
      exact List.map_snd_zip (by omega)
    subst hvalues'
    obtain ⟨hb, hrows⟩ := branches_hold order cursor.values hlength
    refine ⟨by simpa using hb, fun hbind row => ?_⟩
    have hbindValues := values_bindable hlength (hbind _ (List.mem_singleton_self _))
    rw [List.forall_mem_singleton, hrows hbindValues row, inOrder_iff schema orderBy order horder,
      hstart hsame hlength]
  cases after with
  | none =>
      simp only [compileAfter, Except.ok.injEq] at h
      subst h
      exact ⟨by simp, fun _ row => by simp [Behind]⟩
  | id value =>
      refine hcursor { schemaName := schema.name, schemaVersion := schema.version, order := [byId],
                       values := [.text value] } (fun _ => (Cell.text value).value) h ?_
      rintro rfl _
      rfl
  | cursor cursor =>
      refine hcursor cursor cursor.cell h ?_
      rintro rfl hlength
      exact keysOf_cell cursor (ordering_effect _ _ _ horder).1 hlength

-- What the driver binds.

theorem bindParameter_eq_ok {param : Cell} {value : Value} :
    bindParameter param = .ok value ↔ param.Bindable ∧ value = param.value := by
  cases param with
  | text s =>
      rw [bindParameter, fromOption_eq_ok]
      constructor
      · intro h
        exact ⟨Codecs.bindable_iff.mpr ⟨value, h⟩, by rw [Cell.value, h, Option.getD_some]⟩
      · rintro ⟨h, rfl⟩
        obtain ⟨v, hv⟩ := Codecs.bindable_iff.mp h
        rw [Cell.value, hv, Option.getD_some]
  | _ =>
      constructor
      · intro h
        exact ⟨trivial, (Except.ok.inj h).symm⟩
      · rintro ⟨_, rfl⟩
        rfl

theorem mapM_bindParameter_eq_ok {params : List Cell} {values : List Value}
    (h : params.mapM bindParameter = .ok values) :
    (∀ param ∈ params, param.Bindable) ∧ values = params.map Cell.value := by
  refine ⟨fun param hparam => ?_, ?_⟩
  · obtain ⟨value, _, hvalue⟩ := mapM_mem _ _ _ h param hparam
    exact (bindParameter_eq_ok.mp hvalue).1
  · exact mapM_eq_map _ _ _ Cell.value h fun param _ value hvalue => (bindParameter_eq_ok.mp hvalue).2

-- An accepted query: its statement has one parameter a placeholder, the last of
-- them the limit, and its condition selects the rows meant.
theorem compileQuery_effect (schema : BlobSchema) (conditions : List (String × Argument))
    (predicates : List Predicate) (orderBy : List Order) (after : After) (limit : Int)
    (select : Select) (params : List Cell)
    (h : compileQuery schema conditions predicates orderBy after limit = .ok (select, params)) :
    1 ≤ limit ∧ limit ≤ 1000 ∧ select.table = schema.name ∧ ordering schema orderBy = .ok select.order ∧
      params.length = select.condition.holes + 1 ∧ params.getLast? = some (.int limit) ∧
      ((∀ param ∈ params, param.Bindable) →
        ∀ row : Row, (select.condition.eval row (params.map Cell.value)).holds = true ↔
          row.1.state = .ready ∧ row.1.schemaName = schema.name ∧ row.1.schemaVersion = schema.version ∧
            row.2.schemaVersion = schema.version ∧
            (∀ term ∈ terms conditions predicates, term.Holds schema row) ∧ Behind orderBy after row) := by
  simp only [compileQuery, bind_eq_ok, require_eq_ok, pure_eq_ok] at h
  obtain ⟨_, hlimit, _, _, clauses, hclauses, order, horder, behind, hbehind, heq⟩ := h
  cases heq
  obtain ⟨hboundBehind, hrowsBehind⟩ := compileAfter_holds schema orderBy order after behind horder hbehind
  have hclause := mapM_mem_result _ _ _ hclauses
  have hbound : ∀ c ∈ scope schema ++ clauses ++ behind, c.Bound := by
    intro c hc
    rw [List.mem_append, List.mem_append] at hc
    rcases hc with (hc | hc) | hc
    · simp only [scope, List.mem_cons, List.not_mem_nil, or_false] at hc
      rcases hc with rfl | rfl | rfl | rfl <;> rfl
    · obtain ⟨term, _, hterm⟩ := hclause c hc
      exact (compileTerm_holds schema term c hterm).1
    · exact hboundBehind c hc
  obtain ⟨hb, hrows⟩ := conj_holds _ (by simp [scope]) hbound
  refine ⟨hlimit.1, hlimit.2, rfl, horder, ?_, by simp, fun hbind row => ?_⟩
  · rw [List.length_append, ← show _ = _ from hb]
    rfl
  · have hclauseBind := conj_bindable.mp fun param hparam => hbind param (List.mem_append_left _ hparam)
    have hterms : (∀ c ∈ clauses, c.holds row = true) ↔
        ∀ term ∈ terms conditions predicates, term.Holds schema row := by
      constructor
      · intro hall term hterm
        obtain ⟨c, hc, hcompiled⟩ := mapM_mem _ _ _ hclauses term hterm
        have hcBind := hclauseBind c (List.mem_append_left _ (List.mem_append_right _ hc))
        exact ((compileTerm_holds schema term c hcompiled).2 hcBind row).mp (hall c hc)
      · intro hall c hc
        obtain ⟨term, hterm, hcompiled⟩ := hclause c hc
        have hcBind := hclauseBind c (List.mem_append_left _ (List.mem_append_right _ hc))
        exact ((compileTerm_holds schema term c hcompiled).2 hcBind row).mpr (hall term hterm)
    have hscope : (∀ c ∈ scope schema, c.holds row = true) ↔ row.1.state = .ready ∧
        row.1.schemaName = schema.name ∧ row.1.schemaVersion = schema.version ∧
        row.2.schemaVersion = schema.version := by
      have hname : (Cell.text (Codecs.ofString schema.name)).value = .text schema.name :=
        Codecs.value_ofValue (.text schema.name)
      have hversion : (Cell.int schema.version).value = .int schema.version := rfl
      simp only [scope, List.forall_mem_cons, List.not_mem_nil, false_implies, implies_true, and_true]
      simp only [Clause.holds, Clause.params, Cond.eval, Column.value, Comparison.apply,
        List.map_cons, List.headD_cons,
        hname, hversion, Value.eq_text, Value.eq_int, Truth.holds_some, decide_eq_true_eq]
      rw [show "ready" = BlobState.ready.text from rfl, BlobState.text_inj]
    have hbehindBind := hrowsBehind (fun c hc => hclauseBind c (List.mem_append_right _ hc)) row
    have hall := hrows row
    rw [List.forall_mem_append, List.forall_mem_append, hscope, hterms, hbehindBind] at hall
    rw [List.map_append, ← Clause.params, Clause.eval_append _ row _ hb, ← Clause.holds, hall]
    tauto

end Query

end MeldStore
