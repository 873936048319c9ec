import MeldStore.Scope.Boundaries

namespace MeldStore

open Library.Raising

namespace Scope

-- What an application does with a catalog on its thread, where every call may raise and be caught.
-- A call that takes a transaction is an operation; payload, snapshot, maintenance and migration
-- calls require an idle catalog.
inductive Application (ρ : Type)
  | done (value : ρ)
  | raise (e : Raised)
  | sql (tx : ℕ) (statement : String) (bound : Bool) (next : Except Raised ρ → Application ρ)
  | operation (tx : ℕ) (inner : Application ρ) (next : Except Raised ρ → Application ρ)
  | transaction (write : Bool) (body : ℕ → Application ρ) (next : Except Raised ρ → Application ρ)
  | payload (next : Except Raised Unit → Application ρ)
  | close (next : Except Raised Unit → Application ρ)

-- None of its texts opens with the comment that the check and SQLite end in different places.
def Application.Plain {ρ : Type} : Application ρ → Prop
  | .done _ | .raise _ => True
  | .sql _ statement _ next =>
      Gate.overlapping (Gate.lstrip statement.toList) = false ∧ ∀ result, (next result).Plain
  | .operation _ inner next => inner.Plain ∧ ∀ result, (next result).Plain
  | .transaction _ body next => (∀ tx, (body tx).Plain) ∧ ∀ result, (next result).Plain
  | .payload next | .close next => ∀ result, (next result).Plain

-- A transaction as it was run: how its body ended, with no call in it that raised, and what was
-- written by then.
structure Block (ω ρ : Type) where
  write : Bool
  before : State ω ρ
  faultless : Bool
  body : Except Raised ρ
  writes : List ω
  result : Except Raised ρ
  after : State ω ρ

inductive Event (ω ρ : Type)
  | call (returned : Bool) (after : State ω ρ)
  | block (block : Block ω ρ)
  | closed (returned : Bool) (after : State ω ρ)

def Event.returned {ω ρ : Type} : Event ω ρ → Bool
  | .call returned _ => returned
  | .block b => b.result.isOk
  | .closed returned _ => returned

def Event.after {ω ρ : Type} : Event ω ρ → State ω ρ
  | .call _ after => after
  | .block b => b.after
  | .closed _ after => after

structure Ending (ω ρ : Type) where
  events : List (Event ω ρ)
  result : Except Raised ρ
  state : State ω ρ

variable {ω ρ : Type}

def Ending.following (e : Ending ω ρ) (events : List (Event ω ρ)) : Ending ω ρ :=
  { e with events := events ++ e.events }

def run (isWord : Char → Bool) (adapter : Adapter ω ρ) : Application ρ → State ω ρ → Ending ω ρ
  | .done value, s => { events := [], result := .ok value, state := s }
  | .raise e, s => { events := [], result := .error e, state := s }
  | .sql tx statement bound next, s =>
      let (result, t) := perform (sql isWord tx statement bound) s
      (run isWord adapter (next result) t).following [.call result.isOk t]
  | .operation tx inner next, s =>
      match perform (requireTransaction tx) s with
      | (.error e, t) => (run isWord adapter (next (.error e)) t).following [.call false t]
      | (.ok _, t) =>
          let inside := run isWord adapter inner t
          let (result, u) := perform (closeOperation tx inside.result) inside.state
          (run isWord adapter (next result) u).following (inside.events ++ [.call result.isOk u])
  | .transaction write body next, s =>
      match perform (enter adapter write) s with
      | (.error e, t) => (run isWord adapter (next (.error e)) t).following [.call false t]
      | (.ok opened, t) =>
          let inside := run isWord adapter (body opened.tx) t
          let (result, u) := perform (leave adapter write opened inside.result) inside.state
          (run isWord adapter (next result) u).following [.block
            { write := write, before := s, faultless := inside.events.all Event.returned, body := inside.result,
              writes := inside.state.connection.pending.getD [], result := result, after := u }]
  | .payload next, s =>
      let (result, t) := perform requireIdle s
      (run isWord adapter (next result) t).following [.call result.isOk t]
  | .close next, s =>
      let (result, t) := perform close s
      (run isWord adapter (next result) t).following [.closed result.isOk t]

-- Inside of a transaction

theorem check_yields {s : State ω ρ} (hclosed : s.closed = false) (hbroken : s.broken = false)
    {raised : Raised → State ω ρ → Prop} : Yields check s (fun _ t => s = t) raised := by
  rw [check]
  exact Yields.after_get (Yields.after_demand (fun h => absurd hclosed h) fun _ =>
    Yields.of_demand (fun _ => rfl) fun h => absurd hbroken h)

structure Within (tx : ℕ) (s : State ω ρ) : Prop where
  active : s.active = some tx
  closed : s.closed = false
  broken : s.broken = false
  live : ∃ t, s.transactions[tx]? = some t ∧ t.live = true
  pending : s.failed tx = false → ∃ writes, s.connection.pending = some writes

-- What a call inside of a transaction leaves as it is.
structure Held (tx : ℕ) (s t : State ω ρ) : Prop where
  active : t.active = s.active
  closed : t.closed = s.closed
  broken : t.broken = s.broken
  outcomeError : t.outcomeError = s.outcomeError
  leases : t.leases = s.leases
  transactions : t.transactions = s.transactions ∨ t.transactions = (s.fail tx).transactions
  durable : t.connection.durable = s.connection.durable
  readOnly : t.connection.readOnly = s.connection.readOnly
  pending : t.failed tx = false → ∀ writes, s.connection.pending = some writes →
    ∃ more, t.connection.pending = some (writes ++ more) ∧ (s.connection.readOnly = true → more = [])

theorem failed_fail {s : State ω ρ} {tx : ℕ} {t : Transaction} (h : s.transactions[tx]? = some t) :
    (s.fail tx).failed tx = true := by
  rw [State.failed, State.fail]
  dsimp only
  rw [List.getElem?_modify, h]
  simp

theorem Held.refl (tx : ℕ) (s : State ω ρ) : Held tx s s :=
  { active := rfl, closed := rfl, broken := rfl, outcomeError := rfl, leases := rfl, transactions := .inl rfl,
    durable := rfl, readOnly := rfl,
    pending := fun _ writes h => ⟨[], by rw [h, List.append_nil], fun _ => rfl⟩ }

theorem live_fail {s : State ω ρ} {tx : ℕ} (h : ∃ t, s.transactions[tx]? = some t ∧ t.live = true) :
    ∃ t, (s.fail tx).transactions[tx]? = some t ∧ t.live = true := by
  obtain ⟨t, ht, hlive⟩ := h
  refine ⟨{ t with failed := true }, ?_, hlive⟩
  rw [State.fail]
  dsimp only
  rw [List.getElem?_modify_eq, ht]
  rfl

theorem Within.failed_fail {tx : ℕ} {s : State ω ρ} (h : Within tx s) : (s.fail tx).failed tx = true := by
  obtain ⟨t, ht, -⟩ := h.live
  exact Scope.failed_fail ht

theorem Held.failed {tx : ℕ} {s t : State ω ρ} (hw : Within tx s) (h : Held tx s t)
    (hfailed : s.failed tx = true) :
    t.failed tx = true := by
  rcases h.transactions with hsame | hsame
  · rwa [State.failed, hsame]
  · rw [State.failed, hsame]
    exact hw.failed_fail

theorem Held.within {tx : ℕ} {s t : State ω ρ} (hw : Within tx s) (h : Held tx s t) : Within tx t := by
  refine { active := h.active.trans hw.active, closed := h.closed.trans hw.closed,
           broken := h.broken.trans hw.broken, live := ?_, pending := fun hfailed => ?_ }
  · rcases h.transactions with hsame | hsame <;> rw [hsame]
    · exact hw.live
    · exact live_fail hw.live
  · have hbefore : s.failed tx = false := by
      by_contra hbefore
      rw [h.failed hw (Bool.not_eq_false _ ▸ hbefore)] at hfailed
      cases hfailed
    obtain ⟨writes, hwrites⟩ := hw.pending hbefore
    obtain ⟨more, hmore, -⟩ := h.pending hfailed writes hwrites
    exact ⟨_, hmore⟩

theorem Held.trans {tx : ℕ} {s t u : State ω ρ} (hw : Within tx s) (h : Held tx s t)
    (h' : Held tx t u) : Held tx s u := by
  have htransactions : u.transactions = s.transactions ∨ u.transactions = (s.fail tx).transactions := by
    rcases h'.transactions with hsame | hsame <;> rw [hsame]
    · exact h.transactions
    · refine .inr ?_
      rw [State.fail, State.fail]
      dsimp only
      rcases h.transactions with hbefore | hbefore
      · rw [hbefore]
      · rw [hbefore, State.fail, List.modify_modify_eq]
        rfl
  refine { active := h'.active.trans h.active, closed := h'.closed.trans h.closed,
           broken := h'.broken.trans h.broken,
           outcomeError := h'.outcomeError.trans h.outcomeError, leases := h'.leases.trans h.leases,
           transactions := htransactions, durable := h'.durable.trans h.durable,
           readOnly := h'.readOnly.trans h.readOnly, pending := fun hfailed writes hwrites => ?_ }
  have hmid : t.failed tx = false := by
    by_contra hmid
    rw [h'.failed (h.within hw) (Bool.not_eq_false _ ▸ hmid)] at hfailed
    cases hfailed
  obtain ⟨more, hmore, hread⟩ := h.pending hmid writes hwrites
  obtain ⟨rest, hrest, hread'⟩ := h'.pending hfailed _ hmore
  refine ⟨more ++ rest, by rw [hrest, List.append_assoc], fun hreads => ?_⟩
  rw [hread hreads, hread' (h.readOnly.trans hreads), List.append_nil]

-- What returns has not failed the transaction, and what raises has.
def Goes (tx : ℕ) (s t : State ω ρ) : Prop := Held tx s t ∧ t.failed tx = s.failed tx

def Fails (tx : ℕ) (s t : State ω ρ) : Prop := Held tx s t ∧ t.failed tx = true

theorem Within.fail {tx : ℕ} {s : State ω ρ} (hw : Within tx s) {d : Connection ω ρ}
    (hdurable : d.durable = s.connection.durable)
    (hread : d.readOnly = s.connection.readOnly) : Fails tx s ((s.on d).fail tx) := by
  have hfailed : ((s.on d).fail tx).failed tx = true := hw.failed_fail
  exact ⟨{ active := rfl, closed := rfl, broken := rfl, outcomeError := rfl, leases := rfl,
           transactions := .inr rfl, durable := hdurable, readOnly := hread,
           pending := fun h => (by rw [hfailed] at h; cases h) }, hfailed⟩

theorem requireInactive_yields {tx : ℕ} {s : State ω ρ} (hw : Within tx s) (text : String)
    {returned : Unit → State ω ρ → Prop} :
    Yields (requireInactive text) s returned fun _ t => Fails tx s t := by
  rw [requireInactive]
  refine Yields.after_get ?_
  rw [hw.active]
  exact Yields.after_modify (Yields.of_throw (hw.fail rfl rfl))

theorem requireTransaction_yields {tx : ℕ} {s : State ω ρ} (hw : Within tx s) (other : ℕ) :
    Yields (requireTransaction other) s (fun _ t => s = t ∧ other = tx ∧ s.failed tx = false) fun _ t =>
    Fails tx s t := by
  have hpoison (e : Error) {returned : Unit → State ω ρ → Prop} :
      Yields (do poison; raiseError e) s returned fun _ t => Fails tx s t := by
    refine Yields.after_modify (Yields.of_throw ?_)
    rw [hw.active]
    exact hw.fail rfl rfl
  rw [requireTransaction]
  refine Yields.bind (check_yields hw.closed hw.broken) ?_
  rintro _ _ rfl
  refine Yields.after_get ?_
  cases hfound : s.transactions[other]? with
  | none => exact hpoison _
  | some t =>
      dsimp only
      split_ifs with hrefused
      · exact hpoison _
      · rw [not_or, not_or, not_not] at hrefused
        obtain ⟨-, hactive, hfailed⟩ := hrefused
        rw [not_not] at hactive
        obtain rfl : other = tx := by
          rw [hw.active] at hactive
          exact (Option.some.inj hactive).symm
        refine Yields.of_pure ⟨rfl, rfl, ?_⟩
        rw [State.failed, hfound]
        exact Bool.not_eq_true _ ▸ hfailed

theorem sql_yields {tx : ℕ} {s : State ω ρ} (hw : Within tx s) (isWord : Char → Bool) (other : ℕ)
    {statement : String} (hplain : Gate.overlapping (Gate.lstrip statement.toList) = false) (bound : Bool) :
    Yields (sql isWord other statement bound) s (fun _ t => Goes tx s t) fun _ t => Fails tx s t := by
  rw [sql]
  refine Yields.bind (requireTransaction_yields hw other) ?_
  rintro _ _ ⟨rfl, rfl, hfailed⟩
  obtain ⟨writes, hwrites⟩ := hw.pending hfailed
  have hfails (e : Raised) {d : Connection ω ρ} (hdurable : d.durable = s.connection.durable)
      (hread : d.readOnly = s.connection.readOnly) :
      Yields (do fail other; throw (raisedAs e)) (s.on d) (fun (_ : ρ) t => Goes other s t) fun _ t =>
        Fails other s t :=
    Yields.after_modify (Yields.of_throw (hw.fail hdurable hread))
  refine Yields.after_attempt ?_
  cases hchecked : Gate.checkSql isWord statement with
  | error e => exact hfails (.error e) rfl rfl
  | ok _ =>
      refine Yields.after_demand (fun _ => hfails _ rfl rfl) fun _ => ?_
      have hexecute := Connection.execute_yields (Gate.controls_of_checked hchecked hplain) hwrites
      refine onConnection_yields (hexecute.mono ?_ ?_)
      · rintro rows d ⟨hdurable, hread, more, hmore, hreads⟩
        refine Yields.of_pure
          ⟨{ active := rfl, closed := rfl, broken := rfl, outcomeError := rfl, leases := rfl,
             transactions := .inl rfl, durable := hdurable, readOnly := hread,
             pending := fun _ before hbefore => ?_ }, rfl⟩
        obtain rfl : writes = before := Option.some.inj (hwrites.symm.trans hbefore)
        exact ⟨more, hmore, hreads⟩
      · rintro e d ⟨hdurable, hread⟩
        exact hfails e hdurable hread

-- What the body of a transaction does, however it goes on after what raises: nothing becomes
-- durable, and what raises has failed the transaction.
structure Inside (tx : ℕ) (s : State ω ρ) (events : List (Event ω ρ)) (t : State ω ρ) : Prop where
  held : Held tx s t
  kept : events.all Event.returned = true → t.failed tx = s.failed tx
  failed : events.all Event.returned = false → t.failed tx = true
  flat : ∀ event ∈ events, ∀ b, event ≠ .block b

theorem Inside.refl (tx : ℕ) (s : State ω ρ) : Inside tx s [] s :=
  ⟨.refl tx s, fun _ => rfl, fun h => absurd h.symm Bool.false_ne_true, fun _ h => absurd h List.not_mem_nil⟩

theorem Inside.trans {tx : ℕ} {s t u : State ω ρ} {events later : List (Event ω ρ)} (hw : Within tx s)
    (h : Inside tx s events t) (h' : Inside tx t later u) : Inside tx s (events ++ later) u := by
  refine ⟨h.held.trans hw h'.held, fun hreturned => ?_, fun hraised => ?_, fun event hevent => ?_⟩
  · rw [List.all_append, Bool.and_eq_true] at hreturned
    exact (h'.kept hreturned.2).trans (h.kept hreturned.1)
  · rw [List.all_append, Bool.and_eq_false_iff] at hraised
    rcases hraised with hraised | hraised
    · exact h'.held.failed (h.held.within hw) (h.failed hraised)
    · exact h'.failed hraised
  · rcases List.mem_append.mp hevent with hevent | hevent
    · exact h.flat event hevent
    · exact h'.flat event hevent

theorem Inside.single {tx : ℕ} {s t : State ω ρ} {event : Event ω ρ} (h : Held tx s t)
    (hkept : event.returned = true → t.failed tx = s.failed tx)
    (hfailed : event.returned = false → t.failed tx = true)
    (hflat : ∀ b, event ≠ .block b) : Inside tx s [event] t := by
  have hall : [event].all Event.returned = event.returned := by rw [List.all_cons, List.all_nil, Bool.and_true]
  refine ⟨h, fun hreturned => hkept (hall.symm.trans hreturned),
    fun hraised => hfailed (hall.symm.trans hraised), ?_⟩
  intro other hother
  rw [List.mem_singleton.mp hother]
  exact hflat

theorem call_flat (returned : Bool) (t : State ω ρ) (b : Block ω ρ) : Event.call returned t ≠ .block b := by
  intro h
  cases h

theorem closed_flat (returned : Bool) (t : State ω ρ) (b : Block ω ρ) : Event.closed returned t ≠ .block b := by
  intro h
  cases h

-- A call, by its specification.
theorem inside_call {α : Type} {tx : ℕ} {s : State ω ρ} {x : Op ω ρ α}
    (h : Yields x s (fun _ t => Goes tx s t) fun _ t => Fails tx s t) (event : Event ω ρ)
    (hreturned : event.returned = (perform x s).1.isOk) (hflat : ∀ b, event ≠ .block b) :
    Inside tx s [event] (perform x s).2 := by
  rcases h.perform with ⟨a, t, hx, hheld, hkept⟩ | ⟨e, t, hx, hheld, hfailed⟩ <;> rw [hx] at hreturned ⊢
  · exact .single hheld (fun _ => hkept)
      (fun h => absurd (hreturned.symm.trans h).symm Bool.false_ne_true) hflat
  · exact .single hheld (fun h => absurd (hreturned.symm.trans h) Bool.false_ne_true) (fun _ => hfailed) hflat

theorem inside_refused {tx : ℕ} {s t : State ω ρ} (h : Fails tx s t) : Inside tx s [.call false t] t :=
  .single h.1 (fun h => absurd h Bool.false_ne_true) (fun _ => h.2) (call_flat _ _)

theorem close_yields {tx : ℕ} {s : State ω ρ} (hw : Within tx s) :
    Yields close s (fun _ t => Goes tx s t) fun _ t => Fails tx s t := by
  rw [close]
  refine Yields.after_get (Yields.after_demand (fun h => absurd hw.closed h) fun _ => ?_)
  exact Yields.bind (@requireInactive_yields _ _ _ _ hw _ fun _ _ => False) fun _ _ h => h.elim

theorem enter_nested_yields {tx : ℕ} {s : State ω ρ} (hw : Within tx s) (adapter : Adapter ω ρ) (write : Bool)
    {returned : Opened → State ω ρ → Prop} :
    Yields (enter adapter write) s returned fun _ t => Fails tx s t := by
  rw [enter]
  refine Yields.bind (check_yields hw.closed hw.broken) ?_
  rintro _ _ rfl
  exact Yields.bind (@requireInactive_yields _ _ _ _ hw _ fun _ _ => False) fun _ _ h => h.elim

theorem requireIdle_yields {tx : ℕ} {s : State ω ρ} (hw : Within tx s) :
    Yields requireIdle s (fun _ t => Goes tx s t) fun _ t => Fails tx s t := by
  rw [requireIdle]
  refine Yields.bind (check_yields hw.closed hw.broken) ?_
  rintro _ _ rfl
  exact requireInactive_yields hw _

theorem closeOperation_yields {tx : ℕ} {s : State ω ρ} (hw : Within tx s) (result : Except Raised ρ) :
    Yields (closeOperation tx result) s (fun _ t => Goes tx s t) fun _ t => Fails tx s t := by
  cases result with
  | ok value => exact Yields.of_pure ⟨.refl tx s, rfl⟩
  | error e => exact Yields.after_modify (Yields.of_throw (hw.fail rfl rfl))

theorem run_within (isWord : Char → Bool) (adapter : Adapter ω ρ) {app : Application ρ}
    (hplain : app.Plain) {tx : ℕ} {s : State ω ρ} (hw : Within tx s) :
    Inside tx s (run isWord adapter app s).events (run isWord adapter app s).state := by
  induction app generalizing s with
  | done value => exact .refl tx s
  | raise e => exact .refl tx s
  | sql other statement bound next ih =>
      have hcall := inside_call (sql_yields hw isWord other hplain.1 bound)
        (.call _ (perform (sql isWord other statement bound) s).2) rfl (call_flat _ _)
      exact hcall.trans hw (ih _ (hplain.2 _) (hcall.held.within hw))
  | operation other inner next ihinner ihnext =>
      rcases (requireTransaction_yields hw other).perform with ⟨_, t, hx, rfl, rfl, -⟩ | ⟨e, t, hx, hfails⟩
      · have hinner := ihinner hplain.1 hw
        have hafter := hinner.held.within hw
        have hcall := inside_call (closeOperation_yields hafter (run isWord adapter inner s).result)
          (.call _ (perform (closeOperation other (run isWord adapter inner s).result)
            (run isWord adapter inner s).state).2) rfl (call_flat _ _)
        have hboth := hinner.trans hw hcall
        simp only [run, hx]
        exact hboth.trans hw (ihnext _ (hplain.2 _) (hboth.held.within hw))
      · simp only [run, hx]
        exact (inside_refused hfails).trans hw (ihnext _ (hplain.2 _) (hfails.1.within hw))
  | transaction write body next ihbody ihnext =>
      rcases (@enter_nested_yields _ _ _ _ hw adapter write fun _ _ => False).perform with
        ⟨_, _, _, hnever⟩ | ⟨e, t, hx, hfails⟩
      · exact hnever.elim
      · simp only [run, hx]
        exact (inside_refused hfails).trans hw (ihnext _ (hplain.2 _) (hfails.1.within hw))
  | payload next ih =>
      have hcall := inside_call (requireIdle_yields hw) (.call _ (perform requireIdle s).2) rfl (call_flat _ _)
      exact hcall.trans hw (ih _ (hplain _) (hcall.held.within hw))
  | close next ih =>
      have hcall := inside_call (close_yields hw) (.closed _ (perform close s).2) rfl (closed_flat _ _)
      exact hcall.trans hw (ih _ (hplain _) (hcall.held.within hw))

end Scope

end MeldStore
