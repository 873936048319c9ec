import MeldStore.Scope.Calls

namespace MeldStore

open Library.Raising

namespace Scope

variable {ω ρ α : Type}

theorem onConnection_yields {call : Call ω ρ α} {s : State ω ρ} {returned : α → State ω ρ → Prop}
    {raised : Raised → State ω ρ → Prop}
    (h : Yields call s.connection (fun a d => returned a (s.on d)) fun e d => raised e (s.on d)) :
    Yields (onConnection call) s returned raised := h.zoom

theorem quarantine_yields {s : State ω ρ} {e : Raised} {returned : α → State ω ρ → Prop}
    {raised : Raised → State ω ρ → Prop} (h : raised e { s with broken := true, outcomeError := some e }) :
    Yields (quarantine e) s returned raised := h

-- What the connection has after a transaction: nothing open, what is durable, and whether it
-- only reads.
def Rests (c : Connection ω ρ) (durable : List ω) (readOnly : Bool) : Prop :=
  c.durable = durable ∧ c.pending = none ∧ c.readOnly = readOnly

def Raised.reports : Raised → Option Outcome
  | .outcome _ _ _ result _ _ => some result
  | _ => none

abbrev Says (e : Raised) (outcome : Outcome) : Prop := e.reports = some outcome

-- The catalog is quarantined with the error that is raised.
def Quarantined (s t : State ω ρ) (e : Raised) (holds : Connection ω ρ → Prop) : Prop :=
  ∃ d, t = { s.on d with broken := true, outcomeError := some e } ∧ holds d

-- Direct SQLite

theorem rollbackIfOpen_yields (c : Connection ω ρ) :
    Yields rollbackIfOpen c (fun _ d => Rests d c.durable c.readOnly) fun _ d => d.durable = c.durable := by
  rw [rollbackIfOpen]
  refine Yields.bind (Connection.isOpen_yields c) ?_
  rintro _ _ ⟨rfl, rfl⟩
  split_ifs with hopen
  · exact Connection.rollback_yields c
  · rw [Bool.not_eq_true, Option.isSome_eq_false_iff, Option.isNone_iff_eq_none] at hopen
    exact Yields.of_pure ⟨rfl, hopen, rfl⟩

theorem recoverStart_yields (previous : Option Bool) (c : Connection ω ρ) :
    Yields (recoverStart previous) c (fun _ d => Rests d c.durable (previous.getD c.readOnly)) fun _ d =>
      d.durable = c.durable := by
  rw [recoverStart.eq_def]
  refine Yields.bind (rollbackIfOpen_yields c) ?_
  rintro _ d ⟨hdurable, hpending, hread⟩
  cases previous with
  | none => exact Yields.of_pure ⟨hdurable, hpending, hread⟩
  | some enabled =>
      refine (Connection.setQueryOnly_yields enabled d).mono ?_ ?_
      · rintro _ f ⟨⟨hsame, hopen⟩, hset⟩
        exact ⟨hsame.trans hdurable, hopen.trans hpending, hset⟩
      · rintro _ f ⟨hsame, -⟩
        exact hsame.trans hdurable

-- A start that raises has left nothing open, or the catalog is quarantined.
def StartFails (s : State ω ρ) (e : Raised) (t : State ω ρ) : Prop :=
  (∃ d, t = s.on d ∧ Rests d s.connection.durable s.connection.readOnly) ∨
    Quarantined s t e fun d => d.durable = s.connection.durable ∧ e.reports ≠ none ∧ ¬Says e .committed

theorem failedStart_yields {s : State ω ρ} {c : Connection ω ρ} {previous : Option Bool} {initiating : Raised}
    {returned : α → State ω ρ → Prop} (hdurable : c.durable = s.connection.durable)
    (hread : previous.getD c.readOnly = s.connection.readOnly) :
    Yields (failedStart previous initiating) (s.on c) returned (StartFails s) := by
  rw [failedStart]
  refine Yields.after_attempt (onConnection_yields ((recoverStart_yields previous c).mono ?_ ?_))
  · rintro _ d ⟨hsame, hrest⟩
    exact Yields.of_throw (.inl ⟨d, rfl, hsame.trans hdurable, hrest.1, hrest.2.trans hread⟩)
  · rintro backend d hsame
    exact quarantine_yields (.inr ⟨d, rfl, hsame.trans hdurable, nofun, nofun⟩)

theorem restrict_yields (write : Bool) (c : Connection ω ρ) :
    Yields (restrict write) c (fun _ d => Connection.Same c d ∧ d.readOnly = (!write || c.readOnly)) fun _ d =>
      Connection.Same c d ∧ write = false := by
  cases write with
  | true => exact Yields.of_pure ⟨⟨rfl, rfl⟩, rfl⟩
  | false => exact (Connection.setQueryOnly_yields true c).mono (fun _ _ h => h) fun _ _ h => ⟨h, rfl⟩

theorem startTransaction_yields (write : Bool) (c : Connection ω ρ) :
    Yields (startTransaction write) c
      (fun _ d => d.durable = c.durable ∧ d.pending = some [] ∧ d.readOnly = (!write || c.readOnly))
      fun _ d => d.durable = c.durable ∧ (write = true → d.readOnly = c.readOnly) := by
  rw [startTransaction]
  refine Yields.bind ((restrict_yields write c).mono (fun _ _ h => h) ?_) ?_
  · rintro _ d ⟨hsame, hwrite⟩
    refine ⟨hsame.1, fun h => ?_⟩
    rw [hwrite] at h
    cases h
  · rintro _ d ⟨⟨hdurable, -⟩, hread⟩
    refine (Connection.begin_yields d).mono ?_ ?_
    · rintro _ f ⟨hf, hopen, hf'⟩
      exact ⟨hf.trans hdurable, hopen, hf'.trans hread⟩
    · rintro _ f ⟨hf, hf'⟩
      refine ⟨hf.trans hdurable, fun hwrite => ?_⟩
      rw [hf', hread, hwrite, Bool.not_true, Bool.false_or]

-- A transaction that has started, and the query-only state to come back to.
def Started (s : State ω ρ) (write : Bool) (t : State ω ρ) : Prop :=
  ∃ d, t = s.on d ∧ d.durable = s.connection.durable ∧ d.pending = some [] ∧ (write = false → d.readOnly = true)

theorem sqliteBegin_yields (write : Bool) (s : State ω ρ) :
    Yields (sqliteBegin write) s
      (fun previous t => Started s write t ∧
        (if write then t.connection.readOnly else previous.getD false) = s.connection.readOnly)
      (StartFails s) := by
  rw [sqliteBegin]
  cases write with
  | true =>
      refine Yields.after_attempt
        (onConnection_yields (Yields.of_pure (Yields.after_attempt (onConnection_yields
        ((startTransaction_yields true s.connection).mono ?_ ?_)))))
      · rintro _ d ⟨hdurable, hopen, hread⟩
        exact Yields.of_pure ⟨⟨d, rfl, hdurable, hopen, nofun⟩, hread⟩
      · rintro e d ⟨hdurable, hread⟩
        exact failedStart_yields hdurable (hread rfl)
  | false =>
      have hprevious : Yields (previousQueryOnly false) s.connection
          (fun previous d => previous = some s.connection.readOnly ∧ d = s.connection.tick) fun _ d =>
            d = s.connection.tick :=
        Yields.bind (Connection.queryOnly_yields s.connection) (by
          rintro _ _ ⟨rfl, rfl⟩
          exact Yields.of_pure ⟨rfl, rfl⟩)
      refine Yields.after_attempt (onConnection_yields (hprevious.mono ?_ ?_))
      · rintro _ _ ⟨rfl, rfl⟩
        refine Yields.after_attempt (onConnection_yields ((startTransaction_yields false _).mono ?_ ?_))
        · rintro _ d ⟨hdurable, hopen, hread⟩
          exact Yields.of_pure ⟨⟨d, rfl, hdurable, hopen, fun _ => hread⟩, rfl⟩
        · rintro e d ⟨hdurable, -⟩
          exact failedStart_yields hdurable rfl
      · rintro e _ rfl
        exact failedStart_yields rfl rfl

theorem restore_yields (write : Bool) (previous : Option Bool) (c : Connection ω ρ) :
    Yields (restore write previous) c
      (fun _ d => Connection.Same c d ∧ d.readOnly = if write then c.readOnly else previous.getD false)
      fun _ d => Connection.Same c d := by
  cases write with
  | true => exact Yields.of_pure ⟨⟨rfl, rfl⟩, rfl⟩
  | false => exact Connection.setQueryOnly_yields (previous.getD false) c

-- How a transaction ends. Its writes are those of its body, as far as its connection has them.

-- The catalog is as before, but for what is durable.
def Ends (s : State ω ρ) (t : State ω ρ) (durable : List ω) : Prop :=
  ∃ d, t = s.on d ∧ d.durable = durable ∧ d.pending = none

-- An error tells no more than what has been established.
structure Truthful (before after : List ω) (writes : List ω) (e : Raised) : Prop where
  reported : e.reports ≠ none
  rolledBack : Says e .rolledBack → after = before
  committed : Says e .committed → after = before ++ writes

theorem Truthful.of_unknown {before after writes : List ω} {e : Raised} (h : Says e .unknown) :
    Truthful before after writes e :=
  ⟨fun hnone => (by cases h.symm.trans hnone), fun hsays => (by cases h.symm.trans hsays),
    fun hsays => (by cases h.symm.trans hsays)⟩

theorem Truthful.of_rolledBack {before after writes : List ω} {e : Raised} (h : Says e .rolledBack)
    (hsame : after = before) :
    Truthful before after writes e :=
  ⟨fun hnone => (by cases h.symm.trans hnone), fun _ => hsame, fun hsays => (by cases h.symm.trans hsays)⟩

theorem Truthful.of_committed {before after writes : List ω} {e : Raised} (h : Says e .committed)
    (hsame : after = before ++ writes) : Truthful before after writes e :=
  ⟨fun hnone => (by cases h.symm.trans hnone), fun hsays => (by cases h.symm.trans hsays), fun _ => hsame⟩

-- The transaction does not commit.
def Abandons (s : State ω ρ) (initiating : Raised) (readOnly : Connection ω ρ → Prop) (e : Raised)
    (t : State ω ρ) : Prop :=
  (e = initiating ∧ ∃ d, t = s.on d ∧ d.durable = s.connection.durable ∧ d.pending = none ∧ readOnly d) ∨
    Quarantined s t e fun d => d.durable = s.connection.durable ∧
      Truthful s.connection.durable d.durable (s.connection.pending.getD []) e ∧ ¬Says e .committed

-- It does, or the error tells that it may have.
def CommitFails (s : State ω ρ) (e : Raised) (t : State ω ρ) : Prop :=
  Quarantined s t e fun d =>
    (d.durable = s.connection.durable ∨ d.durable = s.connection.durable ++ s.connection.pending.getD []) ∧
      Truthful s.connection.durable d.durable (s.connection.pending.getD []) e

def Commits (s : State ω ρ) (readOnly : Connection ω ρ → Prop) (t : State ω ρ) : Prop :=
  ∃ d writes, t = s.on d ∧ s.connection.pending = some writes ∧ d.durable = s.connection.durable ++ writes ∧
    d.pending = none ∧ readOnly d

theorem sqliteEnd_error_yields (write : Bool) (previous : Option Bool) (initiating : Raised) (s : State ω ρ)
    {returned : ρ → State ω ρ → Prop} :
    Yields (sqliteEnd write previous (.error initiating)) s returned
      (Abandons s initiating fun d => d.readOnly = if write then s.connection.readOnly
        else previous.getD false) := by
  rw [sqliteEnd]
  refine Yields.after_attempt (onConnection_yields ((Connection.rollback_yields s.connection).mono ?_ ?_))
  · rintro _ c ⟨hdurable, hpending, hread⟩
    refine Yields.after_attempt (onConnection_yields ((restore_yields write previous c).mono ?_ ?_))
    · rintro _ d ⟨⟨hd, hp⟩, hset⟩
      refine Yields.of_throw (.inl ⟨rfl, d, rfl, hd.trans hdurable, hp.trans hpending,
        hset.trans (by rw [hread])⟩)
    · rintro backend d ⟨hd, -⟩
      refine quarantine_yields (.inr ⟨d, rfl, hd.trans hdurable, ?_, ?_⟩)
      · exact .of_rolledBack rfl (hd.trans hdurable)
      · intro hsays
        cases hsays
  · rintro backend d hdurable
    refine quarantine_yields (.inr ⟨d, rfl, hdurable, .of_unknown rfl, ?_⟩)
    intro hsays
    cases hsays

theorem sqliteEnd_ok_yields (write : Bool) (previous : Option Bool) (value : ρ) (s : State ω ρ) :
    Yields (sqliteEnd write previous (.ok value)) s
      (fun result t => result = value ∧
        Commits s (fun d => d.readOnly = if write then s.connection.readOnly else previous.getD false) t)
      (CommitFails s) := by
  rw [sqliteEnd]
  refine Yields.after_attempt (onConnection_yields ((Connection.commit_yields s.connection).mono ?_ ?_))
  · rintro _ c ⟨writes, hwrites, hdurable, hpending, hread⟩
    refine Yields.after_attempt (onConnection_yields ((restore_yields write previous c).mono ?_ ?_))
    · rintro _ d ⟨⟨hd, hp⟩, hset⟩
      refine Yields.of_pure ⟨rfl, d, writes, rfl, hwrites, hd.trans hdurable, hp.trans hpending,
        hset.trans (by rw [hread])⟩
    · rintro backend d ⟨hd, -⟩
      have hcommitted : d.durable = s.connection.durable ++ s.connection.pending.getD [] := by
        rw [hwrites, Option.getD_some]
        exact hd.trans hdurable
      exact quarantine_yields ⟨d, rfl, .inr hcommitted, .of_committed rfl hcommitted⟩
  · rintro backend d hdurable
    exact quarantine_yields ⟨d, rfl, hdurable, .of_unknown rfl⟩

-- MeldDB. What its transactions promise: an error of the start that is no outcome leaves nothing
-- open, an outcome that is reported is the one there is, and what ends a transaction is never
-- interrupted without a report.
structure Manager.Promises (manager : Manager ω ρ) : Prop where
  entered (write : Bool) (c : Connection ω ρ) (h : c.pending = none) : Yields (manager.enter write) c
    (fun _ d => d.durable = c.durable ∧ d.pending = some [] ∧ (write = false → d.readOnly = true))
    fun e d => d.durable = c.durable ∧
      (meldOutcome e = none → d.pending = none ∧ d.readOnly = c.readOnly) ∧
      ∀ mapped, meldOutcome e = some mapped → ¬Says mapped .committed
  committed (c : Connection ω ρ) (writes : List ω) (h : c.pending = some writes) : Yields (manager.exit false) c
    (fun _ d => d.durable = c.durable ++ writes ∧ d.pending = none)
    fun e d => (d.durable = c.durable ∨ d.durable = c.durable ++ writes) ∧
      ∀ mapped, meldOutcome e = some mapped → Truthful c.durable d.durable writes mapped
  abandoned (c : Connection ω ρ) : Yields (manager.exit true) c
    (fun _ d => d.durable = c.durable ∧ d.pending = none)
    fun e d => d.durable = c.durable ∧ ∀ mapped, meldOutcome e = some mapped → ¬Says mapped .committed
  reports (failed : Bool) (c : Connection ω ρ) : Yields (manager.exit failed) c (fun _ _ => True) fun e _ =>
    e.isException = true

theorem meldOutcome_reports {e mapped : Raised} (h : meldOutcome e = some mapped) : mapped.reports ≠ none := by
  cases e with
  | melddb =>
      rw [← Option.some.inj h]
      exact nofun
  | _ => cases h

theorem meldBegin_yields {manager : Manager ω ρ} (hmanager : manager.Promises) (write : Bool) {s : State ω ρ}
    (hidle : s.connection.pending = none) :
    Yields (meldBegin manager write) s (fun _ t => Started s write t) (StartFails s) := by
  rw [meldBegin]
  refine Yields.after_attempt (onConnection_yields ((hmanager.entered write s.connection hidle).mono ?_ ?_))
  · rintro _ d ⟨hdurable, hopen, hread⟩
    exact Yields.of_pure ⟨d, rfl, hdurable, hopen, hread⟩
  · rintro e d ⟨hdurable, hnothing, hreported⟩
    cases hmapped : meldOutcome e with
    | some mapped =>
        simp only [hmapped]
        exact quarantine_yields (.inr ⟨d, rfl, hdurable, meldOutcome_reports hmapped, hreported mapped hmapped⟩)
    | none =>
        simp only [hmapped]
        exact Yields.of_throw (.inl ⟨d, rfl, hdurable, hnothing hmapped⟩)

theorem failedExit_yields {e uncertain : Raised} {s : State ω ρ} {returned : α → State ω ρ → Prop}
    {raised : Raised → State ω ρ → Prop} (hexception : e.isException = true)
    (hmapped : ∀ mapped, meldOutcome e = some mapped →
      raised mapped { s with broken := true, outcomeError := some mapped })
    (huncertain : raised uncertain { s with broken := true, outcomeError := some uncertain }) :
    Yields (failedExit e uncertain) s returned raised := by
  rw [failedExit]
  cases h : meldOutcome e with
  | some mapped => exact quarantine_yields (hmapped mapped h)
  | none =>
      dsimp only
      rw [if_pos hexception]
      exact quarantine_yields huncertain

theorem meldEnd_error_yields {manager : Manager ω ρ} (hmanager : manager.Promises)
    (initiating : Raised) (s : State ω ρ) {returned : ρ → State ω ρ → Prop} :
    Yields (meldEnd manager (.error initiating)) s returned (Abandons s initiating fun _ => True) := by
  rw [meldEnd]
  refine Yields.after_attempt (onConnection_yields
    (((hmanager.abandoned s.connection).and (hmanager.reports true s.connection)).mono ?_ ?_))
  · rintro _ d ⟨⟨hdurable, hpending⟩, -⟩
    exact Yields.of_throw (.inl ⟨rfl, d, rfl, hdurable, hpending, trivial⟩)
  · rintro e d ⟨⟨hdurable, hreported⟩, hexception⟩
    refine failedExit_yields hexception (fun mapped hmapped =>
      .inr ⟨d, rfl, hdurable, ?_, hreported mapped hmapped⟩)
      (.inr ⟨d, rfl, hdurable, .of_unknown rfl, nofun⟩)
    exact ⟨meldOutcome_reports hmapped, fun _ => hdurable, fun hsays => absurd hsays (hreported mapped hmapped)⟩

theorem meldEnd_ok_yields {manager : Manager ω ρ} (hmanager : manager.Promises) (value : ρ) {s : State ω ρ}
    {writes : List ω} (hopen : s.connection.pending = some writes) :
    Yields (meldEnd manager (.ok value)) s (fun result t => result = value ∧ Commits s (fun _ => True) t)
    (CommitFails s) := by
  rw [meldEnd]
  refine Yields.after_attempt (onConnection_yields
    (((hmanager.committed s.connection writes hopen).and (hmanager.reports false s.connection)).mono ?_ ?_))
  · rintro _ d ⟨⟨hdurable, hpending⟩, -⟩
    exact Yields.of_pure ⟨rfl, d, writes, rfl, hopen, hdurable, hpending, trivial⟩
  · rintro e d ⟨⟨hdurable, hreported⟩, hexception⟩
    have hfails : ∀ raised, Truthful s.connection.durable d.durable writes raised →
        CommitFails s raised { s.on d with broken := true, outcomeError := some raised } := by
      intro raised htruthful
      refine ⟨d, rfl, ?_, ?_⟩ <;> rw [hopen, Option.getD_some]
      · exact hdurable
      · exact htruthful
    exact failedExit_yields hexception (fun mapped hmapped => hfails mapped (hreported mapped hmapped))
      (hfails _ (.of_unknown rfl))

-- Both adapters

def Adapter.Promises : Adapter ω ρ → Prop
  | .sqlite => True
  | .melddb manager => manager.Promises

-- The direct adapter comes back to its query-only state.
def Adapter.Keeps (adapter : Adapter ω ρ) (readOnly : Bool) (c : Connection ω ρ) : Prop :=
  match adapter with
  | .sqlite => c.readOnly = readOnly
  | .melddb _ => True

def Adapter.Remembers (adapter : Adapter ω ρ) (write : Bool) (previous : Option Bool) (readOnly : Bool)
    (c : Connection ω ρ) : Prop :=
  match adapter with
  | .sqlite => (if write then c.readOnly else previous.getD false) = readOnly
  | .melddb _ => True

theorem adapter_begin_yields {adapter : Adapter ω ρ} (hadapter : adapter.Promises)
    (write : Bool) {s : State ω ρ} (hidle : s.connection.pending = none) :
    Yields (adapter.begin write) s
      (fun previous t => Started s write t ∧
        adapter.Remembers write previous s.connection.readOnly t.connection)
      (StartFails s) := by
  cases adapter with
  | sqlite => exact sqliteBegin_yields write s
  | melddb manager =>
      exact (meldBegin_yields hadapter write hidle).mono (fun _ _ h => ⟨h, trivial⟩) fun _ _ h => h

theorem adapter_finish_error_yields {adapter : Adapter ω ρ} (hadapter : adapter.Promises) {write : Bool}
    {previous : Option Bool} (initiating : Raised) {s : State ω ρ} {readOnly : Bool}
    (hremembers : adapter.Remembers write previous readOnly s.connection) {returned : ρ → State ω ρ → Prop} :
    Yields (adapter.finish write previous (.error initiating)) s returned
    (Abandons s initiating (adapter.Keeps readOnly)) := by
  cases adapter with
  | sqlite =>
      have hend := @sqliteEnd_error_yields _ _ write previous initiating s returned
      rwa [show (if write then s.connection.readOnly else previous.getD false) =
        readOnly from hremembers] at hend
  | melddb manager => exact meldEnd_error_yields hadapter initiating s

theorem adapter_finish_ok_yields {adapter : Adapter ω ρ} (hadapter : adapter.Promises) {write : Bool}
    {previous : Option Bool} (value : ρ) {s : State ω ρ} {readOnly : Bool}
    (hremembers : adapter.Remembers write previous readOnly s.connection) {writes : List ω}
    (hopen : s.connection.pending = some writes) :
    Yields (adapter.finish write previous (.ok value)) s
      (fun result t => result = value ∧ Commits s (adapter.Keeps readOnly) t) (CommitFails s) := by
  cases adapter with
  | sqlite =>
      have hend := sqliteEnd_ok_yields write previous value s
      rwa [show (if write then s.connection.readOnly else previous.getD false) =
        readOnly from hremembers] at hend
  | melddb manager => exact meldEnd_ok_yields hadapter value hopen

end Scope

end MeldStore
