import MeldStore.Gate
import MeldStore.Library.Raising

namespace MeldStore

open Library.Raising

namespace Scope

-- The transactions of a catalog: catalog.py.

inductive Phase
  | begin
  | commit
  | rollback
  | cleanup
deriving DecidableEq, Repr

inductive Outcome
  | unknown
  | rolledBack
  | committed
deriving DecidableEq, Repr

inductive Kind
  | TransactionOutcomeError
  | CommitError
  | RollbackError
deriving DecidableEq, Repr

-- What translation reads of an error of a driver.
inductive Code
  | integrity
  | busy
  | other
deriving DecidableEq, Repr

-- What is raised: an error of a driver, one of the library, an outcome that MeldDB or this
-- module reports, any other Exception, and what is no Exception.
inductive Raised
  | driver (code : Code) (text : String)
  | error (error : Error)
  | melddb (kind : Kind) (text : String) (phase : Phase) (outcome : Outcome)
      (initiating backend : Option Raised)
  | outcome (kind : Kind) (text : String) (phase : Phase) (outcome : Outcome)
      (initiating backend : Option Raised)
  | other (text : String)
  | interrupt

def Raised.isException : Raised → Bool
  | .interrupt => false
  | _ => true

-- _translate_melddb_outcome
def meldOutcome : Raised → Option Raised
  | .melddb kind text phase outcome initiating backend =>
      some (.outcome kind text phase outcome initiating backend)
  | _ => none

-- _translate
def translate : Raised → Raised
  | .error (.PythonError kind) => .error (.ValidationError kind)
  | .error e => .error e
  | .outcome kind text phase outcome initiating backend => .outcome kind text phase outcome initiating backend
  | .driver .integrity text => .error (.ConstraintError text)
  | .driver .busy text => .error (.BusyError text)
  | .driver .other text => .error (.ValidationError text)
  | .melddb _ text _ _ _ _ => .error (.ValidationError text)
  | .other text => .error (.ValidationError text)
  | .interrupt => .error (.ValidationError "")

-- if not isinstance(exc, Exception): raise
def raisedAs (e : Raised) : Raised := if e.isException then translate e else e

-- How a call of the connection ends: what takes effect, what is raised, and for a statement what
-- it writes and returns. What raises may have taken effect, or may have ended the transaction.
inductive Effect
  | nothing
  | applied
  | ended
deriving DecidableEq, Repr

-- What SQLite has made durable, what the open transaction has written, and the query-only state.
structure Session (ω : Type) where
  durable : List ω
  pending : Option (List ω)
  readOnly : Bool

-- A text that SQLite reads as a command of the transaction or the connection leaves any session.
structure Reaction (ω ρ : Type) where
  effect : Effect
  raised : Option Raised
  writes : List ω
  rows : ρ
  control : Session ω

-- A connection, and how its calls will end.
structure Connection (ω ρ : Type) extends Session ω where
  clock : ℕ
  reactions : ℕ → Reaction ω ρ

abbrev Call (ω ρ α : Type) := EStateM Raised (Connection ω ρ) α

section

variable {ω ρ α : Type}

namespace Connection

def react : Call ω ρ (Reaction ω ρ) := fun c => .ok (c.reactions c.clock) { c with clock := c.clock + 1 }

def isOpen : Call ω ρ Bool := fun c => .ok c.pending.isSome c

-- What takes effect of a call: all of it, unless it raises.
def settle (reaction : Reaction ω ρ) (effect : Connection ω ρ → Connection ω ρ)
    (c : Connection ω ρ) : Connection ω ρ :=
  match reaction.raised, reaction.effect with
  | none, _ => effect c
  | some _, .applied => effect c
  | some _, .nothing => c
  | some _, .ended => { c with pending := none }

-- BEGIN, COMMIT and ROLLBACK
def control (requires : Bool) (text : String) (effect : Connection ω ρ → Connection ω ρ) : Call ω ρ Unit := do
  let reaction ← react
  demand ((← isOpen) = requires) (.driver .other text)
  modify (settle reaction effect)
  raiseAny reaction.raised

def begin : Call ω ρ Unit :=
  control false "cannot start a transaction within a transaction" fun c => { c with pending := some [] }

def commit : Call ω ρ Unit :=
  control true "cannot commit - no transaction is active" fun c =>
    { c with durable := c.durable ++ c.pending.getD [], pending := none }

def rollback : Call ω ρ Unit :=
  control true "cannot rollback - no transaction is active" fun c => { c with pending := none }

-- _query_only
def queryOnly : Call ω ρ Bool := do
  let reaction ← react
  raiseAny reaction.raised
  pure (← get).readOnly

-- _set_query_only. The PRAGMA may return without having taken effect.
def setQueryOnly (enabled : Bool) : Call ω ρ Unit := do
  let reaction ← react
  modify fun c => if reaction.effect = .applied then { c with readOnly := enabled } else c
  raiseAny reaction.raised
  let found ← queryOnly
  demand (found = enabled) (.other "SQLite query-only state could not be verified")

-- Outside of a transaction a statement is its own.
def write (writes : List ω) (c : Connection ω ρ) : Connection ω ρ :=
  match c.pending with
  | some before => { c with pending := some (before ++ writes) }
  | none => { c with durable := c.durable ++ writes }

def takeControl (session : Session ω) (c : Connection ω ρ) : Connection ω ρ := { c with toSession := session }

def execute (statement : String) : Call ω ρ ρ := do
  let reaction ← react
  if Gate.controls statement then modify (takeControl reaction.control)
  else do
    demand ((← get).readOnly = true → reaction.writes.isEmpty = true)
      (.driver .other "attempt to write a readonly database")
    modify (settle reaction (write reaction.writes))
  raiseAny reaction.raised
  pure reaction.rows

-- The connection of a closed handle rolls back.
def close : Call ω ρ Unit := do
  modify fun c => { c with pending := none }
  let reaction ← react
  raiseAny reaction.raised

def closeLease : Call ω ρ Unit := do
  let reaction ← react
  raiseAny reaction.raised

end Connection

-- The transaction manager of MeldDB.
structure Manager (ω ρ : Type) where
  enter (write : Bool) : Call ω ρ Unit
  exit (failed : Bool) : Call ω ρ Unit

inductive Adapter (ω ρ : Type)
  | sqlite
  | melddb (manager : Manager ω ρ)

structure Transaction where
  failed : Bool
  live : Bool
deriving DecidableEq, Repr

-- A catalog, with the transactions it has handed out.
structure State (ω ρ : Type) where
  connection : Connection ω ρ
  transactions : List Transaction
  active : Option ℕ
  closed : Bool
  broken : Bool
  outcomeError : Option Raised
  leases : ℕ

abbrev Op (ω ρ α : Type) := EStateM Raised (State ω ρ) α

def State.on (s : State ω ρ) (c : Connection ω ρ) : State ω ρ := { s with connection := c }

def onConnection (call : Call ω ρ α) : Op ω ρ α := zoom State.connection State.on call

def raiseError (e : Error) : Op ω ρ α := throw (.error e)

def State.fail (s : State ω ρ) (tx : ℕ) : State ω ρ :=
  { s with transactions := s.transactions.modify tx fun t => { t with failed := true } }

def fail (tx : ℕ) : Op ω ρ Unit := modify fun s => s.fail tx

-- if self._active is not None: self._active._failed = True
def poison : Op ω ρ Unit := modify fun s =>
  match s.active with
  | some tx => s.fail tx
  | none => s

-- _check, on the thread that created the catalog
def check : Op ω ρ Unit := do
  let s ← get
  demand (s.closed = false) (.error (.TransactionError "Catalog is closed"))
  demand (s.broken = false)
    (.error (.TransactionError "Catalog needs closing after a failed commit or rollback"))

-- What must not happen inside a transaction fails it.
def requireInactive (text : String) : Op ω ρ Unit := do
  let s ← get
  match s.active with
  | some tx => do
      fail tx
      raiseError (.TransactionError text)
  | none => pure ()

-- _quarantine
def quarantine (e : Raised) : Op ω ρ α := do
  modify fun s => { s with broken := true, outcomeError := some e }
  throw e

-- A transaction that the catalog has not handed out belongs to another one.
def requireTransaction (tx : ℕ) : Op ω ρ Unit := do
  check
  let s ← get
  match s.transactions[tx]? with
  | none => do
      poison
      raiseError (.TransactionError "Transaction belongs to another catalog")
  | some t =>
      if ¬t.live ∨ s.active ≠ some tx ∨ t.failed then do
        poison
        raiseError (.TransactionError "Transaction is expired or failed")
      else pure ()

def requireIdle : Op ω ρ Unit := do
  check
  requireInactive "Storage I/O must occur outside a catalog transaction"

-- Transaction.sql, where bound tells whether the bindings are a tuple, a list or a dict
def sql (isWord : Char → Bool) (tx : ℕ) (statement : String) (bound : Bool) : Op ω ρ ρ := do
  requireTransaction tx
  let result ← attempt do
    deliver ((Gate.checkSql isWord statement).mapError .error)
    demand (bound = true) (.error (.ValidationError "Bindings must be a tuple, list, or dict"))
    onConnection (Connection.execute statement)
  match result with
  | .ok rows => pure rows
  | .error e => do
      fail tx
      throw (raisedAs e)

-- The end of Transaction.operation, and of the calls that take a transaction
def closeOperation (tx : ℕ) (result : Except Raised ρ) : Op ω ρ ρ :=
  match result with
  | .ok value => pure value
  | .error e => do
      fail tx
      throw e

-- _sqlite_transaction

def previousQueryOnly (write : Bool) : Call ω ρ (Option Bool) :=
  if write then pure none else some <$> Connection.queryOnly

def restrict (write : Bool) : Call ω ρ Unit := if write then pure () else Connection.setQueryOnly true

def startTransaction (write : Bool) : Call ω ρ Unit := do
  restrict write
  Connection.begin

def rollbackIfOpen : Call ω ρ Unit := do
  let isopen ← Connection.isOpen
  if isopen then Connection.rollback else pure ()

def recoverStart (previous : Option Bool) : Call ω ρ Unit := do
  rollbackIfOpen
  match previous with
  | some enabled => Connection.setQueryOnly enabled
  | none => pure ()

def failedStart (previous : Option Bool) (initiating : Raised) : Op ω ρ α := do
  match ← attempt (onConnection (recoverStart previous)) with
  | .error backend =>
      quarantine (.outcome .TransactionOutcomeError
        "Transaction start failed and recovery is uncertain; close and reopen"
        .begin .unknown (some initiating) (some backend))
  | .ok _ => throw (raisedAs initiating)

def sqliteBegin (write : Bool) : Op ω ρ (Option Bool) := do
  match ← attempt (onConnection (previousQueryOnly write)) with
  | .error initiating => failedStart none initiating
  | .ok previous =>
      match ← attempt (onConnection (startTransaction write)) with
      | .error initiating => failedStart previous initiating
      | .ok _ => pure previous

-- The query-only state as it was before a read transaction
def restore (write : Bool) (previous : Option Bool) : Call ω ρ Unit :=
  if write then pure () else Connection.setQueryOnly (previous.getD false)

def sqliteEnd (write : Bool) (previous : Option Bool) : Except Raised ρ → Op ω ρ ρ
  | .error initiating => do
      match ← attempt (onConnection Connection.rollback) with
      | .error backend =>
          quarantine (.outcome .RollbackError "Rollback failed; close and reopen before retrying"
            .rollback .unknown
            (some initiating) (some backend))
      | .ok _ =>
          match ← attempt (onConnection (restore write previous)) with
          | .error backend =>
              quarantine (.outcome .RollbackError
                "Transaction rolled back but connection cleanup failed; close and reopen" .cleanup .rolledBack
                (some initiating) (some backend))
          | .ok _ => throw initiating
  | .ok value => do
      match ← attempt (onConnection Connection.commit) with
      | .error backend =>
          quarantine
            (.outcome .CommitError "Commit outcome is uncertain; close and reopen before retrying" .commit
            .unknown none (some backend))
      | .ok _ =>
          match ← attempt (onConnection (restore write previous)) with
          | .error backend =>
              quarantine (.outcome .CommitError
                "Transaction committed but connection cleanup failed; close and reopen" .cleanup .committed none
                (some backend))
          | .ok _ => pure value

-- _melddb_transaction

def meldBegin (manager : Manager ω ρ) (write : Bool) : Op ω ρ (Option Bool) := do
  match ← attempt (onConnection (manager.enter write)) with
  | .ok _ => pure none
  | .error e =>
      match meldOutcome e with
      | some mapped => quarantine mapped
      | none => throw (raisedAs e)

def failedExit (e : Raised) (uncertain : Raised) : Op ω ρ α :=
  match meldOutcome e with
  | some mapped => quarantine mapped
  | none => if e.isException then quarantine uncertain else throw e

def meldEnd (manager : Manager ω ρ) : Except Raised ρ → Op ω ρ ρ
  | .error initiating => do
      match ← attempt (onConnection (manager.exit true)) with
      | .error e =>
          failedExit e (.outcome .RollbackError "Rollback failed; close and reopen before retrying"
            .rollback .unknown
            (some initiating) (some e))
      | .ok _ => throw initiating
  | .ok value => do
      match ← attempt (onConnection (manager.exit false)) with
      | .error e =>
          failedExit e (.outcome .CommitError "Commit failed; close and reopen before retrying"
            .commit .unknown none
            (some e))
      | .ok _ => pure value

-- Catalog.transaction, as its with statement runs it: what comes before the body and after it.

structure Opened where
  tx : ℕ
  previous : Option Bool

def Adapter.begin (adapter : Adapter ω ρ) (write : Bool) : Op ω ρ (Option Bool) :=
  match adapter with
  | .sqlite => sqliteBegin write
  | .melddb manager => meldBegin manager write

def Adapter.finish (adapter : Adapter ω ρ) (write : Bool) (previous : Option Bool)
    (result : Except Raised ρ) : Op ω ρ ρ :=
  match adapter with
  | .sqlite => sqliteEnd write previous result
  | .melddb manager => meldEnd manager result

def enter (adapter : Adapter ω ρ) (write : Bool) : Op ω ρ Opened := do
  check
  requireInactive "Nested transactions are not supported"
  let previous ← adapter.begin write
  let s ← get
  set { s with transactions := s.transactions ++ [({ failed := false, live := true } : Transaction)],
               active := some s.transactions.length }
  pure ⟨s.transactions.length, previous⟩

def State.failed (s : State ω ρ) (tx : ℕ) : Bool := (s.transactions[tx]?.map Transaction.failed).getD false

-- What the body ends with, unless a call in it has failed
def bodyResult (s : State ω ρ) (tx : ℕ) (result : Except Raised ρ) : Except Raised ρ := do
  let value ← result
  if s.failed tx then throw (.error (.TransactionError "Failed transaction cannot commit"))
  pure value

def expire (tx : ℕ) : Op ω ρ Unit := modify fun s =>
  { s with transactions := s.transactions.modify tx fun t => { t with live := false }, active := none }

def leave (adapter : Adapter ω ρ) (write : Bool) (opened : Opened) (result : Except Raised ρ) : Op ω ρ ρ := do
  let s ← get
  let ended ← attempt (adapter.finish write opened.previous (bodyResult s opened.tx result))
  expire opened.tx
  deliver ended

-- _close, without an error on its way

def closeResource (call : Call ω ρ Unit) : Op ω ρ (List Raised) := do
  match ← attempt (onConnection call) with
  | .ok _ => pure []
  | .error e => pure [e]

def closeLeases : ℕ → Op ω ρ (List Raised)
  | 0 => pure []
  | n + 1 => do
      let first ← closeResource Connection.closeLease
      let rest ← closeLeases n
      pure (first ++ rest)

def close : Op ω ρ Unit := do
  let s ← get
  demand (s.closed = false) (.error (.TransactionError "Catalog is closed or used from another thread"))
  requireInactive "Cannot close an active catalog"
  let first ← closeResource Connection.close
  let rest ← closeLeases s.leases
  modify fun s => { s with closed := true }
  match first ++ rest, s.outcomeError with
  | [], _ => pure ()
  | _, some e => throw e
  | _, none => raiseError (.TransactionError "Catalog close encountered cleanup failures")

end

end Scope

end MeldStore
