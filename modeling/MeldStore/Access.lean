import Mathlib.Logic.Function.Basic
import MeldStore.Library.Locks

namespace MeldStore

open Library

namespace Access

-- Cooperative access: access.py, and what a catalog does with leases. A lease is a connection to a
-- gate file, which is open for as long as the lease is held.

-- What Lease.__init__ does next. What an initialisation writes is its own until it commits.
inductive Stage
  | connected
  | checked
  | absent
  | creating
  | created (owners : List String)
  | written (owners : List String)
  | ready
  | begun
  | held
deriving DecidableEq, Repr

structure Lease where
  process : ℕ
  -- the catalog handle that has taken it
  holder : Option ℕ
  gate : String
  owner : String
  exclusive : Bool
  stage : Stage
deriving DecidableEq, Repr

-- A gate file: its rows of access_owner, its journal mode and its locks.
structure Gate where
  owners : Option (List String)
  deleteMode : Bool
  locks : Locks ℕ

-- One statement of Lease.__init__ on the connection, where it does not raise.
def Lease.step (gate : Gate) (id : ℕ) (lease : Lease) : Option (Lease × Gate) :=
  match lease.stage with
  | .connected => do
      -- PRAGMA journal_mode
      let _ ← gate.locks.share id
      if gate.deleteMode then some ({ lease with stage := .checked }, gate) else none
  | .checked => do
      -- SELECT name FROM sqlite_master WHERE name='access_owner'
      let _ ← gate.locks.share id
      some ({ lease with stage := if gate.owners.isSome then .ready else .absent }, gate)
  | .absent => do
      -- BEGIN EXCLUSIVE
      let locks ← gate.locks.exclude id
      some ({ lease with stage := .creating }, { gate with locks := locks })
  | .creating =>
      -- CREATE TABLE IF NOT EXISTS access_owner
      some ({ lease with stage := .created (gate.owners.getD []) }, gate)
  | .created owners =>
      -- INSERT INTO access_owner VALUES (?), unless it has a row
      some ({ lease with stage := .written (if owners.isEmpty then [lease.owner] else owners) }, gate)
  | .written owners =>
      -- COMMIT
      some ({ lease with stage := .ready },
        { gate with owners := some owners, locks := gate.locks.retain fun other => other ≠ id })
  | .ready => do
      -- BEGIN, or BEGIN EXCLUSIVE
      let locks ← if lease.exclusive then gate.locks.exclude id else some gate.locks
      some ({ lease with stage := .begun }, { gate with locks := locks })
  | .begun => do
      -- SELECT owner FROM access_owner
      let locks ← gate.locks.share id
      if gate.owners = some [lease.owner] then
        some ({ lease with stage := .held }, { gate with locks := locks }) else none
  | .held => none

-- The gates, and the leases on them.
structure Leases where
  gates : String → Gate
  leases : ℕ → Option Lease
  next : ℕ

def Leases.connect (w : Leases) (process : ℕ) (holder : Option ℕ) (gate owner : String)
    (exclusive : Bool) : Leases :=
  { w with
    leases := Function.update w.leases w.next
      (some { process := process, holder := holder, gate := gate, owner := owner, exclusive := exclusive,
              stage := .connected })
    next := w.next + 1 }

def Leases.put (w : Leases) (id : ℕ) (lease : Lease) (gate : Gate) : Leases :=
  { w with leases := Function.update w.leases id (some lease),
           gates := Function.update w.gates lease.gate gate }

-- Connections that are closed, or whose process has died, have no locks, and what they have not
-- committed is lost.
def Leases.retain (w : Leases) (keep : ℕ → Bool) : Leases :=
  { w with
    leases := fun id => if keep id then w.leases id else none
    gates := fun name => { w.gates name with locks := (w.gates name).locks.retain keep } }

-- A catalog handle, which is named by its lease on the catalog path.

inductive Doing
  | opening
  | idle
  | binding (root : String) (lease : ℕ)
  | closing
deriving DecidableEq, Repr

structure Handle where
  process : ℕ
  path : String
  exclusive : Bool
  bound : List (String × ℕ)
  readers : ℕ
  doing : Doing
deriving DecidableEq, Repr

def accessGate (path : String) : String := path ++ ".meldstore-access"

def rootGate (root : String) : String := root ++ "/meldstore-access.sqlite"

-- Catalog.require_maintenance
def Handle.requireMaintenance (handle : Handle) (root : String) : Bool :=
  handle.doing = .idle && handle.exclusive && (handle.bound.map Prod.fst).contains root && handle.readers = 0

structure World where
  leases : Leases
  handles : ℕ → Option Handle

def World.handle (w : World) (leases : Leases) (h : ℕ) (handle : Option Handle) : World :=
  { leases := leases, handles := Function.update w.handles h handle }

-- What any process may do next.
inductive Step (w : World) : World → Prop
  -- Catalog(path, maintenance=exclusive)
  | openCatalog (process : ℕ) (path : String) (exclusive : Bool) :
      Step w (w.handle (w.leases.connect process (some w.leases.next) (accessGate path) path exclusive)
        w.leases.next
        (some { process := process, path := path, exclusive := exclusive, bound := [], readers := 0,
                doing := .opening }))
  -- catalog_access, and the leases of a restore or of new storage
  | visit (process : ℕ) (gate owner : String) (exclusive : Bool) :
      Step w { w with leases := w.leases.connect process none gate owner exclusive }
  | advance (id : ℕ) (lease after : Lease) (gate : Gate) (hlease : w.leases.leases id = some lease)
      (hstep : lease.step (w.leases.gates lease.gate) id = some (after, gate)) :
      Step w { w with leases := w.leases.put id after gate }
  -- A lease that raises, or is closed
  | leave (id : ℕ) (lease : Lease) (hlease : w.leases.leases id = some lease) (hvisit : lease.holder = none) :
      Step w { w with leases := w.leases.retain fun other => other ≠ id }
  | failOpen (h : ℕ) (handle : Handle) (hhandle : w.handles h = some handle)
      (hdoing : handle.doing = .opening) :
      Step w (w.handle (w.leases.retain fun other => other ≠ h) h none)
  | opened (h : ℕ) (handle : Handle) (lease : Lease) (hhandle : w.handles h = some handle)
      (hdoing : handle.doing = .opening)
      (hlease : w.leases.leases h = some lease) (hheld : lease.stage = .held) :
      Step w (w.handle w.leases h (some { handle with doing := .idle }))
  -- Catalog.bind_storage
  | bind (h : ℕ) (handle : Handle) (root : String) (hhandle : w.handles h = some handle)
      (hdoing : handle.doing = .idle)
      (hroot : root ∉ handle.bound.map Prod.fst) :
      Step w (w.handle (w.leases.connect handle.process (some h) (rootGate root) handle.path handle.exclusive) h
        (some { handle with doing := .binding root w.leases.next }))
  | failBind (h : ℕ) (handle : Handle) (root : String) (id : ℕ) (hhandle : w.handles h = some handle)
      (hdoing : handle.doing = .binding root id) :
      Step w (w.handle (w.leases.retain fun other => other ≠ id) h (some { handle with doing := .idle }))
  | bound (h : ℕ) (handle : Handle) (root : String) (id : ℕ) (lease : Lease)
      (hhandle : w.handles h = some handle)
      (hdoing : handle.doing = .binding root id) (hlease : w.leases.leases id = some lease)
        (hheld : lease.stage = .held) :
      Step w (w.handle w.leases h (some { handle with bound := handle.bound ++ [(root, id)], doing := .idle }))
  -- Entering and leaving Store.materialize and payload operations
  | read (h : ℕ) (handle : Handle) (hhandle : w.handles h = some handle) (hdoing : handle.doing = .idle) :
      Step w (w.handle w.leases h (some { handle with readers := handle.readers + 1 }))
  | unread (h : ℕ) (handle : Handle) (hhandle : w.handles h = some handle) (hdoing : handle.doing = .idle)
      (hreaders : 0 < handle.readers) : Step w
        (w.handle w.leases h (some { handle with readers := handle.readers - 1 }))
  -- Catalog.close, lease by lease
  | close (h : ℕ) (handle : Handle) (hhandle : w.handles h = some handle) (hdoing : handle.doing = .idle)
      (hreaders : handle.readers = 0) :
      Step w (w.handle w.leases h (some { handle with doing := .closing }))
  | release (h : ℕ) (handle : Handle) (root : String) (id : ℕ) (rest : List (String × ℕ))
      (hhandle : w.handles h = some handle)
      (hdoing : handle.doing = .closing) (hbound : handle.bound = (root, id) :: rest) :
      Step w (w.handle (w.leases.retain fun other => other ≠ id) h (some { handle with bound := rest }))
  | closed (h : ℕ) (handle : Handle) (hhandle : w.handles h = some handle) (hdoing : handle.doing = .closing)
      (hbound : handle.bound = []) : Step w (w.handle (w.leases.retain fun other => other ≠ h) h none)
  | die (process : ℕ) :
      Step w
        { leases := w.leases.retain fun id => (w.leases.leases id).all fun lease => lease.process ≠ process
          handles := fun h => (w.handles h).filter fun handle => handle.process ≠ process }

end Access

end MeldStore
