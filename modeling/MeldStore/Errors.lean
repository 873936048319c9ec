namespace MeldStore

-- The exception classes of errors.py, and those of Python itself that reach a
-- caller. `text` is the message the source gives.
inductive Error
  | ValidationError (text : String)
  | SchemaConflictError (text : String)
  | ConstraintError (text : String)
  | BusyError (text : String)
  | TransactionError (text : String)
  | NotFoundError (text : String)
  | ConflictError (text : String)
  | IntegrityError (text : String)
  | StorageError (text : String)
  | PythonError (kind : String)
deriving DecidableEq, Repr

def Error.isIntegrityError : Error → Bool
  | .IntegrityError _ => true
  | _ => false

def Error.isConflictError : Error → Bool
  | .ConflictError _ => true
  | _ => false

end MeldStore
