import Sourced.Program

/-!
# Errors

The error types of the locks and of the repositories (`lock/error.rs`,
`repository/error.rs`). They are values: which error a call returns, and with
what in it, is part of what it does.
-/

/-- **`LockError`.** -/
inductive LockError where
  | poisoned (message : String)
  | acquireFailed (message : String)
  | releaseFailed (message : String)
  | expired (message : String)
  | other (message : String)
deriving DecidableEq, Repr

/-- **`RepositoryError`.** -/
inductive RepositoryError where
  | lockPoisoned (operation : String)
  | lock (e : LockError)
  | concurrentWrite (id : String) (expected actual : ℕ)
  | replay (message : String)
  | model (message : String)
deriving DecidableEq, Repr

/-- The outcome of a repository call. -/
abbrev RepoRes (α : Type) := Res RepositoryError α
