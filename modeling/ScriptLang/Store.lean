import ScriptLang.Text.Utf8

/-!
# Stores

Where sources are read and artifacts are written, by virtual paths. Reading and writing are
computations, of which a store may be the state; either may be broken off by the store.
-/
namespace ScriptLang

/-- A store that breaks off says why: the kind of failure, and a message. -/
structure StoreFailure where
  kind : String
  message : String
  deriving DecidableEq, Repr

inductive ReadResult where
  | text (s : String)
  | absent
  | failed (failure : StoreFailure)
  deriving DecidableEq, Repr

inductive WriteResult where
  | done
  | refused
  | failed (failure : StoreFailure)
  deriving DecidableEq, Repr

structure Store (m : Type → Type) where
  read : String → m ReadResult
  write : String → Bytes → m WriteResult

end ScriptLang
