import ScopedInference.Binding
import ScopedInference.Hierarchy.Merge

/-!
# Failures of inference

Missing information is no failure: a lookup that finds nothing says so. What fails is a context that
is not there, or work beyond a limit.
-/

namespace ScopedInference

inductive InferError where
  | unknownContext (id : ContextId)
  | idsExhausted
  | depthExceeded (limit : Nat)
  | conflict (types : TypeConflict)
  | circularParents (id : ContextId)
deriving DecidableEq

def InferError.message : InferError → String
  | .unknownContext id =>
    "internal error: inference context " ++ id.hex ++ " does not belong to this arena"
  | .idsExhausted => "internal error: inference context ids are exhausted"
  | .depthExceeded limit =>
    "internal error: inference nesting exceeded " ++ toString limit ++ " levels"
  | .conflict types => types.message
  | .circularParents id => "internal error: inference context " ++ id.hex ++ " is above itself"

end ScopedInference
