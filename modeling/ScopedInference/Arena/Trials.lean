import ScopedInference.Arena.Basic

/-!
# Trial states

Evaluation over the elements of a collection works on a copy of the visible state, one per element,
and drops it afterwards.
-/

namespace ScopedInference

namespace Context

def pushCopy (c : Context) : Context := { c with below := c.current :: c.below }

/-- Drops up to `n` states, topmost first, and returns them. The bottom state stays. -/
def dropStates : Nat → Context → List BindingState × Context
  | 0, c => ([], c)
  | n + 1, c => match c.below with
    | [] => ([], c)
    | s :: below =>
      let (dropped, rest) := dropStates n { c with current := s, below }
      (c.current :: dropped, rest)

/-- A copy that is dropped at once leaves no trace. -/
theorem dropStates_one_pushCopy (c : Context) : c.pushCopy.dropStates 1 = ([c.current], c) := rfl

end Context

namespace Arena

def pushCopy (a : Arena) (id : ContextId) : Except InferError Arena := a.modify id (·.pushCopy)

def dropStates (a : Arena) (id : ContextId) (n : Nat) :
    Except InferError (List BindingState × Arena) := do
  let (dropped, c) := (← a.context id).dropStates n
  return (dropped, a.insert id c)

end Arena

end ScopedInference
