import ScopedInference.Arena.Resolution

/-!
# Bound operations

An operation stays bound as it is until its value is known. `operationOwner` finds the context that
finally owns it, and `replace` writes the value wherever owners lead.
-/

namespace ScopedInference

/-- The bindings of a state whose value is a type. -/
def BindingState.boundTo (s : BindingState) (t : TypeExpr) : List (String × Binding TypeExpr) :=
  s.bindings.filter fun (_, b) => b.value = t

namespace Arena

/-- Goes from owner to owner, each time by the first binding that holds the operation, until there
is none or the context owns it itself. -/
def seekOwner (a : Arena) (operation : TypeExpr) : Nat → ContextId → Except InferError ContextId
  | 0, _ => .error (.depthExceeded a.maxDepth)
  | n + 1, here => do
    match (← a.context here).current.boundTo operation with
    | [] => return here
    | (_, b) :: _ => if b.owner = here then return here else a.seekOwner operation n b.owner

def operationOwner (a : Arena) (id : ContextId) (operation : TypeExpr) :
    Except InferError ContextId :=
  a.seekOwner operation (a.maxDepth + 1) id

/-- Rebinds what is bound to an operation, and goes on in the owners, nested at most `n` levels.
What has been rebound stays so when a later part fails. -/
def replaceWithin (operation value : TypeExpr) : Nat → ContextId → EStateM InferError Arena Unit
  | 0, _ => do throw (.depthExceeded (← get).maxDepth)
  | n + 1, id => do
    let c ← MonadExcept.ofExcept ((← get).context id)
    (c.current.boundTo operation).forM fun (name, b) => do
      set (← MonadExcept.ofExcept ((← get).modifyCurrent id (·.bind name (.terminal value id))))
      if b.owner ≠ id then replaceWithin operation value n b.owner

/-- Rebinds every parameter bound to an operation to a value, for good, here and in the owners that
these bindings lead to. -/
def replace (id : ContextId) (operation value : TypeExpr) : EStateM InferError Arena Unit := do
  replaceWithin operation value ((← get).maxDepth + 1) id

end Arena

end ScopedInference
