import ScopedInference.Arena.Basic

/-!
# Resolution

`resolve` looks a type up in one step, here or at the root of the tree. `resolveParameter` follows
owners: while the value is a parameter bound in another context, it goes on there, for at most as
many hops as the arena's depth limit allows. Parent links lead from each context to a root; they are
followed for at most as many steps as there are contexts.
-/

namespace ScopedInference

namespace Arena

/-- The end of the chain of parents. -/
def rootWithin (a : Arena) : Nat → ContextId → Except InferError ContextId
  | 0, id => .error (.circularParents id)
  | n + 1, id => do
    match (← a.context id).parent with
    | none => return id
    | some p => a.rootWithin n p

def root (a : Arena) (id : ContextId) : Except InferError ContextId :=
  a.rootWithin (a.contexts.size + 1) id

/-- Whether the root's signature declares a parameter. -/
def isDeclaredAtRoot (a : Arena) (id : ContextId) (name : String) : Except InferError Bool := do
  return name ∈ (← a.context (← a.root id)).declared

section

variable {α : Type} [Bindable α]

/-- The visible binding of a name in a context. -/
def binding? (a : Arena) (id : ContextId) (name : String) :
    Except InferError (Option (Binding α)) := do
  return (← a.context id).current.binding? name

/-! ### One step -/

/-- A concrete type is itself. A parameter has its value here, or else at the root; an operation has
none. -/
def resolve (a : Arena) (id : ContextId) (t : TypeExpr) : Except InferError (Option TypeExpr) := do
  if t.isConcrete then return some t
  match t.parameterName? with
  | none => return none
  | some name => match ← a.binding? id name with
    | some b => return some b.value
    | none => return (← a.binding? (← a.root id) name).map (·.value)

/-- Whether a type is settled: concrete, or a parameter bound, here or at the root, to a concrete
type or for good. -/
def isResolved (a : Arena) (id : ContextId) (t : TypeExpr) : Except InferError Bool := do
  if t.isConcrete then return true
  let settled (b? : Option (Binding TypeExpr)) :=
    b?.any fun b => b.isTerminal || b.value.isConcrete
  match t.parameterName? with
  | none => return false
  | some name =>
    if settled (← a.binding? id name) then return true
    return settled (← a.binding? (← a.root id) name)

/-! ### Along owners -/

/-- The binding where a parameter bound in `here` is to be read, if another context owns it. -/
def hop? (a : Arena) (here : ContextId) (b : Binding α) : Except InferError (Option (Binding α)) :=
  match Bindable.parameterName? b.value with
  | none => .ok none
  | some name => if b.owner = here then .ok none else a.binding? b.owner name

/-- The value at the end of the hops from a binding, if `n` of them are enough. -/
def follow (a : Arena) : Nat → ContextId → Binding α → Except InferError α
  | n, here, b => do
    match ← a.hop? here b with
    | none => return b.value
    | some next => match n with
      | 0 => throw (.depthExceeded a.maxDepth)
      | n + 1 => a.follow n b.owner next

/-- The value of a parameter as seen from a context; none if it is unbound there. -/
def resolveParameter (a : Arena) (id : ContextId) (name : String) :
    Except InferError (Option α) := do
  match ← a.binding? id name with
  | none => return none
  | some b => return some (← a.follow a.maxDepth id b)

/-- Every parameter bound in a context with its value, by name. -/
def resolvedParameters (a : Arena) (id : ContextId) : Except InferError (List (String × α)) := do
  let bindings : List (String × Binding α) := (← a.context id).current.bindings
  bindings.mapM fun (name, b) => return (name, ← a.follow a.maxDepth id b)

end

end Arena

end ScopedInference
