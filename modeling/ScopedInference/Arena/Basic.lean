import Std.Data.ExtTreeSet
import ScopedInference.Error

/-!
# Contexts and arenas

A context is one scope: its place in the tree of scopes, the parameters that its signature declares,
and a stack of binding states of which the current one is visible. An arena holds the contexts of
one session by their ids, beside the class hierarchy and the depth limit of its searches.
-/

namespace ScopedInference

structure Context where
  id : ContextId
  parent : Option ContextId
  scope : Option String
  /-- The parameters declared by the signature that the context was made for. -/
  declared : Std.ExtTreeSet String
  current : BindingState
  /-- The states under the current one, nearest first. -/
  below : List BindingState

namespace Context

/-- All states, from the bottom of the stack. -/
def states (c : Context) : List BindingState := c.below.reverse ++ [c.current]

/-- Some state is being tried on top of the bottom one. -/
def onTrial (c : Context) : Bool := !c.below.isEmpty

def mapCurrent (f : BindingState → BindingState) (c : Context) : Context :=
  { c with current := f c.current }

end Context

structure Arena where
  hierarchy : Hierarchy
  maxDepth : Nat := 256
  contexts : Std.ExtTreeMap ContextId Context := ∅
  nextId : ContextId := 0
  /-- One past the last id of the block that `nextId` is drawn from. -/
  blockEnd : ContextId := 0

namespace Arena

def context (a : Arena) (id : ContextId) : Except InferError Context :=
  match a.contexts[id]? with
  | some c => .ok c
  | none => .error (.unknownContext id)

def insert (a : Arena) (id : ContextId) (c : Context) : Arena :=
  { a with contexts := a.contexts.insert id c }

@[simp]
theorem context_insert_self (a : Arena) (id : ContextId) (c : Context) :
    (a.insert id c).context id = .ok c := by
  simp [context, insert]

theorem context_insert_of_ne (a : Arena) {id other : ContextId} (h : id ≠ other) (c : Context) :
    (a.insert id c).context other = a.context other := by
  simp [context, insert, Std.ExtTreeMap.getElem?_insert, h]

def modify (a : Arena) (id : ContextId) (f : Context → Context) : Except InferError Arena := do
  return a.insert id (f (← a.context id))

/-- Changes the visible state of a context. -/
def modifyCurrent (a : Arena) (id : ContextId) (f : BindingState → BindingState) :
    Except InferError Arena :=
  a.modify id (·.mapCurrent f)

def setScope (a : Arena) (id : ContextId) (scope : String) : Except InferError Arena :=
  a.modify id fun c => { c with scope := some scope }

def parent (a : Arena) (id : ContextId) : Except InferError (Option ContextId) := do
  return (← a.context id).parent

/-! ### Lookahead marks of the visible state -/

def setLookahead (a : Arena) (id : ContextId) (l : Lookahead) : Except InferError Arena :=
  a.modifyCurrent id fun s => { s with lookahead := l }

def consumeLookahead (a : Arena) (id : ContextId) : Except InferError Arena :=
  a.modifyCurrent id fun s => { s with lookahead := s.lookahead.consume }

def lookahead (a : Arena) (id : ContextId) : Except InferError Lookahead := do
  return (← a.context id).current.lookahead

end Arena

end ScopedInference
