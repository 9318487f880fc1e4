import ScopedInference.Arena.Basic

/-!
# The text of a context

`##>[id:scope ~ [T = *T:id] / [m = [1]]] -> [parent ...]<##` is a context and those above it,
innermost first. A star marks a terminal binding, the owner follows an open value, and states of one
stack stand beside each other between bars.
-/

namespace ScopedInference

/-- One binding; `text` is the value's text. -/
def Binding.entry {α : Type} [Bindable α] (text : α → String) (name : String) (b : Binding α) :
    String :=
  name ++ " = " ++ (if b.isTerminal then "*" else "") ++ text b.value
    ++ (if Bindable.isConcrete b.value then "" else ":" ++ b.owner.hex)

def BindingState.display (s : BindingState) : String :=
  let types := s.bindings.map fun (name, b) => b.entry TypeExpr.display name
  let muls := s.bindings.map fun (name, b) => b.entry Multiplicity.display name
  "[" ++ ", ".intercalate types ++ "] / [" ++ ", ".intercalate muls ++ "]"

def Context.display (c : Context) : String :=
  "[" ++ c.id.hex ++ ":" ++ c.scope.getD "_" ++ " ~ "
    ++ " || ".intercalate (c.states.map (·.display)) ++ "]"

namespace Arena

/-- A context and those above it, at most `n` of them, as far as parent links lead. -/
def upward (a : Arena) : Nat → Option ContextId → List Context
  | n + 1, some id => match a.contexts[id]? with
    | some c => c :: a.upward n c.parent
    | none => []
  | _, _ => []

def display (a : Arena) (id : ContextId) : Except InferError String := do
  let _ ← a.context id
  let chain := a.upward a.contexts.size (some id)
  return "##>" ++ " -> ".intercalate (chain.map (·.display)) ++ "<##"

end Arena

end ScopedInference
