import Std.Data.ExtTreeMap
import ScopedInference.TypeExpr.Basic

/-!
# Bindings

What one scope knows about its parameters. A binding holds a value and the context that owns it: if
the value is a parameter, it is to be read in the owner. Types and multiplicities are bound in
separate tables; `Bindable` says which table holds a kind of value, so that what does not depend on
the kind is written once.
-/

namespace ScopedInference

abbrev ContextId := Nat

/-- Contexts are named in texts by lowercase hexadecimal digits. -/
def ContextId.hex (id : ContextId) : String := String.ofList (Nat.toDigits 16 id)

/-- A bound value is learnt, and later facts may refine it. A terminal one is declared or written on
purpose, and no registration replaces it. -/
inductive Binding (α : Type) where
  | bound (value : α) (owner : ContextId)
  | terminal (value : α) (owner : ContextId)
deriving DecidableEq

namespace Binding

variable {α : Type}

def value : Binding α → α
  | .bound v _ | .terminal v _ => v

def owner : Binding α → ContextId
  | .bound _ o | .terminal _ o => o

def isTerminal : Binding α → Bool
  | .bound _ _ => false
  | .terminal _ _ => true

end Binding

/-- A state is marked ahead before it is evaluated speculatively, and consumed once someone relies
on the result. -/
inductive Lookahead where
  | notAhead
  | ahead
  | aheadConsumed
deriving DecidableEq, Inhabited

namespace Lookahead

def isAhead (l : Lookahead) : Bool := l ≠ .notAhead

def isConsumed (l : Lookahead) : Bool := l = .aheadConsumed

def consume : Lookahead → Lookahead
  | .ahead => .aheadConsumed
  | l => l

end Lookahead

structure BindingState where
  types : Std.ExtTreeMap String (Binding TypeExpr) := ∅
  muls : Std.ExtTreeMap String (Binding Multiplicity) := ∅
  lookahead : Lookahead := .notAhead

/-- The values that parameters are bound to. -/
class Bindable (α : Type) where
  parameterName? : α → Option String
  isConcrete : α → Bool
  table : BindingState → Std.ExtTreeMap String (Binding α)
  setTable : BindingState → Std.ExtTreeMap String (Binding α) → BindingState
  table_setTable : ∀ s t, table (setTable s t) = t := by intros; rfl
  lookahead_setTable : ∀ s t, (setTable s t).lookahead = s.lookahead := by intros; rfl

instance : Bindable TypeExpr where
  parameterName? := TypeExpr.parameterName?
  isConcrete := TypeExpr.isConcrete
  table := BindingState.types
  setTable s table := { s with types := table }

instance : Bindable Multiplicity where
  parameterName? := Multiplicity.parameterName?
  isConcrete := Multiplicity.isConcrete
  table := BindingState.muls
  setTable s table := { s with muls := table }

namespace BindingState

variable {α : Type} [Bindable α]

def binding? (s : BindingState) (name : String) : Option (Binding α) := (Bindable.table s)[name]?

def bind (s : BindingState) (name : String) (b : Binding α) : BindingState :=
  Bindable.setTable s ((Bindable.table s).insert name b)

/-- All bindings of one kind, by name. -/
def bindings (s : BindingState) : List (String × Binding α) := (Bindable.table s).toList

@[simp]
theorem binding?_bind_self (s : BindingState) (name : String) (b : Binding α) :
    (s.bind name b).binding? name = some b := by
  simp [binding?, bind, Bindable.table_setTable]

theorem binding?_bind_of_ne (s : BindingState) {name other : String} (h : name ≠ other)
    (b : Binding α) : (s.bind name b).binding? other = (s.binding? other : Option (Binding α)) := by
  simp [binding?, bind, Bindable.table_setTable, Std.ExtTreeMap.getElem?_insert, h]

@[simp]
theorem lookahead_bind (s : BindingState) (name : String) (b : Binding α) :
    (s.bind name b).lookahead = s.lookahead :=
  Bindable.lookahead_setTable _ _

end BindingState

end ScopedInference
