import Std.Data.ExtTreeMap
import ScopedInference.TypeExpr.Substitution

/-!
# Class hierarchies

A hierarchy is a table of class declarations. A class generalizes class types written over its own
parameters; one that declares none, or is not declared at all, is directly below `Any`. Nothing
stops a hierarchy from being circular.
-/

namespace ScopedInference

structure ClassDecl where
  name : ClassName
  params : List TypeParam := []
  muls : List String := []
  generalizations : List ClassType := []

namespace ClassDecl

/-- Adds a direct supertype. Only a class type can be one: anything else is ignored. -/
def extend (d : ClassDecl) : TypeExpr → ClassDecl
  | .classType c => { d with generalizations := d.generalizations ++ [c] }
  | _ => d

/-- The class's parameters stand for the arguments of one of its types, as far as both go. -/
def bindings (d : ClassDecl) (c : ClassType) : Substitution :=
  .ofLists ((d.params.map (·.name)).zip c.types) (d.muls.zip c.muls)

end ClassDecl

structure Hierarchy where
  classes : Std.ExtTreeMap ClassName ClassDecl

namespace Hierarchy

def empty : Hierarchy := ⟨∅⟩

/-- A later declaration of a name takes the place of an earlier one. -/
def define (h : Hierarchy) (d : ClassDecl) : Hierarchy := ⟨h.classes.insert d.name d⟩

def find? (h : Hierarchy) (name : ClassName) : Option ClassDecl := h.classes[name]?

@[simp]
theorem find?_define_self (h : Hierarchy) (d : ClassDecl) : (h.define d).find? d.name = some d := by
  simp [find?, define]

theorem find?_define_of_ne (h : Hierarchy) {d : ClassDecl} {name : ClassName}
    (hne : d.name ≠ name) : (h.define d).find? name = h.find? name := by
  simp [find?, define, Std.ExtTreeMap.getElem?_insert, hne]

/-- The top and bottom classes, primitives, lists and functions. -/
def preloaded : Hierarchy :=
  [{ name := .any }, { name := .nil }, { name := "String" }, { name := "Boolean" },
    { name := "Number" }, { name := "Date" },
    { name := "Integer", generalizations := [⟨"Number", [], []⟩] },
    { name := "Float", generalizations := [⟨"Number", [], []⟩] },
    { name := "List", params := [⟨"T", .covariant⟩] },
    { name := .function, params := [⟨"T", .covariant⟩] },
    { name := "LambdaFunction", params := [⟨"T", .covariant⟩],
      generalizations := [⟨.function, [.param ⟨"T", .covariant⟩], []⟩] }].foldl define empty

/-- The classes directly above a class. Nothing is above `Any`. -/
def directSupertypes (h : Hierarchy) (name : ClassName) : List ClassName :=
  if name = .any then []
  else match (h.find? name).map (·.generalizations) with
    | some (g :: gs) => (g :: gs).map (·.head)
    | _ => [.any]

end Hierarchy

end ScopedInference
