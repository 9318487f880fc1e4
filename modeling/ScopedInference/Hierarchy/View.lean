import ScopedInference.Hierarchy.Ancestors

/-!
# Views

A class type seen as a type of a class above it: its arguments are carried along the declared
generalizations, each of which is written over the parameters of the class that declares it.
-/

namespace ScopedInference

namespace Hierarchy

/-- The longest chain of generalizations that is followed. -/
def maxSteps : Nat := 65

/-- Follows at most `n` generalizations, the first declared one that leads to the ancestor. -/
def viewWithin (h : Hierarchy) (ancestor : ClassName) : Nat → ClassType → Option ClassType
  | n, c =>
    if c.head = ancestor then some c
    else match n with
      | 0 => none
      | n + 1 => (h.find? c.head).bind fun d =>
        d.generalizations.findSome? fun g => h.viewWithin ancestor n (g.substitute (d.bindings c))

/-- A class type as a type of an ancestor class, if a chain of generalizations leads there. -/
def view? (h : Hierarchy) (c : ClassType) (ancestor : ClassName) : Option ClassType :=
  h.viewWithin ancestor maxSteps c

end Hierarchy

end ScopedInference
