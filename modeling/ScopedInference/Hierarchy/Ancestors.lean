import ScopedInference.Hierarchy.Basic

/-!
# Ancestors

The ancestors of a class are found layer by layer: the class, the classes directly above it, the new
ones directly above those, and so on, each class once. Subtyping and the least common ancestor are
read off them.
-/

namespace ScopedInference

namespace Hierarchy

/-- The classes directly above a layer that are new, in order of first mention. -/
def nextLayer (h : Hierarchy) (seen layer : List ClassName) : List ClassName :=
  (layer.flatMap h.directSupertypes).eraseDups.filter (· ∉ seen)

/-- Climbs a number of layers, adding each to the classes seen. -/
def climb (h : Hierarchy) : Nat → List ClassName → List ClassName → List ClassName
  | 0, seen, _ => seen
  | n + 1, seen, layer =>
    let next := h.nextLayer seen layer
    h.climb n (seen ++ next) next

/-- A class and every class above it, nearest first. A shortest way up passes each declared class at
most once, then perhaps an undeclared one and `Any`, which bounds the number of layers. -/
def ancestors (h : Hierarchy) (name : ClassName) : List ClassName :=
  h.climb (h.classes.size + 2) [name] [name]

/-- Every class is below `Any` and above `Nil`; other supertypes are found among the ancestors. -/
def isSubtype (h : Hierarchy) (sub sup : ClassName) : Bool :=
  if sub = sup ∨ sup = .any ∨ sub = .nil then true
  else if sub = .any then false
  else sup ∈ h.ancestors sub

def isFunctionClass (h : Hierarchy) (name : ClassName) : Bool := h.isSubtype name .function

/-- The common ancestors that have no other common ancestor below them. -/
def minimalCommonAncestors (h : Hierarchy) (a b : ClassName) : List ClassName :=
  let above := h.ancestors b
  let common := (h.ancestors a).filter (· ∈ above)
  common.filter fun c => !common.any fun d => d ≠ c ∧ h.isSubtype d c

/-- The most specific class above two classes, if there is just one. -/
def leastCommonAncestor? (h : Hierarchy) (a b : ClassName) : Option ClassName :=
  match h.minimalCommonAncestors a b with
  | [c] => some c
  | _ => none

end Hierarchy

end ScopedInference
