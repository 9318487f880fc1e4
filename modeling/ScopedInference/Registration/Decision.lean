import ScopedInference.Hierarchy.Merge
import ScopedInference.Registration.Event
import ScopedInference.Relation

/-!
# Deciding what a fact does to a binding

A fact about a parameter meets what is already known of it. The decision is the parameter's new
value, if it gets one, the facts that follow for other contexts, and perhaps a note. Two concrete
values merge; an open value makes room or passes the fact on to the context that owns it; a terminal
binding stays.
-/

namespace ScopedInference

/-- A fact for a context: what `value` says about the parameters of `template`. -/
structure Forward (α : Type) where
  context : ContextId
  template : α
  value : α

structure Decision (α : Type) where
  value? : Option α := none
  forwards : List (Forward α) := []
  note? : Option Note := none

/-- Arguments of two function types of one arity are facts about the first one's parameters. -/
def functionForwards (h : Hierarchy) (owner : ContextId) :
    TypeExpr → TypeExpr → List (Forward TypeExpr)
  | .classType l, .classType r =>
    if h.isFunctionClass l.head && h.isFunctionClass r.head && l.types.length = r.types.length then
      l.types.zipWith (Forward.mk owner) r.types
    else []
  | _, _ => []

/-- Class arguments that a merge has made concrete are facts about the open ones before. -/
def argumentForwards (owner : ContextId) : TypeExpr → TypeExpr → List (Forward TypeExpr)
  | .classType before, .classType after =>
    if before.head = after.head then
      (before.types.zipWith (Forward.mk owner) after.types).filter fun f =>
        !f.template.isConcrete && f.value.isConcrete
    else []
  | _, _ => []

/-- Two concrete values of a parameter. Relations concatenate or clash; all other types merge
upward, and what the merge says about arguments goes to the owner of the first value. -/
def mergeDecision (h : Hierarchy) (p : TypeParam) (owner : ContextId) (existing actual : TypeExpr) :
    Except TypeConflict (Decision TypeExpr) :=
  match existing, actual with
  | .relation l, .relation r =>
    if l.canConcat r then .ok { value? := some (.relation (l.concat r)) }
    else .ok { value? := some .top, note? := some (.relationsClash p.name existing actual) }
  | _, _ => do
    let merged ← h.commonSupertype p.variance .degrade [existing, actual]
    let degraded := merged.isTop && !existing.isTop && !actual.isTop
    return {
      value? := some merged
      forwards := functionForwards h owner existing actual ++ argumentForwards owner existing merged
      note? := if degraded then some (.noCommonSupertype p.name existing actual) else none }

/-- An actual type observed for the parameter `p` of `context`, to be owned by `target`. With
`merge` an open value is kept where a concrete one would overwrite it. -/
def typeDecision (h : Hierarchy) (context target : ContextId) (p : TypeParam) (onTrial merge : Bool)
    (known : Option (Binding TypeExpr)) (actual : TypeExpr) :
    Except TypeConflict (Decision TypeExpr) :=
  match known with
  | none => .ok { value? := some actual }
  | some (.terminal _ _) => .ok { note? := some (.declaredKept context p.name) }
  | some (.bound existing owner) =>
    if existing.isConcrete && actual.isConcrete then mergeDecision h p owner existing actual
    else if onTrial then .ok { value? := some actual }
    else if existing.isConcrete then
      .ok { value? := some actual, forwards := [⟨target, actual, existing⟩] }
    else if actual.isConcrete then
      match existing with
      | .operation _ _ _ => .ok { value? := some actual }
      | _ =>
        if owner ≠ context then .ok { forwards := [⟨owner, existing, actual⟩] }
        else if merge then .ok { note? := some (.openKept context p.name existing actual) }
        else .ok { value? := some actual }
    else if owner ≠ context then .ok { forwards := [⟨owner, existing, actual⟩] }
    else .ok {}

/-- An actual multiplicity observed for a parameter of `context`. -/
def mulDecision (context target : ContextId) (onTrial : Bool)
    (known : Option (Binding Multiplicity)) (actual : Multiplicity) : Decision Multiplicity :=
  match known with
  | none => { value? := some actual }
  | some (.terminal _ _) => {}
  | some (.bound existing owner) =>
    if existing.isConcrete && actual.isConcrete then
      { value? := some (.leastSubsuming [existing, actual]) }
    else if onTrial then { value? := some actual }
    else if existing.isConcrete then
      { value? := some actual, forwards := [⟨target, actual, existing⟩] }
    else if owner ≠ context then { forwards := [⟨owner, existing, actual⟩] }
    else if actual.isConcrete then { value? := some actual }
    else {}

end ScopedInference
