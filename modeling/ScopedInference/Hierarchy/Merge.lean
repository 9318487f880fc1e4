import ScopedInference.Hierarchy.View
import ScopedInference.TypeExpr.Display

/-!
# Merging types

Two types merge to the most specific type above both. Class types meet at their least common
ancestor, where their arguments merge in turn; an open type gives way to a concrete one. Types that
share nothing are in conflict, and the policy says whether that is an error or the top type.
-/

namespace ScopedInference

inductive ConflictPolicy where
  | degrade
  | error
deriving DecidableEq

/-- Two types with nothing but the top type above them. -/
structure TypeConflict where
  left : TypeExpr
  right : TypeExpr
deriving DecidableEq

def TypeConflict.message (c : TypeConflict) : String :=
  "no common supertype for `" ++ c.left.display ++ "`, `" ++ c.right.display ++ "`"

def ConflictPolicy.resolve (policy : ConflictPolicy) (left right : TypeExpr) :
    Except TypeConflict TypeExpr :=
  match policy with
  | .degrade => .ok .top
  | .error => .error ⟨left, right⟩

/-- Merges two argument lists position by position, as far as both go. A position without a declared
variance is covariant. -/
@[grind =]
def mergeArguments (merge : Variance → TypeExpr → TypeExpr → Except TypeConflict TypeExpr) :
    List Variance → List TypeExpr → List TypeExpr → Except TypeConflict (List TypeExpr)
  | variances, t :: ts, u :: us => do
    let merged ← merge (variances.headD .covariant) t u
    let rest ← mergeArguments merge variances.tail ts us
    return merged :: rest
  | _, _, _ => return []

namespace Hierarchy

/-- The views of two class types at their least common ancestor below `Any`. -/
@[grind =]
def commonViews? (h : Hierarchy) (left right : ClassType) : Option (ClassType × ClassType) := do
  let ancestor ← h.leastCommonAncestor? left.head right.head
  guard (ancestor ≠ .any)
  return (← h.view? left ancestor, ← h.view? right ancestor)

def variances (h : Hierarchy) (name : ClassName) : List Variance :=
  (h.find? name).elim [] fun d => d.params.map (·.variance)

/-- Merges two types whose class types nest at most `n` levels. -/
@[grind =]
def mergeWithin (h : Hierarchy) (policy : ConflictPolicy) :
    Nat → Variance → TypeExpr → TypeExpr → Except TypeConflict TypeExpr
  | n, variance, left, right =>
    if left = right then .ok left
    else match left.isConcrete, right.isConcrete with
    | false, true => .ok right
    | true, false => .ok left
    | false, false => policy.resolve left right
    | true, true =>
      match n, variance with
      | 0, _ | _, .invariant => policy.resolve left right
      | n + 1, .covariant =>
        if left.isBottom then .ok right
        else if right.isBottom then .ok left
        else match left, right with
        | .classType l, .classType r =>
          match h.commonViews? l r with
          | none => policy.resolve left right
          | some (l, r) => do
            let types ← mergeArguments (h.mergeWithin policy n) (h.variances l.head) l.types r.types
            return .classType ⟨l.head, types, l.muls.zipWith .join r.muls⟩
        | _, _ =>
          match left.isFullyConcrete, right.isFullyConcrete with
          | false, true => .ok right
          | true, false => .ok left
          | _, _ => policy.resolve left right

/-- How deep arguments are merged before differing ones count as a conflict. -/
def maxMergeDepth : Nat := 65

def merge (h : Hierarchy) (variance : Variance) (policy : ConflictPolicy) (left right : TypeExpr) :
    Except TypeConflict TypeExpr :=
  h.mergeWithin policy maxMergeDepth variance left right

/-- The most specific type above all of a list; the bottom type for the empty list. -/
def commonSupertype (h : Hierarchy) (variance : Variance) (policy : ConflictPolicy) :
    List TypeExpr → Except TypeConflict TypeExpr
  | [] => .ok .bottom
  | t :: ts => ts.foldlM (h.merge variance policy) t

end Hierarchy

end ScopedInference
