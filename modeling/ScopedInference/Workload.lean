import ScopedInference.Arena.Creation
import ScopedInference.Registration.Basic

/-!
# Workloads

Families of inputs that grow with a parameter: classes side by side below one base, lists in lists,
wide relations, and a chain of contexts each of which reads its parameter in the one above.
-/

namespace ScopedInference

namespace Workload

/-- The preloaded classes, `Base`, and `C0`, `C1` and so on directly below it. -/
def siblings (width : Nat) : Hierarchy :=
  (List.range width).foldl
    (fun h i => h.define { name := "C" ++ toString i, generalizations := [⟨"Base", [], []⟩] })
    (Hierarchy.preloaded.define { name := "Base" })

/-- A type within so many lists. -/
def nestedList : Nat → TypeExpr → TypeExpr
  | 0, leaf => leaf
  | n + 1, leaf => nestedList n (.classType ⟨"List", [leaf], []⟩)

theorem nestedList_succ : ∀ (n : Nat) (t : TypeExpr),
    nestedList (n + 1) t = .classType ⟨"List", [nestedList n t], []⟩
  | 0, _ => rfl
  | n + 1, t => nestedList_succ n (.classType ⟨"List", [t], []⟩)

/-- Columns `c0`, `c1` and so on. -/
def wideRelation (width : Nat) (type : Nat → TypeExpr) : TypeExpr :=
  .relation ⟨(List.range width).map fun i => ⟨"c" ++ toString i, type i⟩⟩

abbrev ChainM := EStateM InferError (Arena × IdCounter)

/-- A new context below `parent` in which `name` is bound to a value read in the parent, or in the
new context itself if it has none. -/
def link (parent : Option ContextId) (name : String) (value : TypeExpr) : ChainM ContextId := do
  let (arena, counter) ← get
  let (id, arena, counter) ← MonadExcept.ofExcept (arena.newContext counter parent)
  set (arena, counter)
  let target := parent.getD id
  match arena.register (.type id (.param ⟨name, .covariant⟩) (some value) target false) with
  | .ok _ run =>
    set (run.arena, counter)
    return id
  | .error e run =>
    set (run.arena, counter)
    throw e

/-- So many links below `parent`, the first of which reads the parameter number `i`. -/
def links : Nat → Nat → ContextId → ChainM (List ContextId)
  | 0, _, _ => return []
  | n + 1, i, parent => do
    let name (i : Nat) := "p" ++ toString i
    let id ← link (some parent) (name (i + 1)) (.param ⟨name i, .covariant⟩)
    return id :: (← links n (i + 1) id)

/-- A root that binds `p0` to `leaf`, and `length` contexts below each other, of which number `i`
binds `pi` to the parameter of the one above. The contexts come root first. -/
def ownerChain (length : Nat) (leaf : TypeExpr) : ChainM (List ContextId) := do
  let root ← link none "p0" leaf
  return root :: (← links length 0 root)

end Workload

end ScopedInference
