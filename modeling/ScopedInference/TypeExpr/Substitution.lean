import ScopedInference.TypeExpr.Basic

/-!
# Substitution

A substitution gives types to type parameters and multiplicities to multiplicity parameters; the two
kinds of names are apart. A parameter that it does not bind stays.
-/

namespace ScopedInference

structure Substitution where
  types : String → Option TypeExpr
  muls : String → Option Multiplicity

namespace Substitution

/-- Of two bindings of one name the later one holds. -/
def ofLists (types : List (String × TypeExpr)) (muls : List (String × Multiplicity)) :
    Substitution where
  types name := types.reverse.lookup name
  muls name := muls.reverse.lookup name

end Substitution

namespace Multiplicity

def substitute (s : Substitution) : Multiplicity → Multiplicity
  | .param name => (s.muls name).getD (.param name)
  | m => m

end Multiplicity

namespace TypeExpr

@[grind =]
def substitute (s : Substitution) : TypeExpr → TypeExpr
  | .param p => (s.types p.name).getD (.param p)
  | .classType c =>
    .classType ⟨c.head, c.types.map (·.substitute s), c.muls.map (·.substitute s)⟩
  | .function f =>
    .function
      ⟨f.params.map fun p => ⟨p.type.substitute s, p.mul.substitute s⟩,
        ⟨f.result.type.substitute s, f.result.mul.substitute s⟩⟩
  | .relation r => .relation ⟨r.columns.map fun c => ⟨c.name, c.type.substitute s⟩⟩
  | .operation kind left right => .operation kind (left.substitute s) (right.substitute s)
termination_by t => sizeOf t
decreasing_by
  · have := sizeOf_lt_of_mem_types ‹_ ∈ c.types›
    rw [classType.sizeOf_spec]
    omega
  · have := sizeOf_lt_of_mem_params ‹_ ∈ f.params›
    rw [function.sizeOf_spec]
    omega
  · have := sizeOf_result_lt f
    rw [function.sizeOf_spec]
    omega
  · have := sizeOf_lt_of_mem_columns ‹_ ∈ r.columns›
    rw [relation.sizeOf_spec]
    omega
  · rw [operation.sizeOf_spec]
    omega
  · rw [operation.sizeOf_spec]
    omega

end TypeExpr

def ClassType.substitute (s : Substitution) (c : ClassType) : ClassType :=
  ⟨c.head, c.types.map (·.substitute s), c.muls.map (·.substitute s)⟩

end ScopedInference
