import ScopedInference.TypeExpr.Basic

/-!
# The text of a type

`C<A, B|m, n>` is a class with its type and multiplicity arguments, `{A[m]->B[n]}` a function type,
`(a:A, b:B)` a relation type and `A+B` an operation.
-/

namespace ScopedInference

/-- A class without arguments of either kind has no angle brackets. -/
def argumentsText (types : List String) (muls : List Multiplicity) : String :=
  match types, muls with
  | [], [] => ""
  | _, [] => "<" ++ ", ".intercalate types ++ ">"
  | _, _ => "<" ++ ", ".intercalate types ++ "|" ++ ", ".intercalate (muls.map (·.bare)) ++ ">"

namespace TypeExpr

@[grind =]
def display : TypeExpr → String
  | .param p => p.name
  | .classType c => c.head ++ argumentsText (c.types.map (·.display)) c.muls
  | .function f =>
    "\x7b" ++ ", ".intercalate (f.params.map fun p => p.type.display ++ p.mul.display) ++ "->"
      ++ f.result.type.display ++ f.result.mul.display ++ "\x7d"
  | .relation r =>
    "(" ++ ", ".intercalate (r.columns.map fun c => c.name ++ ":" ++ c.type.display) ++ ")"
  | .operation kind left right => left.display ++ kind.symbol ++ right.display
termination_by t => sizeOf t
decreasing_by
  · have := sizeOf_lt_of_mem_types ‹_ ∈ c.types›
    rw [classType.sizeOf_spec]
    omega
  · have := sizeOf_lt_of_mem_params ‹_ ∈ f.params›
    rw [function.sizeOf_spec]
    omega
  · have := sizeOf_result_lt f
    rw [function.sizeOf_spec]
    omega
  · have := sizeOf_lt_of_mem_columns ‹_ ∈ r.columns›
    rw [relation.sizeOf_spec]
    omega
  · rw [operation.sizeOf_spec]
    omega
  · rw [operation.sizeOf_spec]
    omega

end TypeExpr

end ScopedInference
