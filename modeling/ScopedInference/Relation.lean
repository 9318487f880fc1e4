import ScopedInference.TypeExpr.Basic

/-!
# Relations

Columns are found by name, and of several columns of one name the first one counts. Two relations
concatenate when the columns that they share have equal types.
-/

namespace ScopedInference

namespace Relation

def column? (r : Relation TypeExpr) (name : String) : Option (Column TypeExpr) :=
  r.columns.find? (·.name = name)

def has (r : Relation TypeExpr) (name : String) : Bool := (r.column? name).isSome

/-- Every column of the first relation agrees with the second one's column of its name, if any. -/
def canConcat (left right : Relation TypeExpr) : Bool :=
  left.columns.all fun c => (right.column? c.name).all (·.type = c.type)

/-- The columns of the first relation, then those of the second whose names are new. -/
def concat (left right : Relation TypeExpr) : Relation TypeExpr :=
  ⟨left.columns ++ right.columns.filter fun c => !left.has c.name⟩

/-- Each column of a template, in order, beside the value's column of its name; templates without
one are left out. -/
def align (values templates : Relation TypeExpr) : List (Column TypeExpr × Column TypeExpr) :=
  templates.columns.filterMap fun t => (values.column? t.name).map fun v => (v, t)

end Relation

end ScopedInference
