import ScopedInference.Multiplicity

/-!
# Type expressions

A type expression is a parameter, a class applied to arguments, a function type, a relation type, or
an operation on two types. An expression is concrete when its head is known, and fully concrete when
nothing in it is left open. The list-valued parts nest expressions, so recursion goes by size; the
`sizeOf` lemmas say which parts are smaller. Equality is decided by `same`.
-/

namespace ScopedInference

/-- What happens when two concrete values of a parameter meet: they merge upward, or must agree. -/
inductive Variance where
  | covariant
  | invariant
deriving DecidableEq, Ord, Inhabited

structure TypeParam where
  name : String
  variance : Variance := .covariant
deriving DecidableEq, Ord, Inhabited

abbrev ClassName := String

namespace ClassName

/-- The class above every class. -/
def any : ClassName := "Any"

/-- The class below every class. -/
def nil : ClassName := "Nil"

/-- The root of the classes whose instances are functions. -/
def function : ClassName := "Function"

end ClassName

inductive OperationKind where
  | union
  | difference
  | subset
  | equal
deriving DecidableEq, Ord, Inhabited

def OperationKind.symbol : OperationKind → String
  | .union => "+"
  | .difference => "-"
  | .subset => "⊆"
  | .equal => "="

/-- A class applied to type and multiplicity arguments. -/
structure Application (α : Type) where
  head : ClassName
  types : List α
  muls : List Multiplicity

/-- A parameter or the result of a function. -/
structure Position (α : Type) where
  type : α
  mul : Multiplicity

structure Arrow (α : Type) where
  params : List (Position α)
  result : Position α

structure Column (α : Type) where
  name : String
  type : α
deriving DecidableEq

/-- Columns keep the order in which they are declared, and names may repeat. -/
structure Relation (α : Type) where
  columns : List (Column α)

inductive TypeExpr where
  | param (p : TypeParam)
  | classType (c : Application TypeExpr)
  | function (f : Arrow TypeExpr)
  | relation (r : Relation TypeExpr)
  | operation (kind : OperationKind) (left right : TypeExpr)

abbrev ClassType := Application TypeExpr

namespace TypeExpr

instance : Inhabited TypeExpr := ⟨.param default⟩

/-- A class without arguments. -/
def atom (name : ClassName) : TypeExpr := .classType ⟨name, [], []⟩

def top : TypeExpr := atom .any

def bottom : TypeExpr := atom .nil

/-! ### Sizes of parts -/

theorem sizeOf_lt_of_mem_types {c : Application TypeExpr} {t : TypeExpr} (h : t ∈ c.types) :
    sizeOf t < sizeOf c := by
  have := List.sizeOf_lt_of_mem h
  cases c
  simp_all
  omega

theorem sizeOf_type_lt_position (p : Position TypeExpr) : sizeOf p.type < sizeOf p := by
  cases p
  simp
  omega

theorem sizeOf_lt_of_mem_params {f : Arrow TypeExpr} {p : Position TypeExpr} (h : p ∈ f.params) :
    sizeOf p.type < sizeOf f := by
  have := List.sizeOf_lt_of_mem h
  have := sizeOf_type_lt_position p
  cases f
  simp_all
  omega

theorem sizeOf_result_lt (f : Arrow TypeExpr) : sizeOf f.result.type < sizeOf f := by
  have := sizeOf_type_lt_position f.result
  cases f
  simp_all
  omega

theorem sizeOf_lt_of_mem_columns {r : Relation TypeExpr} {c : Column TypeExpr}
    (h : c ∈ r.columns) : sizeOf c.type < sizeOf r := by
  have := List.sizeOf_lt_of_mem h
  have : sizeOf c.type < sizeOf c := by
    cases c
    simp only [Column.mk.sizeOf_spec]
    omega
  cases r
  simp_all
  omega

/-- To show something of every type, it may be assumed of the parts. -/
@[elab_as_elim, induction_eliminator]
theorem induct {motive : TypeExpr → Prop} (param : ∀ p, motive (.param p))
    (classType : ∀ c, (∀ t ∈ c.types, motive t) → motive (.classType c))
    (function : ∀ f, (∀ p ∈ f.params, motive p.type) → motive f.result.type → motive (.function f))
    (relation : ∀ r, (∀ c ∈ r.columns, motive c.type) → motive (.relation r))
    (operation : ∀ kind left right, motive left → motive right →
      motive (.operation kind left right)) : ∀ t, motive t
  | .param p => param p
  | .classType c => classType c fun t ht =>
    have := sizeOf_lt_of_mem_types ht
    induct param classType function relation operation t
  | .function f =>
    have := sizeOf_result_lt f
    function f
      (fun p hp =>
        have := sizeOf_lt_of_mem_params hp
        induct param classType function relation operation p.type)
      (induct param classType function relation operation f.result.type)
  | .relation r => relation r fun c hc =>
    have := sizeOf_lt_of_mem_columns hc
    induct param classType function relation operation c.type
  | .operation kind left right => operation kind left right
    (induct param classType function relation operation left)
    (induct param classType function relation operation right)
termination_by t => sizeOf t
decreasing_by
  all_goals
    simp only [TypeExpr.classType.sizeOf_spec, TypeExpr.function.sizeOf_spec,
      TypeExpr.relation.sizeOf_spec, TypeExpr.operation.sizeOf_spec]
    omega

/-! ### Heads -/

def parameterName? : TypeExpr → Option String
  | .param p => some p.name
  | _ => none

def head? : TypeExpr → Option ClassName
  | .classType c => some c.head
  | _ => none

def isTop (t : TypeExpr) : Bool := t.head? = some .any

def isBottom (t : TypeExpr) : Bool := t.head? = some .nil

/-- The head is known; arguments may still be open. -/
def isConcrete : TypeExpr → Bool
  | .param _ | .operation _ _ _ => false
  | _ => true

/-- No type parameter, operation or multiplicity parameter occurs at any depth. -/
@[grind =]
def isFullyConcrete : TypeExpr → Bool
  | .param _ => false
  | .classType c => (c.types.map (·.isFullyConcrete)).all id && c.muls.all (·.isConcrete)
  | .function f =>
    (f.params.map fun p => p.type.isFullyConcrete && p.mul.isConcrete).all id
      && f.result.type.isFullyConcrete && f.result.mul.isConcrete
  | .relation r => (r.columns.map fun c => c.type.isFullyConcrete).all id
  | .operation _ _ _ => false
termination_by t => sizeOf t
decreasing_by
  · have := sizeOf_lt_of_mem_types ‹_ ∈ c.types›
    rw [classType.sizeOf_spec]
    omega
  · have := sizeOf_lt_of_mem_params ‹_ ∈ f.params›
    rw [function.sizeOf_spec]
    omega
  · have := sizeOf_result_lt f
    rw [function.sizeOf_spec]
    omega
  · have := sizeOf_lt_of_mem_columns ‹_ ∈ r.columns›
    rw [relation.sizeOf_spec]
    omega

/-- How many constructors lie on the longest path from the head down. -/
@[grind =]
def nesting : TypeExpr → Nat
  | .param _ => 1
  | .classType c => 1 + (c.types.map (·.nesting)).foldl max 0
  | .function f => 1 + (f.params.map fun p => p.type.nesting).foldl max f.result.type.nesting
  | .relation r => 1 + (r.columns.map fun c => c.type.nesting).foldl max 0
  | .operation _ left right => 1 + max left.nesting right.nesting
termination_by t => sizeOf t
decreasing_by
  · have := sizeOf_lt_of_mem_types ‹_ ∈ c.types›
    rw [classType.sizeOf_spec]
    omega
  · have := sizeOf_result_lt f
    rw [function.sizeOf_spec]
    omega
  · have := sizeOf_lt_of_mem_params ‹_ ∈ f.params›
    rw [function.sizeOf_spec]
    omega
  · have := sizeOf_lt_of_mem_columns ‹_ ∈ r.columns›
    rw [relation.sizeOf_spec]
    omega
  · rw [operation.sizeOf_spec]
    omega
  · rw [operation.sizeOf_spec]
    omega

/-! ### Equality -/

mutual

def same : TypeExpr → TypeExpr → Bool
  | .param p, .param q => p = q
  | .classType ⟨head, types, muls⟩, .classType ⟨head', types', muls'⟩ =>
    head = head' && muls = muls' && sameTypes types types'
  | .function ⟨params, ⟨type, mul⟩⟩, .function ⟨params', ⟨type', mul'⟩⟩ =>
    samePositions params params' && mul = mul' && same type type'
  | .relation ⟨columns⟩, .relation ⟨columns'⟩ => sameColumns columns columns'
  | .operation kind left right, .operation kind' left' right' =>
    kind = kind' && same left left' && same right right'
  | _, _ => false

def sameTypes : List TypeExpr → List TypeExpr → Bool
  | [], [] => true
  | t :: ts, u :: us => same t u && sameTypes ts us
  | _, _ => false

def samePositions : List (Position TypeExpr) → List (Position TypeExpr) → Bool
  | [], [] => true
  | ⟨t, m⟩ :: ps, ⟨u, n⟩ :: qs => m = n && same t u && samePositions ps qs
  | _, _ => false

def sameColumns : List (Column TypeExpr) → List (Column TypeExpr) → Bool
  | [], [] => true
  | ⟨a, t⟩ :: cs, ⟨b, u⟩ :: ds => a = b && same t u && sameColumns cs ds
  | _, _ => false

end

mutual

theorem same_iff : ∀ t u : TypeExpr, same t u = true ↔ t = u
  | .param p, u => by cases u <;> simp [same]
  | .classType ⟨head, types, muls⟩, u => by
    rcases u with _ | ⟨head', types', muls'⟩ | _ | _ | _ <;> simp [same, sameTypes_iff types]
    grind
  | .function ⟨params, ⟨type, mul⟩⟩, u => by
    rcases u with _ | _ | ⟨params', ⟨type', mul'⟩⟩ | _ | _ <;>
      simp [same, samePositions_iff params, same_iff type]
    grind
  | .relation ⟨columns⟩, u => by
    rcases u with _ | _ | _ | ⟨⟨columns'⟩⟩ | _ <;> simp [same, sameColumns_iff columns]
  | .operation kind left right, u => by
    cases u <;> simp [same, same_iff left, same_iff right]
    grind

theorem sameTypes_iff : ∀ ts us : List TypeExpr, sameTypes ts us = true ↔ ts = us
  | [], us => by cases us <;> simp [sameTypes]
  | t :: ts, us => by cases us <;> simp [sameTypes, same_iff t, sameTypes_iff ts]

theorem samePositions_iff :
    ∀ ps qs : List (Position TypeExpr), samePositions ps qs = true ↔ ps = qs
  | [], qs => by cases qs <;> simp [samePositions]
  | ⟨t, m⟩ :: ps, qs => by
    rcases qs with _ | ⟨⟨u, n⟩, qs⟩ <;>
      simp [samePositions, same_iff t, samePositions_iff ps]
    grind

theorem sameColumns_iff : ∀ cs ds : List (Column TypeExpr), sameColumns cs ds = true ↔ cs = ds
  | [], ds => by cases ds <;> simp [sameColumns]
  | ⟨a, t⟩ :: cs, ds => by
    rcases ds with _ | ⟨⟨b, u⟩, ds⟩ <;> simp [sameColumns, same_iff t, sameColumns_iff cs]

end

instance : DecidableEq TypeExpr := fun t u => decidable_of_iff _ (same_iff t u)

end TypeExpr

end ScopedInference
