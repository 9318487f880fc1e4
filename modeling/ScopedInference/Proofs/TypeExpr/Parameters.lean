import Mathlib.Data.List.Basic
import ScopedInference.TypeExpr.Substitution

/-!
# The parameters of a type

`parameters` lists what a registration learns about, in the order in which it does. A type without
parameters may still have operations in it; a fully concrete one has neither
(`parameters_of_isFullyConcrete`). After a substitution there are those of the types that parameters
have been replaced with (`parameters_substitute`).
-/

namespace ScopedInference

/-- Types and multiplicities have names of their own. -/
inductive Parameter where
  | type (name : String)
  | mul (name : String)
deriving DecidableEq

namespace Multiplicity

def parameters : Multiplicity → List Parameter
  | .range _ _ => []
  | .param name => [.mul name]

theorem isConcrete_iff {m : Multiplicity} : m.isConcrete ↔ m.parameters = [] := by
  cases m <;> simp [isConcrete, parameters]

end Multiplicity

namespace TypeExpr

/-- With repetitions. Of a class type, multiplicities come first; of a position, the type. -/
@[grind =]
def parameters : TypeExpr → List Parameter
  | .param p => [.type p.name]
  | .classType c => c.muls.flatMap (·.parameters) ++ c.types.flatMap (·.parameters)
  | .function f =>
    (f.params.flatMap fun p => p.type.parameters ++ p.mul.parameters)
      ++ (f.result.type.parameters ++ f.result.mul.parameters)
  | .relation r => r.columns.flatMap fun c => c.type.parameters
  | .operation _ left right => left.parameters ++ right.parameters
termination_by t => sizeOf t
decreasing_by
  · have := sizeOf_lt_of_mem_types ‹_ ∈ c.types›
    rw [classType.sizeOf_spec]
    omega
  · have := sizeOf_lt_of_mem_params ‹_ ∈ f.params›
    rw [function.sizeOf_spec]
    omega
  · have := sizeOf_result_lt f
    rw [function.sizeOf_spec]
    omega
  · have := sizeOf_lt_of_mem_columns ‹_ ∈ r.columns›
    rw [relation.sizeOf_spec]
    omega
  · rw [operation.sizeOf_spec]
    omega
  · rw [operation.sizeOf_spec]
    omega

/-! ### Ground types -/

theorem parameters_classType_eq_nil {c : ClassType} : (classType c).parameters = []
    ↔ (∀ m ∈ c.muls, m.parameters = []) ∧ ∀ t ∈ c.types, t.parameters = [] := by
  rw [parameters, List.append_eq_nil_iff, List.flatMap_eq_nil_iff, List.flatMap_eq_nil_iff]

theorem parameters_function_eq_nil {f : Arrow TypeExpr} : (function f).parameters = []
    ↔ (∀ p ∈ f.params, p.type.parameters = [] ∧ p.mul.parameters = [])
      ∧ f.result.type.parameters = [] ∧ f.result.mul.parameters = [] := by
  simp only [parameters, List.append_eq_nil_iff, List.flatMap_eq_nil_iff]

theorem parameters_relation_eq_nil {r : Relation TypeExpr} : (relation r).parameters = []
    ↔ ∀ c ∈ r.columns, c.type.parameters = [] := by
  rw [parameters, List.flatMap_eq_nil_iff]

theorem parameters_operation_eq_nil {kind : OperationKind} {left right : TypeExpr} :
    (operation kind left right).parameters = [] ↔ left.parameters = [] ∧ right.parameters = [] := by
  rw [parameters, List.append_eq_nil_iff]

theorem isFullyConcrete_classType {c : ClassType} : (classType c).isFullyConcrete
    ↔ (∀ m ∈ c.muls, m.isConcrete) ∧ ∀ t ∈ c.types, t.isFullyConcrete := by
  simp [isFullyConcrete, and_comm]

theorem isFullyConcrete_function {f : Arrow TypeExpr} : (function f).isFullyConcrete
    ↔ (∀ p ∈ f.params, p.type.isFullyConcrete ∧ p.mul.isConcrete)
      ∧ f.result.type.isFullyConcrete ∧ f.result.mul.isConcrete := by
  simp [isFullyConcrete, and_assoc]

theorem isFullyConcrete_relation {r : Relation TypeExpr} : (relation r).isFullyConcrete
    ↔ ∀ c ∈ r.columns, c.type.isFullyConcrete := by
  simp [isFullyConcrete]

theorem isConcrete_of_isFullyConcrete {t : TypeExpr} (ht : t.isFullyConcrete) : t.isConcrete := by
  cases t with
  | param p => simp [isFullyConcrete] at ht
  | operation kind left right => simp [isFullyConcrete] at ht
  | _ => rfl

theorem isFullyConcrete_atom (name : ClassName) : (atom name).isFullyConcrete := by
  simp [atom, isFullyConcrete]

theorem parameters_of_isFullyConcrete (t : TypeExpr) :
    t.isFullyConcrete → t.parameters = [] := by
  induction t with
  | param p => simp [isFullyConcrete]
  | classType c ih =>
    rw [isFullyConcrete_classType, parameters_classType_eq_nil]
    rintro ⟨hm, ht⟩
    exact ⟨fun m h => Multiplicity.isConcrete_iff.1 (hm m h), fun t h => ih t h (ht t h)⟩
  | function f ihp ihr =>
    rw [isFullyConcrete_function, parameters_function_eq_nil]
    rintro ⟨hp, hr, hm⟩
    exact ⟨fun p h => ⟨ihp p h (hp p h).1, Multiplicity.isConcrete_iff.1 (hp p h).2⟩, ihr hr,
      Multiplicity.isConcrete_iff.1 hm⟩
  | relation r ih =>
    rw [isFullyConcrete_relation, parameters_relation_eq_nil]
    exact fun hc c h => ih c h (hc c h)
  | operation kind left right => simp [isFullyConcrete]

/-! ### Parameters of parts -/

theorem parameters_argument {c : ClassType} {t : TypeExpr} (ht : t ∈ c.types) :
    t.parameters ⊆ (classType c).parameters := by
  intro q hq
  rw [parameters, List.mem_append, List.mem_flatMap, List.mem_flatMap]
  exact .inr ⟨t, ht, hq⟩

theorem parameters_multiplicity {c : ClassType} {m : Multiplicity} (hm : m ∈ c.muls) :
    m.parameters ⊆ (classType c).parameters := by
  intro q hq
  rw [parameters, List.mem_append, List.mem_flatMap, List.mem_flatMap]
  exact .inl ⟨m, hm, hq⟩

theorem parameters_column {r : Relation TypeExpr} {c : Column TypeExpr} (hc : c ∈ r.columns) :
    c.type.parameters ⊆ (relation r).parameters := by
  intro q hq
  rw [parameters, List.mem_flatMap]
  exact ⟨c, hc, hq⟩

theorem parameters_function (f : Arrow TypeExpr) : (function f).parameters
    = (f.params ++ [f.result]).flatMap fun p => p.type.parameters ++ p.mul.parameters := by
  rw [parameters, List.flatMap_append, List.flatMap_singleton]

theorem parameters_position {f : Arrow TypeExpr} {p : Position TypeExpr}
    (hp : p ∈ f.params ++ [f.result]) :
    p.type.parameters ⊆ (function f).parameters ∧ p.mul.parameters ⊆ (function f).parameters := by
  rw [parameters_function]
  constructor
  · intro q hq
    exact List.mem_flatMap.2 ⟨p, hp, List.mem_append_left _ hq⟩
  · intro q hq
    exact List.mem_flatMap.2 ⟨p, hp, List.mem_append_right _ hq⟩

/-! ### Substitution -/

end TypeExpr

/-- The parameters of what stands in the place of a parameter. -/
def Substitution.parametersOf (s : Substitution) : Parameter → List Parameter
  | .type name => (s.types name).elim [.type name] (·.parameters)
  | .mul name => (s.muls name).elim [.mul name] (·.parameters)

theorem Multiplicity.parameters_substitute (s : Substitution) (m : Multiplicity) :
    (m.substitute s).parameters = m.parameters.flatMap s.parametersOf := by
  cases m with
  | range _ _ => rfl
  | param name =>
    rw [substitute, parameters, List.flatMap_singleton, Substitution.parametersOf]
    rcases s.muls name with _ | m <;> rfl

namespace TypeExpr

theorem parameters_substitute (s : Substitution) (t : TypeExpr) :
    (t.substitute s).parameters = t.parameters.flatMap s.parametersOf := by
  have hmul := Multiplicity.parameters_substitute s
  induction t with
  | param p =>
    rw [substitute, parameters, List.flatMap_singleton, Substitution.parametersOf]
    rcases s.types p.name with _ | t <;> simp [parameters]
  | classType c ih =>
    simp only [substitute, parameters, List.flatMap_append, List.flatMap_map, List.flatMap_assoc,
      hmul]
    rw [List.flatMap_congr ih]
  | function f ihp ihr =>
    simp only [substitute, parameters, List.flatMap_append, List.flatMap_map, List.flatMap_assoc,
      hmul, ihr]
    rw [List.flatMap_congr fun p hp => by rw [ihp p hp]]
  | relation r ih =>
    simp only [substitute, parameters, List.flatMap_map, List.flatMap_assoc]
    rw [List.flatMap_congr ih]
  | operation kind left right ihl ihr =>
    simp only [substitute, parameters, List.flatMap_append, ihl, ihr]

/-! ### Nesting of parts -/

theorem le_foldl_max {l : List Nat} {b : Nat} : b ≤ l.foldl max b ∧ ∀ x ∈ l, x ≤ l.foldl max b := by
  induction l generalizing b with
  | nil => simp
  | cons y l ih =>
    obtain ⟨hb, hl⟩ := @ih (max b y)
    refine ⟨Nat.le_trans (Nat.le_max_left b y) hb, fun x hx => ?_⟩
    rcases List.mem_cons.1 hx with rfl | hx
    · exact Nat.le_trans (Nat.le_max_right b x) hb
    · exact hl x hx

theorem one_le_nesting (t : TypeExpr) : 1 ≤ t.nesting := by
  cases t <;> simp [nesting]

theorem nesting_lt_classType {c : ClassType} {t : TypeExpr} (h : t ∈ c.types) :
    t.nesting < (classType c).nesting := by
  have := (@le_foldl_max (c.types.map (·.nesting)) 0).2 _ (List.mem_map_of_mem h)
  rw [nesting]
  omega

theorem nesting_lt_function {f : Arrow TypeExpr} {p : Position TypeExpr}
    (hp : p ∈ f.params ++ [f.result]) : p.type.nesting < (function f).nesting := by
  obtain ⟨hresult, hparams⟩ :=
    @le_foldl_max (f.params.map fun p => p.type.nesting) f.result.type.nesting
  rw [nesting]
  rcases List.mem_append.1 hp with hp | hp
  · have := hparams _ (List.mem_map_of_mem hp)
    omega
  · obtain rfl := List.mem_singleton.1 hp
    omega

theorem nesting_lt_relation {r : Relation TypeExpr} {c : Column TypeExpr} (h : c ∈ r.columns) :
    c.type.nesting < (relation r).nesting := by
  have := (@le_foldl_max (r.columns.map fun c => c.type.nesting) 0).2 _ (List.mem_map_of_mem h)
  rw [nesting]
  omega

end TypeExpr

end ScopedInference
