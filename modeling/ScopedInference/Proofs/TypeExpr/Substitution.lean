import Mathlib.Tactic.TFAE
import ScopedInference.Proofs.TypeExpr.Operations

/-!
# Substituting in turn

What stands within a type at any depth is said by its parts alone (`OccursIn`), and the parameters
of a type are those that occur in it (`mem_parameters_iff`). Two substitutions in turn come to one
(`substitute_andThen`), as views do at each step. A type that all substitutions leave as it is has
no parameters, since a parameter is gone once it has been given a value without any
(`not_mem_parameters_closing`). `substitute_composes` has all of this for one type.
-/

namespace ScopedInference

namespace Substitution

/-- First one substitution, then another one, which also goes into what the first has put in. -/
def andThen (s₁ s₂ : Substitution) : Substitution where
  types name := match s₁.types name with
    | some t => some (t.substitute s₂)
    | none => s₂.types name
  muls name := match s₁.muls name with
    | some m => some (m.substitute s₂)
    | none => s₂.muls name

/-- A parameter is given a value in which nothing is open, and no other one is bound. -/
def closing : Parameter → Substitution
  | .type name => .ofLists [(name, .top)] []
  | .mul name => .ofLists [] [(name, .many)]

end Substitution

namespace TypeExpr

/-! ### What stands within a type -/

/-- The types that a type is made of. -/
def parts : TypeExpr → List TypeExpr
  | .param _ => []
  | .classType c => c.types
  | .function f => (f.params ++ [f.result]).map (·.type)
  | .relation r => r.columns.map (·.type)
  | .operation _ left right => [left, right]

/-- The multiplicities that a type is made of. -/
def ownMuls : TypeExpr → List Multiplicity
  | .classType c => c.muls
  | .function f => (f.params ++ [f.result]).map (·.mul)
  | _ => []

/-- The type stands in another one at any depth, or is that one. -/
inductive OccursIn (u : TypeExpr) : TypeExpr → Prop where
  | self : OccursIn u u
  | part {t p} : p ∈ t.parts → OccursIn u p → OccursIn u t

end TypeExpr

/-- The multiplicity stands in a type at any depth. -/
def Multiplicity.OccursIn (m : Multiplicity) (t : TypeExpr) : Prop :=
  ∃ u : TypeExpr, u.OccursIn t ∧ m ∈ u.ownMuls

theorem Multiplicity.occursIn_iff {m : Multiplicity} {t : TypeExpr} :
    m.OccursIn t ↔ m ∈ t.ownMuls ∨ ∃ p ∈ t.parts, m.OccursIn p := by
  constructor
  · rintro ⟨u, hu, hm⟩
    cases hu with
    | self => exact .inl hm
    | part hp hu => exact .inr ⟨_, hp, u, hu, hm⟩
  · rintro (hm | ⟨p, hp, u, hu, hm⟩)
    · exact ⟨t, .self, hm⟩
    · exact ⟨u, .part hp hu, hm⟩

namespace TypeExpr

theorem occursIn_iff {u t : TypeExpr} : u.OccursIn t ↔ u = t ∨ ∃ p ∈ t.parts, u.OccursIn p := by
  constructor
  · intro hu
    cases hu with
    | self => exact .inl rfl
    | part hp hu => exact .inr ⟨_, hp, hu⟩
  · rintro (rfl | ⟨p, hp, hu⟩)
    · exact .self
    · exact .part hp hu

/-- To show something of every type, it may be assumed of what the type is made of. -/
theorem induct_parts {motive : TypeExpr → Prop}
    (step : ∀ t, (∀ p ∈ t.parts, motive p) → motive t) (t : TypeExpr) : motive t := by
  induction t with
  | param p => exact step _ fun _ hp => absurd hp List.not_mem_nil
  | classType c ih => exact step _ ih
  | function f ihp ihr =>
    refine step _ (List.forall_mem_map.2 fun p hp => ?_)
    rcases List.mem_append.1 hp with hp | hp
    · exact ihp p hp
    · rwa [List.mem_singleton.1 hp]
  | relation r ih => exact step _ (List.forall_mem_map.2 ih)
  | operation kind left right ihl ihr =>
    exact step _ (List.forall_mem_cons.2 ⟨ihl, List.forall_mem_singleton.2 ihr⟩)

/-! ### Parameters and operations that occur -/

/-- A parameter is the type itself, or belongs to what the type is made of. -/
theorem mem_parameters {q : Parameter} {t : TypeExpr} : q ∈ t.parameters
    ↔ (∃ p, t = .param p ∧ q = .type p.name) ∨ (∃ m ∈ t.ownMuls, q ∈ m.parameters)
      ∨ ∃ p ∈ t.parts, q ∈ p.parameters := by
  cases t with
  | param p => simp [parameters, parts, ownMuls]
  | classType c => simp [parameters, parts, ownMuls]
  | function f =>
    have hpositions : q ∈ (function f).parameters
        ↔ ∃ p ∈ f.params ++ [f.result], q ∈ p.mul.parameters ∨ q ∈ p.type.parameters := by
      simp only [parameters_function, List.mem_flatMap, List.mem_append, or_comm]
    rw [hpositions, parts, ownMuls]
    simp only [List.mem_map, exists_exists_and_eq_and, and_or_left, exists_or, reduceCtorEq,
      false_and, exists_const, false_or]
  | relation r => simp [parameters, parts, ownMuls]
  | operation kind left right => simp [parameters, parts, ownMuls]

/-- The parameters of a type are those that occur in it, type and multiplicity parameters. -/
theorem mem_parameters_iff {q : Parameter} {t : TypeExpr} : q ∈ t.parameters
    ↔ (∃ p : TypeParam, q = .type p.name ∧ (param p).OccursIn t)
      ∨ ∃ name, q = .mul name ∧ (Multiplicity.param name).OccursIn t := by
  have hmul : ∀ m : Multiplicity, q ∈ m.parameters ↔ ∃ name, q = .mul name ∧ m = .param name := by
    intro m
    cases m <;> simp [Multiplicity.parameters]
  induction t using induct_parts with
  | step t ih =>
    rw [mem_parameters]
    constructor
    · rintro (⟨p, rfl, rfl⟩ | ⟨m, hm, hq⟩ | ⟨p, hp, hq⟩)
      · exact .inl ⟨p, rfl, .self⟩
      · obtain ⟨name, rfl, rfl⟩ := (hmul m).1 hq
        exact .inr ⟨name, rfl, t, .self, hm⟩
      · rcases (ih p hp).1 hq with ⟨p', rfl, hocc⟩ | ⟨name, rfl, u, hocc, hm⟩
        · exact .inl ⟨p', rfl, .part hp hocc⟩
        · exact .inr ⟨name, rfl, u, .part hp hocc, hm⟩
    · rintro (⟨p, rfl, hocc⟩ | ⟨name, rfl, hocc⟩)
      · rcases occursIn_iff.1 hocc with rfl | ⟨u, hu, hocc⟩
        · exact .inl ⟨p, rfl, rfl⟩
        · exact .inr (.inr ⟨u, hu, (ih u hu).2 (.inl ⟨p, rfl, hocc⟩)⟩)
      · rcases Multiplicity.occursIn_iff.1 hocc with hm | ⟨u, hu, hocc⟩
        · exact .inr (.inl ⟨_, hm, (hmul _).2 ⟨name, rfl, rfl⟩⟩)
        · exact .inr (.inr ⟨u, hu, (ih u hu).2 (.inr ⟨name, rfl, hocc⟩)⟩)

theorem parameters_eq_nil_iff {t : TypeExpr} : t.parameters = []
    ↔ (∀ p, ¬ (param p).OccursIn t) ∧ ∀ name, ¬ (Multiplicity.param name).OccursIn t := by
  rw [List.eq_nil_iff_forall_not_mem]
  simp only [mem_parameters_iff, not_or, not_exists, not_and]
  constructor
  · intro h
    exact ⟨fun p => (h (.type p.name)).1 p rfl, fun name => (h (.mul name)).2 name rfl⟩
  · rintro ⟨htypes, hmuls⟩ q
    exact ⟨fun p _ => htypes p, fun name _ => hmuls name⟩

theorem OperationFree.part {t p : TypeExpr} (ht : t.OperationFree) (hp : p ∈ t.parts) :
    p.OperationFree := by
  cases ht with
  | param _ => exact absurd hp List.not_mem_nil
  | classType hc => exact hc p hp
  | function hf => exact List.forall_mem_map.2 hf p hp
  | relation hr => exact List.forall_mem_map.2 hr p hp

theorem operationFree_iff {t : TypeExpr} :
    t.OperationFree ↔ ∀ kind left right, ¬ (operation kind left right).OccursIn t := by
  constructor
  · intro ht kind left right hocc
    induction hocc with
    | self => cases ht
    | part hp _ ih => exact ih (ht.part hp)
  · induction t using induct_parts with
    | step t ih =>
      intro hnone
      have hparts : ∀ p ∈ t.parts, p.OperationFree := fun p hp =>
        ih p hp fun kind left right hocc => hnone kind left right (.part hp hocc)
      cases t with
      | param p => exact .param p
      | classType c => exact .classType hparts
      | function f => exact .function (List.forall_mem_map.1 hparts)
      | relation r => exact .relation (List.forall_mem_map.1 hparts)
      | operation kind left right => exact absurd .self (hnone kind left right)

end TypeExpr

/-! ### Substitutions in turn -/

theorem Multiplicity.substitute_andThen (s₁ s₂ : Substitution) (m : Multiplicity) :
    (m.substitute s₁).substitute s₂ = m.substitute (s₁.andThen s₂) := by
  cases m with
  | range _ _ => rfl
  | param name =>
    simp only [substitute, Substitution.andThen]
    rcases s₁.muls name with _ | m <;> rfl

namespace TypeExpr

theorem substitute_andThen (s₁ s₂ : Substitution) (t : TypeExpr) :
    (t.substitute s₁).substitute s₂ = t.substitute (s₁.andThen s₂) := by
  have hmul := Multiplicity.substitute_andThen s₁ s₂
  induction t with
  | param p =>
    simp only [substitute, Substitution.andThen]
    rcases s₁.types p.name with _ | t
    · rw [Option.getD_none, substitute]
    · rfl
  | classType c ih =>
    simp only [substitute, List.map_map, Function.comp_def, hmul]
    rw [List.map_congr_left ih]
  | function f ihp ihr =>
    simp only [substitute, List.map_map, Function.comp_def, hmul, ihr]
    rw [List.map_congr_left fun p hp => by rw [ihp p hp]]
  | relation r ih =>
    simp only [substitute, List.map_map, Function.comp_def]
    rw [List.map_congr_left fun c hc => by rw [ih c hc]]
  | operation kind left right ihl ihr =>
    rw [substitute, substitute, substitute, ihl, ihr]

end TypeExpr

/-! ### Types that stay as they are -/

theorem Multiplicity.substitute_of_parameters {σ : Substitution} {m : Multiplicity}
    (hm : m.parameters = []) : m.substitute σ = m := by
  cases m with
  | range _ _ => rfl
  | param _ => simp [parameters] at hm

theorem TypeExpr.substitute_of_parameters {σ : Substitution} (t : TypeExpr) :
    t.parameters = [] → t.substitute σ = t := by
  induction t with
  | param p => simp [parameters]
  | classType c ih =>
    rw [parameters_classType_eq_nil, substitute]
    rintro ⟨hmuls, htypes⟩
    rw [List.map_congr_left fun t ht => ih t ht (htypes t ht), List.map_id',
      List.map_congr_left fun m hm => Multiplicity.substitute_of_parameters (hmuls m hm),
      List.map_id']
  | function f ihp ihr =>
    rw [parameters_function_eq_nil, substitute]
    rintro ⟨hparams, hresult, hmul⟩
    have hposition : ∀ p ∈ f.params, (⟨p.type.substitute σ, p.mul.substitute σ⟩ : Position TypeExpr)
        = p := by
      intro p hp
      rw [ihp p hp (hparams p hp).1, Multiplicity.substitute_of_parameters (hparams p hp).2]
    rw [List.map_congr_left hposition, List.map_id', ihr hresult,
      Multiplicity.substitute_of_parameters hmul]
  | relation r ih =>
    rw [parameters_relation_eq_nil, substitute]
    intro hcolumns
    have hcolumn : ∀ c ∈ r.columns, (⟨c.name, c.type.substitute σ⟩ : Column TypeExpr) = c := by
      intro c hc
      rw [ih c hc (hcolumns c hc)]
    rw [List.map_congr_left hcolumn, List.map_id']
  | operation kind left right ihl ihr =>
    rw [parameters_operation_eq_nil, substitute]
    rintro ⟨hleft, hright⟩
    rw [ihl hleft, ihr hright]

namespace Substitution

theorem parametersOf_closing_self (q : Parameter) : (closing q).parametersOf q = [] := by
  have htop : TypeExpr.top.parameters = [] := by
    simp [TypeExpr.top, TypeExpr.atom, TypeExpr.parameters]
  cases q with
  | type name => simp [closing, parametersOf, ofLists, htop]
  | mul name => simp [closing, parametersOf, ofLists, Multiplicity.many, Multiplicity.parameters]

theorem parametersOf_closing_of_ne {p q : Parameter} (hne : p ≠ q) :
    (closing q).parametersOf p = [p] := by
  have hlookup : ∀ {α : Type} {name name' : String} {v : α}, name ≠ name' →
      [(name', v)].reverse.lookup name = none := by
    intro α name name' v hname
    rw [List.reverse_singleton, List.lookup_cons, beq_false_of_ne hname]
    rfl
  rcases q with name' | name' <;> rcases p with name | name
  · have hname : name ≠ name' := fun heq => hne (heq ▸ rfl)
    simp only [closing, parametersOf, ofLists, hlookup hname, Option.elim_none]
  · rfl
  · rfl
  · have hname : name ≠ name' := fun heq => hne (heq ▸ rfl)
    simp only [closing, parametersOf, ofLists, hlookup hname, Option.elim_none]

end Substitution

namespace TypeExpr

/-- The parameter is gone. -/
theorem not_mem_parameters_closing (q : Parameter) (t : TypeExpr) :
    q ∉ (t.substitute (.closing q)).parameters := by
  rw [parameters_substitute, List.mem_flatMap]
  rintro ⟨p, -, hq⟩
  by_cases hp : p = q
  · rw [hp, Substitution.parametersOf_closing_self] at hq
    exact absurd hq List.not_mem_nil
  · rw [Substitution.parametersOf_closing_of_ne hp] at hq
    exact hp (List.mem_singleton.1 hq).symm

/-- Substitutions with no more than one entry are enough to tell. -/
theorem parameters_of_unchanged {t : TypeExpr}
    (ht : ∀ types muls, t.substitute (.ofLists types muls) = t) : t.parameters = [] := by
  refine List.eq_nil_iff_forall_not_mem.2 fun q hq => ?_
  have hclosing : t.substitute (.closing q) = t := by
    cases q with
    | type name => exact ht [(name, .top)] []
    | mul name => exact ht [] [(name, .many)]
  exact not_mem_parameters_closing q t (hclosing.symm ▸ hq)

/-- Two substitutions in turn are one. Fully concrete are the types in which no parameter of either
kind and no operation stands at any depth; no substitution changes them. Just the types without
parameters are never changed, and substitutions that bind finitely many names are enough to tell. -/
theorem substitute_composes (t : TypeExpr) :
    (∀ s₁ s₂, (t.substitute s₁).substitute s₂ = t.substitute (s₁.andThen s₂))
      ∧ (t.isFullyConcrete ↔ (∀ p, ¬ (param p).OccursIn t)
        ∧ (∀ kind left right, ¬ (operation kind left right).OccursIn t)
        ∧ ∀ name, ¬ (Multiplicity.param name).OccursIn t)
      ∧ (t.isFullyConcrete → ∀ s, t.substitute s = t)
      ∧ [∀ s, t.substitute s = t, ∀ types muls, t.substitute (.ofLists types muls) = t,
        (∀ p, ¬ (param p).OccursIn t) ∧ ∀ name, ¬ (Multiplicity.param name).OccursIn t].TFAE := by
  refine ⟨fun s₁ s₂ => substitute_andThen s₁ s₂ t, ?_, fun ht s => ?_, ?_⟩
  · rw [isFullyConcrete_iff, parameters_eq_nil_iff, operationFree_iff]
    tauto
  · exact substitute_of_parameters t (t.parameters_of_isFullyConcrete ht)
  · rw [← parameters_eq_nil_iff]
    tfae_have 1 → 2 := fun ht types muls => ht (.ofLists types muls)
    tfae_have 2 → 3 := parameters_of_unchanged
    tfae_have 3 → 1 := fun ht s => substitute_of_parameters t ht
    tfae_finish

/-- Nothing is put into a list of integers. -/
theorem substitute_composes_integers :
    (classType ⟨"List", [atom "Integer"], []⟩).isFullyConcrete
      ∧ ∀ s, (classType ⟨"List", [atom "Integer"], []⟩).substitute s
        = classType ⟨"List", [atom "Integer"], []⟩ := by
  have hconcrete : (classType ⟨"List", [atom "Integer"], []⟩).isFullyConcrete := by
    simp [isFullyConcrete, atom]
  obtain ⟨-, -, hunchanged, -⟩ := substitute_composes (classType ⟨"List", [atom "Integer"], []⟩)
  exact ⟨hconcrete, hunchanged hconcrete⟩

end TypeExpr

end ScopedInference
