import ScopedInference.Proofs.TypeExpr.Parameters

/-!
# The class types within a type

`AllClasses` says that all class types within a type have a property. If the property looks at the
class and at the number of arguments only, substitution keeps it (`AllClasses.substitute`). A type
is ground if moreover it has no parameters (`GroundOver`); so are its parts then.
-/

namespace ScopedInference

namespace TypeExpr

inductive AllClasses (P : ClassType → Prop) : TypeExpr → Prop where
  | param (p) : AllClasses P (.param p)
  | classType {c} : P c → (∀ t ∈ c.types, AllClasses P t) → AllClasses P (.classType c)
  | function {f} : (∀ p ∈ f.params ++ [f.result], AllClasses P p.type) → AllClasses P (.function f)
  | relation {r} : (∀ c ∈ r.columns, AllClasses P c.type) → AllClasses P (.relation r)
  | operation {kind left right} : AllClasses P left → AllClasses P right →
      AllClasses P (.operation kind left right)

end TypeExpr

/-- Whether a class type has the property is told by its class and the number of its arguments. -/
def ClassType.Structural (P : ClassType → Prop) : Prop :=
  ∀ c d : ClassType, c.head = d.head → c.types.length = d.types.length →
    c.muls.length = d.muls.length → P c → P d

theorem ClassType.Structural.substitute {P : ClassType → Prop} (hP : Structural P) {c : ClassType}
    (hc : P c) (s : Substitution) : P (c.substitute s) :=
  hP c _ rfl (List.length_map _).symm (List.length_map _).symm hc

namespace TypeExpr

namespace AllClasses

variable {P Q : ClassType → Prop} {t : TypeExpr}

theorem mono (hPQ : ∀ c, P c → Q c) (ht : t.AllClasses P) : t.AllClasses Q := by
  induction ht with
  | param p => exact .param p
  | classType hc _ ih => exact .classType (hPQ _ hc) ih
  | function _ ih => exact .function ih
  | relation _ ih => exact .relation ih
  | operation _ _ ihl ihr => exact .operation ihl ihr

theorem substitute (hP : ClassType.Structural P) {s : Substitution} (ht : t.AllClasses P)
    (hs : ∀ name v, s.types name = some v → v.AllClasses P) : (t.substitute s).AllClasses P := by
  induction ht with
  | param p =>
    rw [TypeExpr.substitute]
    rcases hv : s.types p.name with _ | v
    · exact .param p
    · exact hs _ v hv
  | classType hc _ ih =>
    rw [TypeExpr.substitute]
    refine .classType (hP.substitute hc s) fun t ht => ?_
    obtain ⟨t, hmem, rfl⟩ := List.mem_map.1 ht
    exact ih t hmem
  | function _ ih =>
    rw [TypeExpr.substitute]
    refine .function fun p hp => ?_
    rcases List.mem_append.1 hp with hp | hp
    · obtain ⟨p, hmem, rfl⟩ := List.mem_map.1 hp
      exact ih p (List.mem_append_left _ hmem)
    · rw [List.mem_singleton.1 hp]
      exact ih _ (List.mem_append_right _ List.mem_cons_self)
  | relation _ ih =>
    rw [TypeExpr.substitute]
    refine .relation fun c hc => ?_
    obtain ⟨c, hmem, rfl⟩ := List.mem_map.1 hc
    exact ih c hmem
  | operation _ _ ihl ihr =>
    rw [TypeExpr.substitute]
    exact .operation ihl ihr

end AllClasses

structure GroundOver (P : ClassType → Prop) (t : TypeExpr) : Prop where
  classes : t.AllClasses P
  parameters : t.parameters = []

namespace GroundOver

variable {P : ClassType → Prop}

theorem of_classType {c : ClassType} (hg : (classType c).GroundOver P) :
    P c ∧ (∀ m ∈ c.muls, m.parameters = []) ∧ ∀ t ∈ c.types, t.GroundOver P := by
  obtain ⟨hclasses, hparams⟩ := hg
  rw [parameters_classType_eq_nil] at hparams
  rcases hclasses with _ | ⟨hc, hargs⟩
  exact ⟨hc, hparams.1, fun t ht => ⟨hargs t ht, hparams.2 t ht⟩⟩

theorem classType {c : ClassType} (hc : P c) (hmuls : ∀ m ∈ c.muls, m.parameters = [])
    (htypes : ∀ t ∈ c.types, t.GroundOver P) : (classType c).GroundOver P where
  classes := .classType hc fun t ht => (htypes t ht).classes
  parameters := parameters_classType_eq_nil.2 ⟨hmuls, fun t ht => (htypes t ht).parameters⟩

theorem of_function {f : Arrow TypeExpr} (hg : (function f).GroundOver P) :
    ∀ p ∈ f.params ++ [f.result], p.type.GroundOver P ∧ p.mul.parameters = [] := by
  obtain ⟨hclasses, hparams⟩ := hg
  rw [parameters_function, List.flatMap_eq_nil_iff] at hparams
  rcases hclasses with _ | _ | ⟨hpositions⟩
  intro p hp
  obtain ⟨htype, hmul⟩ := List.append_eq_nil_iff.1 (hparams p hp)
  exact ⟨⟨hpositions p hp, htype⟩, hmul⟩

theorem of_relation {r : Relation TypeExpr} (hg : (relation r).GroundOver P) :
    ∀ c ∈ r.columns, c.type.GroundOver P := by
  obtain ⟨hclasses, hparams⟩ := hg
  rw [parameters_relation_eq_nil] at hparams
  rcases hclasses with _ | _ | _ | ⟨hcols⟩
  exact fun c hc => ⟨hcols c hc, hparams c hc⟩

theorem relation {r : Relation TypeExpr} (hr : ∀ c ∈ r.columns, c.type.GroundOver P) :
    (TypeExpr.relation r).GroundOver P where
  classes := .relation fun c hc => (hr c hc).classes
  parameters := parameters_relation_eq_nil.2 fun c hc => (hr c hc).parameters

theorem of_operation {kind : OperationKind} {left right : TypeExpr}
    (hg : (operation kind left right).GroundOver P) : left.GroundOver P ∧ right.GroundOver P := by
  obtain ⟨hclasses, hparams⟩ := hg
  rw [parameters_operation_eq_nil] at hparams
  rcases hclasses with _ | _ | _ | _ | ⟨hl, hr⟩
  exact ⟨⟨hl, hparams.1⟩, hr, hparams.2⟩

end GroundOver

end TypeExpr

end ScopedInference
