import ScopedInference.Proofs.Hierarchy.Walks
import ScopedInference.Proofs.TypeExpr.Classes

/-!
# Regular hierarchies

In a regular hierarchy, generalizations are written over the parameters of the class that declares
them, and have as many arguments as their classes declare. It may well be circular. A ground type
that has as many arguments as declared is then viewed as another one (`Regular.view_settled`). The
top class may occur without arguments even where a hierarchy declares parameters for it, since that
is what conflicts give.
-/

namespace ScopedInference

/-- The value that a later list has for a name of an earlier one. -/
theorem exists_lookup_zip {β : Type} {name : String} {names : List String} {values : List β}
    (hlength : values.length = names.length) (hname : name ∈ names) :
    ∃ v, ((names.zip values).reverse.lookup name) = some v := by
  refine Option.isSome_iff_exists.1 (List.lookup_isSome_iff.2 ?_)
  rw [← List.map_fst_zip (Nat.le_of_eq hlength.symm)] at hname
  obtain ⟨p, hp, rfl⟩ := List.mem_map.1 hname
  exact ⟨p, List.mem_reverse.2 hp, beq_self_eq_true _⟩

theorem mem_of_lookup_zip {β : Type} {name : String} {names : List String} {values : List β}
    {v : β} (hv : (names.zip values).reverse.lookup name = some v) : v ∈ values := by
  obtain ⟨before, after, heq, -⟩ := List.lookup_eq_some_iff.1 hv
  have hmem : (name, v) ∈ (names.zip values).reverse := by
    rw [heq]
    simp
  exact (List.of_mem_zip (List.mem_reverse.1 hmem)).2

namespace ClassDecl

/-- The parameters that a class declares. -/
def parameters (d : ClassDecl) : List Parameter := d.params.map (.type ·.name) ++ d.muls.map .mul

variable {d : ClassDecl} {c : ClassType}

theorem bindings_types {name : String} {v : TypeExpr} (hv : (d.bindings c).types name = some v) :
    v ∈ c.types :=
  mem_of_lookup_zip hv

/-- Each parameter that a class declares stands for an argument. -/
theorem parametersOf_bindings (htypes : c.types.length = d.params.length)
    (hmuls : c.muls.length = d.muls.length) {q : Parameter} (hq : q ∈ d.parameters) :
    (d.bindings c).parametersOf q ⊆ (TypeExpr.classType c).parameters := by
  rcases List.mem_append.1 hq with hq | hq
  · obtain ⟨p, hp, rfl⟩ := List.mem_map.1 hq
    have hlength : c.types.length = (d.params.map (·.name)).length := by
      rw [List.length_map, htypes]
    obtain ⟨v, hv⟩ := exists_lookup_zip hlength (List.mem_map_of_mem hp)
    rw [Substitution.parametersOf, show (d.bindings c).types p.name = some v from hv]
    exact TypeExpr.parameters_argument (mem_of_lookup_zip hv)
  · obtain ⟨name, hname, rfl⟩ := List.mem_map.1 hq
    obtain ⟨v, hv⟩ := exists_lookup_zip hmuls hname
    rw [Substitution.parametersOf, show (d.bindings c).muls name = some v from hv]
    exact TypeExpr.parameters_multiplicity (mem_of_lookup_zip hv)

end ClassDecl

theorem ClassType.classType_substitute (c : ClassType) (s : Substitution) :
    TypeExpr.classType (c.substitute s) = (TypeExpr.classType c).substitute s := by
  rw [TypeExpr.substitute]
  rfl

namespace Hierarchy

/-- As many arguments as the class declares parameters, if it is declared. -/
def Arity (h : Hierarchy) (c : ClassType) : Prop :=
  ∀ d, h.find? c.head = some d → c.types.length = d.params.length ∧ c.muls.length = d.muls.length

theorem structural_arity (h : Hierarchy) : ClassType.Structural h.Arity := by
  intro c d hhead htypes hmuls hc e he
  rw [← htypes, ← hmuls]
  exact hc e (hhead ▸ he)

theorem arity_of_find? {h : Hierarchy} {name : ClassName} {d : ClassDecl}
    {types : List TypeExpr} {muls : List Multiplicity} (hd : h.find? name = some d)
    (htypes : types.length = d.params.length) (hmuls : muls.length = d.muls.length) :
    h.Arity ⟨name, types, muls⟩ := by
  intro e he
  cases hd.symm.trans he
  exact ⟨htypes, hmuls⟩

theorem arity_atom {h : Hierarchy} {name : ClassName} {d : ClassDecl} (hd : h.find? name = some d)
    (hparams : d.params = []) (hmuls : d.muls = []) : (TypeExpr.atom name).AllClasses h.Arity :=
  .classType (arity_of_find? hd (hparams ▸ rfl) (hmuls ▸ rfl)) (by simp)

/-- The top class may do without arguments. -/
def Sized (h : Hierarchy) (c : ClassType) : Prop := c.head ≠ .any → h.Arity c

theorem structural_sized (h : Hierarchy) : ClassType.Structural h.Sized :=
  fun c d hhead htypes hmuls hc hany =>
    h.structural_arity c d hhead htypes hmuls (hc (hhead ▸ hany))

structure Regular (h : Hierarchy) : Prop where
  own : ∀ name d, h.find? name = some d → ∀ g ∈ d.generalizations,
    ∀ q ∈ (TypeExpr.classType g).parameters, q ∈ d.parameters
  arities : ∀ name d, h.find? name = some d → ∀ g ∈ d.generalizations,
    (TypeExpr.classType g).AllClasses h.Arity

end Hierarchy

/-- Ground, with as many arguments as declared. -/
abbrev TypeExpr.Settled (h : Hierarchy) : TypeExpr → Prop := GroundOver h.Sized

theorem TypeExpr.settled_of_isFullyConcrete {h : Hierarchy} {t : TypeExpr}
    (hconcrete : t.isFullyConcrete) (harity : t.AllClasses h.Arity) : t.Settled h where
  classes := harity.mono fun _ hc _ => hc
  parameters := t.parameters_of_isFullyConcrete hconcrete

namespace Hierarchy

variable {h : Hierarchy}

/-! ### Views -/

/-- What one generalization keeps, a view keeps. -/
theorem viewWithin_induct {ancestor : ClassName} {P : ClassType → Prop}
    (hstep : ∀ c d g, h.find? c.head = some d → g ∈ d.generalizations → P c →
      P (g.substitute (d.bindings c)))
    (n : Nat) {c v : ClassType} (hv : h.viewWithin ancestor n c = some v) (hc : P c) : P v := by
  obtain ⟨walk, hwalk, -, rfl⟩ := viewWithin_along n hv
  exact hwalk.along_induct hstep rfl hc

theorem view_allClasses {P : ClassType → Prop} (hP : ClassType.Structural P)
    (hdeclared : ∀ name d, h.find? name = some d → ∀ g ∈ d.generalizations,
      (TypeExpr.classType g).AllClasses P)
    {ancestor : ClassName} {c v : ClassType} (hv : h.view? c ancestor = some v)
    (hc : (TypeExpr.classType c).AllClasses P) : (TypeExpr.classType v).AllClasses P := by
  refine viewWithin_induct (P := fun c => (TypeExpr.classType c).AllClasses P) ?_ _ hv hc
  intro c d g hd hg hc
  rcases hc with _ | ⟨-, hargs⟩
  rw [ClassType.classType_substitute]
  exact (hdeclared _ d hd g hg).substitute hP fun name v hv =>
    hargs v (ClassDecl.bindings_types hv)

/-- A view has no parameters of its own. -/
theorem Regular.view_parameters_subset (hr : h.Regular) {ancestor : ClassName} {c v : ClassType}
    (hv : h.view? c ancestor = some v) (harity : h.Arity c) :
    (TypeExpr.classType v).parameters ⊆ (TypeExpr.classType c).parameters := by
  refine (viewWithin_induct (P := fun v => h.Arity v
    ∧ (TypeExpr.classType v).parameters ⊆ (TypeExpr.classType c).parameters) ?_ _ hv
    ⟨harity, List.Subset.refl _⟩).2
  rintro v d g hd hg ⟨harity, hsubset⟩
  obtain ⟨htypes, hmuls⟩ := harity d hd
  refine ⟨h.structural_arity.substitute ?_ _, fun q hq => ?_⟩
  · rcases hr.arities _ d hd g hg with _ | ⟨hg, -⟩
    exact hg
  · rw [ClassType.classType_substitute, TypeExpr.parameters_substitute] at hq
    obtain ⟨p, hp, hq⟩ := List.mem_flatMap.1 hq
    exact hsubset (ClassDecl.parametersOf_bindings htypes hmuls (hr.own _ d hd g hg p hp) hq)

theorem Regular.view_parameters (hr : h.Regular) {ancestor : ClassName} {c v : ClassType}
    (hv : h.view? c ancestor = some v) (harity : h.Arity c)
    (hground : (TypeExpr.classType c).parameters = []) :
    (TypeExpr.classType v).parameters = [] :=
  List.subset_nil.1 (hground ▸ hr.view_parameters_subset hv harity)

/-- A settled class type is viewed as a settled one. The top class may lack arguments, so what it
generalizes may not be ground. -/
theorem Regular.view_settled (hr : h.Regular) {ancestor : ClassName} {c v : ClassType}
    (hv : h.view? c ancestor = some v) (hc : (TypeExpr.classType c).Settled h)
    (hany : c.head ≠ .any) : (TypeExpr.classType v).Settled h where
  classes := view_allClasses h.structural_sized
    (fun name d hd g hg => (hr.arities name d hd g hg).mono fun _ hc _ => hc) hv hc.classes
  parameters := hr.view_parameters hv (hc.of_classType.1 hany) hc.parameters

end Hierarchy

end ScopedInference
