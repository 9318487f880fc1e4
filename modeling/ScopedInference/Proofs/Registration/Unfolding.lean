import ScopedInference.Proofs.Registration.Instances
import ScopedInference.Proofs.Registration.Matching

/-!
# Matching a type with an instance of it

Registering an instance against a type goes through both side by side: each part of the type stands
against its own instance, in whatever hierarchy. So the type parameters that are reached on the way
are met with the values that the instance has for them (`Instantiates.unfolds`). A type that has no
parameters is its own instance, and matching it with itself teaches nothing (`inert_meets`).
-/

namespace ScopedInference

open Registration

/-! ### Parameters that are reached -/

namespace TypeExpr

/-- No operation occurs, and in each relation the columns of one name have one type. -/
inductive Consistent : TypeExpr → Prop where
  | param (p) : Consistent (.param p)
  | classType {c} : (∀ t ∈ c.types, Consistent t) → Consistent (.classType c)
  | function {f} : (∀ p ∈ f.params ++ [f.result], Consistent p.type) → Consistent (.function f)
  | relation {r} : r.canConcat r → (∀ c ∈ r.columns, Consistent c.type) → Consistent (.relation r)

/-- The type parameters that are met when the type is matched with an instance of it. Nothing is
matched below the top and the bottom class. -/
def reached : TypeExpr → List Parameter
  | .param p => [.type p.name]
  | .classType c => if isExtremum (.classType c) then [] else c.types.flatMap (·.reached)
  | .function f => (f.params.flatMap fun p => p.type.reached) ++ f.result.type.reached
  | .relation r => r.columns.flatMap fun c => c.type.reached
  | .operation _ _ _ => []
termination_by t => sizeOf t
decreasing_by
  · have := sizeOf_lt_of_mem_types ‹_ ∈ c.types›
    rw [classType.sizeOf_spec]
    omega
  · have := sizeOf_lt_of_mem_params ‹_ ∈ f.params›
    rw [function.sizeOf_spec]
    omega
  · have := sizeOf_result_lt f
    rw [function.sizeOf_spec]
    omega
  · have := sizeOf_lt_of_mem_columns ‹_ ∈ r.columns›
    rw [relation.sizeOf_spec]
    omega

theorem reached_function (f : Arrow TypeExpr) :
    (function f).reached = (f.params ++ [f.result]).flatMap fun p => p.type.reached := by
  rw [reached, List.flatMap_append, List.flatMap_singleton]

theorem reached_subset (t : TypeExpr) : t.reached ⊆ t.parameters := by
  induction t with
  | param p =>
    rw [reached, parameters]
    exact List.Subset.refl _
  | classType c ih =>
    rw [reached]
    split
    · exact List.nil_subset _
    · intro q hq
      obtain ⟨t, ht, hq⟩ := List.mem_flatMap.1 hq
      exact parameters_argument ht (ih t ht hq)
  | function f ihp ihr =>
    rw [reached_function]
    intro q hq
    obtain ⟨p, hp, hq⟩ := List.mem_flatMap.1 hq
    refine (parameters_position hp).1 ?_
    rcases List.mem_append.1 hp with hparam | hresult
    · exact ihp p hparam hq
    · obtain rfl := List.mem_singleton.1 hresult
      exact ihr hq
  | relation r ih =>
    rw [reached]
    intro q hq
    obtain ⟨c, hc, hq⟩ := List.mem_flatMap.1 hq
    exact parameters_column hc (ih c hc hq)
  | operation _ _ _ _ _ =>
    rw [reached]
    exact List.nil_subset _

theorem Consistent.isSome_of_open {c : ClassType} (hc : (TypeExpr.classType c).Consistent) :
    ∀ t ∈ c.types, t.isConcrete = false → t.parameterName?.isSome := by
  intro t ht hopen
  rcases hc with _ | hargs
  cases hargs t ht with
  | param _ => rfl
  | _ => cases hopen

theorem Coherent.consistent {t : TypeExpr} (ht : t.Coherent) : t.Consistent := by
  induction ht with
  | classType _ _ ih => exact .classType ih
  | function _ _ ih => exact .function ih
  | relation hr _ ih => exact .relation hr ih

theorem Coherent.parameters {t : TypeExpr} (ht : t.Coherent) : t.parameters = [] := by
  induction ht with
  | classType hmuls _ ih =>
    exact parameters_classType_eq_nil.2
      ⟨fun m hm => Multiplicity.isConcrete_iff.1 (hmuls m hm), ih⟩
  | function hmuls _ ih =>
    rw [parameters_function, List.flatMap_eq_nil_iff]
    intro p hp
    rw [ih p hp, Multiplicity.isConcrete_iff.1 (hmuls p hp)]
    rfl
  | relation _ _ ih => exact parameters_relation_eq_nil.2 ih

end TypeExpr

def Position.substitute (σ : Substitution) (p : Position TypeExpr) : Position TypeExpr :=
  ⟨p.type.substitute σ, p.mul.substitute σ⟩

def Arrow.substitute (σ : Substitution) (f : Arrow TypeExpr) : Arrow TypeExpr :=
  ⟨f.params.map (·.substitute σ), f.result.substitute σ⟩

theorem TypeExpr.substitute_function (σ : Substitution) (f : Arrow TypeExpr) :
    (TypeExpr.function f).substitute σ = .function (f.substitute σ) := by
  rw [TypeExpr.substitute]
  rfl

theorem Arrow.positions_substitute (σ : Substitution) (f : Arrow TypeExpr) :
    (f.substitute σ).params ++ [(f.substitute σ).result]
      = (f.params ++ [f.result]).map (·.substitute σ) := by
  rw [List.map_append]
  rfl

namespace Relation

def substitute (σ : Substitution) (r : Relation TypeExpr) : Relation TypeExpr :=
  ⟨r.columns.map fun c => ⟨c.name, c.type.substitute σ⟩⟩

variable {σ : Substitution} {r : Relation TypeExpr}

theorem column?_substitute (name : String) : (r.substitute σ).column? name
    = (r.column? name).map fun c => ⟨c.name, c.type.substitute σ⟩ := by
  rw [column?, substitute, List.find?_map]
  rfl

theorem has_substitute {c : Column TypeExpr} (hc : c ∈ r.columns) :
    (r.substitute σ).has c.name := by
  rw [has, column?_substitute, Option.isSome_map]
  exact has_of_mem hc

/-- Each column is aligned with its own instance. -/
theorem type_of_mem_align (hr : r.canConcat r) {q : Column TypeExpr × Column TypeExpr}
    (hq : q ∈ (r.substitute σ).align r) : q.1.type = q.2.type.substitute σ := by
  obtain ⟨hmem, hcolumn⟩ := mem_align hq
  rw [column?_substitute] at hcolumn
  obtain ⟨d, hd, heq⟩ := Option.map_eq_some_iff.1 hcolumn
  have hsame := List.all_eq_true.1 hr q.2 hmem
  rw [hd, Option.all_some, decide_eq_true_iff] at hsame
  rw [← heq, ← hsame]

end Relation

/-! ### Matching a type with an instance -/

/-- What has to be known of a step at a parameter, and of multiplicities, to know what is met in
types over these parameters. -/
structure Progress.Instantiates (P : Progress) (id target : ContextId) (σ : Substitution)
    (ps : List Parameter) : Prop where
  unsure : ∀ l, ¬ P.sure l
  parameter : ∀ {n merge p v}, .type p.name ∈ ps → σ.types p.name = some v →
    P.Meets (stepParameter (register n) id p v target merge) [.type p.name]
  mul : ∀ {n m v}, m.parameters ⊆ ps → P.Meets (register n (.mul id m v target)) []

/-- With so many levels, registering an instance against the type meets the parameters that are
reached. Function types may be matched directly. -/
def Progress.Unfolds (P : Progress) (id target : ContextId) (σ : Substitution) (n : Nat)
    (t : TypeExpr) : Prop :=
  (∀ merge, P.Meets (register n (.type id t (some (t.substitute σ)) target merge)) t.reached)
  ∧ ∀ merge f g, t = .function f → t.substitute σ = .function g →
    P.Meets (register n (.function id f g target merge)) t.reached

section

variable {P : Progress} {id target : ContextId} {σ : Substitution} {ps : List Parameter}

namespace Progress

theorem Instantiates.has (hP : P.Instantiates id target σ ps) (i : ContextId) : P.Has i :=
  fun l _ hl => absurd hl (hP.unsure l)

theorem Unfolds.argument {n : Nat} {t : TypeExpr} (ht : P.Unfolds id target σ n t) (merge : Bool) :
    P.Meets (Meets.argument (register n) id target merge (t, t.substitute σ)) t.reached := by
  unfold Meets.argument
  dsimp only
  split
  · rename_i f g hg
    exact ht.2 merge f g rfl hg
  · exact .nested (ht.1 merge)

variable {n : Nat} (hP : P.Instantiates id target σ ps)

include hP

theorem unfolds_zero (t : TypeExpr) : P.Unfolds id target σ 0 t :=
  ⟨fun _ => .register_zero hP.unsure, fun _ _ _ _ _ => .register_zero hP.unsure⟩

theorem meets_type {t v : TypeExpr} {qs : List Parameter} {merge : Bool} (hv : v.isConcrete)
    (htemplate : P.Meets (stepTemplate (register n) id t v target merge) qs) :
    P.Meets (register (n + 1) (.type id t (some v) target merge)) qs := by
  refine .register_type (hP.has id) (hP.has target) (fun here there => ?_) htemplate
  rw [stepEquality_eq_pure (.inr (TypeExpr.ne_equality hv))]
  exact .pure

theorem unfolds_param {p : TypeParam} (hσ : σ.Closes (.param p)) (hp : .type p.name ∈ ps) :
    P.Unfolds id target σ (n + 1) (.param p) := by
  obtain ⟨v, hv, hclosed, hinstance⟩ := hσ.param
  refine ⟨fun merge => ?_, fun _ _ _ heq => nomatch heq⟩
  rw [hinstance, TypeExpr.reached]
  exact meets_type hP (TypeExpr.isConcrete_of_isFullyConcrete hclosed) (hP.parameter hp hv)

theorem unfolds_classType {c : ClassType} (hps : (TypeExpr.classType c).parameters ⊆ ps)
    (ih : ∀ t ∈ c.types, P.Unfolds id target σ n t) :
    P.Unfolds id target σ (n + 1) (.classType c) := by
  refine ⟨fun merge => ?_, fun _ _ _ heq => nomatch heq⟩
  rw [← ClassType.classType_substitute]
  refine meets_type hP rfl ?_
  show P.Meets (if _ then _ else Pure.pure ()) _
  have hpair : pairArguments P.hierarchy c (c.substitute σ) = some (c, c.substitute σ) := by
    have hview : P.hierarchy.view? c (c.substitute σ).head = some c := P.hierarchy.view?_self c
    rw [pairArguments_of_isSubtype (by simp [Hierarchy.isSubtype, ClassType.substitute]), viewedAs,
      hview]
    rfl
  have htypes : c.types.length = (c.substitute σ).types.length := (List.length_map _).symm
  have harguments : P.Meets (stepArguments (register n) id c (c.substitute σ) target merge)
      ((c.muls.zip (c.substitute σ).muls).flatMap (fun _ => [])
        ++ (c.types.zip (c.substitute σ).types).flatMap fun q => q.1.reached) := by
    refine .arguments hpair (fun q hq => hP.mul ?_) fun q hq => ?_
    · exact List.Subset.trans (TypeExpr.parameters_multiplicity (List.of_mem_zip hq).1) hps
    · obtain ⟨t, u⟩ := q
      obtain rfl := eq_of_mem_zip_map hq
      exact (ih t (List.of_mem_zip hq).1).argument merge
  rw [flatMap_const_nil, List.nil_append, flatMap_zip_fst _ htypes] at harguments
  have hextremum : isExtremum (.classType (c.substitute σ)) = isExtremum (.classType c) := rfl
  rw [TypeExpr.reached, hextremum]
  rcases isExtremum (.classType c) with _ | _
  · exact harguments
  · exact .pure

theorem unfolds_relation {r : Relation TypeExpr} (hr : r.canConcat r)
    (ih : ∀ c ∈ r.columns, P.Unfolds id target σ n c.type) :
    P.Unfolds id target σ (n + 1) (.relation r) := by
  refine ⟨fun merge => ?_, fun _ _ _ heq => nomatch heq⟩
  have hcolumns : P.Meets
      (stepConcrete (register n) id (.relation r) (.relation (r.substitute σ)) target merge)
      (((r.substitute σ).align r).flatMap fun q => q.2.type.reached) := by
    refine .relation fun q hq => ?_
    rw [Relation.type_of_mem_align hr hq]
    exact (ih _ (mem_align hq).1).1 merge
  have hreached : ((r.substitute σ).align r).flatMap (fun q => q.2.type.reached)
      = (TypeExpr.relation r).reached := by
    rw [TypeExpr.reached, ← map_snd_align fun c => Relation.has_substitute, List.flatMap_map]
  rw [TypeExpr.substitute, ← hreached]
  exact meets_type hP rfl hcolumns

/-- Matching the positions directly takes one level less. -/
theorem unfolds_function {f : Arrow TypeExpr} (hps : (TypeExpr.function f).parameters ⊆ ps)
    (hdirect : P.Unfolds id target σ n (.function f))
    (ih : ∀ p ∈ f.params ++ [f.result], P.Unfolds id target σ n p.type) :
    P.Unfolds id target σ (n + 1) (.function f) := by
  constructor
  · intro merge
    rw [TypeExpr.substitute_function]
    exact meets_type hP rfl (hdirect.2 false f _ rfl (TypeExpr.substitute_function σ f))
  · intro merge f' g heq hg
    obtain rfl := TypeExpr.function.inj heq
    rw [TypeExpr.substitute_function] at hg
    obtain rfl := TypeExpr.function.inj hg
    have hlength : f.params.length = (f.substitute σ).params.length := (List.length_map _).symm
    have hpositions : (f.params ++ [f.result]).length
        = ((f.params ++ [f.result]).map (·.substitute σ)).length := (List.length_map _).symm
    have hstep : P.Meets (stepFunction (register n) id f (f.substitute σ) target merge)
        ((f.params.zip (f.substitute σ).params ++ [(f.result, (f.substitute σ).result)]).flatMap
          fun q => q.1.type.reached) := by
      refine .function hlength fun q hq => ?_
      rw [zip_positions hlength, Arrow.positions_substitute] at hq
      obtain ⟨p, u⟩ := q
      obtain rfl := eq_of_mem_zip_map hq
      have hp := (List.of_mem_zip hq).1
      have hmul := List.Subset.trans (TypeExpr.parameters_position hp).2 hps
      rw [← List.append_nil p.type.reached]
      exact ((ih p hp).1 merge).bind (hP.mul hmul)
    rw [zip_positions hlength, Arrow.positions_substitute,
      flatMap_zip_fst (fun p => p.type.reached) hpositions, ← TypeExpr.reached_function] at hstep
    exact hstep

theorem Instantiates.unfolds : ∀ (n : Nat) {t : TypeExpr}, t.Consistent → t.parameters ⊆ ps →
    σ.Closes t → P.Unfolds id target σ n t := by
  intro n
  induction n with
  | zero => exact fun _ _ _ => unfolds_zero hP _
  | succ n ih =>
    intro t ht hps hσ
    cases ht with
    | param p => exact unfolds_param hP hσ (hps (by simp [TypeExpr.parameters]))
    | classType hargs =>
      exact unfolds_classType hP hps fun t ht => ih (hargs t ht)
        (List.Subset.trans (TypeExpr.parameters_argument ht) hps) (hσ.argument ht)
    | @function f hpositions =>
      refine unfolds_function hP hps (ih (.function hpositions) hps hσ) fun p hp => ?_
      have hsub := (TypeExpr.parameters_position hp).1
      exact ih (hpositions p hp) (List.Subset.trans hsub hps) (hσ.part hsub)
    | relation hr hcolumns =>
      refine unfolds_relation hP hr fun c hc => ?_
      have hsub := TypeExpr.parameters_column hc
      exact ih (hcolumns c hc) (List.Subset.trans hsub hps) (hσ.part hsub)

end Progress

end

/-- Matching the type with itself teaches nothing, since the columns of one name have one type, or
since what generalizations say is about parameters of their own. -/
def TypeExpr.Inert (h : Hierarchy) (t : TypeExpr) : Prop :=
  t.Coherent ∨ h.Regular ∧ t.Settled h

theorem still_instantiates (b : Arena) (id target : ContextId) (σ : Substitution) :
    (still b False).Instantiates id target σ [] where
  unsure _ hsure := hsure
  parameter hp := absurd hp List.not_mem_nil
  mul hm := ground_mul (List.subset_nil.1 hm) _ False.elim

theorem inert_meets {b : Arena} {t : TypeExpr} (ht : t.Inert b.hierarchy) (n : Nat)
    (id target : ContextId) (merge : Bool) :
    (still b False).Meets (register n (.type id t (some t) target merge)) [] := by
  rcases ht with ht | ⟨hreg, ht⟩
  · have hnone := ht.parameters
    have hcloses : (Substitution.ofLists [] []).Closes t :=
      ⟨fun _ hp => by simp [hnone] at hp, fun _ => rfl⟩
    have hunfolds := ((still_instantiates b id target _).unfolds n ht.consistent
      (List.subset_nil.2 hnone) hcloses).1 merge
    have hreached : t.reached = [] := List.subset_nil.1 (hnone ▸ t.reached_subset)
    rwa [t.substitute_of_parameters hnone, hreached] at hunfolds
  · exact (ground_meets hreg False n).1 id target merge t t ht ht False.elim

end ScopedInference
