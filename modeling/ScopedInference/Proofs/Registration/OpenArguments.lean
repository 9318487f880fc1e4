import ScopedInference.Proofs.Registration.Frame
import ScopedInference.Proofs.Registration.Unfolding
import ScopedInference.Workload

/-!
# Facts about open arguments

A parameter is bound to a class type that another context owns, and an instance of that type is
registered for it. Which of the type's own parameters does the owner learn, and does the instance
take the type's place? Both are decided before anything is passed on, so what is left is to follow
what the owner is told: each fact goes through an argument and its instance, and the owner meets one
parameter after the other with the value that the instance has for it. `Told` has the table after
each, from which `register_instance` reads off the answers.

So the owner learns less than one may expect. An open argument gives rise to a fact, but one that is
merely not closed does not: below two lists, an element type stays open
(`register_instance_nestedLists`). Classes of functions tell everything
(`register_instance_overLists`).
-/

namespace ScopedInference

open Registration

/-! ### A context that is told -/

section

variable {a b : Arena} {id target : ContextId} {c : Context} {name : String}

variable {σ : Substitution} {seen : List Parameter} {v : TypeExpr}

/-- The visible types are as in the first arena but in one context, which has met the parameters of
a list with the values that the substitution has for them. -/
def Arena.Told (a : Arena) (id target : ContextId) (σ : Substitution) (seen : List Parameter)
    (b : Arena) : Prop :=
  ∀ here name, b.binding? here name = if here = id ∧ .type name ∈ seen
    then .ok ((σ.types name).map fun v => .bound (v.met (seen.count (.type name))) target)
    else (a.binding? here name : Except InferError (Option (Binding TypeExpr)))

theorem Arena.Told.settled (hb : a.Told id target σ seen b) (hc : b.context id = .ok c)
    (hv : σ.types name = some v) {d : Decision TypeExpr}
    (hd : d.known target (c.current.binding? name)
      = some (.bound (v.met (seen.count (.type name) + 1)) target)) :
    a.Told id target σ (seen ++ [.type name]) (settled b id target c name d) := by
  intro here other
  by_cases heq : here = id ∧ other = name
  · obtain ⟨rfl, rfl⟩ := heq
    rw [settled_eq hc, Arena.binding?_insert, if_pos rfl, if_pos ⟨rfl, by simp⟩, hv,
      Option.map_some, List.count_append, List.count_singleton_self, ← hd]
    exact congrArg Except.ok (binding?_of_settled _)
  · have hname : here = id → other ≠ name := fun hhere hname => heq ⟨hhere, hname⟩
    rw [binding?_settled_of_ne hc hname, hb here other]
    by_cases hhere : here = id
    · have hcount : (seen ++ [Parameter.type name]).count (.type other)
          = seen.count (.type other) := by
        simp [Ne.symm (hname hhere)]
      simp [hhere, hname hhere, hcount]
    · rw [if_neg fun h => hhere h.1, if_neg fun h => hhere h.1]

/-- A context that meets a value for the first time takes it, and passes nothing on; again, the
value meets itself. -/
theorem Arena.Told.decision (hb : a.Told id target σ seen b) (hc : b.context id = .ok c)
    {p : TypeParam} (hfree : a.binding? id p.name = .ok (none : Option (Binding TypeExpr)))
    (hv : σ.types p.name = some v) (hclosed : v.isFullyConcrete) (h : Hierarchy)
    (onTrial merge : Bool) :
    ∃ d, typeDecision h id target p onTrial merge (c.current.binding? p.name) v = .ok d
      ∧ d.known target (c.current.binding? p.name)
        = some (.bound (v.met (seen.count (.type p.name) + 1)) target)
      ∧ ∀ f ∈ d.forwards, .type p.name ∈ seen ∧ f.context = target ∧ f.template = f.value
        ∧ f.value ∈ h.passedOn v := by
  have hbinding := hb id p.name
  rw [Arena.binding?_eq_ok.2 ⟨c, hc, rfl⟩] at hbinding
  by_cases hmem : .type p.name ∈ seen
  · rw [if_pos ⟨rfl, hmem⟩, hv, Option.map_some, Except.ok.injEq] at hbinding
    obtain ⟨d, hd, hvalue, hforwards⟩ := typeDecision_again h (v.parameters_of_isFullyConcrete
      hclosed) id target p onTrial merge (List.count_pos_iff.2 hmem)
    refine ⟨d, by rw [hbinding, hd], ?_, fun f hf => ?_⟩
    · rw [hbinding, ← hvalue]
      unfold Decision.known
      rcases d.value? with _ | w <;> rfl
    · obtain ⟨hcontext, hsame, hpart⟩ := hforwards f hf
      refine ⟨hmem, hcontext, hsame, hpart.resolve_left ?_⟩
      rintro ⟨-, hopen⟩
      rw [TypeExpr.isConcrete_of_isFullyConcrete hclosed] at hopen
      cases hopen
  · rw [if_neg (fun h => hmem h.2), hfree, Except.ok.injEq] at hbinding
    refine ⟨{ value? := some v }, by rw [hbinding]; rfl, ?_, by simp⟩
    rw [List.count_eq_zero.2 hmem, TypeExpr.met_one]
    rfl

/-- Multiplicities are in a table of their own. -/
theorem Arena.Told.settled_mul (hb : a.Told id target σ seen b) {i t : ContextId}
    (hc : b.context i = .ok c) (d : Decision Multiplicity) :
    a.Told id target σ seen (Registration.settled b i t c name d) := by
  intro here other
  rw [binding?_settled_of_bind hc (fun _ _ => rfl), hb here other]

/-- What a value of a repeated parameter passes on where it meets itself teaches nothing. -/
def Substitution.Quiet (σ : Substitution) (h : Hierarchy) (seen : List Parameter) : Prop :=
  ∀ name v, 2 ≤ seen.count (.type name) → σ.types name = some v →
    ∀ t ∈ h.passedOn v, t.Inert h

theorem Substitution.Quiet.left {h : Hierarchy} {l l' : List Parameter}
    (hq : σ.Quiet h (l ++ l')) : σ.Quiet h l := by
  intro name v hcount
  refine hq name v ?_
  rw [List.count_append]
  omega

theorem Substitution.Quiet.of_nodup {h : Hierarchy} (hseen : seen.Nodup) : σ.Quiet h seen := by
  intro name v hcount
  have := List.nodup_iff_count_le_one.1 hseen (.type name)
  omega

/-- Where generalizations only mention parameters of their own, any values will do. -/
theorem Substitution.Quiet.of_regular {h : Hierarchy} (hreg : h.Regular)
    (hσ : ∀ name v, σ.types name = some v → v.Settled h) : σ.Quiet h seen := by
  intro name v _ hv t ht
  obtain ⟨c, rfl, harg⟩ := Hierarchy.mem_passedOn ht
  exact .inr ⟨hreg, (hσ name _ hv).of_classType.2.2 t harg⟩

/-- Nothing is said of failures, nor of multiplicities. -/
def telling (a : Arena) (id target : ContextId) (σ : Substitution) : Progress where
  hierarchy := a.hierarchy
  holds seen b := b.hierarchy = a.hierarchy
    ∧ (σ.Quiet a.hierarchy seen → a.Told id target σ seen b)
  sure _ := False
  hierarchy_eq h := h.1
  sure_left h := h

theorem telling_has (i : ContextId) : (telling a id target σ).Has i :=
  fun _ _ hsure => hsure.elim

theorem telling_mul (n : Nat) : ∀ {i t : ContextId} {m w : Multiplicity},
    (telling a id target σ).Meets (register n (.mul i m w t)) [] := by
  induction n with
  | zero => exact .register_zero fun _ h => h
  | succ n ih =>
    intro i t m w
    cases m with
    | range _ _ => exact .register_mul_range (telling_has i) (telling_has t)
    | param name =>
      intro seen r hr
      refine ⟨fun s hs => ?_, False.elim⟩
      obtain ⟨c, d, r', hc, -, hr', hforwards⟩ := register_mul_ok hs
      have hmeets : (telling a id target σ).Meets (forwardAll (register n)
          (d.forwards.map fun f => .mul f.context f.template f.value t)) [] := by
        rw [← flatMap_const_nil
          (d.forwards.map fun f => Request.mul f.context f.template f.value t)]
        refine .forwardAll fun q hq => ?_
        obtain ⟨f, -, rfl⟩ := List.mem_map.1 hq
        exact ih
      refine (hmeets seen r' ⟨?_, fun hq => ?_⟩).1 s hforwards
      · rw [hr', settled_eq hc]
        exact hr.1
      · rw [hr']
        exact (hr.2 hq).settled_mul hc d

theorem hierarchy_stepParameter {n : Nat} {p : TypeParam} {merge : Bool} {r s : Run}
    (hok : stepParameter (register n) id p v target merge r = .ok () s) :
    s.arena.hierarchy = r.arena.hierarchy := by
  have hforwards : ForwardsRelated merge
      (fun act _ => ∀ r : Run, r.arena.Framed (act.final r).arena) (register n) (register n) :=
    (framed_passage merge).congruence.forwards fun q _ => register_passage framed_passage n q
  have hframed := (framed_passage merge).parameter hforwards id p v target r
  rw [RunM.final_of_eq_ok hok] at hframed
  exact hframed.hierarchy

theorem telling_parameter {n : Nat} {p : TypeParam} {merge : Bool}
    (hfree : a.binding? id p.name = .ok (none : Option (Binding TypeExpr)))
    (hv : σ.types p.name = some v) (hclosed : v.isFullyConcrete) :
    (telling a id target σ).Meets (stepParameter (register n) id p v target merge)
      [.type p.name] := by
  intro seen r hr
  refine ⟨fun s hs => ⟨(hierarchy_stepParameter hs).trans hr.1, fun hquiet => ?_⟩, False.elim⟩
  have htold := hr.2 hquiet.left
  obtain ⟨t, ht⟩ : ∃ t, r.arena.binding? id p.name = .ok (t : Option (Binding TypeExpr)) := by
    rw [htold]
    split
    · exact ⟨_, rfl⟩
    · exact ⟨none, hfree⟩
  obtain ⟨c, hc, -⟩ := Arena.binding?_eq_ok.1 ht
  obtain ⟨d, hd, hknown, hforwards⟩ :=
    htold.decision hc hfree hv hclosed r.arena.hierarchy c.onTrial merge
  have hhierarchy : (settled r.arena id target c p.name d).hierarchy = a.hierarchy := by
    rw [settled_eq hc]
    exact hr.1
  rw [stepParameter_apply hc hd] at hs
  have hend : (telling a id target σ).holds (seen ++ [.type p.name]) s.arena := by
    refine (settle_forwardAll (P := telling a id target σ) _ hc
      ⟨hhierarchy, fun _ => htold.settled hc hv hknown⟩ fun q hq => ?_).1 s hs
    obtain ⟨f, hf, rfl⟩ := List.mem_map.1 hq
    obtain ⟨hmem, hcontext, hsame, hpart⟩ := hforwards f hf
    -- The parameter is met again, so what its value passes on is inert
    have hcount : 2 ≤ (seen ++ [Parameter.type p.name]).count (.type p.name) := by
      have := List.count_pos_iff.2 hmem
      rw [List.count_append, List.count_singleton_self]
      omega
    rw [hr.1] at hpart
    have hinert := hquiet p.name v hcount hv f.value hpart
    rw [← hhierarchy] at hinert
    rw [hcontext, hsame]
    exact inert_meets hinert n target target merge
  exact hend.2 hquiet

end

/-! ### A value meets its instance -/

/-- The parameters that the owner of a class type meets where an instance meets it. -/
def Hierarchy.taught (h : Hierarchy) (variance : Variance) (c : ClassType) : List Parameter :=
  (h.told variance c).flatMap (·.reached)

/-- The parameters that a request about a type and its instance meets. -/
def Request.reached : Request → List Parameter
  | .type _ t _ _ _ => t.reached
  | .function _ _ _ _ _ | .mul _ _ _ _ => []

section

variable {a : Arena} {here owner target : ContextId} {p : TypeParam} {c : ClassType}
  {σ : Substitution}

theorem Hierarchy.told_subset (h : Hierarchy) (variance : Variance) (c : ClassType) :
    h.told variance c ⊆ c.types := by
  unfold Hierarchy.told
  refine List.append_subset.2 ⟨?_, ?_⟩
  · split
    · exact List.Subset.refl _
    · exact List.nil_subset _
  · split
    · exact List.filter_subset_self _
    · exact List.nil_subset _

variable (hc : (TypeExpr.classType c).Consistent) (hσ : σ.Closes (.classType c))

include hc hσ

/-- What the owner is told. -/
theorem telling_forwards {l : List TypeExpr} (hl : l ⊆ c.types)
    (hfree : ∀ name, .type name ∈ (TypeExpr.classType c).parameters →
      a.binding? owner name = .ok (none : Option (Binding TypeExpr))) (target : ContextId) (n : Nat)
    (merge : Bool) : (telling a owner target σ).Meets (forwardAll (register n)
        (l.map fun t => .type owner t (some (t.substitute σ)) target merge))
      (l.flatMap (·.reached)) := by
  have hP : (telling a owner target σ).Instantiates owner target σ
      (TypeExpr.classType c).parameters := by
    refine ⟨fun _ hsure => hsure, fun {n merge q v} hq hv => ?_, fun _ => telling_mul _⟩
    obtain ⟨w, hw, hclosed⟩ := hσ.types q.name hq
    rw [hv] at hw
    obtain rfl := Option.some.inj hw
    exact telling_parameter (hfree q.name hq) hv hclosed
  have hreached : l.flatMap (·.reached) = (l.map fun t => Request.type owner t
      (some (t.substitute σ)) target merge).flatMap Request.reached := by
    rw [List.flatMap_map]
    rfl
  rw [hreached]
  refine .forwardAll fun q hq => ?_
  obtain ⟨t, ht, rfl⟩ := List.mem_map.1 hq
  have hargument := hl ht
  rcases hc with _ | hargs
  exact (hP.unfolds n (hargs t hargument) (TypeExpr.parameters_argument hargument)
    (hσ.argument hargument)).1 merge

/-- First the parameter takes on what the value and its instance merge to; from there, the owner is
told. -/
theorem exists_told (hne : owner ≠ here)
    (hbound : a.binding? here p.name = .ok (some (.bound (TypeExpr.classType c) owner)))
    (hfree : ∀ name, .type name ∈ (TypeExpr.classType c).parameters →
      a.binding? owner name = .ok (none : Option (Binding TypeExpr)))
    (hquiet : σ.Quiet a.hierarchy (a.hierarchy.taught p.variance c)) {merge : Bool} {s : Run}
    (hok : a.register (.type here (.param p) (some ((TypeExpr.classType c).substitute σ)) target
      merge) = .ok () s) :
    ∃ (b : Arena) (m : TypeExpr), b.binding? here p.name = .ok (some (.bound m target))
      ∧ (m = (TypeExpr.classType c).substitute σ
        ↔ a.hierarchy.Absorbs σ Hierarchy.maxMergeDepth p.variance (.classType c))
      ∧ (∀ id name, (id = here → name ≠ p.name) →
        b.binding? id name = (a.binding? id name : Except _ (Option (Binding TypeExpr))))
      ∧ b.Told owner target σ (a.hierarchy.taught p.variance c) s.arena := by
  have hconcrete : ((TypeExpr.classType c).substitute σ).isConcrete :=
    TypeExpr.isConcrete_substitute rfl
  obtain ⟨x, d, r, hx, hd, hr, hforwards⟩ := register_param_ok (TypeExpr.ne_equality hconcrete) hok
  obtain ⟨y, hy, hknown⟩ := Arena.binding?_eq_ok.1 hbound
  obtain rfl := Except.ok.inj (hx.symm.trans hy)
  obtain ⟨d', m, hd', hvalue, hm, htold⟩ :=
    @mergeDecision_instance a.hierarchy σ owner c hσ hc.isSome_of_open p
  rw [hknown, typeDecision_concrete rfl hconcrete, hd'] at hd
  obtain rfl := Except.ok.inj hd
  have hothers : ∀ id name, (id = here → name ≠ p.name) → r.arena.binding? id name
      = (a.binding? id name : Except _ (Option (Binding TypeExpr))) := by
    intro id name hne'
    rw [hr, binding?_settled_of_ne hx hne']
  have hhierarchy : r.arena.hierarchy = a.hierarchy := by
    rw [hr, settled_eq hx]
    rfl
  refine ⟨r.arena, m, by rw [hr, binding?_settled hvalue], hm, hothers, ?_⟩
  rw [htold, List.map_map] at hforwards
  have hfree' : ∀ name, .type name ∈ (TypeExpr.classType c).parameters →
      r.arena.binding? owner name = .ok (none : Option (Binding TypeExpr)) := by
    intro name hname
    rw [hothers owner name fun h => absurd h hne, hfree name hname]
  have hstart : (telling r.arena owner target σ).holds [] r.arena :=
    ⟨rfl, fun _ id name => by simp⟩
  have hmeets := telling_forwards hc hσ (a.hierarchy.told_subset p.variance c) hfree' target
    a.maxDepth merge
  refine ((hmeets [] r hstart).1 s hforwards).2 ?_
  rw [hhierarchy]
  exact hquiet

/-- The instance takes the place of the value exactly if it is absorbed. The owner learns the
parameters that it is taught, and no other type. -/
theorem register_instance (hne : owner ≠ here)
    (hbound : a.binding? here p.name = .ok (some (.bound (TypeExpr.classType c) owner)))
    (hfree : ∀ name, .type name ∈ (TypeExpr.classType c).parameters →
      a.binding? owner name = .ok (none : Option (Binding TypeExpr)))
    (hquiet : σ.Quiet a.hierarchy (a.hierarchy.taught p.variance c)) {merge : Bool} {s : Run}
    (hok : a.register (.type here (.param p) (some ((TypeExpr.classType c).substitute σ)) target
      merge) = .ok () s) :
    (s.arena.binding? here p.name
        = .ok (some (.bound ((TypeExpr.classType c).substitute σ) target))
      ↔ a.hierarchy.Absorbs σ Hierarchy.maxMergeDepth p.variance (.classType c))
    ∧ (∀ name, .type name ∈ (TypeExpr.classType c).parameters →
      s.arena.binding? owner name
        = .ok (if .type name ∈ a.hierarchy.taught p.variance c
          then (σ.types name).map fun v =>
            .bound (v.met ((a.hierarchy.taught p.variance c).count (.type name))) target
          else none))
    ∧ ∀ id name, (id = here → name ≠ p.name) →
      (id = owner → .type name ∉ a.hierarchy.taught p.variance c) →
      s.arena.binding? id name = (a.binding? id name : Except _ (Option (Binding TypeExpr))) := by
  obtain ⟨b, m, hvalue, hm, hothers, htold⟩ := exists_told hc hσ hne hbound hfree hquiet hok
  refine ⟨?_, fun name hname => ?_, fun id name hparam hfact => ?_⟩
  · rw [htold here p.name, if_neg fun h => hne h.1.symm, hvalue, ← hm, Except.ok.injEq,
      Option.some.injEq, Binding.bound.injEq, and_iff_left rfl]
  · rw [htold owner name]
    split
    · rename_i htaught
      rw [if_pos htaught.2]
    · rename_i htaught
      rw [if_neg fun h => htaught ⟨rfl, h⟩, hothers owner name fun h => absurd h hne,
        hfree name hname]
  · rw [htold id name, if_neg fun h => hfact h.1 h.2, hothers id name hparam]

end

/-! ### Lists in functions and lists in lists -/

/-- Unless it is of functions, a class type tells nothing about arguments that are concrete. -/
theorem Hierarchy.taught_of_concrete {h : Hierarchy} {c : ClassType}
    (hclass : h.isFunctionClass c.head = false) (hargs : ∀ t ∈ c.types, t.isConcrete)
    (variance : Variance) : h.taught variance c = [] := by
  have hparams : c.types.filter (·.parameterName?.isSome) = [] := by
    refine List.filter_eq_nil_iff.2 fun t ht => ?_
    have hconcrete := hargs t ht
    cases t with
    | param _ => cases hconcrete
    | _ => exact Bool.false_ne_true
  simp [taught, told, hclass, hparams]

/-- An element type that is open. -/
def TypeExpr.element : TypeExpr := .param ⟨"q", .covariant⟩

/-- Strings as elements. -/
def Substitution.string : Substitution := .ofLists [("q", .atom "String")] []

/-- Functions over lists. -/
def overLists (t : TypeExpr) : ClassType :=
  ⟨"LambdaFunction", [Workload.nestedList 1 t], []⟩

/-- Below a context that knows nothing, one that has the value of a parameter from it. -/
def Arena.reading (t : TypeExpr) : Arena :=
  ({ hierarchy := .preloaded } : Arena)
    |>.insert 1 (.fresh 1 none none)
    |>.insert 2
      { Context.fresh 2 (some 1) none with
        current := ({} : BindingState).bind "T" (.bound t 1) }

theorem keepsClass_functions : Hierarchy.preloaded.KeepsClass "LambdaFunction" :=
  .inr ⟨by decide, by with_unfolding_all rfl⟩

theorem keepsClass_lists : Hierarchy.preloaded.KeepsClass "List" :=
  .inr ⟨by decide, by with_unfolding_all rfl⟩

namespace Workload

variable (n : Nat) (t : TypeExpr)

theorem parameters_nestedList : (nestedList n t).parameters = t.parameters := by
  induction n with
  | zero => rfl
  | succ n ih => simp [nestedList_succ, TypeExpr.parameters, ih]

theorem substitute_nestedList (σ : Substitution) :
    (nestedList n t).substitute σ = nestedList n (t.substitute σ) := by
  induction n with
  | zero => rfl
  | succ n ih => simp [nestedList_succ, TypeExpr.substitute, ih]

theorem consistent_nestedList (ht : t.Consistent) : (nestedList n t).Consistent := by
  induction n with
  | zero => exact ht
  | succ n ih =>
    rw [nestedList_succ]
    exact .classType (List.forall_mem_singleton.2 ih)

theorem reached_nestedList : (nestedList n t).reached = t.reached := by
  induction n with
  | zero => rfl
  | succ n ih =>
    simp [nestedList_succ, TypeExpr.reached, isExtremum, TypeExpr.isTop, TypeExpr.isBottom,
      TypeExpr.head?, ClassName.any, ClassName.nil, ih]

/-- A level for each list. -/
theorem absorbs_nestedList {σ : Substitution} {m : Nat}
    (ht : Hierarchy.preloaded.Absorbs σ m .covariant t) :
    Hierarchy.preloaded.Absorbs σ (m + n) .covariant (nestedList n t) := by
  induction n with
  | zero => exact ht
  | succ n ih =>
    have hvariance : (Hierarchy.preloaded.variances "List").getD 0 .covariant = .covariant := by
      with_unfolding_all rfl
    rw [nestedList_succ]
    refine .classType keepsClass_lists fun i hi => ?_
    obtain rfl := Nat.lt_one_iff.1 hi
    exact hvariance ▸ ih

end Workload

theorem taught_overLists (t : TypeExpr) :
    Hierarchy.preloaded.taught .covariant (overLists t) = t.reached := by
  have hfunction : Hierarchy.preloaded.isFunctionClass "LambdaFunction" = true := by
    with_unfolding_all rfl
  have htold : Hierarchy.preloaded.told .covariant (overLists t) = [Workload.nestedList 1 t] := by
    rw [Hierarchy.told, overLists, if_pos hfunction, if_pos ⟨rfl, keepsClass_functions⟩]
    rfl
  rw [Hierarchy.taught, htold, List.flatMap_singleton, Workload.reached_nestedList]

/-- Of an element type, only a list of just that says anything. -/
theorem taught_nestedList (n : Nat) : Hierarchy.preloaded.taught .covariant
    ⟨"List", [Workload.nestedList n .element], []⟩ = if n = 0 then [.type "q"] else [] := by
  have hfunction : Hierarchy.preloaded.isFunctionClass "List" = false := by
    with_unfolding_all rfl
  rcases n with _ | n
  · rw [Hierarchy.taught, Hierarchy.told, if_neg (Bool.eq_false_iff.1 hfunction),
      if_pos ⟨rfl, keepsClass_lists⟩]
    simp [Workload.nestedList, TypeExpr.element, TypeExpr.parameterName?, TypeExpr.reached]
  · rw [if_neg n.succ_ne_zero]
    refine Hierarchy.taught_of_concrete hfunction (List.forall_mem_singleton.2 ?_) _
    rw [Workload.nestedList_succ]
    rfl

theorem TypeExpr.substitute_element : element.substitute .string = .atom "String" := by
  have hvalue : Substitution.string.types "q" = some (.atom "String") := rfl
  rw [element, substitute, hvalue]
  rfl

theorem TypeExpr.substitute_overLists :
    (classType (overLists .element)).substitute .string
      = .classType (overLists (.atom "String")) := by
  simp [overLists, substitute, Workload.substitute_nestedList, substitute_element]

/-- A class of functions tells about its whole signature, so the element type of a list in it is
learnt. -/
theorem register_instance_overLists : ∃ s,
    (Arena.reading (.classType (overLists .element))).register
        (.type 2 (.param ⟨"T", .covariant⟩) (some (.classType (overLists (.atom "String")))) 2
          false) = .ok () s
      ∧ s.arena.binding? 2 "T"
        = .ok (some (.bound (TypeExpr.classType (overLists (.atom "String"))) 2))
      ∧ s.arena.binding? 1 "q" = .ok (some (.bound (TypeExpr.atom "String") 2)) := by
  obtain ⟨s, hs⟩ : ∃ s, (Arena.reading (.classType (overLists .element))).register
      (.type 2 (.param ⟨"T", .covariant⟩) (some (.classType (overLists (.atom "String")))) 2
        false) = .ok () s := ⟨_, by with_unfolding_all rfl⟩
  have hparams : (TypeExpr.classType (overLists .element)).parameters = [.type "q"] := by
    simp [overLists, TypeExpr.parameters, Workload.parameters_nestedList, TypeExpr.element]
  have hstring : Substitution.string.types "q" = some (.atom "String") := rfl
  have htaught : (Arena.reading (.classType (overLists .element))).hierarchy.taught .covariant
      (overLists .element) = [.type "q"] := by
    rw [← show TypeExpr.element.reached = [.type "q"] by rw [TypeExpr.element, TypeExpr.reached]]
    exact taught_overLists .element
  have hσ : Substitution.string.Closes (.classType (overLists .element)) := by
    refine ⟨fun name hname => ?_, fun _ => rfl⟩
    rw [hparams, List.mem_singleton] at hname
    obtain rfl := Parameter.type.inj hname
    exact ⟨_, hstring, TypeExpr.isFullyConcrete_atom "String"⟩
  have hconsistent : (TypeExpr.classType (overLists .element)).Consistent :=
    .classType (List.forall_mem_singleton.2 (Workload.consistent_nestedList 1 _ (.param _)))
  have hfree : ∀ name, .type name ∈ (TypeExpr.classType (overLists .element)).parameters →
      (Arena.reading (.classType (overLists .element))).binding? 1 name
        = .ok (none : Option (Binding TypeExpr)) := by
    intro name hname
    rw [hparams, List.mem_singleton] at hname
    obtain rfl := Parameter.type.inj hname
    with_unfolding_all rfl
  have habsorbs : Hierarchy.preloaded.Absorbs .string Hierarchy.maxMergeDepth .covariant
      (.classType (overLists .element)) := by
    refine .classType keepsClass_functions fun i hi => ?_
    obtain rfl := Nat.lt_one_iff.1 hi
    exact Workload.absorbs_nestedList 1 _ (.param _)
  rw [← TypeExpr.substitute_overLists] at hs ⊢
  obtain ⟨hvalue, hfacts, -⟩ := register_instance
    (a := Arena.reading (.classType (overLists .element))) hconsistent hσ (by decide) rfl hfree
    (.of_nodup (htaught ▸ List.nodup_singleton _)) hs
  refine ⟨s, hs, hvalue.2 habsorbs, ?_⟩
  rw [hfacts "q" (by simp [hparams]), htaught, if_pos List.mem_cons_self,
    List.count_singleton_self, hstring, Option.map_some, TypeExpr.met_one]

/-- In lists of lists the element type is too deep: the value is the instance, and the owner still
knows nothing. -/
theorem register_instance_nestedLists :
    (Arena.reading (Workload.nestedList 2 .element)).binding? 2 "T"
        = .ok (some (.bound (Workload.nestedList 2 .element) 1))
      ∧ (Arena.reading (Workload.nestedList 2 .element)).binding? 1 "q"
        = .ok (none : Option (Binding TypeExpr))
      ∧ (Workload.nestedList 2 .element).substitute .string
        = Workload.nestedList 2 (.atom "String")
      ∧ ∃ s, (Arena.reading (Workload.nestedList 2 .element)).register
          (.type 2 (.param ⟨"T", .covariant⟩) (some (Workload.nestedList 2 (.atom "String"))) 2
            false) = .ok () s
        ∧ s.arena.binding? 2 "T" = .ok (some (.bound (Workload.nestedList 2 (.atom "String")) 2))
        ∧ s.arena.binding? 1 "q" = .ok (none : Option (Binding TypeExpr)) := by
  refine ⟨by with_unfolding_all rfl, by with_unfolding_all rfl, ?_, _, by with_unfolding_all rfl,
    by with_unfolding_all rfl, by with_unfolding_all rfl⟩
  rw [Workload.substitute_nestedList, TypeExpr.substitute_element]

end ScopedInference
