import ScopedInference.Proofs.Hierarchy.Covers
import ScopedInference.Proofs.Registration.Trials

/-!
# What a registration touches

A fully concrete type is registered in an arena in which nothing learnt is open. Then nothing
changes but parameters of the template, in the context of the registration, and what they are bound
to belongs to its target (`register_touches`): parameters of class declarations are replaced
wherever class types are viewed, and facts that go elsewhere are about types without parameters.
A template without parameters changes nothing at all.

The new values have no parameters either. They are fully concrete unless an operation comes in from
a generalization, where it may stand without mentioning any parameter
(`register_touches_operation`).
-/

namespace ScopedInference

open Registration

/-! ### What becomes of fully concrete types -/

/-- Settled, and with operations only if generalizations have some. -/
structure TypeExpr.Derived (h : Hierarchy) (t : TypeExpr) : Prop where
  settled : t.Settled h
  operationFree : h.OperationFree → t.OperationFree

namespace TypeExpr.Derived

variable {h : Hierarchy}

theorem of_isFullyConcrete {t : TypeExpr} (ht : t.isFullyConcrete) (harity : t.AllClasses h.Arity) :
    t.Derived h :=
  ⟨settled_of_isFullyConcrete ht harity, fun _ => t.operationFree_of_isFullyConcrete ht⟩

theorem argument {c : ClassType} (hc : (classType c).Derived h) : ∀ t ∈ c.types, t.Derived h :=
  fun t ht => ⟨hc.settled.of_classType.2.2 t ht, fun h => (hc.operationFree h).of_classType t ht⟩

theorem position {f : Arrow TypeExpr} (hf : (function f).Derived h) :
    ∀ p ∈ f.params ++ [f.result], p.type.Derived h :=
  fun p hp => ⟨(hf.settled.of_function p hp).1, fun h => (hf.operationFree h).of_function p hp⟩

theorem column {r : Relation TypeExpr} (hr : (relation r).Derived h) :
    ∀ c ∈ r.columns, c.type.Derived h :=
  fun c hc => ⟨hr.settled.of_relation c hc, fun h => (hr.operationFree h).of_relation c hc⟩

theorem sides {kind : OperationKind} {left right : TypeExpr}
    (ht : (operation kind left right).Derived h) : left.Derived h ∧ right.Derived h := by
  obtain ⟨hleft, hright⟩ := ht.settled.of_operation
  exact ⟨⟨hleft, fun h => nomatch ht.operationFree h⟩,
    ⟨hright, fun h => nomatch ht.operationFree h⟩⟩

theorem view (hreg : h.Regular) {c v : ClassType} {ancestor : ClassName}
    (hc : (classType c).Derived h) (hany : c.head ≠ .any) (hv : h.view? c ancestor = some v) :
    (classType v).Derived h :=
  ⟨hreg.view_settled hv hc.settled hany, fun h => h.view hv (hc.operationFree h)⟩

end TypeExpr.Derived

theorem Hierarchy.Regular.keeps_derived {h : Hierarchy} (hreg : h.Regular) :
    h.Keeps (·.Derived h) where
  argument _ hc := hc.argument
  concat l r hl hr := by
    refine ⟨hreg.keeps_settled.concat l r hl.settled hr.settled,
      fun hfree => .relation fun c hc => ?_⟩
    rcases Relation.mem_concat.1 hc with hc | ⟨hc, -⟩
    · exact (hl.operationFree hfree).of_relation c hc
    · exact (hr.operationFree hfree).of_relation c hc
  merge hm hl hr := ⟨hreg.keeps_settled.merge hm hl.settled hr.settled, fun hfree =>
    hfree.mergeWithin _ hm (hl.operationFree hfree) (hr.operationFree hfree)⟩
  top := ⟨Hierarchy.settled_top, fun _ => Hierarchy.operationFree_top⟩

/-! ### What is asked -/

section

variable {h : Hierarchy} {id target : ContextId} {ps : List Parameter}

/-- Some parameters that are spoken of are among those of a list, and it is in one context and for
one target that they are; or there are none. -/
def SpeaksOf (id target : ContextId) (ps : List Parameter) (here there : ContextId)
    (qs : List Parameter) : Prop :=
  qs = [] ∨ here = id ∧ there = target ∧ qs ⊆ ps

theorem SpeaksOf.mono {here there : ContextId} {qs qs' : List Parameter}
    (hqs : SpeaksOf id target ps here there qs) (hsub : qs' ⊆ qs) :
    SpeaksOf id target ps here there qs' := by
  rcases hqs with rfl | ⟨hid, htarget, hqs⟩
  · exact .inl (List.subset_nil.1 hsub)
  · exact .inr ⟨hid, htarget, List.Subset.trans hsub hqs⟩

/-- What a value says about a template is about such parameters. -/
structure Teaches (h : Hierarchy) (id target : ContextId) (ps : List Parameter)
    (here there : ContextId) (t v : TypeExpr) : Prop where
  template : t.AllClasses h.Sized
  speaks : SpeaksOf id target ps here there t.parameters
  value : v.Derived h

namespace Teaches

variable {here there : ContextId} {t t' v v' : TypeExpr}

theorem part (hq : Teaches h id target ps here there t v) (ht : t'.AllClasses h.Sized)
    (hsub : t'.parameters ⊆ t.parameters) (hv : v'.Derived h) :
    Teaches h id target ps here there t' v' :=
  ⟨ht, hq.speaks.mono hsub, hv⟩

/-- Where the template comes from a value, there is nothing to learn. -/
theorem of_derived (ht : t.Derived h) (hv : v.Derived h) :
    Teaches h id target ps here there t v :=
  ⟨ht.settled.classes, .inl ht.settled.parameters, hv⟩

/-- Class types that are paired teach no more than before. -/
theorem pairArguments (hreg : h.Regular) {c d templates values : ClassType}
    (hq : Teaches h id target ps here there (.classType c) (.classType d))
    (hpair : pairArguments h c d = some (templates, values))
    (hany : c.head ≠ .any ∧ d.head ≠ .any) :
    Teaches h id target ps here there (.classType templates) (.classType values) := by
  have harity : h.Arity c := by
    rcases hq.template with _ | ⟨hc, -⟩
    exact hc hany.1
  rcases of_pairArguments hpair with ⟨rfl, rfl⟩ | ⟨rfl, rfl⟩
  · refine viewedAs_induct hq fun v hv =>
      hq.part ?_ (hreg.view_parameters_subset hv harity) hq.value
    exact Hierarchy.view_allClasses h.structural_sized
      (fun name d hd g hg => (hreg.arities name d hd g hg).mono fun _ hc _ => hc) hv hq.template
  · exact viewedAs_induct hq fun v hv =>
      hq.part hq.template (List.Subset.refl _) (hq.value.view hreg hany.2 hv)

theorem argument {c d : ClassType}
    (hq : Teaches h id target ps here there (.classType c) (.classType d)) (ht : t ∈ c.types)
    (hv : v ∈ d.types) : Teaches h id target ps here there t v := by
  refine hq.part ?_ (TypeExpr.parameters_argument ht) (hq.value.argument v hv)
  rcases hq.template with _ | ⟨-, htypes⟩
  exact htypes t ht

theorem position {f g : Arrow TypeExpr}
    (hq : Teaches h id target ps here there (.function f) (.function g)) {p p' : Position TypeExpr}
    (hp : p ∈ f.params ++ [f.result]) (hp' : p' ∈ g.params ++ [g.result]) :
    Teaches h id target ps here there p.type p'.type := by
  refine hq.part ?_ (TypeExpr.parameters_position hp).1 (hq.value.position p' hp')
  rcases hq.template with _ | _ | hpositions
  exact hpositions p hp

theorem column {r s : Relation TypeExpr}
    (hq : Teaches h id target ps here there (.relation r) (.relation s)) {c d : Column TypeExpr}
    (hc : c ∈ r.columns) (hd : d ∈ s.columns) :
    Teaches h id target ps here there c.type d.type := by
  refine hq.part ?_ (TypeExpr.parameters_column hc) (hq.value.column d hd)
  rcases hq.template with _ | _ | _ | hcolumns
  exact hcolumns c hc

theorem left {kind : OperationKind} {left right : TypeExpr}
    (hq : Teaches h id target ps here there (.operation kind left right) v) (hv : v'.Derived h) :
    Teaches h id target ps here there left v' := by
  rcases hq.template with _ | _ | _ | _ | ⟨hleft, -⟩
  refine hq.part hleft ?_ hv
  rw [TypeExpr.parameters]
  exact List.subset_append_left _ _

theorem right {kind : OperationKind} {left right : TypeExpr}
    (hq : Teaches h id target ps here there (.operation kind left right) v) (hv : v'.Derived h) :
    Teaches h id target ps here there right v' := by
  rcases hq.template with _ | _ | _ | _ | ⟨-, hright⟩
  refine hq.part hright ?_ hv
  rw [TypeExpr.parameters]
  exact List.subset_append_right _ _

/-- A parameter is one of the list, and asked about where it should be. -/
theorem of_param {p : TypeParam} (hq : Teaches h id target ps here there (.param p) v) :
    here = id ∧ there = target ∧ .type p.name ∈ ps := by
  rcases hq.speaks with hnil | ⟨hid, htarget, hsub⟩
  · simp [TypeExpr.parameters] at hnil
  · exact ⟨hid, htarget, hsub (by simp [TypeExpr.parameters])⟩

end Teaches

/-- The request can change such parameters only. -/
def Request.Touches (h : Hierarchy) (id target : ContextId) (ps : List Parameter) : Request → Prop
  | .type here t v? there _ => ∀ v, v? = some v → Teaches h id target ps here there t v
  | .function here f g there _ => Teaches h id target ps here there (.function f) (.function g)
  | .mul here m v there => SpeaksOf id target ps here there m.parameters ∧ v.parameters = []

theorem Request.Touches.of_type {here there : ContextId} {t v : TypeExpr} {merge : Bool}
    (hq : (Request.type here t (some v) there merge).Touches h id target ps) :
    Teaches h id target ps here there t v :=
  hq v rfl

theorem Teaches.touches {here there : ContextId} {t v : TypeExpr}
    (hq : Teaches h id target ps here there t v) (merge : Bool) :
    (Request.type here t (some v) there merge).Touches h id target ps :=
  fun _ heq => Option.some.inj heq ▸ hq

end

/-! ### What changes -/

/-- Closed multiplicities join to a closed one. -/
theorem mulDecision_parameters {id target : ContextId} {onTrial : Bool}
    {known : Option (Binding Multiplicity)} {v m : Multiplicity} (hv : v.parameters = [])
    (hknown : ∀ e owner, known = some (.bound e owner) → e.parameters = [])
    (hm : (mulDecision id target onTrial known v).value? = some m) : m.parameters = [] := by
  rcases known with _ | ⟨e, owner⟩ | ⟨e, owner⟩
  · cases hm
    exact hv
  · have he := hknown e owner rfl
    simp only [mulDecision, Multiplicity.isConcrete_iff.2 he, Multiplicity.isConcrete_iff.2 hv,
      Bool.and_self, if_true, Option.some.injEq, Multiplicity.leastSubsuming_pair] at hm
    exact hm ▸ Multiplicity.parameters_join he hv
  · cases hm

/-- What is learnt in the second arena has a property, and what is another binding than in the first
one has one of some names, is in one context and belongs to one target. -/
structure Touched (α : Type) [Bindable α] (V : α → Prop) (names : String → Prop)
    (id target : ContextId) (a b : Arena) : Prop where
  values : ∀ other name (v : α) owner, b.binding? other name = .ok (some (.bound v owner)) → V v
  changed : ∀ other name, b.binding? other name
      ≠ (a.binding? other name : Except InferError (Option (Binding α))) →
    other = id ∧ names name ∧ ∃ v : α, b.binding? other name = .ok (some (.bound v target))

namespace Touched

variable {α β : Type} [Bindable α] [Bindable β] {V : α → Prop} {names : String → Prop}
  {id target : ContextId} {a b : Arena}

theorem refl (ha : ∀ other name (v : α) owner,
    a.binding? other name = .ok (some (.bound v owner)) → V v) :
    Touched α V names id target a a :=
  ⟨ha, fun _ _ h => absurd rfl h⟩

theorem current (h : Touched α V names id target a b) {other : ContextId} {c : Context}
    (hc : b.context other = .ok c) {name : String} (v : α) (owner : ContextId)
    (hv : c.current.binding? name = some (.bound v owner)) : V v :=
  h.values other name v owner (Arena.binding?_eq_ok.2 ⟨c, hc, hv⟩)

theorem settled (h : Touched α V names id target a b) {c : Context} {name : String}
    (hc : b.context id = .ok c) (hname : names name) {d : Decision α}
    (hd : ∀ v, d.value? = some v → V v) :
    Touched α V names id target a (settled b id target c name d) := by
  constructor
  · intro other name' w owner hw
    rcases binding?_settled_cases hc target name d other name' with ⟨-, -, v, hdv, hv⟩ | hkept
    · cases hv.symm.trans hw
      exact hd _ hdv
    · exact h.values other name' w owner (hkept.symm.trans hw)
  · intro other name' hne
    rcases binding?_settled_cases hc target name d other name' with ⟨rfl, rfl, v, -, hv⟩ | hkept
    · exact ⟨rfl, hname, v, hv⟩
    · rw [hkept] at hne ⊢
      exact h.changed other name' hne

/-- A binding of the other kind changes nothing. -/
theorem settled_other (h : Touched α V names id target a b) {here there : ContextId} {c : Context}
    {name : String} (hc : b.context here = .ok c)
    (hbind : ∀ other (t : Binding β), (c.current.bind name t).binding? other
      = (c.current.binding? other : Option (Binding α))) (d : Decision β) :
    Touched α V names id target a (Registration.settled b here there c name d) := by
  have hsame : ∀ other name', (Registration.settled b here there c name d).binding? other name'
      = (b.binding? other name' : Except InferError (Option (Binding α))) := fun other name' =>
    binding?_settled_of_bind hc (fun _ => hbind name') there d
  refine ⟨fun other name' v owner hv => h.values other name' v owner ?_, fun other name' hne => ?_⟩
  · rwa [hsame] at hv
  · rw [hsame] at hne ⊢
    exact h.changed other name' hne

end Touched

/-- Such parameters are all that has changed since the first arena. -/
structure TouchesOnly (a : Arena) (id target : ContextId) (ps : List Parameter) (r : Run) :
    Prop where
  hierarchy : r.arena.hierarchy = a.hierarchy
  types : Touched TypeExpr (·.Derived a.hierarchy) (.type · ∈ ps) id target a r.arena
  muls : Touched Multiplicity (·.parameters = []) (.mul · ∈ ps) id target a r.arena

namespace TouchesOnly

variable {a : Arena} {id target : ContextId} {ps : List Parameter} {r : Run}

/-- What follows from a request is about such parameters again. Facts that are passed on are about
values, and values have no parameters. -/
theorem leads (hreg : a.hierarchy.Regular) (hr : TouchesOnly a id target ps r) {q q' : Request}
    (hq : q.Touches a.hierarchy id target ps) (hleads : r.arena.Leads q q') :
    q'.Touches a.hierarchy id target ps := by
  cases hleads with
  | equality =>
    obtain ⟨hleft, hright⟩ := hq.of_type.value.sides
    exact (Teaches.of_derived hleft hright).touches _
  | equated => exact (hq.of_type.left hq.of_type.value).touches _
  | left => exact (hq.of_type.left hq.of_type.value.sides.1).touches _
  | right => exact (hq.of_type.right hq.of_type.value.sides.2).touches _
  | column hmem =>
    obtain ⟨ht, hv⟩ := mem_align hmem
    exact (hq.of_type.column ht (Relation.mem_of_column? hv)).touches _
  | function => exact hq.of_type
  | mulArgument hpair hmem hany =>
    have hq := hq.of_type.pairArguments hreg (hr.hierarchy ▸ hpair) hany
    obtain ⟨hm, hv⟩ := List.of_mem_zip hmem
    exact ⟨hq.speaks.mono (TypeExpr.parameters_multiplicity hm),
      hq.value.settled.of_classType.2.1 _ hv⟩
  | argument hpair hmem hany =>
    have hq := hq.of_type.pairArguments hreg (hr.hierarchy ▸ hpair) hany
    obtain ⟨ht, hv⟩ := List.of_mem_zip hmem
    exact (hq.argument ht hv).touches _
  | functionArgument hpair hmem hany =>
    have hq := hq.of_type.pairArguments hreg (hr.hierarchy ▸ hpair) hany
    obtain ⟨ht, hv⟩ := List.of_mem_zip hmem
    exact hq.argument ht hv
  | position hmem =>
    obtain ⟨hp, hp'⟩ := of_mem_positions hmem
    exact (Teaches.position hq hp hp').touches _
  | positionMul hmem =>
    obtain ⟨hp, hp'⟩ := of_mem_positions hmem
    exact ⟨hq.speaks.mono (TypeExpr.parameters_position hp).2,
      (hq.value.settled.of_function _ hp').2⟩
  | fact hc hd hf =>
    rw [hr.hierarchy] at hd
    obtain ⟨ht, hv⟩ :=
      (hreg.keeps_derived.typeDecision hq.of_type.value (hr.types.current hc) hd).2 _ hf
    exact (Teaches.of_derived ht hv).touches _
  | mulFact hc hf =>
    obtain ⟨-, m, owner, hb, rfl | rfl⟩ := mulDecision_forward hf
    · exact ⟨.inl hq.2, hr.muls.current hc m owner hb⟩
    · exact ⟨.inl (hr.muls.current hc m owner hb), hq.2⟩

end TouchesOnly

theorem touches_invariant {a : Arena} (hreg : a.hierarchy.Regular) (id target : ContextId)
    (ps : List Parameter) : Invariant (TouchesOnly a id target ps)
      (Request.Touches a.hierarchy id target ps) (fun _ => True) where
  leads hr hq hleads := hr.leads hreg hq hleads
  record hr _ := ⟨hr.hierarchy, hr.types, hr.muls⟩
  type {r here c p v there merge d} hr hq hc hd := by
    obtain ⟨rfl, rfl, hp⟩ := hq.of_type.of_param
    rw [hr.hierarchy] at hd
    have hvalue :=
      (hreg.keeps_derived.typeDecision hq.of_type.value (hr.types.current hc) hd).1
    refine ⟨?_, hr.types.settled hc hp hvalue, hr.muls.settled_other hc (fun _ _ => rfl) d⟩
    exact (congrArg Arena.hierarchy (settled_eq hc ..)).trans hr.hierarchy
  mul {r here c name v there} hr hq hc := by
    obtain ⟨hspeaks, hv⟩ := hq
    obtain ⟨rfl, rfl, hname⟩ := hspeaks.resolve_left (by simp [Multiplicity.parameters])
    refine ⟨?_, hr.types.settled_other hc (fun _ _ => rfl) _,
      hr.muls.settled hc (hname (by simp [Multiplicity.parameters])) fun m hm => ?_⟩
    · exact (congrArg Arena.hierarchy (settled_eq hc ..)).trans hr.hierarchy
    · exact mulDecision_parameters hv (hr.muls.current hc) hm
  here _ _ := .inr trivial
  there _ _ := .inr trivial
  depth _ := trivial

/-- Visible types are terminal or fully concrete, with as many arguments as declared, and visible
multiplicities are concrete. -/
structure Arena.LearntClosed (a : Arena) : Prop where
  types : ∀ id name (b : Binding TypeExpr), a.binding? id name = .ok (some b) →
    b.isTerminal ∨ b.value.isFullyConcrete ∧ b.value.AllClasses a.hierarchy.Arity
  muls : ∀ id name (b : Binding Multiplicity), a.binding? id name = .ok (some b) →
    b.value.isConcrete

/-- Whatever comes of it, registering a fully concrete type changes only the template's own
parameters, in the context of the registration. They are bound to values without parameters, which
belong to the target, and are fully concrete if no generalization has an operation in it. A template
without parameters changes nothing at all. -/
theorem register_touches {a : Arena} (hreg : a.hierarchy.Regular) (ha : a.LearntClosed)
    (id target : ContextId) {t v : TypeExpr} (merge : Bool) (ht : t.AllClasses a.hierarchy.Arity)
    (hv : v.isFullyConcrete) (hvarity : v.AllClasses a.hierarchy.Arity) :
    let b := a.registered (.type id t (some v) target merge)
    (∀ other name, b.binding? other name
        ≠ (a.binding? other name : Except InferError (Option (Binding TypeExpr))) →
      other = id ∧ .type name ∈ t.parameters
        ∧ ∃ e : TypeExpr, b.binding? other name = .ok (some (.bound e target)) ∧ e.parameters = []
          ∧ (a.hierarchy.OperationFree → e.isFullyConcrete))
    ∧ (∀ other name, b.binding? other name
        ≠ (a.binding? other name : Except InferError (Option (Binding Multiplicity))) →
      other = id ∧ .mul name ∈ t.parameters
        ∧ ∃ m : Multiplicity, b.binding? other name = .ok (some (.bound m target)) ∧ m.isConcrete)
    ∧ (t.parameters = [] → b = a) := by
  intro b
  have hstart : TouchesOnly a id target t.parameters { arena := a } :=
    ⟨rfl, .refl fun other name e owner he =>
        have ⟨hconcrete, harity⟩ := (ha.types other name _ he).resolve_left nofun
        .of_isFullyConcrete hconcrete harity,
      .refl fun other name m owner hm => Multiplicity.isConcrete_iff.1 (ha.muls other name _ hm)⟩
  have hteaches : Teaches a.hierarchy id target t.parameters id target t v :=
    ⟨ht.mono fun _ hc _ => hc, .inr ⟨rfl, rfl, List.Subset.refl _⟩, .of_isFullyConcrete hv hvarity⟩
  obtain ⟨-, htypes, hmuls⟩ := ((touches_invariant hreg id target t.parameters).register
    (a.maxDepth + 1) _ _ (hteaches.touches merge) hstart).final
  rw [RunM.arena_final] at htypes hmuls
  refine ⟨fun other name hne => ?_, fun other name hne => ?_, fun hnone => ?_⟩
  · obtain ⟨rfl, hname, e, he⟩ := htypes.changed other name hne
    have hderived := htypes.values _ _ _ _ he
    exact ⟨rfl, hname, e, he, hderived.settled.parameters, fun hfree =>
      (hderived.operationFree hfree).isFullyConcrete hderived.settled.parameters⟩
  · obtain ⟨rfl, hname, m, hm⟩ := hmuls.changed other name hne
    exact ⟨rfl, hname, m, hm, Multiplicity.isConcrete_iff.2 (hmuls.values _ _ _ _ hm)⟩
  · rw [hnone] at htypes hmuls
    -- A registration changes visible bindings only, and none of them may have changed.
    refine (register_framed _ _ { arena := a }).eq_of_binding? (fun other name => ?_)
      fun other name => ?_
    · by_contra hne
      exact absurd (htypes.changed other name hne).2.1 List.not_mem_nil
    · by_contra hne
      exact absurd (hmuls.changed other name hne).2.1 List.not_mem_nil

/-! ### Lists of a known integer -/

/-- One context, in which one parameter is an integer. -/
def Arena.knownInteger (h : Hierarchy) : Arena :=
  ({ hierarchy := h, maxDepth := 4 } : Arena).insert 1
    { Context.fresh 1 none none with
      current := ({} : BindingState).bind "X" (.bound (TypeExpr.atom "Integer") 1) }

theorem Arena.learntClosed_knownInteger {h : Hierarchy} {d : ClassDecl}
    (hd : h.find? "Integer" = some d) (hparams : d.params = []) (hmuls : d.muls = []) :
    (knownInteger h).LearntClosed := by
  have hcontext : ∀ {id c}, (knownInteger h).context id = .ok c → c.current
      = ({} : BindingState).bind "X" (.bound (TypeExpr.atom "Integer") 1) := by
    intro id c hc
    by_cases hid : 1 = id
    · subst hid
      rw [knownInteger, context_insert_self] at hc
      cases hc
      rfl
    · rw [knownInteger, context_insert_of_ne _ hid] at hc
      simp [context] at hc
  constructor
  · intro id name b hb
    obtain ⟨c, hc, hb⟩ := binding?_eq_ok.1 hb
    rw [hcontext hc] at hb
    rw [BindingState.eq_of_binding?_bind hb]
    exact .inr ⟨TypeExpr.isFullyConcrete_atom _, Hierarchy.arity_atom hd hparams hmuls⟩
  · intro id name b hb
    obtain ⟨c, hc, hb⟩ := binding?_eq_ok.1 hb
    rw [hcontext hc] at hb
    cases hb

/-- Lists of what that parameter stands for. -/
def TypeExpr.listOfX : TypeExpr := .classType ⟨"List", [.param ⟨"X", .covariant⟩], []⟩

theorem TypeExpr.arity_listOfX {h : Hierarchy}
    (hd : h.find? "List" = some { name := "List", params := [⟨"T", .covariant⟩] }) :
    listOfX.AllClasses h.Arity :=
  .classType (Hierarchy.arity_of_find? hd rfl rfl) (List.forall_mem_singleton.2 (.param _))

/-- With a list of floats, the integer becomes a number, and nothing else changes. -/
theorem register_touches_number :
    (Arena.knownInteger .preloaded).hierarchy.Regular
    ∧ (Arena.knownInteger .preloaded).LearntClosed
    ∧ TypeExpr.listOfX.AllClasses (Arena.knownInteger .preloaded).hierarchy.Arity
    ∧ (TypeExpr.listOf "Float").isFullyConcrete
    ∧ (TypeExpr.listOf "Float").AllClasses (Arena.knownInteger .preloaded).hierarchy.Arity
    ∧ ((Arena.knownInteger .preloaded).registered
        (.type 1 .listOfX (some (.listOf "Float")) 1 false)).binding? 1 "X"
      = .ok (some (.bound (TypeExpr.atom "Number") 1))
    ∧ ∀ other name, ((Arena.knownInteger .preloaded).registered
        (.type 1 .listOfX (some (.listOf "Float")) 1 false)).binding? other name
          ≠ ((Arena.knownInteger .preloaded).binding? other name
            : Except InferError (Option (Binding TypeExpr))) →
        other = 1 ∧ name = "X" := by
  have hreg : (Arena.knownInteger .preloaded).hierarchy.Regular :=
    Hierarchy.preloaded_wellFormed.regular
  have ha : (Arena.knownInteger .preloaded).LearntClosed :=
    Arena.learntClosed_knownInteger rfl rfl rfl
  have ht : TypeExpr.listOfX.AllClasses (Arena.knownInteger .preloaded).hierarchy.Arity :=
    TypeExpr.arity_listOfX rfl
  have hv := isFullyConcrete_listOf "Float"
  have hvarity : (TypeExpr.listOf "Float").AllClasses
      (Arena.knownInteger .preloaded).hierarchy.Arity := arity_listOf rfl rfl rfl
  obtain ⟨s, hs, hnumber⟩ : ∃ s, (Arena.knownInteger .preloaded).register
        (.type 1 .listOfX (some (.listOf "Float")) 1 false) = .ok () s
      ∧ s.arena.binding? 1 "X" = .ok (some (.bound (TypeExpr.atom "Number") 1)) :=
    ⟨_, by with_unfolding_all rfl, by with_unfolding_all rfl⟩
  have hb : (Arena.knownInteger .preloaded).registered
      (.type 1 .listOfX (some (.listOf "Float")) 1 false) = s.arena := RunM.after_of_eq_ok hs
  refine ⟨hreg, ha, ht, hv, hvarity, hb ▸ hnumber, fun other name hne => ?_⟩
  obtain ⟨hother, hname, -⟩ := (register_touches hreg ha 1 1 false ht hv hvarity).1 other name hne
  exact ⟨hother, by simpa [TypeExpr.listOfX, TypeExpr.parameters] using hname⟩

/-- With a class whose generalization is a list of what is in one of two classes, the integer
becomes the union of them. -/
theorem register_touches_operation :
    ¬ ∀ (a : Arena) (id target : ContextId) (t v : TypeExpr) (merge : Bool),
      a.hierarchy.Regular → a.LearntClosed → t.AllClasses a.hierarchy.Arity → v.isFullyConcrete →
      v.AllClasses a.hierarchy.Arity → ∀ other name,
        (a.registered (.type id t (some v) target merge)).binding? other name
          ≠ (a.binding? other name : Except InferError (Option (Binding TypeExpr))) →
        other = id ∧ .type name ∈ t.parameters ∧ ∃ e : TypeExpr,
          (a.registered (.type id t (some v) target merge)).binding? other name
            = .ok (some (.bound e target)) ∧ e.isFullyConcrete := by
  intro h
  obtain ⟨s, hs, hunion⟩ : ∃ s, (Arena.knownInteger .unionLists).register
        (.type 1 .listOfX (some (.atom "C")) 1 false) = .ok () s
      ∧ s.arena.binding? 1 "X"
        = .ok (some (.bound (TypeExpr.operation .union (.atom "String") (.atom "String")) 1)) :=
    ⟨_, by with_unfolding_all rfl, by with_unfolding_all rfl⟩
  have hb : (Arena.knownInteger .unionLists).registered
      (.type 1 .listOfX (some (.atom "C")) 1 false) = s.arena := RunM.after_of_eq_ok hs
  have hchanged : s.arena.binding? 1 "X" ≠ ((Arena.knownInteger .unionLists).binding? 1 "X"
      : Except InferError (Option (Binding TypeExpr))) := by
    rw [hunion, show (Arena.knownInteger .unionLists).binding? 1 "X"
      = .ok (some (.bound (TypeExpr.atom "Integer") 1)) from rfl]
    simp [TypeExpr.atom]
  obtain ⟨-, -, e, he, hconcrete⟩ := h (.knownInteger .unionLists) 1 1 .listOfX (.atom "C") false
    Hierarchy.regular_unionLists (Arena.learntClosed_knownInteger rfl rfl rfl)
    (TypeExpr.arity_listOfX rfl) (TypeExpr.isFullyConcrete_atom _)
    (Hierarchy.arity_atom rfl rfl rfl) 1 "X" (hb ▸ hchanged)
  rw [hb] at he
  cases hunion.symm.trans he
  simp [TypeExpr.isFullyConcrete] at hconcrete

end ScopedInference
