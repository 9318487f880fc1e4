import ScopedInference.Proofs.Hierarchy.Merge
import ScopedInference.Proofs.TypeExpr.Operations

/-!
# Merged types are above both

A type covers another one if it can be seen in it: it is the same, it is the top type or the other
one the bottom type, or the other one is viewed as a type of its class, whose arguments are covered
in turn. What two types merge to covers both of them (`commonSupertype_covers`). An argument that is
not fully concrete, though, gives way to one that is. The arguments of a fully concrete type are,
but those of its views need not be: an operation may stand in a generalization
(`commonSupertype_covers_operation`).
-/

namespace ScopedInference

namespace Hierarchy

variable {h : Hierarchy} {gives : TypeExpr → Prop}

/-- The first type is above the second one, but for types that give way. Arguments are compared
position by position, and there are as many of both if their class is declared. -/
inductive Covers (h : Hierarchy) (gives : TypeExpr → Prop) : TypeExpr → TypeExpr → Prop where
  | refl (t) : Covers h gives t t
  | top {s t} : s.isTop → Covers h gives s t
  | bottom {s t} : t.isBottom → Covers h gives s t
  | gives {s t} : gives t → Covers h gives s t
  | classType {s c v : ClassType} : h.view? c s.head = some v →
      ((h.find? s.head).isSome → s.types.length = v.types.length ∧ s.muls.length = v.muls.length) →
      (∀ p ∈ s.types.zip v.types, Covers h gives p.1 p.2) →
      (∀ p ∈ s.muls.zip v.muls, p.1.subsumes p.2) → Covers h gives (.classType s) (.classType c)

/-- Two class types of which neither is extreme are compared by the second one's view. -/
theorem Covers.exists_view {s c : ClassType} (hcovers : h.Covers gives (.classType s) (.classType c))
    (hne : s.head ≠ c.head) (hany : s.head ≠ .any) (hnil : c.head ≠ .nil)
    (hgives : ¬ gives (.classType c)) :
    ∃ v, h.view? c s.head = some v ∧ ∀ p ∈ s.types.zip v.types, h.Covers gives p.1 p.2 := by
  cases hcovers with
  | refl => exact absurd rfl hne
  | top htop => exact absurd (by simpa [TypeExpr.isTop, TypeExpr.head?] using htop) hany
  | bottom hbottom => exact absurd (isBottom_classType.1 hbottom) hnil
  | gives h => exact absurd h hgives
  | classType hv _ htypes _ => exact ⟨_, hv, htypes⟩

/-- Ground types among which arguments and views stay, and which give way where they are not fully
concrete. -/
structure Viewed (h : Hierarchy) (gives P : TypeExpr → Prop) : Prop where
  ground : ∀ t, P t → t.GroundOver h.Arity
  argument : ∀ c : ClassType, P (.classType c) → ∀ t ∈ c.types, P t
  view : ∀ (c : ClassType) a v, h.view? c a = some v → P (.classType c) → P (.classType v)
  open_gives : ∀ t, P t → t.isFullyConcrete = false → gives t

theorem Viewed.covers_of_givesWay {P : TypeExpr → Prop} (hP : h.Viewed gives P) {s t : TypeExpr}
    (ht : P t) (hway : s = t ∨ t.GivesWay) : h.Covers gives s t := by
  rcases hway with rfl | hopen | hbottom
  · exact .refl _
  · exact .gives (hP.open_gives t ht hopen)
  · exact .bottom hbottom

/-- The views of class types have as many arguments as their class declares, if it does. -/
theorem Viewed.length_eq {P : TypeExpr → Prop} (hP : h.Viewed gives P) {v w : ClassType}
    (hv : P (.classType v)) (hw : P (.classType w)) (hhead : v.head = w.head)
    (hdeclared : (h.find? v.head).isSome) :
    v.types.length = w.types.length ∧ v.muls.length = w.muls.length := by
  obtain ⟨d, hd⟩ := Option.isSome_iff_exists.1 hdeclared
  obtain ⟨hvt, hvm⟩ := (hP.ground _ hv).of_classType.1 d hd
  obtain ⟨hwt, hwm⟩ := (hP.ground _ hw).of_classType.1 d (hhead ▸ hd)
  exact ⟨hvt.trans hwt.symm, hvm.trans hwm.symm⟩

/-- By induction on the levels: arguments of the common views merge a level below. -/
theorem Viewed.mergeWithin_covers {P : TypeExpr → Prop} (hP : h.Viewed gives P) :
    ∀ (n : Nat) {variance : Variance} {l r m : TypeExpr}, P l → P r →
      h.mergeWithin .degrade n variance l r = .ok m → h.Covers gives m l ∧ h.Covers gives m r
  | n, variance, l, r, m, hl, hr, hm => by
    rcases mergeWithin_givesWay hm with ⟨rfl, hway⟩ | ⟨rfl, hway⟩ | rfl
      | ⟨k, c, d, v, w, types, rfl, -, rfl, rfl, -, -, hviews, htypes, rfl⟩
    · exact ⟨.refl _, hP.covers_of_givesWay hr hway⟩
    · exact ⟨hP.covers_of_givesWay hl (hway.imp_left Eq.symm), .refl _⟩
    · exact ⟨.top rfl, .top rfl⟩
    obtain ⟨a, -, -, hcv, hdw⟩ := commonViews?_eq_some.1 hviews
    obtain ⟨rfl, -⟩ := view_head hcv
    have hhead : v.head = w.head := (of_commonViews? hviews).1
    have hv := hP.view _ _ _ hcv hl
    have hw := hP.view _ _ _ hdw hr
    obtain ⟨htypesv, htypesw⟩ := mergeArguments_zip (R := h.Covers gives)
      (fun _ t ht u hu _ hm =>
        hP.mergeWithin_covers k (hP.argument v hv t ht) (hP.argument w hw u hu) hm) htypes
    have hconcrete : ∀ {c : ClassType}, P (.classType c) → ∀ m ∈ c.muls, m.isConcrete :=
      fun hc m hm => Multiplicity.isConcrete_iff.2 ((hP.ground _ hc).of_classType.2.1 m hm)
    obtain ⟨hmulsv, hmulsw⟩ := subsumes_zipWith_join (hconcrete hv) (hconcrete hw)
    have hlength := (of_mergeArguments htypes).1
    constructor
    · refine .classType hcv (fun hdeclared => ?_) htypesv hmulsv
      obtain ⟨ht, hm⟩ := hP.length_eq hv hw hhead hdeclared
      rw [hlength, List.length_zipWith, ← ht, ← hm]
      exact ⟨Nat.min_self _, Nat.min_self _⟩
    · refine .classType hdw (fun hdeclared => ?_) htypesw hmulsw
      obtain ⟨ht, hm⟩ := hP.length_eq hv hw hhead hdeclared
      rw [hlength, List.length_zipWith, ht, hm]
      exact ⟨Nat.min_self _, Nat.min_self _⟩

/-! ### Regular hierarchies -/

theorem Regular.view_ground (hreg : h.Regular) {ancestor : ClassName} {c v : ClassType}
    (hv : h.view? c ancestor = some v) (hc : (TypeExpr.classType c).GroundOver h.Arity) :
    (TypeExpr.classType v).GroundOver h.Arity where
  classes := view_allClasses h.structural_arity hreg.arities hv hc.classes
  parameters := hreg.view_parameters hv hc.of_classType.1 hc.parameters

/-- No generalization has an operation in it. -/
def OperationFree (h : Hierarchy) : Prop :=
  ∀ name d, h.find? name = some d → ∀ g ∈ d.generalizations,
    (TypeExpr.classType g).OperationFree

theorem OperationFree.view (hfree : h.OperationFree) {ancestor : ClassName} {c v : ClassType}
    (hv : h.view? c ancestor = some v) (hc : (TypeExpr.classType c).OperationFree) :
    (TypeExpr.classType v).OperationFree := by
  refine viewWithin_induct (P := fun c => (TypeExpr.classType c).OperationFree) ?_ _ hv hc
  intro c d g hd hg hc
  rw [ClassType.classType_substitute]
  exact (hfree _ d hd g hg).substitute fun name v hv =>
    hc.of_classType v (ClassDecl.bindings_types hv)

theorem operationFree_top : TypeExpr.top.OperationFree := .classType (by simp)

/-- Merging brings in no operation. -/
theorem OperationFree.mergeWithin (hfree : h.OperationFree) :
    ∀ (n : Nat) {variance : Variance} {l r m : TypeExpr},
      h.mergeWithin .degrade n variance l r = .ok m → l.OperationFree → r.OperationFree →
        m.OperationFree
  | n, variance, l, r, m, hm, hl, hr => by
    rcases mergeWithin_cases hm with
      rfl | rfl | rfl | ⟨k, c, d, v, w, types, rfl, -, rfl, rfl, -, -, hviews, htypes, rfl⟩
    · exact hl
    · exact hr
    · exact operationFree_top
    obtain ⟨a, -, -, hv, hw⟩ := commonViews?_eq_some.1 hviews
    have hvfree := (hfree.view hv hl).of_classType
    have hwfree := (hfree.view hw hr).of_classType
    refine .classType fun x hx => ?_
    obtain ⟨x', t, ht, u, hu, hx⟩ := (of_mergeArguments htypes).2 x hx
    exact hfree.mergeWithin k hx (hvfree t ht) (hwfree u hu)

/-- Ground types are fully concrete unless there is an operation in them. -/
theorem Regular.viewed (hreg : h.Regular) :
    h.Viewed (fun t => ¬ t.OperationFree) (·.GroundOver h.Arity) where
  ground _ ht := ht
  argument _ hc := hc.of_classType.2.2
  view _ _ _ hv hc := hreg.view_ground hv hc
  open_gives t ht hopen hfree := by
    rw [hfree.isFullyConcrete ht.parameters] at hopen
    cases hopen

/-- Without operations in generalizations, there are none in views. -/
theorem Regular.viewed_operationFree (hreg : h.Regular) (hfree : h.OperationFree) :
    h.Viewed (fun _ => False) (fun t => t.GroundOver h.Arity ∧ t.OperationFree) where
  ground _ ht := ht.1
  argument _ hc t ht := ⟨hc.1.of_classType.2.2 t ht, hc.2.of_classType t ht⟩
  view _ _ _ hv hc := ⟨hreg.view_ground hv hc.1, hfree.view hv hc.2⟩
  open_gives t ht hopen := by
    rw [ht.2.isFullyConcrete ht.1.parameters] at hopen
    cases hopen

/-- Two fully concrete types have a common supertype that covers both of them, but for arguments of
their views that have operations in them. If there are none in generalizations, nothing is left
out. -/
theorem commonSupertype_covers (hreg : h.Regular) (variance : Variance) {l r : TypeExpr}
    (hl : l.isFullyConcrete) (hr : r.isFullyConcrete) (hlarity : l.AllClasses h.Arity)
    (hrarity : r.AllClasses h.Arity) :
    ∃ s, h.commonSupertype variance .degrade [l, r] = .ok s
      ∧ h.Covers (fun t => ¬ t.OperationFree) s l ∧ h.Covers (fun t => ¬ t.OperationFree) s r
      ∧ (h.OperationFree → h.Covers (fun _ => False) s l ∧ h.Covers (fun _ => False) s r) := by
  obtain ⟨s, hs⟩ := h.exists_mergeWithin maxMergeDepth variance l r
  obtain ⟨hlground, hlfree⟩ := TypeExpr.isFullyConcrete_iff.1 hl
  obtain ⟨hrground, hrfree⟩ := TypeExpr.isFullyConcrete_iff.1 hr
  obtain ⟨hsl, hsr⟩ := hreg.viewed.mergeWithin_covers _ ⟨hlarity, hlground⟩ ⟨hrarity, hrground⟩ hs
  refine ⟨s, (h.commonSupertype_pair ..).trans hs, hsl, hsr, fun hfree => ?_⟩
  exact (hreg.viewed_operationFree hfree).mergeWithin_covers _ ⟨⟨hlarity, hlground⟩, hlfree⟩
    ⟨⟨hrarity, hrground⟩, hrfree⟩ hs

/-- No generalization of the preloaded classes has an operation in it. Lists of numbers cover lists
of both kinds of numbers. -/
theorem commonSupertype_covers_lists : preloaded.OperationFree
    ∧ preloaded.commonSupertype .covariant .degrade [.listOf "Integer", .listOf "Float"]
      = .ok (.listOf "Number")
    ∧ preloaded.Covers (fun _ => False) (.listOf "Number") (.listOf "Integer")
    ∧ preloaded.Covers (fun _ => False) (.listOf "Number") (.listOf "Float") := by
  have hfree : preloaded.OperationFree := by
    intro name d hd g hg
    rcases generalizations_preloaded hd hg with ⟨-, rfl⟩ | ⟨-, -, rfl⟩
    · exact .classType (by simp)
    · exact .classType (by simpa using .param _)
  have hnumbers : preloaded.commonSupertype .covariant .degrade [.listOf "Integer", .listOf "Float"]
      = .ok (.listOf "Number") := by
    with_unfolding_all rfl
  obtain ⟨s, hs, -, -, hcovers⟩ := commonSupertype_covers preloaded_wellFormed.regular .covariant
    (isFullyConcrete_listOf "Integer") (isFullyConcrete_listOf "Float")
    (arity_listOf rfl rfl rfl) (arity_listOf rfl rfl rfl)
  rw [hnumbers, Except.ok.injEq] at hs
  subst hs
  exact ⟨hfree, hnumbers, hcovers hfree⟩

/-! ### An operation in a generalization -/

/-- The preloaded classes, and lists of what is in one of two classes. -/
def unionLists : Hierarchy :=
  preloaded.define { name := "C", generalizations := [⟨"List",
    [.operation .union (.atom "String") (.atom "String")], []⟩] }

theorem regular_unionLists : unionLists.Regular := by
  have hcases : ∀ {name d}, unionLists.find? name = some d → ∀ g ∈ d.generalizations,
      g = ⟨"List", [.operation .union (.atom "String") (.atom "String")], []⟩
        ∨ g = ⟨"Number", [], []⟩
        ∨ d.params = [⟨"T", .covariant⟩] ∧ g = ⟨.function, [.param ⟨"T", .covariant⟩], []⟩ := by
    intro name d hd g hg
    rcases mem_of_find?_foldl_define [_] hd with ⟨hmem, -⟩ | hd
    · obtain rfl := List.mem_singleton.1 hmem
      exact .inl (List.mem_singleton.1 hg)
    · rcases generalizations_preloaded hd hg with ⟨-, rfl⟩ | ⟨-, hparams, rfl⟩
      · exact .inr (.inl rfl)
      · exact .inr (.inr ⟨hparams, rfl⟩)
  constructor
  · intro name d hd g hg q hq
    rcases hcases hd g hg with rfl | rfl | ⟨hparams, rfl⟩
    · simp [TypeExpr.parameters, TypeExpr.atom] at hq
    · simp [TypeExpr.parameters] at hq
    · have hq : q = .type "T" := by simpa [TypeExpr.parameters] using hq
      simp [hq, ClassDecl.parameters, hparams]
  · intro name d hd g hg
    rcases hcases hd g hg with rfl | rfl | ⟨-, rfl⟩
    · refine .classType (arity_of_find? (d := { name := "List", params := [⟨"T", .covariant⟩] })
        rfl rfl rfl) (List.forall_mem_singleton.2 ?_)
      exact .operation (arity_atom rfl rfl rfl) (arity_atom rfl rfl rfl)
    · exact arity_atom rfl rfl rfl
    · exact .classType (arity_of_find? (d := { name := .function, params := [⟨"T", .covariant⟩] })
        rfl rfl rfl) (List.forall_mem_singleton.2 (.param _))

/-- Such lists are fully concrete, but what is in them gives way to numbers. -/
theorem commonSupertype_covers_operation :
    ¬ ∀ (h : Hierarchy) (variance : Variance) (l r : TypeExpr), h.Regular → l.isFullyConcrete →
      r.isFullyConcrete → l.AllClasses h.Arity → r.AllClasses h.Arity →
      ∃ s, h.commonSupertype variance .degrade [l, r] = .ok s
        ∧ h.Covers (fun _ => False) s l ∧ h.Covers (fun _ => False) s r := by
  intro h
  have hlist : (TypeExpr.listOf "Integer").AllClasses unionLists.Arity := by
    refine .classType (fun e he => ?_) (List.forall_mem_singleton.2 (arity_atom rfl rfl rfl))
    cases he.symm.trans (show unionLists.find? "List"
      = some { name := "List", params := [⟨"T", .covariant⟩] } from rfl)
    exact ⟨rfl, rfl⟩
  obtain ⟨s, hs, hcovers, -⟩ := h unionLists .covariant (.atom "C") (.listOf "Integer")
    regular_unionLists (TypeExpr.isFullyConcrete_atom _) (isFullyConcrete_listOf _)
    (arity_atom rfl rfl rfl) hlist
  have hintegers : unionLists.commonSupertype .covariant .degrade
      [.atom "C", .listOf "Integer"] = .ok (.listOf "Integer") := by
    with_unfolding_all rfl
  rw [hintegers, Except.ok.injEq] at hs
  subst hs
  have hview : unionLists.view? ⟨"C", [], []⟩ "List"
      = some ⟨"List", [.operation .union (.atom "String") (.atom "String")], []⟩ := by
    with_unfolding_all rfl
  -- The union is no type that integers could cover.
  have hunion : ¬ unionLists.Covers (fun _ => False) (.atom "Integer")
      (.operation .union (.atom "String") (.atom "String")) := by
    intro hcovers
    cases hcovers with
    | top htop => exact absurd htop (by decide)
    | bottom hbottom => exact absurd hbottom (by decide)
    | gives hgives => exact hgives
  obtain ⟨v, hv, htypes⟩ := hcovers.exists_view (by decide) (by decide) (by decide) id
  cases hview.symm.trans hv
  exact hunion (htypes _ List.mem_cons_self)

end Hierarchy

end ScopedInference
