import Mathlib.Logic.Relation
import ScopedInference.Proofs.Hierarchy.Regular

/-!
# Well-formed hierarchies

A hierarchy may be circular, and what its classes generalize may be written over anything. In a
well-formed one, no class is above itself, generalizations are written over the parameters of the
class that declares them, and all class types have as many arguments as their classes declare. Then
a class never counts as a subtype of one that is strictly below it
(`WellFormed.isSubtype_eq_false`), and what a ground type is viewed as is ground
(`WellFormed.view_ground`). The preloaded hierarchy is well-formed (`preloaded_wellFormed`).
-/

namespace ScopedInference

namespace Hierarchy

/-- A class generalizes a type of another one. -/
def Extends (h : Hierarchy) (sub sup : ClassName) : Prop :=
  ∃ d, h.find? sub = some d ∧ ∃ g ∈ d.generalizations, g.head = sup

/-- As many arguments as declared. The extreme classes have none, declared or not. -/
def Applies (h : Hierarchy) (c : ClassType) : Prop :=
  (∀ d, h.find? c.head = some d → c.types.length = d.params.length ∧ c.muls.length = d.muls.length)
    ∧ (c.head = .any ∨ c.head = .nil → c.types = [] ∧ c.muls = [])

theorem Applies.of_find? {h : Hierarchy} {d : ClassDecl} {types : List TypeExpr}
    {muls : List Multiplicity} {name : ClassName} (hd : h.find? name = some d)
    (htypes : types.length = d.params.length) (hmuls : muls.length = d.muls.length)
    (hany : name ≠ .any) (hnil : name ≠ .nil) : h.Applies ⟨name, types, muls⟩ := by
  refine ⟨fun e he => ?_, fun hextreme => ?_⟩
  · obtain rfl := Option.some.inj (hd.symm.trans he)
    exact ⟨htypes, hmuls⟩
  · exact absurd hextreme (not_or.2 ⟨hany, hnil⟩)

end Hierarchy

/-- All class types within a type have as many arguments as their classes declare. -/
inductive TypeExpr.Fits (h : Hierarchy) : TypeExpr → Prop where
  | param (p) : Fits h (.param p)
  | classType {c} : h.Applies c → (∀ t ∈ c.types, Fits h t) → Fits h (.classType c)
  | function {f} : (∀ p ∈ f.params, Fits h p.type) → Fits h f.result.type → Fits h (.function f)
  | relation {r} : (∀ c ∈ r.columns, Fits h c.type) → Fits h (.relation r)
  | operation {kind left right} : Fits h left → Fits h right → Fits h (.operation kind left right)

theorem TypeExpr.Fits.of_function {h : Hierarchy} {f : Arrow TypeExpr}
    (hf : (TypeExpr.function f).Fits h) :
    ∀ p ∈ f.params ++ [f.result], p.type.Fits h := by
  rcases hf with _ | _ | ⟨hparams, hresult⟩
  intro p hp
  rcases List.mem_append.1 hp with hp | hp
  · exact hparams p hp
  · rwa [List.mem_singleton.1 hp]

structure Hierarchy.WellFormed (h : Hierarchy) : Prop where
  acyclic : ∀ name, ¬ Relation.TransGen h.Extends name name
  own : ∀ name d, h.find? name = some d → ∀ g ∈ d.generalizations,
    ∀ q ∈ (TypeExpr.classType g).parameters, q ∈ d.parameters
  fits : ∀ name d, h.find? name = some d → ∀ g ∈ d.generalizations,
    (TypeExpr.classType g).Fits h
  extremes : ∀ name d, name = .any ∨ name = .nil → h.find? name = some d → d.generalizations = []
  not_below_nil : ∀ name, ¬ h.Extends name .nil

namespace Hierarchy

variable {h : Hierarchy}

/-! ### Reachable classes -/

theorem Walk.reflTransGen {x y : ClassName} {walk : List (ClassDecl × ClassType)}
    (hwalk : h.Walk x walk y) : Relation.ReflTransGen h.Extends x y := by
  induction hwalk with
  | nil x => exact .refl
  | cons hd hg _ ih => exact .head ⟨_, hd, _, hg, rfl⟩ ih

/-- A view is of the class asked for, which lies above the type's own class, if it is another. -/
theorem viewWithin_head {ancestor : ClassName} (n : Nat) {c v : ClassType}
    (hv : h.viewWithin ancestor n c = some v) :
    v.head = ancestor
      ∧ (c.head = ancestor ∧ v = c ∨ Relation.TransGen h.Extends c.head ancestor) := by
  obtain ⟨walk, hwalk, -, rfl⟩ := viewWithin_along n hv
  refine ⟨hwalk.head_along rfl, ?_⟩
  cases hwalk with
  | nil _ => exact .inl ⟨rfl, rfl⟩
  | cons hd hg hwalk => exact .inr (.head' ⟨_, hd, _, hg, rfl⟩ hwalk.reflTransGen)

theorem view?_self (c : ClassType) : h.view? c c.head = some c := by
  unfold view? viewWithin
  rw [if_pos rfl]

theorem mem_nextLayer {seen layer : List ClassName} {x : ClassName} :
    x ∈ h.nextLayer seen layer ↔ (∃ y ∈ layer, x ∈ h.directSupertypes y) ∧ x ∉ seen := by
  rw [nextLayer, List.mem_filter, List.mem_eraseDups, List.mem_flatMap, decide_eq_true_eq]

theorem mem_climb {x : ClassName} : ∀ (n : Nat) {seen layer : List ClassName},
    x ∈ h.climb n seen layer →
      x ∈ seen ∨ ∃ y ∈ layer, Relation.TransGen (fun y x => x ∈ h.directSupertypes y) y x
  | 0, _, _, hx => .inl hx
  | n + 1, seen, layer, hx => by
    rcases mem_climb n hx with hx | ⟨y, hy, hup⟩
    · rcases List.mem_append.1 hx with hx | hx
      · exact .inl hx
      · obtain ⟨⟨y, hy, hup⟩, -⟩ := mem_nextLayer.1 hx
        exact .inr ⟨y, hy, .single hup⟩
    · obtain ⟨⟨z, hz, hzy⟩, -⟩ := mem_nextLayer.1 hy
      exact .inr ⟨z, hz, .head hzy hup⟩

theorem mem_directSupertypes {sub sup : ClassName} (hx : sup ∈ h.directSupertypes sub) :
    sub ≠ .any ∧ (sup = .any ∨ h.Extends sub sup) := by
  unfold directSupertypes at hx
  split at hx
  · simp at hx
  rename_i hne
  refine ⟨hne, ?_⟩
  split at hx
  · rename_i g gs hd
    obtain ⟨d, hd, hgs⟩ := Option.map_eq_some_iff.1 hd
    obtain ⟨g', hg', rfl⟩ := List.mem_map.1 hx
    exact .inr ⟨d, hd, g', hgs ▸ hg', rfl⟩
  · exact .inl (List.mem_singleton.1 hx)

theorem mem_directSupertypes_of_extends {x y : ClassName} (hx : x ≠ .any) (hext : h.Extends x y) :
    y ∈ h.directSupertypes x := by
  obtain ⟨d, hd, g, hg, rfl⟩ := hext
  unfold directSupertypes
  rw [if_neg hx, hd, Option.map_some]
  rcases hgs : d.generalizations with _ | ⟨g', gs⟩
  · rw [hgs] at hg
    exact absurd hg List.not_mem_nil
  · exact List.mem_map_of_mem (hgs ▸ hg)

end Hierarchy

/-! ### Views of ground types -/

/-- That a type fits is a matter of the class types within it. -/
theorem TypeExpr.fits_iff {h : Hierarchy} {t : TypeExpr} : t.Fits h ↔ t.AllClasses h.Applies := by
  constructor
  · intro ht
    induction ht with
    | param p => exact .param p
    | classType hc _ ih => exact .classType hc ih
    | function _ _ ihp ihr =>
      refine .function fun p hp => ?_
      rcases List.mem_append.1 hp with hp | hp
      · exact ihp p hp
      · rwa [List.mem_singleton.1 hp]
    | relation _ ih => exact .relation ih
    | operation _ _ ihl ihr => exact .operation ihl ihr
  · intro ht
    induction ht with
    | param p => exact .param p
    | classType hc _ ih => exact .classType hc ih
    | function _ ih =>
      exact .function (fun p hp => ih p (List.mem_append_left _ hp))
        (ih _ (List.mem_append_right _ List.mem_cons_self))
    | relation _ ih => exact .relation ih
    | operation _ _ ihl ihr => exact .operation ihl ihr

namespace Hierarchy

variable {h : Hierarchy}

theorem structural_applies (h : Hierarchy) : ClassType.Structural h.Applies := by
  rintro c d hhead htypes hmuls ⟨harity, hextreme⟩
  refine ⟨h.structural_arity c d hhead htypes hmuls harity, fun hd => ?_⟩
  obtain ⟨hnone, hnone'⟩ := hextreme (hhead ▸ hd)
  rw [hnone] at htypes
  rw [hnone'] at hmuls
  exact ⟨List.length_eq_zero_iff.1 htypes.symm, List.length_eq_zero_iff.1 hmuls.symm⟩

theorem WellFormed.regular (hw : h.WellFormed) : h.Regular where
  own := hw.own
  arities name d hd g hg := (TypeExpr.fits_iff.1 (hw.fits name d hd g hg)).mono fun _ hc => hc.1

/-- A ground class type is viewed as a ground one. -/
theorem WellFormed.view_ground (hw : h.WellFormed) {ancestor : ClassName} {c v : ClassType}
    (hv : h.view? c ancestor = some v) (hfits : (TypeExpr.classType c).Fits h)
    (hground : (TypeExpr.classType c).parameters = []) :
    (TypeExpr.classType v).Fits h ∧ (TypeExpr.classType v).parameters = [] := by
  refine ⟨TypeExpr.fits_iff.2 (view_allClasses h.structural_applies (fun name d hd g hg => ?_) hv
    (TypeExpr.fits_iff.1 hfits)), ?_⟩
  · exact TypeExpr.fits_iff.1 (hw.fits name d hd g hg)
  · rcases hfits with _ | ⟨happ, -⟩
    exact hw.regular.view_parameters hv happ.1 hground

theorem view_head {ancestor : ClassName} {c v : ClassType} (hv : h.view? c ancestor = some v) :
    v.head = ancestor ∧ (c.head = ancestor ∧ v = c ∨ Relation.TransGen h.Extends c.head ancestor) :=
  viewWithin_head maxSteps hv

/-! ### The preloaded hierarchy -/

theorem mem_of_find?_foldl_define {name : ClassName} {d : ClassDecl} :
    ∀ (ds : List ClassDecl) {h : Hierarchy}, (ds.foldl define h).find? name = some d →
      d ∈ ds ∧ d.name = name ∨ h.find? name = some d
  | [], _, hd => .inr hd
  | e :: ds, h, hd => by
    rcases mem_of_find?_foldl_define ds hd with ⟨hmem, hname⟩ | hd
    · exact .inl ⟨List.mem_cons_of_mem e hmem, hname⟩
    by_cases he : e.name = name
    · subst he
      rw [find?_define_self, Option.some.injEq] at hd
      subst hd
      exact .inl ⟨List.mem_cons_self, rfl⟩
    · rw [find?_define_of_ne h he] at hd
      exact .inr hd

theorem acyclic_of_rank {h : Hierarchy} (rank : ClassName → Nat)
    (hrank : ∀ sub sup, h.Extends sub sup → rank sup < rank sub) (name : ClassName) :
    ¬ Relation.TransGen h.Extends name name := by
  have hlt : ∀ {sup}, Relation.TransGen h.Extends name sup → rank sup < rank name := by
    intro sup hup
    induction hup with
    | single hext => exact hrank _ _ hext
    | tail _ hext ih => exact Nat.lt_trans (hrank _ _ hext) ih
  exact fun hup => Nat.lt_irrefl _ (hlt hup)

/-- Two kinds of numbers, and functions by another name. -/
theorem generalizations_preloaded {name : ClassName} {d : ClassDecl}
    (hd : preloaded.find? name = some d) {g : ClassType} (hg : g ∈ d.generalizations) :
    (name = "Integer" ∨ name = "Float") ∧ g = ⟨"Number", [], []⟩
      ∨ name = "LambdaFunction" ∧ d.params = [⟨"T", .covariant⟩]
        ∧ g = ⟨.function, [.param ⟨"T", .covariant⟩], []⟩ := by
  rcases mem_of_find?_foldl_define _ hd with ⟨hmem, rfl⟩ | hd
  · simp only [List.mem_cons, List.not_mem_nil, or_false] at hmem
    rcases hmem with rfl | rfl | rfl | rfl | rfl | rfl | rfl | rfl | rfl | rfl | rfl <;> simp_all
  · simp [empty, find?] at hd

theorem preloaded_wellFormed : preloaded.WellFormed where
  acyclic := by
    refine acyclic_of_rank (fun name => if name = "Number" ∨ name = .function then 0 else 1) ?_
    rintro sub sup ⟨d, hd, g, hg, rfl⟩
    rcases generalizations_preloaded hd hg with ⟨rfl | rfl, rfl⟩ | ⟨rfl, -, rfl⟩ <;> decide
  own := by
    intro name d hd g hg q hq
    rcases generalizations_preloaded hd hg with ⟨-, rfl⟩ | ⟨-, hparams, rfl⟩
    · simp [TypeExpr.parameters] at hq
    · have hq : q = .type "T" := by simpa [TypeExpr.parameters] using hq
      simp [hq, ClassDecl.parameters, hparams]
  fits := by
    intro name d hd g hg
    rcases generalizations_preloaded hd hg with ⟨-, rfl⟩ | ⟨-, -, rfl⟩
    · exact .classType (.of_find? rfl rfl rfl (by decide) (by decide)) (by simp)
    · exact .classType (.of_find? rfl rfl rfl (by decide) (by decide)) (by simpa using .param _)
  extremes := by
    intro name d hname hd
    refine List.eq_nil_iff_forall_not_mem.2 fun g hg => ?_
    rcases generalizations_preloaded hd hg with ⟨rfl | rfl, -⟩ | ⟨rfl, -⟩ <;>
      exact absurd hname (by decide)
  not_below_nil := by
    rintro name ⟨d, hd, g, hg, hhead⟩
    rcases generalizations_preloaded hd hg with ⟨-, rfl⟩ | ⟨-, -, rfl⟩ <;>
      exact absurd hhead (by decide)

end Hierarchy

/-- Lists of a class. -/
def TypeExpr.listOf (name : ClassName) : TypeExpr := .classType ⟨"List", [.atom name], []⟩

theorem arity_listOf {name : ClassName} {d : ClassDecl}
    (hd : Hierarchy.preloaded.find? name = some d) (hparams : d.params = [])
    (hmuls : d.muls = []) :
    (TypeExpr.listOf name).AllClasses Hierarchy.preloaded.Arity :=
  .classType (Hierarchy.arity_of_find? (d := { name := "List", params := [⟨"T", .covariant⟩] })
    rfl rfl rfl) (List.forall_mem_singleton.2 (Hierarchy.arity_atom hd hparams hmuls))

theorem isFullyConcrete_listOf (name : ClassName) : (TypeExpr.listOf name).isFullyConcrete := by
  simp [TypeExpr.listOf, TypeExpr.isFullyConcrete, TypeExpr.isFullyConcrete_atom]

end ScopedInference
