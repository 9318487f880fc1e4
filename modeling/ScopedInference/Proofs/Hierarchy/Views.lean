import ScopedInference.Proofs.Hierarchy.Merge
import ScopedInference.Proofs.Hierarchy.Search

/-!
# How far views reach

Views and ancestors are found by two searches, one with a limit and without a memory, one the other
way round. Still they see the same classes, as far as the limit goes: where nothing lies above the
top class, a class type is viewed as one of another class just if that class is among its ancestors
and no further than 65 steps away (`view_reaches`). So in a hierarchy that is not higher
(`HeightAtMost`), class types with a least common ancestor below the top class always merge to a
type of it.
-/

namespace ScopedInference

namespace Hierarchy

variable {h : Hierarchy} {x y z : ClassName} {n : Nat} {walk : List (ClassDecl × ClassType)}

/-! ### Walks and steps -/

theorem Walk.snoc (hwalk : h.Walk x walk y) {d : ClassDecl} {g : ClassType}
    (hd : h.find? y = some d) (hg : g ∈ d.generalizations) :
    h.Walk x (walk ++ [(d, g)]) g.head := by
  induction hwalk with
  | nil x => exact .cons hd hg (.nil _)
  | cons hd' hg' _ ih => exact .cons hd' hg' (ih hd)

/-- Steps that do not end at the top class are all declared. -/
theorem Steps.exists_walk (hsteps : h.Steps x n y) (hy : y ≠ .any) :
    ∃ walk, h.Walk x walk y ∧ walk.length = n := by
  induction hsteps with
  | refl => exact ⟨[], .nil x, rfl⟩
  | tail _ hup ih =>
    obtain ⟨hmid, hext⟩ := mem_directSupertypes hup
    obtain ⟨walk, hwalk, rfl⟩ := ih hmid
    obtain ⟨d, hd, g, hg, rfl⟩ := hext.resolve_left hy
    exact ⟨walk ++ [(d, g)], hwalk.snoc hd hg, List.length_append⟩

theorem Steps.head (hup : y ∈ h.directSupertypes x) (hsteps : h.Steps y n z) :
    h.Steps x (n + 1) z := by
  induction hsteps with
  | refl => exact .tail .refl hup
  | tail _ hlast ih => exact .tail ih hlast

/-- Where nothing lies above the top class, walks do not go through it. -/
theorem Walk.steps (hany : ∀ d, h.find? .any = some d → d.generalizations = [])
    (hwalk : h.Walk x walk y) : h.Steps x walk.length y := by
  induction hwalk with
  | nil x => exact .refl
  | @cons x d g _ _ hd hg _ ih =>
    have hx : x ≠ .any := by
      rintro rfl
      rw [hany d hd] at hg
      exact absurd hg List.not_mem_nil
    exact ih.head (mem_directSupertypes_of_extends hx ⟨d, hd, g, hg, rfl⟩)

/-! ### Views of what is near -/

theorem view?_isSome_of_distance {c : ClassType} (hup : h.Reaches c.head y) (hy : y ≠ .any)
    (hnear : h.distance c.head y ≤ maxSteps) : (h.view? c y).isSome := by
  obtain ⟨walk, hwalk, hlength⟩ := (steps_distance hup).exists_walk hy
  exact view?_isSome_iff.2 ⟨walk, hwalk, hlength ▸ hnear⟩

/-- No class is more than so many steps below another one, but for the top class. -/
def HeightAtMost (h : Hierarchy) (n : Nat) : Prop :=
  ∀ x y, h.Reaches x y → y ≠ .any → h.distance x y ≤ n

theorem HeightAtMost.exists_views (hheight : h.HeightAtMost maxSteps) {c d : ClassType}
    (hy : h.leastCommonAncestor? c.head d.head = some y) (hne : y ≠ .any) :
    ∃ v w, h.view? c y = some v ∧ h.view? d y = some w := by
  obtain ⟨hc, hd⟩ := (leastCommonAncestor?_eq_some_iff.1 hy).1.common
  obtain ⟨v, hv⟩ := Option.isSome_iff_exists.1
    (view?_isSome_of_distance hc hne (hheight _ y hc hne))
  obtain ⟨w, hw⟩ := Option.isSome_iff_exists.1
    (view?_isSome_of_distance hd hne (hheight _ y hd hne))
  exact ⟨v, w, hv, hw⟩

theorem eq_of_leastCommonAncestor?_self (hy : h.leastCommonAncestor? x x = some y) : x = y := by
  obtain ⟨⟨⟨hup, -⟩, hminimal⟩, -⟩ := leastCommonAncestor?_eq_some_iff.1 hy
  exact hminimal x ⟨.refl, .refl⟩ (isSubtype_iff.2 (.inr (.inr hup)))

/-- Class types with common views merge to one of the class that they are viewed as. -/
theorem mergeWithin_of_commonViews (n : Nat) {c d v w : ClassType} (hc : c.head ≠ .nil)
    (hd : d.head ≠ .nil) (hviews : h.commonViews? c d = some (v, w)) :
    ∃ m, h.mergeWithin .degrade (n + 1) .covariant (.classType c) (.classType d)
      = .ok (.classType m) ∧ m.head = v.head := by
  by_cases hcd : TypeExpr.classType c = .classType d
  · obtain rfl := TypeExpr.classType.inj hcd
    obtain ⟨y, hy, -, hv, -⟩ := commonViews?_eq_some.1 hviews
    refine ⟨c, mergeWithin_self .., ?_⟩
    rw [(view_head hv).1, eq_of_leastCommonAncestor?_self hy]
  · obtain ⟨types, htypes⟩ := exists_mergeArguments (h.exists_mergeWithin n)
      (h.variances v.head) v.types w.types
    refine ⟨⟨v.head, types, v.muls.zipWith .join w.muls⟩, ?_, rfl⟩
    rw [mergeWithin_classType _ _ hcd hc hd, hviews]
    simp only [htypes]
    rfl

/-- A class type is viewed as one of another class just if a walk of at most 65 generalizations
leads there, and then as what its arguments come to along such a walk. Where the top class
generalizes nothing, the classes that this goes for are the ancestors at a distance of at most 65,
apart from the top class. If there are no others, merging never ends at the top class because a view
is missing. -/
theorem view_reaches (h : Hierarchy) :
    (∀ c y, (h.view? c y).isSome ↔ ∃ walk, h.Walk c.head walk y ∧ walk.length ≤ 65)
      ∧ (∀ c y v, h.view? c y = some v →
        ∃ walk, h.Walk c.head walk y ∧ walk.length ≤ 65 ∧ v = c.along walk)
      ∧ ((∀ d, h.find? .any = some d → d.generalizations = []) → ∀ c y, y ≠ .any →
        ((h.view? c y).isSome ↔ y ∈ h.ancestors c.head ∧ h.distance c.head y ≤ 65))
      ∧ (h.HeightAtMost 65 → ∀ n c d y, c.head ≠ .nil → d.head ≠ .nil →
        h.leastCommonAncestor? c.head d.head = some y → y ≠ .any →
          (∃ v w, h.view? c y = some v ∧ h.view? d y = some w)
          ∧ ∃ m, h.mergeWithin .degrade (n + 1) .covariant (.classType c) (.classType d)
            = .ok (.classType m) ∧ m.head = y) := by
  refine ⟨fun c y => view?_isSome_iff, fun c y v => viewWithin_along maxSteps,
    fun hany c y hy => ?_, fun hheight n c d y hc hd hlca hy => ?_⟩
  · rw [mem_ancestors]
    constructor
    · intro hview
      obtain ⟨walk, hwalk, hlength⟩ := view?_isSome_iff.1 hview
      have hsteps := hwalk.steps hany
      exact ⟨hsteps.reaches, hsteps.distance_le.trans hlength⟩
    · rintro ⟨hup, hnear⟩
      exact view?_isSome_of_distance hup hy hnear
  · obtain ⟨v, w, hv, hw⟩ := HeightAtMost.exists_views hheight hlca hy
    have hviews := commonViews?_eq_some.2 ⟨y, hlca, hy, hv, hw⟩
    obtain ⟨m, hm, hhead⟩ := mergeWithin_of_commonViews n hc hd hviews
    exact ⟨⟨v, w, hv, hw⟩, m, hm, hhead.trans (view_head hv).1⟩

/-- Of the preloaded classes, none is more than one step below another one. -/
theorem heightAtMost_preloaded : preloaded.HeightAtMost 65 := by
  intro x y hup hy
  rcases Relation.ReflTransGen.cases_head hup with rfl | ⟨z, hz, hzy⟩
  · rw [distance_start]
    exact Nat.zero_le _
  have hzany : z ≠ .any := by
    rintro rfl
    exact hy (Reaches.eq_any hzy)
  obtain ⟨d, hd, g, hg, rfl⟩ := (mem_directSupertypes hz).2.resolve_left hzany
  have hlast : preloaded.directSupertypes g.head = [.any] := by
    rcases generalizations_preloaded hd hg with ⟨-, rfl⟩ | ⟨-, -, rfl⟩ <;> decide
  rcases Relation.ReflTransGen.cases_head hzy with rfl | ⟨w, hw, hwy⟩
  · exact (Steps.tail .refl hz).distance_le.trans (by decide)
  · rw [hlast, List.mem_singleton] at hw
    subst hw
    exact absurd (Reaches.eq_any hwy) hy

/-- A lambda function is a function one step up, and merges with functions to one. -/
theorem view_reaches_function : (∀ d, preloaded.find? .any = some d → d.generalizations = [])
    ∧ preloaded.HeightAtMost 65
    ∧ (ClassName.function ∈ preloaded.ancestors "LambdaFunction"
      ∧ preloaded.distance "LambdaFunction" .function ≤ 65)
    ∧ (∃ walk, preloaded.Walk "LambdaFunction" walk .function ∧ walk.length ≤ 65
      ∧ ⟨.function, [.atom "Integer"], []⟩
        = ClassType.along ⟨"LambdaFunction", [.atom "Integer"], []⟩ walk)
    ∧ ∃ m, preloaded.mergeWithin .degrade 1 .covariant
        (.classType ⟨"LambdaFunction", [.atom "Integer"], []⟩)
        (.classType ⟨.function, [.atom "Float"], []⟩) = .ok (.classType m)
      ∧ m.head = .function := by
  have hany : ∀ d, preloaded.find? .any = some d → d.generalizations = [] :=
    fun d => preloaded_wellFormed.extremes .any d (.inl rfl)
  have hview : preloaded.view? ⟨"LambdaFunction", [.atom "Integer"], []⟩ .function
      = some ⟨.function, [.atom "Integer"], []⟩ := by
    with_unfolding_all rfl
  have hlca : preloaded.leastCommonAncestor? "LambdaFunction" .function = some .function := by
    with_unfolding_all rfl
  obtain ⟨-, halong, hancestors, hmerge⟩ := view_reaches preloaded
  refine ⟨hany, heightAtMost_preloaded, ?_, halong _ _ _ hview, ?_⟩
  · exact (hancestors hany ⟨"LambdaFunction", [.atom "Integer"], []⟩ .function (by decide)).1
      (Option.isSome_iff_exists.2 ⟨_, hview⟩)
  · exact (hmerge heightAtMost_preloaded 0 ⟨"LambdaFunction", [.atom "Integer"], []⟩
      ⟨.function, [.atom "Float"], []⟩ .function (by decide) (by decide) hlca (by decide)).2

end Hierarchy

end ScopedInference
