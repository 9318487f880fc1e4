import ScopedInference.Proofs.Hierarchy.Joins
import ScopedInference.Workload

/-!
# Merging within lists

Lists of two types merge to the list of what the types merge to, one level deeper
(`mergeWithin_listed`). So two types within so many lists each merge as they do on their own, with
as many levels less to go (`mergeWithin_nestedList`). For class types without arguments any level
does, but it takes one: below 65 lists none is left, and whatever differs there comes to the top
type (`commonSupertype_nestedLists`).
-/

namespace ScopedInference

namespace Workload

theorem nestedList_add (m : Nat) : ∀ (n : Nat) (t : TypeExpr),
    nestedList (m + n) t = nestedList m (nestedList n t)
  | 0, _ => rfl
  | n + 1, t => nestedList_add m n (.classType ⟨"List", [t], []⟩)

theorem nestedList_injective : ∀ n : Nat, Function.Injective (nestedList n)
  | 0, _, _, heq => heq
  | n + 1, t, u, heq => by
    have := nestedList_injective n heq
    simpa using this

theorem isConcrete_nestedList {t : TypeExpr} (ht : t.isConcrete) : ∀ n : Nat,
    (nestedList n t).isConcrete
  | 0 => ht
  | n + 1 => by
    rw [nestedList_succ]
    rfl

end Workload

namespace Hierarchy

open Workload

variable {h : Hierarchy} {x y l r : ClassName} {t u : TypeExpr}

/-! ### Lists -/

section

variable (hlist : h.find? "List" = preloaded.find? "List")
include hlist

/-- Only the top class lies above lists. -/
theorem reaches_lists (hup : h.Reaches "List" y) : y = "List" ∨ y = .any := by
  have hdirect : h.directSupertypes "List" = [.any] := by
    rw [directSupertypes, if_neg (by decide), hlist]
    rfl
  rcases Relation.ReflTransGen.cases_head hup with heq | ⟨z, hz, hup⟩
  · exact .inl heq.symm
  · rw [hdirect, List.mem_singleton] at hz
    subst hz
    exact .inr (Reaches.eq_any hup)

theorem leastCommonAncestor?_lists : h.leastCommonAncestor? "List" "List" = some "List" := by
  have hminimal : ∀ y, h.CommonAncestor "List" "List" y → h.isSubtype y "List" → y = "List" := by
    rintro y ⟨hup, -⟩ hsub
    refine (reaches_lists hlist hup).resolve_right ?_
    rintro rfl
    rcases isSubtype_iff.1 hsub with hany | hnil | hup
    · exact absurd hany (by decide)
    · exact absurd hnil (by decide)
    · exact absurd hup.eq_any (by decide)
  refine leastCommonAncestor?_eq_some_iff.2 ⟨⟨⟨.refl, .refl⟩, hminimal⟩, fun y hy => ?_⟩
  have hsub : h.isSubtype "List" y := isSubtype_iff.2 (.inr (.inr hy.common.1))
  exact (hy.minimal "List" ⟨.refl, .refl⟩ hsub).symm

theorem mergeWithin_listed (policy : ConflictPolicy) (n : Nat) (hne : t ≠ u) :
    h.mergeWithin policy (n + 1) .covariant (.classType ⟨"List", [t], []⟩)
        (.classType ⟨"List", [u], []⟩)
      = (h.mergeWithin policy n .covariant t u).map fun m => .classType ⟨"List", [m], []⟩ := by
  have hviews : h.commonViews? ⟨"List", [t], []⟩ ⟨"List", [u], []⟩
      = some (⟨"List", [t], []⟩, ⟨"List", [u], []⟩) :=
    commonViews?_eq_some.2
      ⟨"List", leastCommonAncestor?_lists hlist, by decide, view?_self _, view?_self _⟩
  have hvariances : h.variances "List" = [.covariant] := by
    rw [variances, hlist]
    rfl
  have hnil : "List" ≠ ClassName.nil := by decide
  rw [mergeWithin_classType _ _ (by simpa using hne) hnil hnil, hviews]
  simp only [hvariances, mergeArguments, List.headD_cons]
  rcases hm : h.mergeWithin policy n .covariant t u with e | m <;> rfl

theorem mergeWithin_nestedList (policy : ConflictPolicy) (hne : t ≠ u) (k : Nat) : ∀ n : Nat,
    h.mergeWithin policy (k + n) .covariant (nestedList n t) (nestedList n u)
      = (h.mergeWithin policy k .covariant t u).map (nestedList n)
  | 0 => by
    show _ = (h.mergeWithin policy k .covariant t u).map id
    rw [Except.map_id]
    rfl
  | n + 1 => by
    have hne' : nestedList n t ≠ nestedList n u := (nestedList_injective n).ne hne
    rw [nestedList_succ, nestedList_succ, ← Nat.add_assoc, mergeWithin_listed hlist _ _ hne',
      mergeWithin_nestedList policy hne k n]
    rcases h.mergeWithin policy k .covariant t u with e | m
    · rfl
    · show Except.ok _ = Except.ok _
      rw [nestedList_succ]

end

/-! ### Levels -/

/-- Class types without arguments have nothing to merge further down. -/
theorem mergeWithin_atoms (policy : ConflictPolicy) (hl : h.PlainFrom l) (hr : h.PlainFrom r)
    (m n : Nat) : h.mergeWithin policy (m + 1) .covariant (.atom l) (.atom r)
      = h.mergeWithin policy (n + 1) .covariant (.atom l) (.atom r) := by
  by_cases hlr : l = r
  · rw [hlr, mergeWithin_self, mergeWithin_self]
  by_cases hlnil : l = .nil
  · subst hlnil
    have hrnil : r ≠ .nil := Ne.symm hlr
    rw [(mergeWithin_nil _ _ hrnil).1, (mergeWithin_nil _ _ hrnil).1]
  by_cases hrnil : r = .nil
  · rw [hrnil, (mergeWithin_nil _ _ hlnil).2, (mergeWithin_nil _ _ hlnil).2]
  have hne : TypeExpr.classType ⟨l, [], []⟩ ≠ .classType ⟨r, [], []⟩ := by
    simpa using hlr
  rw [TypeExpr.atom, TypeExpr.atom, mergeWithin_classType _ _ hne hlnil hrnil,
    mergeWithin_classType _ _ hne hlnil hrnil]
  rcases hviews : h.commonViews? ⟨l, [], []⟩ ⟨r, [], []⟩ with _ | ⟨v, w⟩
  · rfl
  · obtain ⟨y, -, -, hv, hw⟩ := commonViews?_eq_some.1 hviews
    rw [hl.viewWithin_bare hv, hr.viewWithin_bare hw]
    rfl

theorem mergeWithin_zero (hne : t ≠ u) (ht : t.isConcrete) (hu : u.isConcrete) :
    h.mergeWithin .degrade 0 .covariant t u = .ok .top := by
  unfold mergeWithin
  rw [if_neg hne, ht, hu]
  rfl

/-- Different class types without arguments merge within up to 64 lists as they do on their own.
From any deeper, 65 lists of the top type are left. -/
theorem commonSupertype_nestedLists (hlist : h.find? "List" = preloaded.find? "List")
    (hne : l ≠ r) (hl : h.PlainFrom l) (hr : h.PlainFrom r) :
    ∃ t, h.commonSupertype .covariant .degrade [.atom l, .atom r] = .ok t
      ∧ (∀ n ≤ 64, h.commonSupertype .covariant .degrade
        [nestedList n (.atom l), nestedList n (.atom r)] = .ok (nestedList n t))
      ∧ ∀ n > 64, h.commonSupertype .covariant .degrade
        [nestedList n (.atom l), nestedList n (.atom r)] = .ok (nestedList 65 .top) := by
  have hatoms : TypeExpr.atom l ≠ .atom r := by
    simpa [TypeExpr.atom] using hne
  obtain ⟨t, ht⟩ := h.exists_mergeWithin 65 .covariant (.atom l) (.atom r)
  simp only [commonSupertype_pair, merge, maxMergeDepth]
  refine ⟨t, ht, fun n hn => ?_, fun n hn => ?_⟩
  · have hlevels : 65 = (64 - n + 1) + n := by omega
    rw [hlevels, mergeWithin_nestedList hlist _ hatoms,
      mergeWithin_atoms _ hl hr _ 64, ht]
    rfl
  · obtain ⟨k, rfl⟩ := Nat.exists_eq_add_of_le hn
    have hdeep : nestedList k (.atom l) ≠ nestedList k (.atom r) :=
      (nestedList_injective k).ne hatoms
    rw [nestedList_add, nestedList_add]
    refine (mergeWithin_nestedList hlist .degrade hdeep 0 65).trans ?_
    rw [mergeWithin_zero hdeep (isConcrete_nestedList rfl k) (isConcrete_nestedList rfl k)]
    rfl

/-- Integers and floats within lists come to numbers, as long as they are not in too deep. -/
theorem commonSupertype_nestedLists_numbers :
    preloaded.PlainFrom "Integer" ∧ preloaded.PlainFrom "Float"
      ∧ preloaded.commonSupertype .covariant .degrade
        [nestedList 64 (.atom "Integer"), nestedList 64 (.atom "Float")]
        = .ok (nestedList 64 (.atom "Number"))
      ∧ preloaded.commonSupertype .covariant .degrade
        [nestedList 65 (.atom "Integer"), nestedList 65 (.atom "Float")]
        = .ok (nestedList 65 .top) := by
  have hl : preloaded.PlainFrom "Integer" := plainFrom_preloaded (by decide)
  have hr : preloaded.PlainFrom "Float" := plainFrom_preloaded (by decide)
  obtain ⟨t, ht, hshallow, hdeep⟩ := commonSupertype_nestedLists rfl (by decide) hl hr
  have hnumber : preloaded.commonSupertype .covariant .degrade [.atom "Integer", .atom "Float"]
      = .ok (.atom "Number") := by
    with_unfolding_all rfl
  obtain rfl := Except.ok.inj (ht.symm.trans hnumber)
  exact ⟨hl, hr, hshallow 64 le_rfl, hdeep 65 (Nat.lt_succ_self 64)⟩

end Hierarchy

end ScopedInference
