import Mathlib.Data.Finset.Card
import Mathlib.Data.Fintype.EquivFin
import ScopedInference.Proofs.Hierarchy.WellFormed

/-!
# What lies above a class

A class reaches those that its direct supertypes lead to, however circular the hierarchy is. The
search for ancestors finds them all, each once (`mem_ancestors`, `nodup_ancestors`): the layers that
it allows are enough, as each but the last two expands a declared class. Subtyping and the least
common ancestor are then said without the search (`isSubtype_iff`,
`leastCommonAncestor?_eq_some_iff`). Subtyping is a preorder as long as nothing else generalizes the
bottom class, which counts as below everything.
-/

namespace ScopedInference

/-- An element is kept only where it occurs first. -/
theorem nodup_eraseDups {α : Type} [DecidableEq α] : ∀ l : List α, l.eraseDups.Nodup
  | [] => List.nodup_nil
  | x :: l => by
    rw [List.eraseDups_cons, List.nodup_cons, List.mem_eraseDups]
    exact ⟨by simp, nodup_eraseDups _⟩
termination_by l => l.length
decreasing_by exact Nat.lt_succ_of_le (List.length_filter_le _ _)

namespace Hierarchy

/-- Direct supertypes lead from one class to the other. -/
def Reaches (h : Hierarchy) : ClassName → ClassName → Prop :=
  Relation.ReflTransGen fun y x => x ∈ h.directSupertypes y

variable {h : Hierarchy}

/-! ### The search is complete -/

/-- With every class, those directly above it. -/
def Closed (h : Hierarchy) (l : List ClassName) : Prop :=
  ∀ y ∈ l, ∀ x ∈ h.directSupertypes y, x ∈ l

theorem Closed.mem_of_reaches {l : List ClassName} (hl : h.Closed l) {y x : ClassName} (hy : y ∈ l)
    (hup : h.Reaches y x) : x ∈ l := by
  induction hup with
  | refl => exact hy
  | tail _ hx ih => exact hl _ ih _ hx

/-- What is above the classes seen has been seen too, but for the last layer. -/
structure Frontier (h : Hierarchy) (seen layer : List ClassName) : Prop where
  subset : layer ⊆ seen
  expanded : ∀ y ∈ seen, y ∉ layer → ∀ x ∈ h.directSupertypes y, x ∈ seen

theorem Frontier.next {seen layer : List ClassName} (hf : h.Frontier seen layer) :
    h.Frontier (seen ++ h.nextLayer seen layer) (h.nextLayer seen layer) where
  subset := List.subset_append_right _ _
  expanded := by
    intro y hy hnew x hx
    have hy : y ∈ seen := (List.mem_append.1 hy).resolve_right hnew
    by_cases hseen : x ∈ seen
    · exact List.mem_append_left _ hseen
    by_cases hlayer : y ∈ layer
    · exact List.mem_append_right _ (mem_nextLayer.2 ⟨⟨y, hlayer, hx⟩, hseen⟩)
    · exact absurd (hf.expanded y hy hlayer x hx) hseen

/-- A layer with nothing above it is the last one. -/
theorem Frontier.closed {seen layer : List ClassName} (hf : h.Frontier seen layer)
    (hlast : ∀ y ∈ layer, h.directSupertypes y = []) : h.Closed seen := by
  intro y hy x hx
  by_cases hlayer : y ∈ layer
  · rw [hlast y hlayer] at hx
    exact absurd hx (List.not_mem_nil)
  · exact hf.expanded y hy hlayer x hx

theorem climb_of_last {seen layer : List ClassName}
    (hlast : ∀ y ∈ layer, h.directSupertypes y = []) : ∀ n, h.climb n seen layer = seen := by
  have hnext : h.nextLayer seen layer = [] := by
    refine List.eq_nil_iff_forall_not_mem.2 fun x hx => ?_
    obtain ⟨⟨y, hy, hx⟩, -⟩ := mem_nextLayer.1 hx
    rw [hlast y hy] at hx
    exact absurd hx (List.not_mem_nil)
  have hempty : ∀ n, h.climb n seen [] = seen := by
    intro n
    induction n with
    | zero => rfl
    | succ n ih => simpa [climb, nextLayer] using ih
  intro n
  cases n with
  | zero => rfl
  | succ n => rw [climb, hnext, List.append_nil, hempty]

theorem directSupertypes_any : h.directSupertypes .any = [] := by
  rw [directSupertypes, if_pos rfl]

theorem directSupertypes_of_not_mem {y : ClassName} (hy : y ∉ h.classes.keys) {x : ClassName}
    (hx : x ∈ h.directSupertypes y) : x = .any := by
  have hnone : h.find? y = none := by
    rw [Std.ExtTreeMap.mem_keys] at hy
    exact Std.ExtTreeMap.getElem?_eq_none hy
  unfold directSupertypes at hx
  split at hx
  · exact absurd hx List.not_mem_nil
  · rw [hnone] at hx
    exact List.mem_singleton.1 hx

/-- The declared classes whose supertypes have not been looked at. -/
def unexpanded (h : Hierarchy) (seen layer : List ClassName) : Finset ClassName :=
  h.classes.keys.toFinset.filter fun y => y ∉ seen ∨ y ∈ layer

theorem card_unexpanded_next {seen layer : List ClassName} (hf : h.Frontier seen layer)
    {y : ClassName} (hy : y ∈ layer) (hdeclared : y ∈ h.classes.keys) :
    (h.unexpanded (seen ++ h.nextLayer seen layer) (h.nextLayer seen layer)).card
      < (h.unexpanded seen layer).card := by
  refine Finset.card_lt_card (Finset.ssubset_iff_of_subset ?_ |>.2 ⟨y, ?_, ?_⟩)
  · intro x hx
    simp only [unexpanded, Finset.mem_filter, List.mem_toFinset, List.mem_append, not_or] at hx ⊢
    refine ⟨hx.1, .inl ?_⟩
    rcases hx.2 with ⟨hseen, -⟩ | hnext
    · exact hseen
    · exact (mem_nextLayer.1 hnext).2
  · simp [unexpanded, hy, hdeclared]
  · have hseen := hf.subset hy
    have hnext : y ∉ h.nextLayer seen layer := fun hnext => (mem_nextLayer.1 hnext).2 hseen
    simp [unexpanded, hseen, hnext]

/-- Each layer with a declared class in it leaves fewer of them; one without is followed by the top
class alone. -/
theorem climb_closed : ∀ (n : Nat) {seen layer : List ClassName}, h.Frontier seen layer →
    (h.unexpanded seen layer).card < n → h.Closed (h.climb n seen layer)
  | n + 1, seen, layer, hf, hn => by
    rw [climb]
    by_cases hdeclared : ∃ y ∈ layer, y ∈ h.classes.keys
    · obtain ⟨y, hy, hdeclared⟩ := hdeclared
      have := card_unexpanded_next hf hy hdeclared
      exact climb_closed n hf.next (by omega)
    · have hlast : ∀ x ∈ h.nextLayer seen layer, h.directSupertypes x = [] := by
        intro x hx
        obtain ⟨⟨y, hy, hx⟩, -⟩ := mem_nextLayer.1 hx
        rw [directSupertypes_of_not_mem (fun hkey => hdeclared ⟨y, hy, hkey⟩) hx,
          directSupertypes_any]
      rw [climb_of_last hlast]
      exact hf.next.closed hlast

/-- Further layers come behind what has been seen. -/
theorem prefix_climb : ∀ (n : Nat) {seen layer : List ClassName}, seen <+: h.climb n seen layer
  | 0, _, _ => List.prefix_rfl
  | n + 1, _, _ => (List.prefix_append _ _).trans (prefix_climb n)

theorem nodup_climb : ∀ (n : Nat) {seen layer : List ClassName}, seen.Nodup →
    (h.climb n seen layer).Nodup
  | 0, _, _, hseen => hseen
  | n + 1, seen, layer, hseen => by
    refine nodup_climb n (List.nodup_append.2 ⟨hseen, (nodup_eraseDups _).filter _, ?_⟩)
    rintro x hx _ hnext rfl
    exact (mem_nextLayer.1 hnext).2 hx

/-- The ancestors of a class are the classes that it reaches. -/
theorem mem_ancestors {sub sup : ClassName} : sup ∈ h.ancestors sub ↔ h.Reaches sub sup := by
  constructor
  · intro hx
    rcases mem_climb _ hx with hx | ⟨y, hy, hup⟩
    · rw [List.mem_singleton.1 hx]
      exact .refl
    · rw [← List.mem_singleton.1 hy]
      exact hup.to_reflTransGen
  · have hf : h.Frontier [sub] [sub] := ⟨List.Subset.refl _, fun y hy hnew => absurd hy hnew⟩
    have hcard : (h.unexpanded [sub] [sub]).card < h.classes.size + 2 := by
      have hle : (h.unexpanded [sub] [sub]).card ≤ h.classes.keys.length :=
        (Finset.card_filter_le _ _).trans (List.toFinset_card_le _)
      rw [Std.ExtTreeMap.length_keys] at hle
      omega
    have hself : sub ∈ h.ancestors sub := (prefix_climb _).subset (List.mem_singleton.2 rfl)
    exact (climb_closed _ hf hcard).mem_of_reaches hself

theorem nodup_ancestors (h : Hierarchy) (name : ClassName) : (h.ancestors name).Nodup :=
  nodup_climb _ (List.nodup_singleton name)

/-! ### Subtypes -/

theorem Reaches.eq_any {x : ClassName} (hx : h.Reaches .any x) : x = .any := by
  rcases Relation.ReflTransGen.cases_head hx with rfl | ⟨y, hy, -⟩
  · rfl
  · rw [directSupertypes_any] at hy
    exact absurd hy List.not_mem_nil

/-- Nothing is a subtype but by what is declared, the bottom class below all and the top class above
all apart. -/
theorem isSubtype_iff {sub sup : ClassName} :
    h.isSubtype sub sup ↔ sup = .any ∨ sub = .nil ∨ h.Reaches sub sup := by
  unfold isSubtype
  split
  · rename_i heq
    refine iff_of_true rfl ?_
    rcases heq with rfl | hany | hnil
    · exact .inr (.inr .refl)
    · exact .inl hany
    · exact .inr (.inl hnil)
  · rename_i hne
    obtain ⟨heq, hany, hnil⟩ : sub ≠ sup ∧ sup ≠ .any ∧ sub ≠ .nil := by simpa using hne
    split
    · rename_i htop
      subst htop
      refine iff_of_false Bool.false_ne_true ?_
      rintro (hsup | hsub | hup)
      · exact hany hsup
      · exact hnil hsub
      · exact hany hup.eq_any
    · rw [decide_eq_true_eq, mem_ancestors]
      simp [hany, hnil]

theorem isSubtype_of_reaches {x y c : ClassName} (hxy : h.isSubtype x y) (hyc : h.Reaches y c) :
    h.isSubtype x c := by
  rw [isSubtype_iff] at hxy ⊢
  rcases hxy with rfl | hx | hxy
  · exact .inl hyc.eq_any
  · exact .inr (.inl hx)
  · exact .inr (.inr (hxy.trans hyc))

/-- Every way up to the bottom class ends with a class that generalizes it. -/
theorem Reaches.eq_nil (hnil : ∀ name, h.Extends name .nil → name = .any ∨ name = .nil)
    {x : ClassName} (hx : h.Reaches x .nil) : x = .nil := by
  induction hx using Relation.ReflTransGen.head_induction_on with
  | refl => rfl
  | head hx _ ih =>
    subst ih
    obtain ⟨hne, hup⟩ := mem_directSupertypes hx
    exact (hnil _ (hup.resolve_left (by decide))).resolve_left hne

/-- Only the bottom class is below all classes: there are more names than ancestors. -/
theorem exists_not_isSubtype {name : ClassName} (hne : name ≠ .nil) :
    ∃ c, h.isSubtype name c = false := by
  obtain ⟨c, hc⟩ := Infinite.exists_notMem_finset (insert .any (h.ancestors name).toFinset)
  rw [Finset.mem_insert, List.mem_toFinset, mem_ancestors, not_or] at hc
  refine ⟨c, Bool.eq_false_iff.2 fun hsub => ?_⟩
  rcases isSubtype_iff.1 hsub with hany | hnil | hup
  · exact hc.1 hany
  · exact hne hnil
  · exact hc.2 hup

/-- Subtyping is reflexive, between the bottom and the top class. It is transitive if and only if no
other declared class generalizes the bottom class. -/
theorem isSubtype_preorder (h : Hierarchy) :
    (∀ a, h.isSubtype a a) ∧ (∀ a, h.isSubtype a .any) ∧ (∀ a, h.isSubtype .nil a)
      ∧ ((∀ a b c, h.isSubtype a b → h.isSubtype b c → h.isSubtype a c)
        ↔ ∀ name, h.Extends name .nil → name = .any ∨ name = .nil) := by
  refine ⟨fun a => isSubtype_iff.2 (.inr (.inr .refl)), fun a => isSubtype_iff.2 (.inl rfl),
    fun a => isSubtype_iff.2 (.inr (.inl rfl)), ?_, ?_⟩
  · intro htrans name hext
    by_contra hother
    obtain ⟨hany, hnil⟩ := not_or.1 hother
    obtain ⟨c, hc⟩ := exists_not_isSubtype (h := h) hnil
    have hup : h.Reaches name .nil := .single (mem_directSupertypes_of_extends hany hext)
    have hsub : h.isSubtype name c := htrans name .nil c
      (isSubtype_iff.2 (.inr (.inr hup))) (isSubtype_iff.2 (.inr (.inl rfl)))
    rw [hc] at hsub
    exact Bool.false_ne_true hsub
  · intro hnil a b c hab hbc
    rcases isSubtype_iff.1 hbc with rfl | rfl | hbc
    · exact isSubtype_iff.2 (.inl rfl)
    · -- Below everything because it is the bottom class: then so is what is below it
      rcases isSubtype_iff.1 hab with hany | rfl | hab
      · exact absurd hany (by decide)
      · exact isSubtype_iff.2 (.inr (.inl rfl))
      · exact isSubtype_iff.2 (.inr (.inl (hab.eq_nil hnil)))
    · exact isSubtype_of_reaches hab hbc

/-! ### Common ancestors -/

def CommonAncestor (h : Hierarchy) (a b c : ClassName) : Prop := h.Reaches a c ∧ h.Reaches b c

/-- No other common ancestor counts as a subtype of it. -/
structure MinimalCommonAncestor (h : Hierarchy) (a b c : ClassName) : Prop where
  common : h.CommonAncestor a b c
  minimal : ∀ d, h.CommonAncestor a b d → h.isSubtype d c → d = c

theorem mem_minimalCommonAncestors {a b c : ClassName} :
    c ∈ h.minimalCommonAncestors a b ↔ h.MinimalCommonAncestor a b c := by
  simp only [minimalCommonAncestors, List.mem_filter, decide_eq_true_eq, mem_ancestors,
    Bool.not_eq_true', List.any_eq_false, not_and]
  constructor
  · rintro ⟨hcommon, hminimal⟩
    refine ⟨hcommon, fun d hd hsub => ?_⟩
    by_contra hne
    exact hminimal d hd hne hsub
  · rintro ⟨hcommon, hminimal⟩
    exact ⟨hcommon, fun d hd hne hsub => hne (hminimal d hd hsub)⟩

theorem nodup_minimalCommonAncestors (h : Hierarchy) (a b : ClassName) :
    (h.minimalCommonAncestors a b).Nodup :=
  ((h.nodup_ancestors a).filter _).filter _

/-- The least common ancestor is the only minimal one. -/
theorem leastCommonAncestor?_eq_some_iff {a b c : ClassName} :
    h.leastCommonAncestor? a b = some c
      ↔ h.MinimalCommonAncestor a b c ∧ ∀ d, h.MinimalCommonAncestor a b d → d = c := by
  have hnodup := h.nodup_minimalCommonAncestors a b
  simp only [← mem_minimalCommonAncestors, leastCommonAncestor?]
  revert hnodup
  rcases h.minimalCommonAncestors a b with _ | ⟨d, _ | ⟨e, l⟩⟩ <;> intro hnodup
  · simp
  · simp [eq_comm]
  · refine iff_of_false (by simp) ?_
    rintro ⟨-, honly⟩
    have hd := honly d List.mem_cons_self
    have he := honly e (List.mem_cons_of_mem d List.mem_cons_self)
    rw [hd, he] at hnodup
    exact absurd hnodup (by simp)

theorem existsUnique_minimalCommonAncestor {a b : ClassName} :
    (∃! c, h.MinimalCommonAncestor a b c) ↔ (h.leastCommonAncestor? a b).isSome := by
  rw [Option.isSome_iff_exists]
  exact exists_congr fun _ => leastCommonAncestor?_eq_some_iff.symm

theorem MinimalCommonAncestor.symm {a b c : ClassName} (hc : h.MinimalCommonAncestor a b c) :
    h.MinimalCommonAncestor b a c :=
  ⟨hc.common.symm, fun d hd => hc.minimal d hd.symm⟩

theorem leastCommonAncestor?_comm (h : Hierarchy) (a b : ClassName) :
    h.leastCommonAncestor? a b = h.leastCommonAncestor? b a := by
  refine Option.ext fun c => ?_
  rw [leastCommonAncestor?_eq_some_iff, leastCommonAncestor?_eq_some_iff]
  exact ⟨fun hc => ⟨hc.1.symm, fun d hd => hc.2 d hd.symm⟩,
    fun hc => ⟨hc.1.symm, fun d hd => hc.2 d hd.symm⟩⟩

/-- A least common ancestor is also the one that it has with either class. -/
theorem leastCommonAncestor?_absorb {a b c : ClassName} (hc : h.leastCommonAncestor? a b = some c) :
    h.leastCommonAncestor? c b = some c := by
  obtain ⟨⟨⟨ha, hb⟩, hminimal⟩, -⟩ := leastCommonAncestor?_eq_some_iff.1 hc
  refine leastCommonAncestor?_eq_some_iff.2 ⟨⟨⟨.refl, hb⟩, fun d hd => ?_⟩, fun d hd => ?_⟩
  · exact hminimal d ⟨ha.trans hd.1, hd.2⟩
  · exact (hd.minimal c ⟨.refl, hb⟩ (isSubtype_iff.2 (.inr (.inr hd.common.1)))).symm

end Hierarchy

end ScopedInference
