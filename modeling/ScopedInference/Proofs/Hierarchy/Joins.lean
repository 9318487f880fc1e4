import Mathlib.Data.Finset.Max
import Mathlib.Data.Nat.Find
import ScopedInference.Proofs.Hierarchy.Merge

/-!
# Joins of classes

Among classes whose generalizations take no arguments and do not go on too long (`PlainAbove`), any
common ancestor of two lies above a minimal one (`PlainAbove.exists_minimal`). If there is just one,
it is their least upper bound, and class types without arguments merge to it (`merge_atom`). Where
all pairs have one, joining a list one by one gives the least class above all of it (`Joined`), in
whatever order.
-/

namespace ScopedInference

namespace Hierarchy

/-- The class generalizes only class types without arguments. -/
def Plain (h : Hierarchy) (name : ClassName) : Prop :=
  ∀ d, h.find? name = some d → ∀ g ∈ d.generalizations, g.types = [] ∧ g.muls = []

/-- Nothing above a class, however it is reached, has arguments. -/
def PlainFrom (h : Hierarchy) (x : ClassName) : Prop :=
  ∀ y, Relation.ReflTransGen h.Extends x y → h.Plain y

/-- A number of generalizations, from class to class below the top class. -/
inductive Chain (h : Hierarchy) : Nat → ClassName → ClassName → Prop where
  | refl (c) : Chain h 0 c c
  | step {n c d e} : c ≠ .any → d ≠ .any → h.Extends c d → Chain h n d e → Chain h (n + 1) c e

/-- Classes with all that lies above them. Below the top class they generalize class types without
arguments, and only so often that views follow; so none is above itself. -/
structure PlainAbove (h : Hierarchy) (S : Set ClassName) : Prop where
  any_mem : .any ∈ S
  nil_not_mem : .nil ∉ S
  closed : ∀ y ∈ S, ∀ x ∈ h.directSupertypes y, x ∈ S
  plain : ∀ y ∈ S, y ≠ .any → h.Plain y
  short : ∀ n c d, c ∈ S → h.Chain n c d → n ≤ maxSteps

variable {h : Hierarchy} {S : Set ClassName} {x y c m : ClassName}

/-! ### The order of the classes -/

theorem exists_mem_directSupertypes (hx : x ≠ .any) : ∃ y, y ∈ h.directSupertypes x := by
  unfold directSupertypes
  rw [if_neg hx]
  split
  · exact ⟨_, List.mem_cons_self⟩
  · exact ⟨_, List.mem_cons_self⟩

namespace PlainAbove

/-- Each class ranks above those that it generalizes, by its longest chain. -/
theorem exists_rank (hS : h.PlainAbove S) :
    ∃ rank : ClassName → Nat, ∀ y ∈ S, ∀ x ∈ h.directSupertypes y, rank x < rank y := by
  classical
  let longest (c : ClassName) := Nat.findGreatest (fun n => ∃ d, h.Chain n c d) maxSteps
  refine ⟨fun c => if c = .any then 0 else longest c + 1, fun y hy x hx => ?_⟩
  obtain ⟨hyany, hext⟩ := mem_directSupertypes hx
  dsimp only
  rw [if_neg hyany]
  by_cases hxany : x = .any
  · rw [if_pos hxany]
    exact Nat.succ_pos _
  rw [if_neg hxany]
  obtain ⟨d, hd⟩ : ∃ d, h.Chain (longest x) x d :=
    Nat.findGreatest_spec (P := fun n => ∃ d, h.Chain n x d) (Nat.zero_le _) ⟨x, .refl x⟩
  have hstep : h.Chain (longest x + 1) y d := .step hyany hxany (hext.resolve_left hxany) hd
  have : longest x + 1 ≤ longest y := Nat.le_findGreatest (hS.short _ _ _ hy hstep) ⟨d, hstep⟩
  omega

theorem mem_of_reaches (hS : h.PlainAbove S) (hx : x ∈ S) (hxy : h.Reaches x y) : y ∈ S := by
  induction hxy with
  | refl => exact hx
  | tail _ hy ih => exact hS.closed _ ih _ hy

theorem rank_le (hS : h.PlainAbove S) {rank : ClassName → Nat}
    (hrank : ∀ y ∈ S, ∀ x ∈ h.directSupertypes y, rank x < rank y) (hx : x ∈ S)
    (hxy : h.Reaches x y) : x = y ∨ rank y < rank x := by
  induction hxy with
  | refl => exact .inl rfl
  | tail hxz hy ih =>
    have := hrank _ (hS.mem_of_reaches hx hxz) _ hy
    rcases ih with rfl | ih
    · exact .inr this
    · exact .inr (by omega)

theorem antisymm (hS : h.PlainAbove S) (hx : x ∈ S) (hxy : h.Reaches x y) (hyx : h.Reaches y x) :
    x = y := by
  obtain ⟨rank, hrank⟩ := hS.exists_rank
  rcases hS.rank_le hrank hx hxy with heq | hlt
  · exact heq
  · rcases hS.rank_le hrank (hS.mem_of_reaches hx hxy) hyx with heq | hlt'
    · exact heq.symm
    · omega

theorem reaches_any (hS : h.PlainAbove S) (hx : x ∈ S) : h.Reaches x .any := by
  obtain ⟨rank, hrank⟩ := hS.exists_rank
  induction hn : rank x using Nat.strong_induction_on generalizing x with
  | _ n ih =>
    by_cases hany : x = .any
    · rw [hany]
      exact .refl
    · obtain ⟨y, hy⟩ := exists_mem_directSupertypes hany
      exact .head hy (ih _ (hn ▸ hrank x hx y hy) (hS.closed x hx y hy) rfl)

theorem isSubtype_iff (hS : h.PlainAbove S) (hx : x ∈ S) : h.isSubtype x y ↔ h.Reaches x y := by
  rw [Hierarchy.isSubtype_iff]
  constructor
  · rintro (rfl | rfl | hxy)
    · exact hS.reaches_any hx
    · exact absurd hx hS.nil_not_mem
    · exact hxy
  · exact fun hxy => .inr (.inr hxy)

/-- The highest ranked of the common ancestors that reach a given one is minimal. -/
theorem exists_minimal (hS : h.PlainAbove S) (hx : x ∈ S) (hc : h.CommonAncestor x y c) :
    ∃ m, h.MinimalCommonAncestor x y m ∧ h.Reaches m c := by
  obtain ⟨rank, hrank⟩ := hS.exists_rank
  classical
  let below := (h.ancestors x).toFinset.filter fun d => h.Reaches y d ∧ h.Reaches d c
  have hbelow : ∀ {d}, d ∈ below ↔ h.Reaches x d ∧ h.Reaches y d ∧ h.Reaches d c := by
    simp [below, mem_ancestors]
  obtain ⟨m, hm, hmax⟩ := below.exists_max_image rank ⟨c, hbelow.2 ⟨hc.1, hc.2, .refl⟩⟩
  obtain ⟨hxm, hym, hmc⟩ := hbelow.1 hm
  refine ⟨m, ⟨⟨hxm, hym⟩, fun d hd hsub => ?_⟩, hmc⟩
  have hdS := hS.mem_of_reaches hx hd.1
  have hdm := (hS.isSubtype_iff hdS).1 hsub
  have := hmax d (hbelow.2 ⟨hd.1, hd.2, hdm.trans hmc⟩)
  exact (hS.rank_le hrank hdS hdm).resolve_right (by omega)

theorem leastCommonAncestor?_of_reaches (hS : h.PlainAbove S) (hx : x ∈ S) (hxm : h.Reaches x m) :
    h.leastCommonAncestor? x m = some m := by
  refine leastCommonAncestor?_eq_some_iff.2 ⟨⟨⟨hxm, .refl⟩, fun d hd hsub => ?_⟩, fun d hd => ?_⟩
  · have hdS := hS.mem_of_reaches hx hd.1
    exact hS.antisymm hdS ((hS.isSubtype_iff hdS).1 hsub) hd.2
  · have hmS := hS.mem_of_reaches hx hxm
    exact (hd.minimal m ⟨hxm, .refl⟩ ((hS.isSubtype_iff hmS).2 hd.common.2)).symm

/-- The only minimal common ancestor is the least upper bound. -/
theorem reaches_of_least (hS : h.PlainAbove S) (hx : x ∈ S)
    (hm : h.leastCommonAncestor? x y = some m) (hc : h.CommonAncestor x y c) : h.Reaches m c := by
  obtain ⟨m', hm', hreach⟩ := hS.exists_minimal hx hc
  rwa [(leastCommonAncestor?_eq_some_iff.1 hm).2 m' hm'] at hreach

end PlainAbove

/-! ### Views of class types without arguments -/

theorem exists_chain (hxy : h.Reaches x y) (hy : y ≠ .any) : ∃ n, h.Chain n x y := by
  induction hxy using Relation.ReflTransGen.head_induction_on with
  | refl => exact ⟨0, .refl _⟩
  | @head x z hxz hzy ih =>
    obtain ⟨n, hn⟩ := ih
    obtain ⟨hx, hext⟩ := mem_directSupertypes hxz
    have hz : z ≠ .any := by
      rintro rfl
      exact hy (Reaches.eq_any hzy)
    exact ⟨n + 1, .step hx hz (hext.resolve_left hz) hn⟩

/-- What a class type without arguments is viewed as has none. -/
theorem PlainFrom.viewWithin_bare (hx : h.PlainFrom x) {n : Nat} {v : ClassType}
    (hv : h.viewWithin y n ⟨x, [], []⟩ = some v) : v = ⟨y, [], []⟩ := by
  have hstep : ∀ (c : ClassType) d g, h.find? c.head = some d → g ∈ d.generalizations →
      Relation.ReflTransGen h.Extends x c.head ∧ c.types = [] ∧ c.muls = [] →
      Relation.ReflTransGen h.Extends x (g.substitute (d.bindings c)).head
        ∧ (g.substitute (d.bindings c)).types = [] ∧ (g.substitute (d.bindings c)).muls = [] := by
    rintro c d g hd hg ⟨hc, -⟩
    obtain ⟨htypes, hmuls⟩ := hx _ hc d hd g hg
    refine ⟨hc.tail ⟨d, hd, g, hg, rfl⟩, ?_, ?_⟩
    · rw [ClassType.substitute, htypes, List.map_nil]
    · rw [ClassType.substitute, hmuls, List.map_nil]
  obtain ⟨-, htypes, hmuls⟩ := viewWithin_induct hstep n hv ⟨.refl, rfl, rfl⟩
  obtain ⟨rfl, -⟩ := viewWithin_head n hv
  obtain ⟨head, types, muls⟩ := v
  subst htypes hmuls
  rfl

theorem Chain.exists_walk {n : Nat} (hchain : h.Chain n x y) :
    ∃ walk, h.Walk x walk y ∧ walk.length = n := by
  induction hchain with
  | refl x => exact ⟨[], .nil x, rfl⟩
  | step _ _ hext _ ih =>
    obtain ⟨d, hd, g, hg, rfl⟩ := hext
    obtain ⟨walk, hwalk, rfl⟩ := ih
    exact ⟨(d, g) :: walk, .cons hd hg hwalk, rfl⟩

/-- What the classes and the top class generalize takes no arguments. -/
theorem PlainAbove.plainFrom (hS : h.PlainAbove S) (hany : h.PlainFrom .any) (hx : x ∈ S) :
    h.PlainFrom x := by
  intro y hxy
  have hy : y ∈ S ∧ y ≠ .any ∨ Relation.ReflTransGen h.Extends .any y := by
    induction hxy with
    | refl =>
      by_cases hxany : x = .any
      · exact .inr (hxany ▸ .refl)
      · exact .inl ⟨hx, hxany⟩
    | @tail y z _ hext ih =>
      rcases ih with ⟨hy, hyany⟩ | hy
      · by_cases hz : z = .any
        · exact .inr (hz ▸ .refl)
        · exact .inl ⟨hS.closed y hy z (mem_directSupertypes_of_extends hyany hext), hz⟩
      · exact .inr (hy.tail hext)
  rcases hy with ⟨hy, hyany⟩ | hy
  · exact hS.plain y hy hyany
  · exact hany y hy

theorem PlainAbove.view_bare (hS : h.PlainAbove S) (hany : h.PlainFrom .any) (hx : x ∈ S)
    (hxy : h.Reaches x y) (hy : y ≠ .any) : h.view? ⟨x, [], []⟩ y = some ⟨y, [], []⟩ := by
  obtain ⟨n, hn⟩ := exists_chain hxy hy
  obtain ⟨walk, hwalk, rfl⟩ := hn.exists_walk
  obtain ⟨v, hv⟩ := Option.isSome_iff_exists.1
    (view?_isSome_iff (c := ⟨x, [], []⟩) |>.2 ⟨walk, hwalk, hS.short _ x y hx hn⟩)
  rw [hv, (hS.plainFrom hany hx).viewWithin_bare hv]

/-! ### Joins -/

/-- What two class types without arguments merge to. -/
def join (h : Hierarchy) (x y : ClassName) : ClassName :=
  if x = y then x
  else if x = .nil then y
  else if y = .nil then x
  else (h.leastCommonAncestor? x y).getD .any

theorem mergeWithin_nil (policy : ConflictPolicy) (n : Nat) (hx : x ≠ .nil) :
    h.mergeWithin policy (n + 1) .covariant (.atom .nil) (.atom x) = .ok (.atom x)
      ∧ h.mergeWithin policy (n + 1) .covariant (.atom x) (.atom .nil) = .ok (.atom x) := by
  refine ⟨mergeWithin_bottom policy n rfl rfl, ?_⟩
  have hne : TypeExpr.atom x ≠ .atom .nil := by
    simpa [TypeExpr.atom] using hx
  have hbottom : ¬ (TypeExpr.atom x).isBottom := by
    simpa [TypeExpr.atom, isBottom_classType] using hx
  unfold mergeWithin
  rw [if_neg hne]
  exact (if_neg hbottom).trans (if_pos rfl)

/-- Class types without arguments merge to one. -/
theorem PlainAbove.merge_atom (hS : h.PlainAbove S) (hany : h.PlainFrom .any)
    (hx : x ∈ S ∨ x = .nil) (hy : y ∈ S ∨ y = .nil) :
    h.merge .covariant .degrade (.atom x) (.atom y) = .ok (.atom (h.join x y)) := by
  unfold merge join maxMergeDepth
  by_cases hxy : x = y
  · rw [if_pos hxy, hxy, mergeWithin_self]
  rw [if_neg hxy]
  by_cases hxnil : x = .nil
  · subst hxnil
    rw [if_pos rfl]
    exact (mergeWithin_nil _ _ (Ne.symm hxy)).1
  rw [if_neg hxnil]
  by_cases hynil : y = .nil
  · subst hynil
    rw [if_pos rfl]
    exact (mergeWithin_nil _ _ hxy).2
  rw [if_neg hynil]
  replace hx := hx.resolve_right hxnil
  replace hy := hy.resolve_right hynil
  have hne : TypeExpr.classType ⟨x, [], []⟩ ≠ .classType ⟨y, [], []⟩ := by
    simpa using hxy
  rw [TypeExpr.atom, TypeExpr.atom, mergeWithin_classType _ _ hne hxnil hynil]
  rcases hviews : h.commonViews? ⟨x, [], []⟩ ⟨y, [], []⟩ with _ | ⟨v, w⟩
  · -- Without a least common ancestor that both are viewed at, there is only the top class
    rcases hm : h.leastCommonAncestor? x y with _ | m
    · rfl
    by_cases hmany : m = .any
    · rw [hmany]
      rfl
    obtain ⟨⟨⟨hxm, hym⟩, -⟩, -⟩ := leastCommonAncestor?_eq_some_iff.1 hm
    have hsome := commonViews?_eq_some.2 ⟨m, hm, hmany, hS.view_bare hany hx hxm hmany,
      hS.view_bare hany hy hym hmany⟩
    rw [hviews] at hsome
    cases hsome
  · obtain ⟨m, hm, hmany, hv, hw⟩ := commonViews?_eq_some.1 hviews
    obtain ⟨⟨⟨hxm, hym⟩, -⟩, -⟩ := leastCommonAncestor?_eq_some_iff.1 hm
    rw [hS.view_bare hany hx hxm hmany] at hv
    rw [hS.view_bare hany hy hym hmany] at hw
    cases hv
    cases hw
    rw [hm]
    rfl

namespace PlainAbove

theorem join_of_least (hS : h.PlainAbove S) (hx : x ∈ S) (hy : y ∈ S)
    (hm : h.leastCommonAncestor? x y = some m) : h.join x y = m := by
  unfold join
  by_cases hxy : x = y
  · rw [if_pos hxy]
    subst hxy
    rw [hS.leastCommonAncestor?_of_reaches hx .refl] at hm
    exact Option.some.inj hm
  · have hxnil : x ≠ .nil := fun hnil => hS.nil_not_mem (hnil ▸ hx)
    have hynil : y ≠ .nil := fun hnil => hS.nil_not_mem (hnil ▸ hy)
    rw [if_neg hxy, if_neg hxnil, if_neg hynil, hm, Option.getD_some]

theorem join_mem (hS : h.PlainAbove S) (hx : x ∈ S ∨ x = .nil) (hy : y ∈ S ∨ y = .nil) :
    h.join x y ∈ S ∨ h.join x y = .nil := by
  unfold join
  split
  · exact hx
  split
  · exact hy
  split
  · exact hx
  rename_i hxnil _
  rcases hm : h.leastCommonAncestor? x y with _ | m
  · exact .inl hS.any_mem
  · exact .inl (hS.mem_of_reaches (hx.resolve_right hxnil)
      (leastCommonAncestor?_eq_some_iff.1 hm).1.common.1)

/-- Two classes without a least common ancestor are not joined in any order with a minimal one. -/
theorem exists_least (hS : h.PlainAbove S) (hx : x ∈ S) (hy : y ∈ S)
    (horder : ∀ m ∈ S, h.join (h.join x y) m = h.join (h.join x m) y) :
    ∃ m, h.leastCommonAncestor? x y = some m := by
  by_contra hnone
  have hne : x ≠ y := by
    rintro rfl
    exact hnone ⟨x, hS.leastCommonAncestor?_of_reaches hx .refl⟩
  obtain ⟨m, hm, -⟩ := hS.exists_minimal hx ⟨hS.reaches_any hx, hS.reaches_any hy⟩
  obtain ⟨hxm, hym⟩ := hm.common
  have hmS := hS.mem_of_reaches hx hxm
  have htop : h.join x y = .any := by
    unfold join
    have hxnil : x ≠ .nil := fun hnil => hS.nil_not_mem (hnil ▸ hx)
    have hynil : y ≠ .nil := fun hnil => hS.nil_not_mem (hnil ▸ hy)
    rw [if_neg hne, if_neg hxnil, if_neg hynil]
    rcases hm : h.leastCommonAncestor? x y with _ | m
    · rfl
    · exact absurd ⟨m, hm⟩ hnone
  have htop' : h.join .any m = .any := by
    refine hS.join_of_least hS.any_mem hmS ?_
    rw [leastCommonAncestor?_comm]
    exact hS.leastCommonAncestor?_of_reaches hmS (hS.reaches_any hmS)
  have hxjoin : h.join x m = m :=
    hS.join_of_least hx hmS (hS.leastCommonAncestor?_of_reaches hx hxm)
  have hyjoin : h.join m y = m := by
    refine hS.join_of_least hmS hy ?_
    rw [leastCommonAncestor?_comm]
    exact hS.leastCommonAncestor?_of_reaches hy hym
  have hmany := horder m hmS
  rw [htop, htop', hxjoin, hyjoin] at hmany
  -- The top class is minimal, so nothing else is
  refine hnone ⟨m, leastCommonAncestor?_eq_some_iff.2 ⟨hm, fun d hd => hm.minimal d hd.common ?_⟩⟩
  exact Hierarchy.isSubtype_iff.2 (.inl hmany.symm)

end PlainAbove

/-- The least class above all of a list but the bottom class, and the bottom class if there is
nothing else. -/
structure Joined (h : Hierarchy) (S : Set ClassName) (l : List ClassName) (c : ClassName) :
    Prop where
  nil : (∀ x ∈ l, x = .nil) → c = .nil
  mem : ¬ (∀ x ∈ l, x = .nil) → c ∈ S
  above : ∀ x ∈ l, x ≠ .nil → h.isSubtype x c
  least : ∀ e, (∀ x ∈ l, x ≠ .nil → h.isSubtype x e) → h.isSubtype c e

namespace Joined

variable {l : List ClassName}

theorem singleton (hx : x ∈ S ∨ x = .nil) : h.Joined S [x] x where
  nil hnil := hnil x (List.mem_singleton.2 rfl)
  mem hnil := by
    refine hx.resolve_right fun heq => hnil fun y hy => ?_
    rw [List.mem_singleton.1 hy, heq]
  above y hy _ := by
    rw [List.mem_singleton.1 hy, Hierarchy.isSubtype_iff]
    exact .inr (.inr .refl)
  least e he := by
    by_cases hnil : x = .nil
    · exact Hierarchy.isSubtype_iff.2 (.inr (.inl hnil))
    · exact he x (List.mem_singleton.2 rfl) hnil

/-- Joining one more class. -/
theorem snoc (hS : h.PlainAbove S)
    (hleast : ∀ x ∈ S, ∀ y ∈ S, ∃ m, h.leastCommonAncestor? x y = some m) (hl : h.Joined S l c)
    (hy : y ∈ S ∨ y = .nil) : h.Joined S (l ++ [y]) (h.join c y) := by
  have hforall : ∀ {P : ClassName → Prop}, (∀ x ∈ l ++ [y], P x) ↔ (∀ x ∈ l, P x) ∧ P y :=
    List.forall_mem_append.trans (and_congr Iff.rfl List.forall_mem_singleton)
  by_cases hynil : y = .nil
  · have hjoin : h.join c y = c := by
      unfold join
      subst hynil
      by_cases hc : c = .nil
      · rw [if_pos hc]
      · rw [if_neg hc, if_neg hc, if_pos rfl]
    rw [hjoin]
    constructor
    · exact fun hnil => hl.nil (hforall.1 hnil).1
    · exact fun hnil => hl.mem fun hall => hnil (hforall.2 ⟨hall, hynil⟩)
    · exact hforall.2 ⟨hl.above, fun hne => absurd hynil hne⟩
    · exact fun e he => hl.least e (hforall.1 he).1
  replace hy := hy.resolve_right hynil
  by_cases hc : c = .nil
  · have hall : ∀ x ∈ l, x = .nil := by
      by_contra hall
      exact hS.nil_not_mem (hc ▸ hl.mem hall)
    have hjoin : h.join c y = y := by
      unfold join
      rw [hc, if_neg (Ne.symm hynil), if_pos rfl]
    rw [hjoin]
    constructor
    · exact fun hnil => absurd (hforall.1 hnil).2 hynil
    · exact fun _ => hy
    · exact hforall.2 ⟨fun x hx hne => absurd (hall x hx) hne,
        fun _ => (hS.isSubtype_iff hy).2 .refl⟩
    · exact fun e he => (hforall.1 he).2 hynil
  have hcS : c ∈ S := hl.mem fun hall => hc (hl.nil hall)
  obtain ⟨m, hm⟩ := hleast c hcS y hy
  obtain ⟨⟨⟨hcm, hym⟩, -⟩, -⟩ := leastCommonAncestor?_eq_some_iff.1 hm
  have hmS := hS.mem_of_reaches hcS hcm
  rw [hS.join_of_least hcS hy hm]
  constructor
  · exact fun hnil => absurd (hforall.1 hnil).2 hynil
  · exact fun _ => hmS
  · exact hforall.2 ⟨fun x hx hne => isSubtype_of_reaches (hl.above x hx hne) hcm,
      fun _ => (hS.isSubtype_iff hy).2 hym⟩
  · intro e he
    have hce := (hS.isSubtype_iff hcS).1 (hl.least e (hforall.1 he).1)
    have hye := (hS.isSubtype_iff hy).1 ((hforall.1 he).2 hynil)
    exact (hS.isSubtype_iff hmS).2 (hS.reaches_of_least hcS hm ⟨hce, hye⟩)

/-- Joining one by one. -/
theorem foldl (hS : h.PlainAbove S)
    (hleast : ∀ x ∈ S, ∀ y ∈ S, ∃ m, h.leastCommonAncestor? x y = some m) :
    ∀ {l' l : List ClassName} {c : ClassName}, h.Joined S l c → (∀ x ∈ l', x ∈ S ∨ x = .nil) →
      h.Joined S (l ++ l') (l'.foldl h.join c)
  | [], l, c, hl, _ => by simpa using hl
  | y :: l', l, c, hl, hl' => by
    have hnext := hl.snoc hS hleast (hl' y List.mem_cons_self)
    have := foldl hS hleast hnext fun x hx => hl' x (List.mem_cons_of_mem y hx)
    rwa [List.append_assoc] at this

/-- Two lists of the same classes are joined to one. -/
theorem unique (hS : h.PlainAbove S) {l' : List ClassName} {c' : ClassName} (hl : h.Joined S l c)
    (hl' : h.Joined S l' c') (hsame : ∀ x, x ∈ l ↔ x ∈ l') : c = c' := by
  have hforall : ∀ {P : ClassName → Prop}, (∀ x ∈ l, P x) ↔ ∀ x ∈ l', P x := by
    simp [hsame]
  by_cases hall : ∀ x ∈ l, x = .nil
  · rw [hl.nil hall, hl'.nil (hforall.1 hall)]
  have hc := hl.mem hall
  have hc' := hl'.mem fun hall' => hall (hforall.2 hall')
  refine hS.antisymm hc ((hS.isSubtype_iff hc).1 ?_) ((hS.isSubtype_iff hc').1 ?_)
  · exact hl.least c' (hforall.2 hl'.above)
  · exact hl'.least c (hforall.1 hl.above)

end Joined

end Hierarchy

theorem plainFrom_preloaded {x : ClassName} (hx : x ≠ "LambdaFunction") :
    Hierarchy.preloaded.PlainFrom x := by
  intro y hy
  have hne : y ≠ "LambdaFunction" := by
    induction hy with
    | refl => exact hx
    | tail _ hext ih =>
      obtain ⟨d, hd, g, hg, rfl⟩ := hext
      rcases Hierarchy.generalizations_preloaded hd hg with ⟨-, rfl⟩ | ⟨rfl, -⟩
      · decide
      · exact absurd rfl ih
  intro d hd g hg
  rcases Hierarchy.generalizations_preloaded hd hg with ⟨-, rfl⟩ | ⟨rfl, -⟩
  · exact ⟨rfl, rfl⟩
  · exact absurd rfl hne

end ScopedInference
