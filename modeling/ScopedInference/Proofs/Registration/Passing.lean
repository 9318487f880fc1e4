import ScopedInference.Proofs.Registration.Invariant

/-!
# What merging passes on

When two concrete values meet, facts about arguments of the first one may follow for the context
that owns it. Whether that can happen is told by the first value alone (`PassesOn`): none follow
from another one (`mergeDecision_passesOn`), and from each such value some do
(`exists_mergeDecision_forward`).

The values that are passed on come from the second value or from what it is viewed as. So where
neither has equalities in it, no equality is passed on (`mergeDecision_equalityFree`).
-/

namespace ScopedInference

/-! ### Types without equalities -/

namespace TypeExpr

/-- No equality occurs at any depth. -/
inductive EqualityFree : TypeExpr → Prop where
  | param (p) : EqualityFree (.param p)
  | classType {c} : (∀ t ∈ c.types, EqualityFree t) → EqualityFree (.classType c)
  | function {f} : (∀ p ∈ f.params ++ [f.result], EqualityFree p.type) → EqualityFree (.function f)
  | relation {r} : (∀ c ∈ r.columns, EqualityFree c.type) → EqualityFree (.relation r)
  | operation {kind left right} : kind ≠ .equal → EqualityFree left → EqualityFree right →
      EqualityFree (.operation kind left right)

namespace EqualityFree

theorem top : TypeExpr.top.EqualityFree := .classType (by simp)

theorem of_classType {c : ClassType} (h : (TypeExpr.classType c).EqualityFree) :
    ∀ t ∈ c.types, t.EqualityFree := by
  rcases h with _ | h
  exact h

theorem of_function {f : Arrow TypeExpr} (h : (TypeExpr.function f).EqualityFree) :
    ∀ p ∈ f.params ++ [f.result], p.type.EqualityFree := by
  rcases h with _ | _ | h
  exact h

theorem of_relation {r : Relation TypeExpr} (h : (TypeExpr.relation r).EqualityFree) :
    ∀ c ∈ r.columns, c.type.EqualityFree := by
  rcases h with _ | _ | _ | h
  exact h

theorem of_operation {kind : OperationKind} {left right : TypeExpr}
    (h : (TypeExpr.operation kind left right).EqualityFree) :
    kind ≠ .equal ∧ left.EqualityFree ∧ right.EqualityFree := by
  rcases h with _ | _ | _ | _ | ⟨hkind, hleft, hright⟩
  exact ⟨hkind, hleft, hright⟩

theorem substitute {s : Substitution} {t : TypeExpr} (ht : t.EqualityFree)
    (hs : ∀ name v, s.types name = some v → v.EqualityFree) : (t.substitute s).EqualityFree := by
  induction ht with
  | param p =>
    rw [TypeExpr.substitute]
    rcases hv : s.types p.name with _ | v
    · exact .param p
    · exact hs _ v hv
  | classType _ ih =>
    rw [TypeExpr.substitute]
    refine .classType fun t ht => ?_
    obtain ⟨t, hmem, rfl⟩ := List.mem_map.1 ht
    exact ih t hmem
  | function _ ih =>
    rw [TypeExpr.substitute]
    refine .function fun p hp => ?_
    rcases List.mem_append.1 hp with hp | hp
    · obtain ⟨p, hmem, rfl⟩ := List.mem_map.1 hp
      exact ih p (List.mem_append_left _ hmem)
    · rw [List.mem_singleton.1 hp]
      exact ih _ (List.mem_append_right _ List.mem_cons_self)
  | relation _ ih =>
    rw [TypeExpr.substitute]
    refine .relation fun c hc => ?_
    obtain ⟨c, hmem, rfl⟩ := List.mem_map.1 hc
    exact ih c hmem
  | operation hkind _ _ ihl ihr =>
    rw [TypeExpr.substitute]
    exact .operation hkind ihl ihr

end EqualityFree

end TypeExpr

namespace Hierarchy

/-- No equality occurs in what classes generalize. -/
def EqualityFree (h : Hierarchy) : Prop :=
  ∀ name d, h.find? name = some d → ∀ g ∈ d.generalizations, (TypeExpr.classType g).EqualityFree

theorem EqualityFree.view {h : Hierarchy} (hfree : h.EqualityFree) {ancestor : ClassName}
    {c v : ClassType} (hv : h.view? c ancestor = some v) (hc : (TypeExpr.classType c).EqualityFree) :
    (TypeExpr.classType v).EqualityFree := by
  refine viewWithin_induct (P := fun c => (TypeExpr.classType c).EqualityFree) ?_ _ hv hc
  intro c d g hd hg hc
  rw [ClassType.classType_substitute]
  exact (hfree _ d hd g hg).substitute fun name v hv =>
    hc.of_classType v (ClassDecl.bindings_types hv)

/-! ### What passes on -/

/-- Two types of the class can come to one of it: it is the bottom class, or the least one above
itself. Where nothing is circular these are all classes but the top one. -/
def KeepsClass (h : Hierarchy) (name : ClassName) : Prop :=
  name = .nil ∨ name ≠ .any ∧ h.leastCommonAncestor? name name = some name

/-- A function type with arguments, or a type with an open argument of a class that merging can
keep. -/
def PassesOn (h : Hierarchy) : TypeExpr → Prop
  | .classType c =>
    h.isFunctionClass c.head ∧ c.types ≠ []
      ∨ h.KeepsClass c.head ∧ ∃ t ∈ c.types, t.isConcrete = false
  | _ => False

end Hierarchy

section

variable {h : Hierarchy} {owner : ContextId} {f : Forward TypeExpr}

theorem eq_of_mem_zipWith_self {ts : List TypeExpr} (hf : f ∈ ts.zipWith (Forward.mk owner) ts) :
    f.template = f.value := by
  obtain ⟨i, hi, rfl⟩ := List.getElem_of_mem hf
  rw [List.getElem_zipWith]

/-- An argument and what it merges to, position by position. -/
theorem mem_zipWith_mergeArguments
    {merge : Variance → TypeExpr → TypeExpr → Except TypeConflict TypeExpr} :
    ∀ {variances : List Variance} {ts us ms : List TypeExpr},
      mergeArguments merge variances ts us = .ok ms → f ∈ ts.zipWith (Forward.mk owner) ms →
      ∃ v u, (f.template, u) ∈ ts.zip us ∧ merge v f.template u = .ok f.value
  | _, [], _, _, _, hf => by cases hf
  | _, _ :: _, [], _, hms, hf => by
    cases hms
    cases hf
  | _, t :: ts, u :: us, _, hall, hf => by
    obtain ⟨m, ms, hm, hms, rfl⟩ := mergeArguments_cons_eq_ok.1 hall
    rcases List.mem_cons.1 hf with rfl | hf
    · exact ⟨_, u, List.mem_cons_self, hm⟩
    · obtain ⟨v, u, hu, hm⟩ := mem_zipWith_mergeArguments hms hf
      exact ⟨v, u, List.mem_cons_of_mem _ hu, hm⟩

/-- An open type that merges to a concrete one has given way to it. -/
theorem mergeWithin_open {n : Nat} {variance : Variance} {t u m : TypeExpr}
    (hm : h.mergeWithin .degrade n variance t u = .ok m) (ht : t.isConcrete = false)
    (hconcrete : m.isConcrete) : m = u ∨ m = .top := by
  rcases Hierarchy.mergeWithin_cases hm with rfl | rfl | rfl | ⟨_, c, _, _, _, _, _, _, rfl, _⟩
  · rw [ht] at hconcrete
    cases hconcrete
  · exact .inl rfl
  · exact .inr rfl
  · cases ht

/-- A type that is viewed as one of its own class. -/
theorem commonViews_sameHead {c d v w : ClassType} (hcommon : h.commonViews? c d = some (v, w))
    (hhead : c.head = v.head) : v = c ∧ c.head ≠ .any
      ∧ h.leastCommonAncestor? c.head c.head = some c.head ∧ h.view? d c.head = some w := by
  obtain ⟨a, ha, hany, hv, hw⟩ := Hierarchy.commonViews?_eq_some.1 hcommon
  obtain rfl : c.head = a := hhead.trans (Hierarchy.view_head hv).1
  rw [Hierarchy.leastCommonAncestor?_comm] at ha
  exact ⟨Option.some.inj (hv.symm.trans (Hierarchy.view?_self c)), hany,
    Hierarchy.leastCommonAncestor?_absorb ha, hw⟩

/-- Two types come to one of the first one's class: it is the bottom class and gives way, or the
second one is viewed as a type of this class. -/
theorem merge_sameHead {variance : Variance} {c after : ClassType} {v' : TypeExpr}
    (hm : h.merge variance .degrade (.classType c) v' = .ok (.classType after))
    (hhead : c.head = after.head) (hne : after ≠ c) (htypes : after.types ≠ []) :
    c.head = .nil ∧ v' = .classType after
      ∨ c.head ≠ .any ∧ h.leastCommonAncestor? c.head c.head = some c.head
        ∧ ∃ n d w, v' = .classType d ∧ h.view? d c.head = some w
          ∧ mergeArguments (h.mergeWithin .degrade n) (h.variances c.head) c.types w.types
            = .ok after.types := by
  rcases Hierarchy.mergeWithin_cases hm with
    heq | rfl | heq | ⟨k, c', d, v, w, types, -, -, hc, rfl, -, -, hcommon, hms, heq⟩
  · exact absurd (TypeExpr.classType.inj heq) hne
  · by_cases hnil : c.head = .nil
    · exact .inl ⟨hnil, rfl⟩
    have hdiffer : TypeExpr.classType c ≠ .classType after := fun heq =>
      hne (TypeExpr.classType.inj heq).symm
    rcases variance with _ | _
    · rw [Hierarchy.merge, Hierarchy.maxMergeDepth,
        Hierarchy.mergeWithin_classType _ _ hdiffer hnil (hhead ▸ hnil)] at hm
      rcases hcommon : h.commonViews? c after with _ | ⟨v, w⟩ <;> rw [hcommon] at hm
      · cases hm
        exact absurd rfl htypes
      dsimp only at hm
      rcases hms : mergeArguments (h.mergeWithin .degrade 64) (h.variances v.head) v.types w.types
        with e | types <;> rw [hms] at hm
      · cases hm
      · obtain rfl := TypeExpr.classType.inj (Except.ok.inj hm)
        obtain ⟨rfl, hany, hself, hw⟩ := commonViews_sameHead hcommon hhead
        exact .inr ⟨hany, hself, 64, _, w, rfl, hw, hms⟩
    · unfold Hierarchy.merge Hierarchy.mergeWithin at hm
      rw [if_neg hdiffer] at hm
      cases hm
      exact absurd rfl htypes
  · cases heq
    exact absurd rfl htypes
  · cases hc
    obtain rfl := TypeExpr.classType.inj heq
    obtain ⟨rfl, hany, hself, hw⟩ := commonViews_sameHead hcommon hhead
    exact .inr ⟨hany, hself, k, d, w, rfl, hw, hms⟩

variable {e v m : TypeExpr}

theorem of_functionForwards (hf : f ∈ functionForwards h owner e v) :
    ∃ c d, e = .classType c ∧ v = .classType d ∧ h.isFunctionClass c.head
      ∧ f ∈ c.types.zipWith (Forward.mk owner) d.types := by
  unfold functionForwards at hf
  split at hf
  · rename_i c d
    split at hf
    · rename_i hfunction
      simp only [Bool.and_eq_true] at hfunction
      exact ⟨c, d, rfl, rfl, hfunction.1.1, hf⟩
    · cases hf
  · cases hf

theorem of_argumentForwards (hf : f ∈ argumentForwards owner e m) :
    ∃ c after, e = .classType c ∧ m = .classType after ∧ c.head = after.head
      ∧ f ∈ c.types.zipWith (Forward.mk owner) after.types
      ∧ f.template.isConcrete = false ∧ f.value.isConcrete := by
  unfold argumentForwards at hf
  split at hf
  · rename_i c after
    split at hf
    · rename_i hhead
      obtain ⟨hmem, hopen⟩ := List.mem_filter.1 hf
      simp only [Bool.and_eq_true, Bool.not_eq_true'] at hopen
      exact ⟨c, after, rfl, rfl, hhead, hmem, hopen⟩
    · cases hf
  · cases hf

/-- Arguments that a merge has made concrete: where the second value has them from. -/
theorem merge_argument {variance : Variance} (hm : h.merge variance .degrade e v = .ok m)
    (hf : f ∈ argumentForwards owner e m) : ∃ c, e = .classType c
      ∧ (∃ t ∈ c.types, t.isConcrete = false)
      ∧ (c.head = .nil ∧ (∃ d, v = .classType d ∧ f.value ∈ d.types)
        ∨ c.head ≠ .any ∧ h.leastCommonAncestor? c.head c.head = some c.head
          ∧ ∃ d w, v = .classType d ∧ h.view? d c.head = some w
            ∧ (f.value ∈ w.types ∨ f.value = .top)) := by
  obtain ⟨c, after, rfl, rfl, hhead, hmem, hopen, hconcrete⟩ := of_argumentForwards hf
  obtain ⟨htemplate, hvalue⟩ := mem_zipWith_forward hmem
  refine ⟨c, rfl, ⟨f.template, htemplate, hopen⟩, ?_⟩
  have hne : after ≠ c := by
    rintro rfl
    rw [eq_of_mem_zipWith_self hmem, hconcrete] at hopen
    cases hopen
  rcases merge_sameHead hm hhead hne (List.ne_nil_of_mem hvalue) with
    ⟨hnil, rfl⟩ | ⟨hany, hself, n, d, w, rfl, hw, hms⟩
  · exact .inl ⟨hnil, after, rfl, hvalue⟩
  · refine .inr ⟨hany, hself, d, w, rfl, hw, ?_⟩
    obtain ⟨_, u, hu, hmerge⟩ := mem_zipWith_mergeArguments hms hmem
    rcases mergeWithin_open hmerge hopen hconcrete with heq | heq
    · exact .inl (heq ▸ (List.of_mem_zip hu).2)
    · exact .inr heq

variable {p : TypeParam} {d : Decision TypeExpr}

theorem mergeDecision_passesOn (hd : mergeDecision h p owner e v = .ok d) (hf : f ∈ d.forwards) :
    h.PassesOn e := by
  rcases mergeDecision_cases hd with ⟨-, -, -, -, hnone, -⟩ | ⟨-, m, hm, -, hforwards⟩
  · rw [hnone] at hf
    cases hf
  rw [hforwards] at hf
  rcases List.mem_append.1 hf with hf | hf
  · obtain ⟨c, d, rfl, rfl, hfunction, hmem⟩ := of_functionForwards hf
    exact .inl ⟨hfunction, List.ne_nil_of_mem (mem_zipWith_forward hmem).1⟩
  · obtain ⟨c, rfl, hopen, ⟨hnil, -⟩ | ⟨hany, hself, -⟩⟩ := merge_argument hm hf
    · exact .inr ⟨.inl hnil, hopen⟩
    · exact .inr ⟨.inr ⟨hany, hself⟩, hopen⟩

theorem mergeDecision_equalityFree (hfree : h.EqualityFree) (hv : v.EqualityFree)
    (hd : mergeDecision h p owner e v = .ok d) (hf : f ∈ d.forwards) : f.value.EqualityFree := by
  rcases mergeDecision_cases hd with ⟨-, -, -, -, hnone, -⟩ | ⟨-, m, hm, -, hforwards⟩
  · rw [hnone] at hf
    cases hf
  rw [hforwards] at hf
  rcases List.mem_append.1 hf with hf | hf
  · obtain ⟨c, d, rfl, rfl, -, hmem⟩ := of_functionForwards hf
    exact hv.of_classType _ (mem_zipWith_forward hmem).2
  · obtain ⟨c, rfl, -, ⟨-, d, rfl, hmem⟩ | ⟨-, -, d, w, rfl, hw, hmem | heq⟩⟩ :=
      merge_argument hm hf
    · exact hv.of_classType _ hmem
    · exact (hfree.view hw hv).of_classType _ hmem
    · exact heq ▸ .top

/-! ### Values that pass something on -/

/-- One type gives way to another one, or merges with it. -/
def Hierarchy.MergesTo (h : Hierarchy) (t u m : TypeExpr) : Prop :=
  m = u ∨ ∃ n variance, h.mergeWithin .degrade n variance t u = .ok m

theorem Hierarchy.MergesTo.of_self {t m : TypeExpr} (hm : h.MergesTo t t m) : m = t := by
  rcases hm with heq | ⟨n, variance, hm⟩
  · exact heq
  · rw [Hierarchy.mergeWithin_self] at hm
    exact (Except.ok.inj hm).symm

theorem Hierarchy.MergesTo.of_top {t m : TypeExpr} (hm : h.MergesTo t .top m)
    (ht : t.isConcrete = false) : m = .top := by
  rcases hm with heq | ⟨n, variance, hm⟩
  · exact heq
  · have hne : t ≠ .top := by
      rintro rfl
      cases ht
    unfold Hierarchy.mergeWithin at hm
    rw [if_neg hne, ht] at hm
    exact (Except.ok.inj hm).symm

theorem exists_mem_zipWith (owner : ContextId) {ts us : List TypeExpr}
    (hlength : us.length = ts.length) {t : TypeExpr} (ht : t ∈ ts) :
    ∃ u, ⟨owner, t, u⟩ ∈ ts.zipWith (Forward.mk owner) us := by
  obtain ⟨i, hi, rfl⟩ := List.getElem_of_mem ht
  have hmem : i < (ts.zipWith (Forward.mk owner) us).length := by
    rw [List.length_zipWith, hlength, Nat.min_self]
    exact hi
  have hi' : i < us.length := hlength ▸ hi
  refine ⟨us[i], ?_⟩
  have := List.getElem_mem hmem
  rwa [List.getElem_zipWith] at this

theorem eq_of_mem_zip_map {α β : Type} {ts : List α} {g : α → β} {t : α} {u : β}
    (h : (t, u) ∈ ts.zip (ts.map g)) : u = g t := by
  rw [List.zip_map_right, List.mem_map] at h
  obtain ⟨⟨t', u'⟩, hmem, heq⟩ := h
  obtain ⟨i, hi, hi'⟩ := List.getElem_of_mem hmem
  rw [List.getElem_zip] at hi'
  cases hi'
  cases heq
  rfl

/-- The class type with other type arguments, and no multiplicities. -/
def ClassType.mapTypes (c : ClassType) (g : TypeExpr → TypeExpr) : ClassType :=
  ⟨c.head, c.types.map g, []⟩

/-- Each argument merges with the other one in its place. -/
theorem merge_mapTypes (owner : ContextId) {c : ClassType} {g : TypeExpr → TypeExpr}
    (hne : c.types.map g ≠ c.types)
    (hhead : h.KeepsClass c.head)
    (hm : h.merge .covariant .degrade (.classType c) (.classType (ClassType.mapTypes c g)) = .ok m) :
    ∃ after, m = .classType after ∧ after.head = c.head ∧ after.types.length = c.types.length
      ∧ ∀ f ∈ c.types.zipWith (Forward.mk owner) after.types,
        h.MergesTo f.template (g f.template) f.value := by
  have hdiffer : TypeExpr.classType c ≠ .classType (ClassType.mapTypes c g) := fun heq =>
    hne (congrArg Application.types (TypeExpr.classType.inj heq)).symm
  by_cases hnil : c.head = .nil
  · refine ⟨ClassType.mapTypes c g, ?_, rfl, List.length_map _, fun f hf => .inl ?_⟩
    · rw [Hierarchy.merge, Hierarchy.maxMergeDepth, Hierarchy.mergeWithin_bottom _ _ hnil rfl] at hm
      exact (Except.ok.inj hm).symm
    · obtain ⟨i, hi, rfl⟩ := List.getElem_of_mem hf
      simp [ClassType.mapTypes]
  · obtain ⟨hany, hself⟩ := Or.resolve_left hhead hnil
    have hcommon : h.commonViews? c (ClassType.mapTypes c g) = some (c, ClassType.mapTypes c g) :=
      Hierarchy.commonViews?_eq_some.2 ⟨c.head, hself, hany, Hierarchy.view?_self c,
        Hierarchy.view?_self (ClassType.mapTypes c g)⟩
    rw [Hierarchy.merge, Hierarchy.maxMergeDepth,
      Hierarchy.mergeWithin_classType _ _ hdiffer hnil hnil, hcommon] at hm
    dsimp only at hm
    rcases hms : mergeArguments (h.mergeWithin .degrade 64) (h.variances c.head) c.types
      (ClassType.mapTypes c g).types with x | types <;> rw [hms] at hm
    · cases hm
    · refine ⟨_, (Except.ok.inj hm).symm, rfl, ?_, fun f hf => ?_⟩
      · rw [(of_mergeArguments hms).1, ClassType.mapTypes, List.length_map, Nat.min_self]
      · obtain ⟨x, u, hu, hmerge⟩ := mem_zipWith_mergeArguments hms hf
        rw [eq_of_mem_zip_map hu] at hmerge
        exact .inr ⟨64, x, hmerge⟩

/-- A fact follows for an open argument with the top type in its place, and what follows for any
argument is what it merges to. -/
theorem merge_mapTypes_forward (owner : ContextId) {c : ClassType} {g : TypeExpr → TypeExpr}
    {t : TypeExpr} (ht : t ∈ c.types) (hopen : t.isConcrete = false) (htop : g t = .top)
    (hhead : h.KeepsClass c.head)
    (hm : h.merge .covariant .degrade (.classType c) (.classType (ClassType.mapTypes c g)) = .ok m) :
    ⟨owner, t, .top⟩ ∈ argumentForwards owner (.classType c) m
      ∧ ∀ f ∈ argumentForwards owner (.classType c) m,
        h.MergesTo f.template (g f.template) f.value := by
  have hne : c.types.map g ≠ c.types := by
    intro heq
    have hsame := List.map_inj_left.1 (heq.trans (List.map_id _).symm) t ht
    rw [htop] at hsame
    subst hsame
    cases hopen
  obtain ⟨after, rfl, hafter, hlength, hvalue⟩ := merge_mapTypes owner hne hhead hm
  refine ⟨?_, fun f hf => ?_⟩
  · obtain ⟨u, hu⟩ := exists_mem_zipWith owner hlength ht
    obtain rfl : u = .top := (htop ▸ hvalue _ hu).of_top hopen
    dsimp only [argumentForwards]
    rw [if_pos hafter.symm]
    refine List.mem_filter.2 ⟨hu, ?_⟩
    rw [hopen]
    rfl
  · obtain ⟨_, _, heq, heq', -, hmem, -, -⟩ := of_argumentForwards hf
    cases heq
    cases heq'
    exact hvalue f hmem

/-- Something follows from a value that passes on when all its arguments meet the top type. -/
theorem exists_mergeDecision_forward (he : h.PassesOn e) (owner : ContextId) (name : String) :
    ∃ c d, e = .classType c ∧ d.forwards ≠ [] ∧ mergeDecision h ⟨name, .covariant⟩ owner e
      (.classType (ClassType.mapTypes c fun _ => .top)) = .ok d := by
  cases e with
  | classType c =>
    obtain ⟨d, hd⟩ := exists_mergeDecision h ⟨name, .covariant⟩ owner (.classType c)
      (.classType (ClassType.mapTypes c fun _ => .top))
    refine ⟨c, d, rfl, fun hnone => ?_, hd⟩
    obtain ⟨l, r, heq, -⟩ | ⟨-, m, hm, -, hforwards⟩ := mergeDecision_cases hd
    · cases heq
    obtain ⟨hfunction, hargument⟩ := List.append_eq_nil_iff.1 (hforwards.symm.trans hnone)
    rcases he with ⟨hclass, htypes⟩ | ⟨hhead, t, ht, hopen⟩
    · simp [functionForwards, ClassType.mapTypes, hclass, htypes] at hfunction
    · exact List.ne_nil_of_mem (merge_mapTypes_forward owner ht hopen rfl hhead hm).1 hargument
  | _ => exact absurd he id

/-- The top type in place of a parameter. -/
def TypeExpr.topFor (q : TypeParam) (t : TypeExpr) : TypeExpr := if t = .param q then .top else t

theorem TypeExpr.topFor_self (q : TypeParam) : topFor q (.param q) = .top := if_pos rfl

theorem TypeExpr.EqualityFree.mapTypes_topFor {c : ClassType}
    (hc : (TypeExpr.classType c).EqualityFree) (q : TypeParam) :
    (TypeExpr.classType (ClassType.mapTypes c (TypeExpr.topFor q))).EqualityFree :=
  .classType fun u hu => by
    obtain ⟨t, ht, rfl⟩ := List.mem_map.1 hu
    unfold TypeExpr.topFor
    split
    · exact .top
    · exact hc.of_classType t ht

/-- All that follows is that the parameter is the top type where only this argument differs. -/
theorem mergeDecision_topFor {c : ClassType} {q : TypeParam}
    (hhead : h.KeepsClass c.head)
    (hfunction : h.isFunctionClass c.head = false) (hq : .param q ∈ c.types) (owner : ContextId)
    (name : String) :
    ∃ d, mergeDecision h ⟨name, .covariant⟩ owner (.classType c)
        (.classType (ClassType.mapTypes c (TypeExpr.topFor q))) = .ok d
      ∧ d.forwards ≠ [] ∧ ∀ f ∈ d.forwards, f = ⟨owner, .param q, .top⟩ := by
  obtain ⟨d, hd⟩ := exists_mergeDecision h ⟨name, .covariant⟩ owner (.classType c)
    (.classType (ClassType.mapTypes c (TypeExpr.topFor q)))
  obtain ⟨l, r, heq, -⟩ | ⟨-, m, hm, -, hforwards⟩ := mergeDecision_cases hd
  · cases heq
  have hnone : functionForwards h owner (.classType c)
      (.classType (ClassType.mapTypes c (TypeExpr.topFor q))) = [] := by
    simp [functionForwards, hfunction]
  rw [hnone, List.nil_append] at hforwards
  obtain ⟨hsome, hvalue⟩ := merge_mapTypes_forward owner hq rfl (TypeExpr.topFor_self q) hhead hm
  refine ⟨d, hd, by rw [hforwards]; exact List.ne_nil_of_mem hsome, fun f hf => ?_⟩
  have howner := mergeDecision_forward hd f hf
  rw [hforwards] at hf
  obtain ⟨-, -, -, -, -, -, hopen, hconcrete⟩ := of_argumentForwards hf
  have hmerges := hvalue f hf
  by_cases htemplate : f.template = .param q
  · rw [htemplate, TypeExpr.topFor_self] at hmerges
    rw [← howner, ← htemplate, ← hmerges.of_top rfl]
  · -- An argument that is left as it is stays open, so nothing follows for it.
    rw [show TypeExpr.topFor q f.template = f.template from if_neg htemplate] at hmerges
    rw [hmerges.of_self, hopen] at hconcrete
    cases hconcrete

end

end ScopedInference
