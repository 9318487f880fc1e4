import ScopedInference.Proofs.Registration.Learning
import ScopedInference.Proofs.Registration.Passing
import ScopedInference.Proofs.TypeExpr.Substitution

/-!
# A value meets an instance of it

An instance of a type has fully concrete types in place of the type's parameters. Where a value
meets an instance of it, one would expect the instance to take its place, and its owner to be told
what the parameters are. `Absorbs` says when the value merges with the instance to the instance: a
parameter gives way to any type, but each class around one has to be kept, and there is a limit to
how deep that goes (`mergeWithin_instance`). What the owner is told is decided at the outermost
class: about each argument if it is a class of functions, and else about the arguments that are
parameters themselves, if the class is kept (`mergeDecision_instance`).
-/

namespace ScopedInference

/-- All type parameters of the type have fully concrete values, and multiplicities have none. -/
structure Substitution.Closes (σ : Substitution) (t : TypeExpr) : Prop where
  types : ∀ name, .type name ∈ t.parameters → ∃ v, σ.types name = some v ∧ v.isFullyConcrete
  muls : ∀ name, σ.muls name = none

/-! ### Instances -/

namespace TypeExpr

variable {σ : Substitution}

theorem isConcrete_substitute {t : TypeExpr} (ht : t.isConcrete) :
    (t.substitute σ).isConcrete := by
  cases t with
  | param _ => cases ht
  | operation _ _ _ => cases ht
  | _ =>
    rw [substitute]
    rfl

/-- Of the concrete types, only the top type has it as an instance. -/
theorem substitute_ne_top {t : TypeExpr} (ht : t.isConcrete) (hne : t.substitute σ ≠ t) :
    t.substitute σ ≠ .top := by
  intro htop
  cases t with
  | classType c =>
    obtain ⟨head, types, muls⟩ := c
    rw [substitute] at htop hne
    obtain ⟨rfl, htypes, hmuls⟩ : head = .any ∧ types.map (·.substitute σ) = []
        ∧ muls.map (·.substitute σ) = [] :=
      Application.mk.inj (classType.inj htop)
    rw [htypes, hmuls, List.map_eq_nil_iff.1 htypes, List.map_eq_nil_iff.1 hmuls] at hne
    exact hne rfl
  | param _ => cases ht
  | operation _ _ _ => cases ht
  | _ =>
    rw [substitute] at htop
    cases htop

end TypeExpr

namespace Substitution.Closes

variable {σ : Substitution}

theorem part {t u : TypeExpr} (h : σ.Closes t) (hu : u.parameters ⊆ t.parameters) : σ.Closes u where
  types name hname := h.types name (hu hname)
  muls := h.muls

theorem argument {c : ClassType} (h : σ.Closes (.classType c)) {t : TypeExpr} (ht : t ∈ c.types) :
    σ.Closes t :=
  h.part (TypeExpr.parameters_argument ht)

theorem param {p : TypeParam} (h : σ.Closes (.param p)) :
    ∃ v, σ.types p.name = some v ∧ v.isFullyConcrete ∧ (TypeExpr.param p).substitute σ = v := by
  obtain ⟨v, hv, hclosed⟩ := h.types p.name (by simp [TypeExpr.parameters])
  refine ⟨v, hv, hclosed, ?_⟩
  rw [TypeExpr.substitute, hv]
  rfl

/-- An open type that is no operation is a parameter, and its instance is concrete. -/
theorem instance_of_open {t : TypeExpr} (h : σ.Closes t)
    (hparam : t.isConcrete = false → t.parameterName?.isSome) (ht : t.isConcrete = false) :
    ∃ p, t = .param p ∧ (t.substitute σ).isConcrete := by
  cases t with
  | param p =>
    obtain ⟨v, -, hclosed, hv⟩ := h.param
    exact ⟨p, rfl, hv ▸ TypeExpr.isConcrete_of_isFullyConcrete hclosed⟩
  | operation _ _ _ => cases hparam ht
  | _ => cases ht

theorem mul_eq {t : TypeExpr} (h : σ.Closes t) (m : Multiplicity) : m.substitute σ = m := by
  cases m with
  | range _ _ => rfl
  | param name =>
    rw [Multiplicity.substitute, h.muls]
    rfl

theorem muls_eq {t : TypeExpr} (h : σ.Closes t) (ms : List Multiplicity) :
    ms.map (·.substitute σ) = ms := by
  rw [List.map_congr_left fun m _ => h.mul_eq m, List.map_id']

end Substitution.Closes

/-! ### Merging with an instance -/

theorem zipWith_join_self (ms : List Multiplicity) : ms.zipWith Multiplicity.join ms = ms := by
  rw [List.zipWith_self, List.map_congr_left fun m _ => m.join_self, List.map_id']

theorem mergeArguments_map_eq_ok
    {merge : Variance → TypeExpr → TypeExpr → Except TypeConflict TypeExpr}
    {g : TypeExpr → TypeExpr} : ∀ {variances : List Variance} {ts : List TypeExpr},
    mergeArguments merge variances ts (ts.map g) = .ok (ts.map g)
      ↔ ∀ i (hi : i < ts.length), merge (variances.getD i .covariant) ts[i] (g ts[i])
        = .ok (g ts[i])
  | _, [] => by simp [mergeArguments, pure, Except.pure]
  | variances, t :: ts => by
    rw [List.map_cons, mergeArguments_cons_eq_ok]
    constructor
    · rintro ⟨m, ms, hm, hms, heq⟩
      obtain ⟨rfl, rfl⟩ := List.cons.inj heq
      rintro (_ | i) hi
      · cases variances <;> exact hm
      · have := mergeArguments_map_eq_ok.1 hms i (Nat.lt_of_succ_lt_succ hi)
        cases variances <;> exact this
    · intro hall
      refine ⟨g t, ts.map g, ?_, mergeArguments_map_eq_ok.2 fun i hi => ?_, rfl⟩
      · have := hall 0 (Nat.zero_lt_succ _)
        cases variances <;> exact this
      · have := hall (i + 1) (Nat.succ_lt_succ hi)
        cases variances <;> exact this

namespace Hierarchy

/-- Merging the type with its instance, with so many levels left, should give the instance. -/
inductive Absorbs (h : Hierarchy) (σ : Substitution) : Nat → Variance → TypeExpr → Prop where
  | same {n variance t} : t.substitute σ = t → Absorbs h σ n variance t
  | param {n variance} (p) : Absorbs h σ n variance (.param p)
  /-- A function type or a relation gives way as a whole. -/
  | whole {n t} : (∀ c, t ≠ .classType c) → (t.substitute σ).isFullyConcrete →
      Absorbs h σ (n + 1) .covariant t
  | bottom {n c} : c.head = .nil → Absorbs h σ (n + 1) .covariant (.classType c)
  | classType {n c} : h.KeepsClass c.head →
      (∀ i (hi : i < c.types.length),
        Absorbs h σ n ((h.variances c.head).getD i .covariant) c.types[i]) →
      Absorbs h σ (n + 1) .covariant (.classType c)

variable {h : Hierarchy} {σ : Substitution}

/-- Without a level left, or where values must agree, a type and another instance of it clash. -/
theorem mergeWithin_instance_clash {n : Nat} {variance : Variance} {t : TypeExpr}
    (ht : t.isConcrete) (hne : t.substitute σ ≠ t) (hstop : n = 0 ∨ variance = .invariant) :
    h.mergeWithin .degrade n variance t (t.substitute σ) = .ok .top := by
  unfold mergeWithin
  rw [if_neg (Ne.symm hne), ht, TypeExpr.isConcrete_substitute ht]
  rcases hstop with rfl | rfl
  · rfl
  · rcases n with _ | n <;> rfl

/-- A function type or a relation gives way if the instance is fully concrete. -/
theorem mergeWithin_instance_whole {n : Nat} {t : TypeExpr} (ht : t.isConcrete)
    (hne : t.substitute σ ≠ t) (hclass : ∀ c, t ≠ .classType c) :
    h.mergeWithin .degrade (n + 1) .covariant t (t.substitute σ) = .ok (t.substitute σ)
      ↔ (t.substitute σ).isFullyConcrete := by
  have htop := TypeExpr.substitute_ne_top ht hne
  have hopen : t.isFullyConcrete = false := by
    rw [← Bool.not_eq_true]
    exact fun hclosed => hne (t.substitute_of_parameters (t.parameters_of_isFullyConcrete hclosed))
  have hmerge : h.mergeWithin .degrade (n + 1) .covariant t (t.substitute σ)
      = if (t.substitute σ).isFullyConcrete then .ok (t.substitute σ) else .ok .top := by
    unfold mergeWithin
    rw [if_neg (Ne.symm hne), ht, TypeExpr.isConcrete_substitute ht]
    cases t with
    | classType c => exact absurd rfl (hclass c)
    | param _ => cases ht
    | operation _ _ _ => cases ht
    | _ =>
      simp only [hopen]
      rw [TypeExpr.substitute] at htop ⊢
      rcases TypeExpr.isFullyConcrete _ with _ | _ <;> rfl
  rw [hmerge]
  split
  · rename_i hclosed
    exact ⟨fun _ => hclosed, fun _ => rfl⟩
  · rename_i hclosed
    exact ⟨fun heq => absurd (Except.ok.inj heq).symm htop, fun h => absurd h hclosed⟩

/-- A class type merges argument by argument where its class is kept. -/
theorem mergeWithin_instance_classType {n : Nat} {c : ClassType} (hσ : σ.Closes (.classType c))
    (hne : (TypeExpr.classType c).substitute σ ≠ .classType c) (hnil : c.head ≠ .nil) :
    h.mergeWithin .degrade (n + 1) .covariant (.classType c) ((TypeExpr.classType c).substitute σ)
        = .ok ((TypeExpr.classType c).substitute σ)
      ↔ h.KeepsClass c.head ∧ ∀ i (hi : i < c.types.length),
        h.mergeWithin .degrade n ((h.variances c.head).getD i .covariant) c.types[i]
          (c.types[i].substitute σ) = .ok (c.types[i].substitute σ) := by
  have htop := TypeExpr.substitute_ne_top rfl hne
  have hmuls : (c.substitute σ).muls = c.muls := hσ.muls_eq c.muls
  rw [← ClassType.classType_substitute] at hne htop ⊢
  rw [mergeWithin_classType _ _ (Ne.symm hne) hnil hnil, ← mergeArguments_map_eq_ok]
  constructor
  · intro hm
    rcases hcommon : h.commonViews? c (c.substitute σ) with _ | ⟨v, w⟩ <;> rw [hcommon] at hm
    · exact absurd (Except.ok.inj hm).symm htop
    dsimp only at hm
    rcases hms : mergeArguments (h.mergeWithin .degrade n) (h.variances v.head) v.types w.types
      with e | types <;> rw [hms] at hm
    · cases hm
    · obtain ⟨hhead, htypes, -⟩ :=
        Application.mk.inj (TypeExpr.classType.inj (Except.ok.inj hm))
      obtain ⟨hv, hany, hself, hw⟩ := commonViews_sameHead hcommon hhead.symm
      subst v
      obtain rfl := Option.some.inj (hw.symm.trans (view?_self (c.substitute σ)))
      rw [htypes] at hms
      exact ⟨.inr ⟨hany, hself⟩, hms⟩
  · rintro ⟨hkeeps, harguments⟩
    obtain ⟨hany, hself⟩ := hkeeps.resolve_left hnil
    have hcommon : h.commonViews? c (c.substitute σ) = some (c, c.substitute σ) :=
      commonViews?_eq_some.2 ⟨c.head, hself, hany, view?_self c, view?_self (c.substitute σ)⟩
    rw [hcommon]
    dsimp only
    rw [hmuls, zipWith_join_self, ClassType.substitute, harguments, hσ.muls_eq]
    rfl

theorem mergeWithin_param (n : Nat) (variance : Variance) (p : TypeParam) {v : TypeExpr}
    (hv : v.isConcrete) : h.mergeWithin .degrade n variance (.param p) v = .ok v := by
  have hne : TypeExpr.param p ≠ v := by
    rintro rfl
    cases hv
  unfold mergeWithin
  rw [if_neg hne, hv]
  rfl

theorem Absorbs.operation {n : Nat} {variance : Variance} {kind : OperationKind}
    {left right : TypeExpr} : h.Absorbs σ n variance (.operation kind left right)
      ↔ (TypeExpr.operation kind left right).substitute σ = .operation kind left right := by
  refine ⟨fun habs => ?_, .same⟩
  cases habs with
  | same heq => exact heq
  | whole _ hclosed => simp [TypeExpr.substitute, TypeExpr.isFullyConcrete] at hclosed

/-- A type that differs from its instance is absorbed in a merge that has a level left. -/
theorem Absorbs.level {n : Nat} {variance : Variance} {t : TypeExpr} (ht : t.isConcrete)
    (hne : t.substitute σ ≠ t) (habs : h.Absorbs σ n variance t) :
    n ≠ 0 ∧ variance = .covariant := by
  cases habs with
  | same heq => exact absurd heq hne
  | param _ => cases ht
  | _ => exact ⟨Nat.succ_ne_zero _, rfl⟩

theorem Absorbs.of_whole {n : Nat} {t : TypeExpr} (ht : t.isConcrete) (hne : t.substitute σ ≠ t)
    (hclass : ∀ c, t ≠ .classType c) (habs : h.Absorbs σ n .covariant t) :
    (t.substitute σ).isFullyConcrete := by
  cases habs with
  | same heq => exact absurd heq hne
  | param _ => cases ht
  | whole _ hclosed => exact hclosed
  | bottom _ => exact absurd rfl (hclass _)
  | classType _ _ => exact absurd rfl (hclass _)

theorem Absorbs.of_classType {n : Nat} {c : ClassType}
    (hne : (TypeExpr.classType c).substitute σ ≠ .classType c) (hnil : c.head ≠ .nil)
    (habs : h.Absorbs σ (n + 1) .covariant (.classType c)) :
    h.KeepsClass c.head ∧ ∀ i (hi : i < c.types.length),
      h.Absorbs σ n ((h.variances c.head).getD i .covariant) c.types[i] := by
  cases habs with
  | same heq => exact absurd heq hne
  | whole hclass _ => exact absurd rfl (hclass c)
  | bottom hhead => exact absurd hhead hnil
  | classType hkeeps harguments => exact ⟨hkeeps, harguments⟩

/-- By recursion on the levels: `Absorbs` says what merges with its instance to the instance. -/
theorem mergeWithin_instance (n : Nat) {variance : Variance} {t : TypeExpr} (hσ : σ.Closes t) :
    h.mergeWithin .degrade n variance t (t.substitute σ) = .ok (t.substitute σ)
      ↔ h.Absorbs σ n variance t := by
  by_cases hsame : t.substitute σ = t
  · rw [hsame, mergeWithin_self]
    exact ⟨fun _ => .same hsame, fun _ => rfl⟩
  rcases hconcrete : t.isConcrete with _ | _
  · cases t with
    | param p =>
      obtain ⟨v, -, hclosed, hv⟩ := hσ.param
      rw [hv, mergeWithin_param n variance p (TypeExpr.isConcrete_of_isFullyConcrete hclosed)]
      exact ⟨fun _ => .param p, fun _ => rfl⟩
    | operation kind left right =>
      rw [Absorbs.operation]
      refine ⟨fun hm => ?_, fun heq => absurd heq hsame⟩
      unfold mergeWithin at hm
      rw [if_neg (Ne.symm hsame), TypeExpr.substitute] at hm
      cases hm
    | _ => cases hconcrete
  by_cases hlevel : n ≠ 0 ∧ variance = .covariant
  case neg =>
    have hstop : n = 0 ∨ variance = .invariant := by
      rcases variance with _ | _
      · exact .inl (by simpa using hlevel)
      · exact .inr rfl
    rw [mergeWithin_instance_clash hconcrete hsame hstop]
    refine ⟨fun heq => ?_, fun habs => absurd (habs.level hconcrete hsame) hlevel⟩
    exact absurd (Except.ok.inj heq).symm (TypeExpr.substitute_ne_top hconcrete hsame)
  obtain ⟨hn, rfl⟩ := hlevel
  obtain ⟨n, rfl⟩ := Nat.exists_eq_succ_of_ne_zero hn
  by_cases hclass : ∃ c, t = .classType c
  · obtain ⟨c, rfl⟩ := hclass
    by_cases hnil : c.head = .nil
    · rw [mergeWithin_bottom _ _ hnil (TypeExpr.isConcrete_substitute rfl)]
      exact ⟨fun _ => .bottom hnil, fun _ => rfl⟩
    rw [mergeWithin_instance_classType hσ hsame hnil]
    constructor
    · rintro ⟨hkeeps, harguments⟩
      refine .classType hkeeps fun i hi => ?_
      exact (mergeWithin_instance n (hσ.argument (List.getElem_mem hi))).1 (harguments i hi)
    · intro habs
      obtain ⟨hkeeps, harguments⟩ := habs.of_classType hsame hnil
      refine ⟨hkeeps, fun i hi => ?_⟩
      exact (mergeWithin_instance n (hσ.argument (List.getElem_mem hi))).2 (harguments i hi)
  · rw [mergeWithin_instance_whole hconcrete hsame (not_exists.1 hclass)]
    exact ⟨.whole (not_exists.1 hclass), fun habs => habs.of_whole hconcrete hsame
      (not_exists.1 hclass)⟩

end Hierarchy

/-! ### What the owner is told -/

instance (h : Hierarchy) (name : ClassName) : Decidable (h.KeepsClass name) :=
  inferInstanceAs (Decidable (_ ∨ _))

/-- The arguments that the owner of a class type is told about where it meets an instance of it, for
a parameter of the variance. -/
def Hierarchy.told (h : Hierarchy) (variance : Variance) (c : ClassType) : List TypeExpr :=
  (if h.isFunctionClass c.head then c.types else [])
    ++ if variance = .covariant ∧ h.KeepsClass c.head then
        c.types.filter (·.parameterName?.isSome)
      else []

section

variable {h : Hierarchy} {σ : Substitution} {owner : ContextId} {c : ClassType}

theorem forall₂_mergeArguments
    {merge : Variance → TypeExpr → TypeExpr → Except TypeConflict TypeExpr}
    {g : TypeExpr → TypeExpr} {P : TypeExpr → TypeExpr → Prop} :
    ∀ {variances : List Variance} {ts us : List TypeExpr},
      mergeArguments merge variances ts (ts.map g) = .ok us →
      (∀ t ∈ ts, ∀ v u, merge v t (g t) = .ok u → P t u) → List.Forall₂ P ts us
  | _, [], _, h, _ => by
    cases h
    exact .nil
  | _, t :: ts, _, h, hP => by
    obtain ⟨m, ms, hm, hms, rfl⟩ := mergeArguments_cons_eq_ok.1 h
    exact .cons (hP t List.mem_cons_self _ m hm)
      (forall₂_mergeArguments hms fun u hu => hP u (List.mem_cons_of_mem t hu))

/-- Of arguments in whose places other ones have come, the open ones are what facts follow for. -/
theorem filter_zipWith_forward {g : TypeExpr → TypeExpr} {ts us : List TypeExpr}
    (hus : List.Forall₂ (fun t u => t.isConcrete = false → u = g t) ts us)
    (hts : ∀ t ∈ ts, t.isConcrete = false → t.parameterName?.isSome ∧ (g t).isConcrete) :
    (ts.zipWith (Forward.mk owner) us).filter
        (fun f => !f.template.isConcrete && f.value.isConcrete)
      = (ts.filter (·.parameterName?.isSome)).map fun t => ⟨owner, t, g t⟩ := by
  induction hus with
  | nil => rfl
  | @cons t u ts us hu _ ih =>
    have hrest := ih fun t ht => hts t (List.mem_cons_of_mem _ ht)
    rcases hopen : t.isConcrete with _ | _
    · obtain ⟨hparam, hconcrete⟩ := hts t List.mem_cons_self hopen
      simp [hopen, hu hopen, hparam, hconcrete, hrest]
    · have hparam : t.parameterName?.isSome = false := by
        cases t with
        | param _ => cases hopen
        | _ => rfl
      simp [hopen, hparam, hrest]

theorem functionForwards_instance : functionForwards h owner (.classType c)
    ((TypeExpr.classType c).substitute σ)
      = (if h.isFunctionClass c.head then c.types else []).map
        fun t => ⟨owner, t, t.substitute σ⟩ := by
  rw [TypeExpr.substitute, functionForwards]
  simp only [List.length_map, Bool.and_self, decide_true, Bool.and_true, List.zipWith_map_right,
    List.zipWith_self]
  split <;> rfl

/-- An argument that is open gives way to what the instance has in its place. -/
theorem eq_of_mergeWithin_open {n : Nat} {variance : Variance} {t u : TypeExpr} (hσ : σ.Closes t)
    (hopen : t.isConcrete = false → t.parameterName?.isSome)
    (hm : h.mergeWithin .degrade n variance t (t.substitute σ) = .ok u) :
    t.isConcrete = false → u = t.substitute σ := by
  intro ht
  obtain ⟨p, rfl, hconcrete⟩ := hσ.instance_of_open hopen ht
  rw [Hierarchy.mergeWithin_param n variance p hconcrete] at hm
  exact (Except.ok.inj hm).symm

variable (hσ : σ.Closes (.classType c))
  (hopen : ∀ t ∈ c.types, t.isConcrete = false → t.parameterName?.isSome)

include hσ hopen

/-- Where the class is kept, the open arguments have given way. -/
theorem merge_instance_kept (hkeeps : h.KeepsClass c.head) {m : TypeExpr}
    (hm : h.merge .covariant .degrade (.classType c) ((TypeExpr.classType c).substitute σ)
      = .ok m) :
    ∃ us muls, m = .classType ⟨c.head, us, muls⟩
      ∧ List.Forall₂ (fun t u => t.isConcrete = false → u = t.substitute σ) c.types us := by
  have hinstance : List.Forall₂ (fun t u => t.isConcrete = false → u = t.substitute σ) c.types
      (c.types.map (·.substitute σ)) :=
    List.forall₂_map_right_iff.2 (List.forall₂_same.2 fun _ _ _ => rfl)
  by_cases hsame : (TypeExpr.classType c).substitute σ = .classType c
  · rw [hsame, Hierarchy.merge, Hierarchy.mergeWithin_self, ← hsame, TypeExpr.substitute] at hm
    exact ⟨_, _, (Except.ok.inj hm).symm, hinstance⟩
  by_cases hnil : c.head = .nil
  · rw [Hierarchy.merge, Hierarchy.maxMergeDepth, Hierarchy.mergeWithin_bottom _ _ hnil
      (TypeExpr.isConcrete_substitute rfl), TypeExpr.substitute] at hm
    exact ⟨_, _, (Except.ok.inj hm).symm, hinstance⟩
  obtain ⟨hany, hself⟩ := hkeeps.resolve_left hnil
  rw [← ClassType.classType_substitute] at hsame hm
  have hcommon : h.commonViews? c (c.substitute σ) = some (c, c.substitute σ) :=
    Hierarchy.commonViews?_eq_some.2
      ⟨c.head, hself, hany, Hierarchy.view?_self c, Hierarchy.view?_self (c.substitute σ)⟩
  rw [Hierarchy.merge, Hierarchy.maxMergeDepth,
    Hierarchy.mergeWithin_classType _ _ (Ne.symm hsame) hnil hnil, hcommon] at hm
  dsimp only at hm
  rcases hms : mergeArguments (h.mergeWithin .degrade 64) (h.variances c.head) c.types
    (c.types.map (·.substitute σ)) with e | us <;> rw [ClassType.substitute, hms] at hm
  · cases hm
  exact ⟨us, _, (Except.ok.inj hm).symm, forall₂_mergeArguments hms fun t ht _ _ =>
    eq_of_mergeWithin_open (hσ.argument ht) (hopen t ht)⟩

omit hσ hopen in
/-- Where it is not, or where values must agree, nothing follows about arguments. -/
theorem argumentForwards_instance_nil {variance : Variance}
    (hkeeps : ¬ (variance = .covariant ∧ h.KeepsClass c.head)) {m : TypeExpr}
    (hm : h.merge variance .degrade (.classType c) ((TypeExpr.classType c).substitute σ) = .ok m) :
    argumentForwards owner (.classType c) m = [] := by
  by_cases hsame : (TypeExpr.classType c).substitute σ = .classType c
  · rw [hsame, Hierarchy.merge, Hierarchy.mergeWithin_self] at hm
    rw [← Except.ok.inj hm, argumentForwards_self]
  rcases variance with _ | _
  · refine List.eq_nil_iff_forall_not_mem.2 fun f hf => hkeeps ⟨rfl, ?_⟩
    obtain ⟨c', heq, -, hclass⟩ := merge_argument hm hf
    obtain rfl := TypeExpr.classType.inj heq
    rcases hclass with ⟨hnil, -⟩ | ⟨hany, hself, -⟩
    · exact .inl hnil
    · exact .inr ⟨hany, hself⟩
  · rw [Hierarchy.merge, Hierarchy.mergeWithin_instance_clash rfl hsame (.inr rfl)] at hm
    obtain rfl := Except.ok.inj hm
    simp [argumentForwards, TypeExpr.top, TypeExpr.atom]

/-- The parameter takes on what the two merge to, which is the instance if it is absorbed, and the
owner is told about arguments of the value. -/
theorem mergeDecision_instance (p : TypeParam) :
    ∃ d m, mergeDecision h p owner (.classType c) ((TypeExpr.classType c).substitute σ) = .ok d
      ∧ d.value? = some m
      ∧ (m = (TypeExpr.classType c).substitute σ
        ↔ h.Absorbs σ Hierarchy.maxMergeDepth p.variance (.classType c))
      ∧ d.forwards = (h.told p.variance c).map fun t => ⟨owner, t, t.substitute σ⟩ := by
  obtain ⟨m, hm⟩ := h.exists_mergeWithin Hierarchy.maxMergeDepth p.variance (.classType c)
    ((TypeExpr.classType c).substitute σ)
  obtain ⟨d, hd, hvalue, hforwards⟩ :=
    mergeDecision_of_merge owner (fun _ _ => TypeExpr.noConfusion) hm
  refine ⟨d, m, hd, hvalue, ?_, ?_⟩
  · rw [← Hierarchy.mergeWithin_instance _ hσ, hm, Except.ok.injEq]
  rw [hforwards, functionForwards_instance, Hierarchy.told, List.map_append]
  congr 1
  split
  · rename_i hkept
    obtain ⟨hvariance, hkeeps⟩ := hkept
    rw [hvariance] at hm
    obtain ⟨us, muls, rfl, hus⟩ := merge_instance_kept hσ hopen hkeeps hm
    have hparams : ∀ t ∈ c.types, t.isConcrete = false →
        t.parameterName?.isSome ∧ (t.substitute σ).isConcrete := by
      intro t ht hconcrete
      obtain ⟨q, rfl, hinstance⟩ := (hσ.argument ht).instance_of_open (hopen t ht) hconcrete
      exact ⟨rfl, hinstance⟩
    dsimp only [argumentForwards]
    rw [if_pos rfl, filter_zipWith_forward hus hparams]
  · rename_i hkept
    exact argumentForwards_instance_nil hkept hm

end

end ScopedInference
