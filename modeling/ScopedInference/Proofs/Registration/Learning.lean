import ScopedInference.Proofs.Hierarchy.Merge
import ScopedInference.Proofs.Registration.Ground
import ScopedInference.Proofs.Registration.Update

/-!
# Learning the values of parameters

`Learnt` says what a context knows once the parameters of a list have been met with the values that
a substitution gives them. A value that is met again stays as it is: types merge with themselves,
and what the merge says about arguments says nothing new. Only a relation that has columns of one
name and different types clashes with itself, and its parameter falls to the top type.
-/

namespace ScopedInference

namespace TypeExpr

/-- Merging the type with itself does not give it back. -/
def clashes : TypeExpr → Bool
  | .relation r => !r.canConcat r
  | _ => false

/-- What becomes of a value that is met a number of times. -/
def met (v : TypeExpr) (n : Nat) : TypeExpr := if 2 ≤ n ∧ v.clashes then .top else v

theorem met_one (v : TypeExpr) : v.met 1 = v := by
  unfold met
  rw [if_neg (by simp)]

theorem met_of_not_clashes {v : TypeExpr} (hv : v.clashes = false) (n : Nat) : v.met n = v := by
  unfold met
  rw [if_neg (by simp [hv])]

end TypeExpr

/-! ### Meeting a value again -/

theorem commonSupertype_self (h : Hierarchy) (variance : Variance) (policy : ConflictPolicy)
    (v : TypeExpr) : h.commonSupertype variance policy [v, v] = .ok v := by
  rw [Hierarchy.commonSupertype_pair, Hierarchy.merge, Hierarchy.mergeWithin_self]

/-- The top type stays, whatever comes after a clash. -/
theorem commonSupertype_top (h : Hierarchy) (variance : Variance) (t : TypeExpr) :
    h.commonSupertype variance .degrade [.top, t] = .ok .top := by
  rw [Hierarchy.commonSupertype_pair, Hierarchy.merge, Hierarchy.mergeWithin_top]

/-- What a value that is met again says about the context that owns it. -/
def Hierarchy.passedOn (h : Hierarchy) : TypeExpr → List TypeExpr
  | .classType c => if h.isFunctionClass c.head then c.types else []
  | _ => []

theorem Hierarchy.mem_passedOn {h : Hierarchy} {v t : TypeExpr} (ht : t ∈ h.passedOn v) :
    ∃ c, v = .classType c ∧ t ∈ c.types := by
  unfold passedOn at ht
  split at ht
  · split at ht
    · exact ⟨_, rfl, ht⟩
    · simp at ht
  · simp at ht

theorem mem_functionForwards_self {h : Hierarchy} {owner : ContextId} {v : TypeExpr}
    {f : Forward TypeExpr} (hf : f ∈ functionForwards h owner v v) :
    f.context = owner ∧ f.template = f.value ∧ f.value ∈ h.passedOn v := by
  cases v with
  | classType c =>
    simp only [functionForwards, List.zipWith_self] at hf
    split at hf
    · rename_i hclass
      obtain ⟨t, ht, rfl⟩ := List.mem_map.1 hf
      refine ⟨rfl, rfl, ?_⟩
      rw [Hierarchy.passedOn, if_pos (by simpa using hclass)]
      exact ht
    · simp at hf
  | _ => simp [functionForwards] at hf

theorem argumentForwards_self (owner : ContextId) (v : TypeExpr) :
    argumentForwards owner v v = [] := by
  cases v with
  | classType c =>
    simp only [argumentForwards, if_true, List.zipWith_self, List.filter_eq_nil_iff]
    intro f hf
    obtain ⟨t, -, rfl⟩ := List.mem_map.1 hf
    simp
  | _ => rfl

theorem mergeDecision_self (h : Hierarchy) (p : TypeParam) (owner : ContextId) {v : TypeExpr}
    (hv : ∀ r, v ≠ .relation r) : mergeDecision h p owner v v
      = .ok { value? := some v, forwards := functionForwards h owner v v } := by
  have hdegraded : (v.isTop && !v.isTop && !v.isTop) = false := by
    rcases v.isTop with _ | _ <;> rfl
  unfold mergeDecision
  split
  · exact absurd rfl (hv _)
  · simp only [commonSupertype_self, argumentForwards_self, List.append_nil, bind, Except.bind,
      hdegraded, pure, Except.pure]
    rfl

theorem mergeDecision_relation (h : Hierarchy) (p : TypeParam) (owner : ContextId)
    (r : Relation TypeExpr) {n : Nat} (hn : 1 ≤ n) :
    ∃ d, mergeDecision h p owner ((TypeExpr.relation r).met n) (.relation r) = .ok d
      ∧ d.value? = some ((TypeExpr.relation r).met (n + 1)) ∧ d.forwards = [] := by
  by_cases hr : r.canConcat r
  · have hclash : (TypeExpr.relation r).clashes = false := by
      simpa only [TypeExpr.clashes, Bool.not_eq_false'] using hr
    simp only [TypeExpr.met_of_not_clashes hclash, mergeDecision, hr, if_true, Relation.concat_self]
    exact ⟨_, rfl, rfl, rfl⟩
  have hclash : (TypeExpr.relation r).clashes = true := by
    simpa only [TypeExpr.clashes, Bool.not_eq_true', Bool.not_eq_true] using hr
  have hnext : (TypeExpr.relation r).met (n + 1) = .top := by
    rw [TypeExpr.met, if_pos ⟨by omega, hclash⟩]
  rw [hnext]
  by_cases hn' : n = 1
  · subst hn'
    simp only [TypeExpr.met_one, mergeDecision, if_neg hr]
    exact ⟨_, rfl, rfl, rfl⟩
  · have hmerge := commonSupertype_top h p.variance (.relation r)
    rw [TypeExpr.met, if_pos ⟨by omega, hclash⟩]
    unfold mergeDecision
    simp only [TypeExpr.top, TypeExpr.atom] at hmerge ⊢
    rw [hmerge]
    exact ⟨_, rfl, rfl, rfl⟩

/-- A value met again is met with itself, or with the top type after a clash. -/
theorem typeDecision_again (h : Hierarchy) {v : TypeExpr} (hv : v.parameters = [])
    (id target : ContextId) (p : TypeParam) (onTrial merge : Bool) {n : Nat} (hn : 1 ≤ n) :
    ∃ d, typeDecision h id target p onTrial merge (some (.bound (v.met n) target)) v = .ok d
      ∧ d.value?.getD (v.met n) = v.met (n + 1)
      ∧ ∀ f ∈ d.forwards, f.context = target ∧ f.template = f.value
        ∧ (f.value = v ∧ v.isConcrete = false ∨ f.value ∈ h.passedOn v) := by
  have hself : (∀ r, v ≠ .relation r) → v.met n = v ∧ v.met (n + 1) = v := by
    intro hne
    have hclash : v.clashes = false := by
      cases v with
      | relation r => exact absurd rfl (hne r)
      | _ => rfl
    exact ⟨TypeExpr.met_of_not_clashes hclash n, TypeExpr.met_of_not_clashes hclash (n + 1)⟩
  have hmerges : v.isConcrete = true → (∀ r, v ≠ .relation r) →
      typeDecision h id target p onTrial merge (some (.bound v target)) v
        = .ok { value? := some v, forwards := functionForwards h target v v } := by
    intro hconcrete hne
    simp only [typeDecision, hconcrete, Bool.and_self, if_true, mergeDecision_self h p target hne]
  cases v with
  | param q => exact absurd hv (by simp [TypeExpr.parameters])
  | relation r =>
    obtain ⟨d, hd, hvalue, hforwards⟩ := mergeDecision_relation h p target r hn
    have hconcrete : ((TypeExpr.relation r).met n).isConcrete := by
      unfold TypeExpr.met
      split <;> rfl
    refine ⟨d, ?_, by rw [hvalue]; rfl, by rw [hforwards]; simp⟩
    have hrelation : (TypeExpr.relation r).isConcrete := rfl
    simp only [typeDecision, hconcrete, hrelation, Bool.and_self, if_true, hd]
  | operation kind left right =>
    obtain ⟨hmet, hnext⟩ := hself fun _ => TypeExpr.noConfusion
    rw [hmet, hnext]
    simp only [typeDecision, TypeExpr.isConcrete, Bool.and_self, Bool.false_eq_true, if_false]
    split
    · exact ⟨_, rfl, rfl, by simp⟩
    split
    · refine ⟨_, rfl, rfl, fun f hf => ?_⟩
      obtain rfl := List.mem_singleton.1 hf
      exact ⟨rfl, rfl, .inl ⟨rfl, trivial⟩⟩
    · exact ⟨_, rfl, rfl, by simp⟩
  | classType c =>
    obtain ⟨hmet, hnext⟩ := hself fun _ => TypeExpr.noConfusion
    rw [hmet, hnext]
    refine ⟨_, hmerges rfl fun _ => TypeExpr.noConfusion, rfl, fun f hf => ?_⟩
    replace hf : f ∈ functionForwards h target (.classType c) (.classType c) := hf
    obtain ⟨hcontext, hsame, harg⟩ := mem_functionForwards_self hf
    exact ⟨hcontext, hsame, .inr harg⟩
  | function g =>
    obtain ⟨hmet, hnext⟩ := hself fun _ => TypeExpr.noConfusion
    rw [hmet, hnext]
    exact ⟨_, hmerges rfl fun _ => TypeExpr.noConfusion, rfl, by simp [functionForwards]⟩

theorem mulDecision_again (id target : ContextId) (onTrial : Bool) {v : Multiplicity}
    (hv : v.isConcrete) : mulDecision id target onTrial (some (.bound v target)) v
      = { value? := some v } := by
  simp only [mulDecision, hv, Bool.and_self, if_true, Multiplicity.leastSubsuming_pair,
    Multiplicity.join_self]

/-! ### What a state has learnt -/

/-- Nothing is bound to a parameter of the name and kind. -/
def BindingState.Unbound (s : BindingState) : Parameter → Prop
  | .type name => s.binding? name = (none : Option (Binding TypeExpr))
  | .mul name => s.binding? name = (none : Option (Binding Multiplicity))

/-- A state that differs from `base` in that some parameters have been met with the values that a
substitution has for them. -/
structure Learnt (σ : Substitution) (target : ContextId) (base : BindingState)
    (seen : List Parameter) (s : BindingState) : Prop where
  types : ∀ name, s.binding? name = if .type name ∈ seen
    then (σ.types name).map fun v => .bound (v.met (seen.count (.type name))) target
    else base.binding? name
  muls : ∀ name, s.binding? name = if .mul name ∈ seen
    then (σ.muls name).map fun m => Binding.bound m target
    else base.binding? name
  lookahead : s.lookahead = base.lookahead

namespace Learnt

variable {σ : Substitution} {target : ContextId} {base s : BindingState} {seen : List Parameter}
  {name : String}

theorem nil (σ : Substitution) (target : ContextId) (base : BindingState) :
    Learnt σ target base [] base where
  types _ := rfl
  muls _ := rfl
  lookahead := rfl

theorem type {v : TypeExpr} (hs : Learnt σ target base seen s) (hv : σ.types name = some v) :
    Learnt σ target base (seen ++ [.type name])
      (s.bind name (.bound (v.met (seen.count (.type name) + 1)) target)) where
  types := by
    intro other
    by_cases hname : name = other
    · subst hname
      simp [hv]
    · have hmem : Parameter.type other ∈ seen ++ [.type name] ↔ Parameter.type other ∈ seen := by
        simp [Ne.symm hname]
      have hcount : (seen ++ [Parameter.type name]).count (.type other)
          = seen.count (.type other) := by
        simp [hname]
      rw [BindingState.binding?_bind_of_ne _ hname, hs.types other, if_congr hmem rfl rfl, hcount]
  muls := by
    intro other
    have hmem : Parameter.mul other ∈ seen ++ [.type name] ↔ Parameter.mul other ∈ seen := by simp
    rw [if_congr hmem rfl rfl, ← hs.muls other]
    rfl
  lookahead := by rw [BindingState.lookahead_bind, hs.lookahead]

theorem mul {m : Multiplicity} (hs : Learnt σ target base seen s) (hm : σ.muls name = some m) :
    Learnt σ target base (seen ++ [.mul name]) (s.bind name (.bound m target)) where
  types := by
    intro other
    have hmem : Parameter.type other ∈ seen ++ [.mul name] ↔ Parameter.type other ∈ seen := by simp
    have hcount : (seen ++ [Parameter.mul name]).count (.type other)
        = seen.count (.type other) := by simp
    rw [if_congr hmem rfl rfl, hcount, ← hs.types other]
    rfl
  muls := by
    intro other
    by_cases hname : name = other
    · subst hname
      simp [hm]
    · have hmem : Parameter.mul other ∈ seen ++ [.mul name] ↔ Parameter.mul other ∈ seen := by
        simp [Ne.symm hname]
      rw [BindingState.binding?_bind_of_ne _ hname, hs.muls other, if_congr hmem rfl rfl]
  lookahead := by rw [BindingState.lookahead_bind, hs.lookahead]

end Learnt

/-! ### Carrying out a decision -/

namespace Registration

open RunM

variable {recur : Request → RunM Unit} {id target : ContextId} {c : Context} {r : Run}

/-- Settling a decision makes progress if what follows from it changes nothing. -/
theorem settle_forwardAll {P : Progress} {α : Type} [Bindable α] {name : String} {d : Decision α}
    (e : Event) {l : List Request} {seen : List Parameter} (hc : r.arena.context id = .ok c)
    (hholds : P.holds seen (settled r.arena id target c name d))
    (hl : ∀ q ∈ l,
      (still (settled r.arena id target c name d) (P.sure seen)).Meets (recur q) []) :
    let act : RunM Unit := do
      settle id target name d
      record e
      forwardAll recur l
    (∀ s, act r = .ok () s → P.holds seen s.arena) ∧ (P.sure seen → ∃ s, act r = .ok () s) := by
  obtain ⟨r', hr', harena⟩ := exists_settle hc target name d
  have hforwards := Progress.Meets.forwardAll hl
  rw [flatMap_const_nil] at hforwards
  obtain ⟨hok, hsure⟩ := hforwards [] (r'.record e) harena
  constructor
  · intro s hs
    obtain ⟨_, r₁, h₁, hs₁⟩ := bind_eq_ok.1 hs
    rw [hr'] at h₁
    cases h₁
    obtain ⟨_, r₂, h₂, hs₂⟩ := bind_eq_ok.1 hs₁
    cases h₂
    rw [hok s hs₂]
    exact hholds
  · intro h
    obtain ⟨s, hs⟩ := hsure h
    exact ⟨s, bind_eq_ok.2 ⟨(), r', hr', bind_eq_ok.2 ⟨(), r'.record e, rfl, hs⟩⟩⟩

end Registration

/-! ### A context that learns -/

/-- The visible state of a context learns what a substitution says about the parameters met, and the
rest of the arena stays. What a value passes on when it is met again should be coherent. -/
def learning (a : Arena) (id target : ContextId) (c : Context) (σ : Substitution) (sure : Prop) :
    Progress where
  hierarchy := a.hierarchy
  holds seen b := ∃ s, b = a.insert id { c with current := s } ∧ Learnt σ target c.current seen s
  sure seen := sure ∧ ∀ name v, 2 ≤ seen.count (.type name) → σ.types name = some v →
    v.isConcrete ∧ ∀ t ∈ a.hierarchy.passedOn v, t.Coherent
  hierarchy_eq := by
    rintro _ _ ⟨s, rfl, -⟩
    rfl
  sure_left := by
    rintro l l' ⟨hsure, hcoherent⟩
    refine ⟨hsure, fun name v hcount => hcoherent name v ?_⟩
    rw [List.count_append]
    omega

open Registration

section

variable {a : Arena} {id target : ContextId} {c : Context} {σ : Substitution} {sure : Prop}

theorem learning_has : (learning a id target c σ sure).Has id := by
  rintro l b - ⟨s, rfl, -⟩
  exact ⟨_, Arena.context_insert_self a id _⟩

theorem learning_has_target (hthere : sure → ∃ d, a.context target = .ok d) :
    (learning a id target c σ sure).Has target := by
  rintro l b ⟨hsure, -⟩ ⟨s, rfl, -⟩
  exact Arena.exists_context_insert _ (hthere hsure)

/-- Where an action would not change the arena, it makes no progress. -/
theorem Progress.Meets.of_still {P : Progress} {act : RunM Unit}
    (h : ∀ b l, P.holds l b → (still b (P.sure l)).Meets act []) : P.Meets act [] := by
  intro seen r hr
  rw [List.append_nil]
  obtain ⟨hok, hsure⟩ := h r.arena seen hr [] r rfl
  refine ⟨fun s hs => ?_, hsure⟩
  rw [hok s hs]
  exact hr

/-- Deciding on the value that the substitution has, for the first time or again. -/
theorem Learnt.typeDecision {h : Hierarchy} {base s : BindingState} {seen : List Parameter}
    (hs : Learnt σ target base seen s) {p : TypeParam} {v : TypeExpr} (hv : v.Ground h)
    (hσ : σ.types p.name = some v) (hfree : base.Unbound (.type p.name)) (id : ContextId)
    (onTrial merge : Bool) :
    ∃ d, ScopedInference.typeDecision h id target p onTrial merge (s.binding? p.name) v = .ok d
      ∧ Learnt σ target base (seen ++ [.type p.name])
        (d.value?.elim s fun v => s.bind p.name (.bound v target))
      ∧ ∀ f ∈ d.forwards, .type p.name ∈ seen ∧ f.context = target ∧ f.template = f.value
        ∧ (f.value = v ∧ v.isConcrete = false ∨ f.value ∈ h.passedOn v) := by
  have hnext := hs.type hσ
  by_cases hmem : .type p.name ∈ seen
  · have hcount : 1 ≤ seen.count (.type p.name) := List.count_pos_iff.2 hmem
    have hbinding := hs.types p.name
    rw [if_pos hmem, hσ, Option.map_some] at hbinding
    obtain ⟨d, hd, hvalue, hforwards⟩ :=
      typeDecision_again h hv.parameters id target p onTrial merge hcount
    refine ⟨d, by rw [hbinding, hd], ?_, fun f hf => ⟨hmem, hforwards f hf⟩⟩
    rw [← hvalue] at hnext
    rcases hd' : d.value? with _ | w <;> rw [hd'] at hnext
    · rwa [Option.getD_none, BindingState.bind_of_binding? hbinding] at hnext
    · exact hnext
  · have hbinding := hs.types p.name
    rw [if_neg hmem, hfree] at hbinding
    rw [List.count_eq_zero.2 hmem, TypeExpr.met_one] at hnext
    exact ⟨{ value? := some v }, by rw [hbinding]; rfl, hnext, by simp⟩

theorem Learnt.mulDecision {base s : BindingState} {seen : List Parameter}
    (hs : Learnt σ target base seen s) {name : String} {v : Multiplicity} (hv : v.isConcrete)
    (hσ : σ.muls name = some v) (hfree : base.Unbound (.mul name)) (id : ContextId)
    (onTrial : Bool) :
    ScopedInference.mulDecision id target onTrial (s.binding? name) v = { value? := some v } := by
  have hbinding := hs.muls name
  split at hbinding
  · rw [hσ, Option.map_some] at hbinding
    rw [hbinding, mulDecision_again id target onTrial hv]
  · rw [hfree] at hbinding
    rw [hbinding]
    rfl

variable (hw : a.hierarchy.WellFormed) (hthere : sure → ∃ d, a.context target = .ok d)

include hthere

include hw

end

end ScopedInference
