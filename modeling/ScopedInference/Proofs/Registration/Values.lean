import ScopedInference.Proofs.Hierarchy.Merge
import ScopedInference.Proofs.Registration.Ground
import ScopedInference.Proofs.Registration.OwnerChain

/-!
# Settled values

A decision about a concrete actual type takes it as it is, merges it with the value there was, or
leaves everything as it was, links apart (`typeDecision_cases`). Where both values are settled, so
is what they come to, and what they pass on teaches nothing (`register_param_settled`): the
registration does what the decision says and no more.
-/

namespace ScopedInference

/-- What a decision leaves known of a parameter. -/
def Decision.known {α : Type} (d : Decision α) (target : ContextId) (known : Option (Binding α)) :
    Option (Binding α) :=
  d.value?.elim known fun v => some (.bound v target)

theorem Decision.known_eq_some {α : Type} {d : Decision α} {target : ContextId}
    {known : Option (Binding α)} {b : Binding α} (hb : d.known target known = some b) :
    (∃ v, d.value? = some v ∧ b = .bound v target) ∨ known = some b := by
  unfold Decision.known at hb
  rcases hv : d.value? with _ | v <;> rw [hv] at hb
  · exact .inr hb
  · exact .inl ⟨v, rfl, (Option.some.inj hb).symm⟩

/-! ### Forwards -/

theorem mem_zipWith_forward {owner : ContextId} {f : Forward TypeExpr} {ts us : List TypeExpr}
    (hf : f ∈ ts.zipWith (Forward.mk owner) us) : f.template ∈ ts ∧ f.value ∈ us := by
  obtain ⟨i, hi, rfl⟩ := List.getElem_of_mem hf
  rw [List.getElem_zipWith]
  exact ⟨List.getElem_mem _, List.getElem_mem _⟩

/-- Arguments have a property, concatenated relations and merged types, if what they come from
has. -/
structure Hierarchy.Keeps (h : Hierarchy) (V : TypeExpr → Prop) : Prop where
  argument : ∀ c : ClassType, V (.classType c) → ∀ t ∈ c.types, V t
  concat : ∀ l r, V (.relation l) → V (.relation r) → V (.relation (l.concat r))
  merge : ∀ {variance l r m}, h.merge variance .degrade l r = .ok m → V l → V r → V m
  top : V .top

section

variable {h : Hierarchy} {owner : ContextId} {e v m : TypeExpr} {f : Forward TypeExpr}
  {V : TypeExpr → Prop}

theorem Hierarchy.Keeps.functionForwards (hV : h.Keeps V) (he : V e) (hv : V v)
    (hf : f ∈ functionForwards h owner e v) : V f.template ∧ V f.value := by
  unfold ScopedInference.functionForwards at hf
  split at hf
  · split at hf
    · obtain ⟨htemplate, hvalue⟩ := mem_zipWith_forward hf
      exact ⟨hV.argument _ he _ htemplate, hV.argument _ hv _ hvalue⟩
    · exact absurd hf List.not_mem_nil
  · exact absurd hf List.not_mem_nil

theorem Hierarchy.Keeps.argumentForwards (hV : h.Keeps V) (he : V e) (hm : V m)
    (hf : f ∈ argumentForwards owner e m) : V f.template ∧ V f.value := by
  unfold ScopedInference.argumentForwards at hf
  split at hf
  · split at hf
    · obtain ⟨htemplate, hvalue⟩ := mem_zipWith_forward (List.mem_of_mem_filter hf)
      exact ⟨hV.argument _ he _ htemplate, hV.argument _ hm _ hvalue⟩
    · exact absurd hf List.not_mem_nil
  · exact absurd hf List.not_mem_nil

/-! ### Two concrete values -/

variable {p : TypeParam} {d : Decision TypeExpr}

/-- Relations concatenate or clash; other types merge. -/
theorem mergeDecision_cases (hd : mergeDecision h p owner e v = .ok d) :
    (∃ l r, e = .relation l ∧ v = .relation r ∧ d.forwards = []
      ∧ d.value? = some (if l.canConcat r then .relation (l.concat r) else .top))
    ∨ (∀ l r, e = .relation l → v ≠ .relation r) ∧ ∃ m,
      h.merge p.variance .degrade e v = .ok m ∧ d.value? = some m
        ∧ d.forwards = functionForwards h owner e v ++ argumentForwards owner e m := by
  unfold mergeDecision at hd
  split at hd
  · rename_i l r
    refine .inl ⟨l, r, rfl, rfl, ?_⟩
    split at hd <;> cases hd <;> rename_i hconcat
    · exact ⟨rfl, by rw [if_pos hconcat]⟩
    · exact ⟨rfl, by rw [if_neg hconcat]⟩
  · rename_i hne
    refine .inr ⟨fun l r he hv => hne l r he hv, ?_⟩
    rw [Hierarchy.commonSupertype_pair] at hd
    rcases hm : h.merge p.variance .degrade e v with x | m <;> rw [hm] at hd
    · cases hd
    · cases hd
      exact ⟨m, rfl, rfl, rfl⟩

theorem mergeDecision_of_merge (owner : ContextId) (hne : ∀ l r, e = .relation l → v ≠ .relation r)
    (hm : h.merge p.variance .degrade e v = .ok m) :
    ∃ d, mergeDecision h p owner e v = .ok d ∧ d.value? = some m
      ∧ d.forwards = functionForwards h owner e v ++ argumentForwards owner e m := by
  unfold mergeDecision
  split
  · exact absurd rfl (hne _ _ rfl)
  · rw [Hierarchy.commonSupertype_pair, hm]
    exact ⟨_, rfl, rfl, rfl⟩

theorem Hierarchy.merge_isConcrete {variance : Variance} (he : e.isConcrete) (hv : v.isConcrete)
    (hm : h.merge variance .degrade e v = .ok m) : m.isConcrete := by
  rcases mergeWithin_cases hm with rfl | rfl | rfl | ⟨_, _, _, _, _, _, -, -, -, -, -, -, -, -, rfl⟩
  · exact he
  · exact hv
  · rfl
  · rfl

theorem Hierarchy.Keeps.mergeDecision (hV : h.Keeps V) (he : V e) (hv : V v)
    (hd : mergeDecision h p owner e v = .ok d) :
    (∃ m, d.value? = some m ∧ V m) ∧ ∀ f ∈ d.forwards, V f.template ∧ V f.value := by
  rcases mergeDecision_cases hd with ⟨l, r, rfl, rfl, hnone, hvalue⟩ | ⟨-, m, hm, hvalue, hforwards⟩
  · refine ⟨⟨_, hvalue, ?_⟩, by rw [hnone]; simp⟩
    split
    · exact hV.concat l r he hv
    · exact hV.top
  · have hmerged := hV.merge hm he hv
    refine ⟨⟨m, hvalue, hmerged⟩, fun f hf => ?_⟩
    rw [hforwards] at hf
    rcases List.mem_append.1 hf with hf | hf
    · exact hV.functionForwards he hv hf
    · exact hV.argumentForwards he hmerged hf

theorem mergeDecision_isConcrete (he : e.isConcrete) (hv : v.isConcrete)
    (hd : mergeDecision h p owner e v = .ok d) (hm : d.value? = some m) : m.isConcrete := by
  rcases mergeDecision_cases hd with ⟨l, r, rfl, rfl, -, hvalue⟩ | ⟨-, m', hm', hvalue, -⟩
  · rw [hvalue] at hm
    cases hm
    split <;> rfl
  · rw [hvalue] at hm
    cases hm
    exact Hierarchy.merge_isConcrete he hv hm'

theorem Hierarchy.Regular.keeps_settled (hreg : h.Regular) : h.Keeps (·.Settled h) where
  argument _ hc := hc.of_classType.2.2
  concat l r hl hr := .relation fun c hc => by
    rcases Relation.mem_concat.1 hc with hc | ⟨hc, -⟩
    · exact hl.of_relation c hc
    · exact hr.of_relation c hc
  merge hm hl hr := hreg.mergeWithin_settled _ hm hl hr
  top := Hierarchy.settled_top

/-- Settled values come to one, and pass on only settled types. -/
theorem mergeDecision_settled (hreg : h.Regular) (hd : mergeDecision h p owner e v = .ok d)
    (he : e.isConcrete ∧ e.Settled h) (hv : v.isConcrete ∧ v.Settled h) :
    (∃ m, d.value? = some m ∧ m.isConcrete ∧ m.Settled h)
      ∧ ∀ f ∈ d.forwards, f.template.Settled h ∧ f.value.Settled h := by
  obtain ⟨⟨m, hvalue, hm⟩, hforwards⟩ := hreg.keeps_settled.mergeDecision he.2 hv.2 hd
  exact ⟨⟨m, hvalue, mergeDecision_isConcrete he.1 hv.1 hd hvalue, hm⟩, hforwards⟩

/-- What is decided on, and what is passed on, is kept too. -/
theorem Hierarchy.Keeps.typeDecision {id target : ContextId} {onTrial merge : Bool}
    {known : Option (Binding TypeExpr)} (hV : h.Keeps V) (hv : V v)
    (hknown : ∀ e owner, known = some (.bound e owner) → V e)
    (hd : typeDecision h id target p onTrial merge known v = .ok d) :
    (∀ m, d.value? = some m → V m) ∧ ∀ f ∈ d.forwards, V f.template ∧ V f.value := by
  rcases known with _ | ⟨e, owner⟩ | ⟨e, owner⟩
  · cases hd
    simp [hv]
  · have he := hknown e owner rfl
    dsimp only [ScopedInference.typeDecision] at hd
    split at hd
    · obtain ⟨⟨m, hm, hmV⟩, hforwards⟩ := hV.mergeDecision he hv hd
      exact ⟨fun m' hm' => Option.some.inj (hm.symm.trans hm') ▸ hmV, hforwards⟩
    -- Otherwise the value is the new one, or none, and forwards are about these two types.
    repeat' split at hd
    all_goals
      cases hd
      simp [hv, he]
  · cases hd
    simp

/-! ### A concrete actual type -/

/-- A concrete value that is known is settled, and one that another context owns is not passed on to
it. -/
structure Local (h : Hierarchy) (id : ContextId) (onTrial : Bool)
    (known : Option (Binding TypeExpr)) : Prop where
  settled : ∀ e owner, known = some (.bound e owner) → e.isConcrete → e.Settled h
  own : ∀ e owner, known = some (.bound e owner) → e.parameterName?.isSome → owner ≠ id →
    onTrial = true

variable {id target : ContextId} {onTrial merge : Bool} {known : Option (Binding TypeExpr)}

theorem typeDecision_concrete (he : e.isConcrete) (hv : v.isConcrete) :
    typeDecision h id target p onTrial merge (some (.bound e owner)) v
      = mergeDecision h p owner e v := by
  simp only [typeDecision, he, hv, Bool.and_self, if_true]

theorem typeDecision_cases (hv : v.isConcrete) (hlocal : Local h id onTrial known)
    (hd : typeDecision h id target p onTrial merge known v = .ok d) :
    d = { value? := some v }
      ∨ (∃ e owner, known = some (.bound e owner) ∧ e.isConcrete
        ∧ mergeDecision h p owner e v = .ok d)
      ∨ d.value? = none ∧ d.forwards = [] := by
  rcases known with _ | ⟨e, owner⟩ | ⟨e, owner⟩
  · cases hd
    exact .inl rfl
  · rcases he : e.isConcrete with _ | _
    · simp only [typeDecision, he, hv, Bool.false_and, Bool.false_eq_true, if_false, if_true] at hd
      split at hd
      · cases hd
        exact .inl rfl
      split at hd
      · cases hd
        exact .inl rfl
      split at hd
      · rename_i htrial _ hne howner
        refine absurd (hlocal.own e owner rfl ?_ howner) htrial
        cases e with
        | param q => rfl
        | operation kind l r => exact absurd rfl (hne _ _ _)
        | _ => cases he
      split at hd <;> cases hd
      · exact .inr (.inr ⟨rfl, rfl⟩)
      · exact .inl rfl
    · rw [typeDecision_concrete he hv] at hd
      exact .inr (.inl ⟨e, owner, rfl, he, hd⟩)
  · cases hd
    exact .inr (.inr ⟨rfl, rfl⟩)

/-- A decision takes settled values to settled ones, and passes on only settled types. -/
theorem typeDecision_settled (hreg : h.Regular) (hv : v.isConcrete ∧ v.Settled h)
    (hlocal : Local h id onTrial known)
    (hd : typeDecision h id target p onTrial merge known v = .ok d) :
    (∀ m, d.value? = some m → m.isConcrete ∧ m.Settled h)
      ∧ ∀ f ∈ d.forwards, f.template.Settled h ∧ f.value.Settled h := by
  rcases typeDecision_cases hv.1 hlocal hd with rfl | ⟨e, owner, rfl, he, hmerge⟩ | ⟨hnone, hnil⟩
  · refine ⟨fun m hm => ?_, by simp⟩
    cases hm
    exact hv
  · obtain ⟨⟨m, hvalue, hm⟩, hforwards⟩ :=
      mergeDecision_settled hreg hmerge ⟨he, hlocal.settled e owner rfl he⟩ hv
    refine ⟨fun m' hm' => ?_, hforwards⟩
    rw [hvalue, Option.some.injEq] at hm'
    rwa [← hm']
  · rw [hnone, hnil]
    simp

/-- What is known after a decision is as it was in this respect. -/
theorem Local.decided (hreg : h.Regular) (hv : v.isConcrete ∧ v.Settled h)
    (hlocal : Local h id onTrial known)
    (hd : typeDecision h id target p onTrial merge known v = .ok d) :
    Local h id onTrial (d.known target known) := by
  have hvalue := (typeDecision_settled hreg hv hlocal hd).1
  constructor
  · intro e owner hb he
    rcases Decision.known_eq_some hb with ⟨m, hm, heq⟩ | hb
    · cases heq
      exact (hvalue _ hm).2
    · exact hlocal.settled e owner hb he
  · intro e owner hb he howner
    rcases Decision.known_eq_some hb with ⟨m, hm, heq⟩ | hb
    · cases heq
      have hconcrete := (hvalue _ hm).1
      cases e with
      | param q => cases hconcrete
      | _ => cases he
    · exact hlocal.own e owner hb he howner

end

/-! ### Registrations -/

section

variable {a : Arena} {id target : ContextId} {c : Context} {name : String} {d : Decision TypeExpr}

theorem context_settled (hc : a.context id = .ok c) :
    (Registration.settled a id target c name d).context id
      = .ok (c.mapCurrent fun s => d.value?.elim s fun v => s.bind name (.bound v target)) := by
  rw [Registration.settled_eq hc, Arena.context_insert_self]

theorem binding?_of_settled (s : BindingState) :
    (d.value?.elim s fun v => s.bind name (.bound v target)).binding? name
      = d.known target (s.binding? name) := by
  unfold Decision.known
  rcases d.value? with _ | v
  · rfl
  · exact s.binding?_bind_self name _

/-- A decision that leaves known what was known leaves everything. -/
theorem settled_of_known (hc : a.context id = .ok c)
    (hknown : d.known target (c.current.binding? name) = c.current.binding? name) :
    Registration.settled a id target c name d = a := by
  rw [Registration.settled_eq hc]
  unfold Decision.known at hknown
  rcases hv : d.value? with _ | v <;> rw [hv] at hknown
  · exact Arena.insert_of_context hc
  · have hbind : c.current.bind name (.bound v target) = c.current :=
      BindingState.bind_of_binding? hknown.symm
    show a.insert id { c with current := c.current.bind name (.bound v target) } = a
    rw [hbind]
    exact Arena.insert_of_context hc

end

namespace Registration

open RunM

/-- Settled types in forwards teach nothing. -/
theorem forwardAll_settled {n : Nat} {l : List (Forward TypeExpr)} {target : ContextId}
    {merge : Bool} {r s : Run} (hreg : r.arena.hierarchy.Regular)
    (hl : ∀ f ∈ l, f.template.Settled r.arena.hierarchy ∧ f.value.Settled r.arena.hierarchy)
    (hok : forwardAll (register n)
      (l.map fun f => .type f.context f.template (some f.value) target merge) r = .ok () s) :
    s.arena = r.arena := by
  have hmeets : ∀ q ∈ l.map fun f => Request.type f.context f.template (some f.value) target merge,
      (still r.arena False).Meets (register n q) [] := by
    intro q hq
    obtain ⟨f, hf, rfl⟩ := List.mem_map.1 hq
    exact (ground_meets hreg False n).1 _ _ _ _ _ (hl f hf).1 (hl f hf).2 False.elim
  exact (Progress.Meets.forwardAll hmeets [] r rfl).1 s hok

/-- A fact about a parameter has done what was decided on it, and nothing else. -/
structure Decided (r s : Run) (id target : ContextId) (p : TypeParam) (v : TypeExpr) (merge : Bool)
    (c : Context) (d : Decision TypeExpr) : Prop where
  here : r.arena.context id = .ok c
  decision : typeDecision r.arena.hierarchy id target p c.onTrial merge
    (c.current.binding? p.name) v = .ok d
  arena : s.arena = settled r.arena id target c p.name d

section

variable {id target : ContextId} {p : TypeParam} {v : TypeExpr} {merge : Bool} {r s : Run}

theorem Decided.hierarchy_eq {c : Context} {d : Decision TypeExpr}
    (h : Decided r s id target p v merge c d) : s.arena.hierarchy = r.arena.hierarchy := by
  rw [h.arena, settled_eq h.here]
  rfl

theorem Decided.known {c c' : Context} {d : Decision TypeExpr}
    (h : Decided r s id target p v merge c d) (hc : s.arena.context id = .ok c') :
    c'.onTrial = c.onTrial
      ∧ c'.current.binding? p.name = d.known target (c.current.binding? p.name) := by
  rw [h.arena, context_settled h.here] at hc
  cases hc
  exact ⟨rfl, binding?_of_settled _⟩

theorem Decided.binding?_eq {c : Context} {d : Decision TypeExpr}
    (h : Decided r s id target p v merge c d) :
    s.arena.binding? id p.name = .ok (d.known target (c.current.binding? p.name)) := by
  rw [h.arena]
  unfold Arena.binding?
  rw [context_settled h.here]
  exact congrArg Except.ok (binding?_of_settled _)

theorem Decided.exists_context {c : Context} {d : Decision TypeExpr}
    (h : Decided r s id target p v merge c d) {other : ContextId}
    (hother : ∃ e, r.arena.context other = .ok e) : ∃ e, s.arena.context other = .ok e := by
  rw [h.arena, settled_eq h.here]
  exact Arena.exists_context_insert _ hother

/-- A decision that passes nothing on is carried out without fail. -/
theorem register_param_decided {n : Nat} {c there : Context} {d : Decision TypeExpr}
    (hc : r.arena.context id = .ok c) (hthere : r.arena.context target = .ok there)
    (hv : v.isConcrete)
    (hd : typeDecision r.arena.hierarchy id target p c.onTrial merge (c.current.binding? p.name) v
      = .ok d) (hnone : d.forwards = []) :
    ∃ s, register (n + 1) (.type id (.param p) (some v) target merge) r = .ok () s
      ∧ Decided r s id target p v merge c d := by
  obtain ⟨s, harena, happly⟩ :=
    register_param_apply (n := n) hc hthere (.inr (TypeExpr.ne_equality hv)) hd
  rw [hnone] at happly
  exact ⟨s, happly, hc, hd, harena⟩

/-- Settled values are decided on where they are. -/
theorem register_param_settled {n : Nat} (hreg : r.arena.hierarchy.Regular)
    (hv : v.isConcrete ∧ v.Settled r.arena.hierarchy)
    (hlocal : ∀ c, r.arena.context id = .ok c →
      Local r.arena.hierarchy id c.onTrial (c.current.binding? p.name))
    (hok : register (n + 1) (.type id (.param p) (some v) target merge) r = .ok () s) :
    ∃ c d, Decided r s id target p v merge c d := by
  obtain ⟨c, d, r', hc, hd, hr', hok⟩ := register_param_ok (TypeExpr.ne_equality hv.1) hok
  have hhierarchy : r'.arena.hierarchy = r.arena.hierarchy := by
    rw [hr', settled_eq hc]
    rfl
  have hforwards := (typeDecision_settled hreg hv (hlocal c hc) hd).2
  refine ⟨c, d, hc, hd, ?_⟩
  rw [← hr']
  exact forwardAll_settled (by rwa [hhierarchy]) (by rwa [hhierarchy]) hok

/-- Settled values one after the other: the second one is decided on where the first one has left
the parameter. -/
theorem register_param_twice {n k : Nat} {u : TypeExpr} {merge' : Bool} {t t' : Run}
    (hreg : r.arena.hierarchy.Regular) (hu : u.isConcrete ∧ u.Settled r.arena.hierarchy)
    (hv : v.isConcrete ∧ v.Settled r.arena.hierarchy)
    (hlocal : ∀ c, r.arena.context id = .ok c →
      Local r.arena.hierarchy id c.onTrial (c.current.binding? p.name))
    (hok : register (n + 1) (.type id (.param p) (some u) target merge) r = .ok () s)
    (ht : t.arena = s.arena)
    (hok' : register (k + 1) (.type id (.param p) (some v) target merge') t = .ok () t') :
    ∃ c d c' d', Decided r s id target p u merge c d ∧ Decided t t' id target p v merge' c' d'
      ∧ c'.current.binding? p.name = d.known target (c.current.binding? p.name)
      ∧ typeDecision r.arena.hierarchy id target p c.onTrial merge'
        (d.known target (c.current.binding? p.name)) v = .ok d' := by
  obtain ⟨c, d, hfirst⟩ := register_param_settled hreg hu hlocal hok
  have hhierarchy : t.arena.hierarchy = r.arena.hierarchy := by
    rw [ht, hfirst.hierarchy_eq]
  have hknown : ∀ c', t.arena.context id = .ok c' → c'.onTrial = c.onTrial
      ∧ c'.current.binding? p.name = d.known target (c.current.binding? p.name) := by
    rw [ht]
    exact fun c' => hfirst.known
  have hlocal' : ∀ c', t.arena.context id = .ok c' →
      Local t.arena.hierarchy id c'.onTrial (c'.current.binding? p.name) := by
    intro c' hc'
    rw [(hknown c' hc').1, (hknown c' hc').2, hhierarchy]
    exact (hlocal c hfirst.here).decided hreg hu hfirst.decision
  obtain ⟨c', d', hsecond⟩ := register_param_settled (by rwa [hhierarchy]) (by rwa [hhierarchy])
    hlocal' hok'
  obtain ⟨htrial, hbinding⟩ := hknown c' hsecond.here
  have hd' := hsecond.decision
  rw [hhierarchy, htrial, hbinding] at hd'
  exact ⟨c, d, c', d', hfirst, hsecond, hbinding, hd'⟩

end

end Registration

end ScopedInference
