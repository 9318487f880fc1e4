import ScopedInference.Proofs.Registration.Values

/-!
# Two observations in either order

Of two settled values it does not matter which one is decided on first, but for the columns of
relations that concatenate, which come in another order (`mergeDecision_comm`). So a parameter that
nothing has been learnt about comes to the same value whichever of two types is registered first
(`register_comm`).
-/

namespace ScopedInference

/-- Nothing has been learnt about a type parameter: it is unbound, or declared. -/
def Context.Unlearnt (c : Context) (name : String) : Prop :=
  ∀ b : Binding TypeExpr, c.current.binding? name = some b → b.isTerminal

theorem Context.unlearnt_fresh (id : ContextId) (parent : Option ContextId)
    (signature : Option Signature) (name : String) :
    (Context.fresh id parent signature).Unlearnt name := by
  have hdeclaring : ∀ (params : List TypeParam) (s : BindingState),
      (∀ b : Binding TypeExpr, s.binding? name = some b → b.isTerminal) →
      ∀ b : Binding TypeExpr, (params.foldl (fun s p => s.bind p.name
        (.terminal (TypeExpr.param p) id)) s).binding? name = some b → b.isTerminal := by
    intro params
    induction params with
    | nil => exact fun s hs => hs
    | cons p params ih =>
      refine fun s hs => ih _ fun b hb => ?_
      by_cases hp : p.name = name
      · subst hp
        rw [BindingState.binding?_bind_self, Option.some.injEq] at hb
        subst hb
        rfl
      · rw [BindingState.binding?_bind_of_ne _ hp] at hb
        exact hs b hb
  exact hdeclaring _ {} fun b hb => by cases hb

/-! ### Decisions -/

section

variable {h : Hierarchy} {p : TypeParam} {target : ContextId} {u v : TypeExpr}
  {d d' : Decision TypeExpr}

/-- Both orders come to one value, or to the columns of two relations. -/
theorem mergeDecision_comm (hreg : h.Regular)
    (hnil : ∃ d, h.find? .nil = some d ∧ d.params = [] ∧ d.muls = [])
    (hu : u.AllClasses h.Arity) (hv : v.AllClasses h.Arity)
    (hucols : ∀ r, u = .relation r → r.Distinct) (hvcols : ∀ r, v = .relation r → r.Distinct)
    (hd : mergeDecision h p target u v = .ok d) (hd' : mergeDecision h p target v u = .ok d') :
    d.value? = d'.value? ∨ ∃ l r, u = .relation l ∧ v = .relation r ∧ l.canConcat r
      ∧ d.value? = some (.relation (l.concat r)) ∧ d'.value? = some (.relation (r.concat l)) := by
  rcases mergeDecision_cases hd with ⟨l, r, rfl, rfl, -, hvalue⟩ | ⟨hne, m, hm, hvalue, -⟩
  · have hcomm := Relation.canConcat_comm (hucols l rfl).agree (hvcols r rfl).agree
    rcases mergeDecision_cases hd' with ⟨_, _, hr, hl, -, hvalue'⟩ | ⟨hne, -⟩
    · cases hr
      cases hl
      rw [hvalue, hvalue', ← hcomm]
      by_cases hconcat : l.canConcat r
      · exact .inr ⟨l, r, rfl, rfl, hconcat, by rw [if_pos hconcat], by rw [if_pos hconcat]⟩
      · exact .inl (by rw [if_neg hconcat, if_neg hconcat])
    · exact absurd rfl (hne r l rfl)
  · rcases mergeDecision_cases hd' with ⟨l, r, rfl, rfl, -⟩ | ⟨-, m', hm', hvalue', -⟩
    · exact absurd rfl (hne r l rfl)
    · obtain ⟨e, he, hparams, hmuls⟩ := hnil
      have hbare : ∀ c, h.Arity c → c.head = .nil → c.types = [] ∧ c.muls = [] := by
        intro c hc hhead
        obtain ⟨htypes, hcmuls⟩ := hc e (hhead ▸ he)
        rw [hparams, List.length_nil, List.length_eq_zero_iff] at htypes
        rw [hmuls, List.length_nil, List.length_eq_zero_iff] at hcmuls
        exact ⟨htypes, hcmuls⟩
      have hcomm := hreg.mergeWithin_comm hbare Hierarchy.maxMergeDepth p.variance hu hv
      rw [Hierarchy.merge, hcomm] at hm
      rw [Hierarchy.merge, hm, Except.ok.injEq] at hm'
      exact .inl (by rw [hvalue, hvalue', hm'])

end

/-! ### Registrations -/

section

variable {a : Arena} {id target : ContextId} {c : Context} {p : TypeParam} {u v : TypeExpr}
  {m m' : Bool} {s s' : Run}

open Registration

/-- Two registrations one after the other: a declared parameter stays, an unbound one gets what the
two types come to. -/
theorem register_two (hreg : a.hierarchy.Regular) (hc : a.context id = .ok c)
    (hfresh : c.Unlearnt p.name) (hu : u.isConcrete ∧ u.Settled a.hierarchy)
    (hv : v.isConcrete ∧ v.Settled a.hierarchy)
    (hfirst : a.register (.type id (.param p) (some u) target m) = .ok () s)
    (hsecond : s.arena.register (.type id (.param p) (some v) target m') = .ok () s') :
    (∃ b : Binding TypeExpr, c.current.binding? p.name = some b
      ∧ s'.arena.binding? id p.name = .ok (some b))
    ∨ c.current.binding? p.name = (none : Option (Binding TypeExpr)) ∧ ∃ d w,
      mergeDecision a.hierarchy p target u v = .ok d ∧ d.value? = some w
        ∧ s'.arena.binding? id p.name = .ok (some (.bound w target)) := by
  have hlocal : ∀ c', a.context id = .ok c' →
      Local a.hierarchy id c'.onTrial (c'.current.binding? p.name) := by
    intro c' hc'
    rw [hc, Except.ok.injEq] at hc'
    subst hc'
    constructor
    · exact fun e owner hb => nomatch hfresh _ hb
    · exact fun e owner hb => nomatch hfresh _ hb
  obtain ⟨c₁, d₁, c₂, d₂, h₁, h₂, hknown, hd₂⟩ :=
    register_param_twice (t := { arena := s.arena }) hreg hu hv hlocal hfirst rfl hsecond
  obtain rfl : c = c₁ := Except.ok.inj (hc.symm.trans h₁.here)
  have hd₁ := h₁.decision
  have hfinal := h₂.binding?_eq
  rw [hknown] at hfinal
  rcases hb : c.current.binding? p.name with _ | b <;> rw [hb] at hd₁ hd₂ hfinal
  · cases hd₁
    replace hd₂ : typeDecision a.hierarchy id target p c.onTrial m' (some (.bound u target)) v
      = .ok d₂ := hd₂
    rw [typeDecision_concrete hu.1 hv.1] at hd₂
    obtain ⟨⟨w, hw, -⟩, -⟩ := mergeDecision_settled hreg hd₂ hu hv
    rw [Decision.known, hw] at hfinal
    exact .inr ⟨rfl, d₂, w, hd₂, hw, hfinal⟩
  · obtain ⟨w, owner, rfl⟩ : ∃ w owner, b = .terminal w owner := by
      cases b with
      | bound w owner => exact nomatch hfresh _ hb
      | terminal w owner => exact ⟨w, owner, rfl⟩
    cases hd₁
    cases hd₂
    exact .inl ⟨_, rfl, hfinal⟩

/-- Two fully concrete types are registered for a parameter that nothing has been learnt about, in
either order. Where both orders succeed, the parameter has the same value and owner after both, but
that relations which concatenate do so in the order in which they come. A fresh context has learnt
nothing (`Context.unlearnt_fresh`). -/
theorem register_comm {t t' : Run} (hreg : a.hierarchy.Regular)
    (hnil : ∃ d, a.hierarchy.find? .nil = some d ∧ d.params = [] ∧ d.muls = [])
    (hc : a.context id = .ok c) (hfresh : c.Unlearnt p.name)
    (hu : u.isFullyConcrete) (hv : v.isFullyConcrete)
    (huarity : u.AllClasses a.hierarchy.Arity) (hvarity : v.AllClasses a.hierarchy.Arity)
    (hucols : ∀ r, u = .relation r → r.Distinct) (hvcols : ∀ r, v = .relation r → r.Distinct)
    (hs : a.register (.type id (.param p) (some u) target m) = .ok () s)
    (hs' : s.arena.register (.type id (.param p) (some v) target m') = .ok () s')
    (ht : a.register (.type id (.param p) (some v) target m') = .ok () t)
    (ht' : t.arena.register (.type id (.param p) (some u) target m) = .ok () t') :
    ∃ b b' : Binding TypeExpr, s'.arena.binding? id p.name = .ok (some b)
      ∧ t'.arena.binding? id p.name = .ok (some b')
      ∧ (b = b' ∨ ∃ l r, u = .relation l ∧ v = .relation r ∧ l.canConcat r
        ∧ b = .bound (.relation (l.concat r)) target ∧ b' = .bound (.relation (r.concat l)) target
        ∧ (l.concat r).columns.Perm (r.concat l).columns) := by
  have hu' : u.isConcrete ∧ u.Settled a.hierarchy :=
    ⟨TypeExpr.isConcrete_of_isFullyConcrete hu, TypeExpr.settled_of_isFullyConcrete hu huarity⟩
  have hv' : v.isConcrete ∧ v.Settled a.hierarchy :=
    ⟨TypeExpr.isConcrete_of_isFullyConcrete hv, TypeExpr.settled_of_isFullyConcrete hv hvarity⟩
  rcases register_two hreg hc hfresh hu' hv' hs hs' with
    ⟨b, hb, hfinal⟩ | ⟨hnone, d, w, hd, hw, hfinal⟩
  · rcases register_two hreg hc hfresh hv' hu' ht ht' with ⟨b', hb', hfinal'⟩ | ⟨hnone, -⟩
    · rw [hb, Option.some.injEq] at hb'
      exact ⟨b, b', hfinal, hfinal', .inl hb'⟩
    · simp [hnone] at hb
  rcases register_two hreg hc hfresh hv' hu' ht ht' with
    ⟨b', hb', -⟩ | ⟨-, d', w', hd', hw', hfinal'⟩
  · simp [hnone] at hb'
  refine ⟨_, _, hfinal, hfinal', ?_⟩
  rcases mergeDecision_comm hreg hnil huarity hvarity hucols hvcols hd hd' with
    hsame | ⟨l, r, rfl, rfl, hconcat, hl, hr⟩
  · rw [hw, hw', Option.some.injEq] at hsame
    exact .inl (by rw [hsame])
  · rw [hw, Option.some.injEq] at hl
    rw [hw', Option.some.injEq] at hr
    subst hl hr
    exact .inr ⟨l, r, rfl, rfl, hconcat, rfl, rfl,
      Relation.perm_concat (hucols l rfl) (hvcols r rfl) hconcat⟩

end

/-- A context that has learnt nothing, over the preloaded classes. -/
def Arena.freshScope : Arena :=
  ({ hierarchy := .preloaded, maxDepth := 4 } : Arena).insert 1 (.fresh 1 none none)

theorem register_comm_lists : ∃ s s' t t', Arena.freshScope.register
      (.type 1 (.param ⟨"T", .covariant⟩) (some (.listOf "Integer")) 1 false) = .ok () s
    ∧ s.arena.register
      (.type 1 (.param ⟨"T", .covariant⟩) (some (.listOf "Float")) 1 false) = .ok () s'
    ∧ Arena.freshScope.register
      (.type 1 (.param ⟨"T", .covariant⟩) (some (.listOf "Float")) 1 false) = .ok () t
    ∧ t.arena.register
      (.type 1 (.param ⟨"T", .covariant⟩) (some (.listOf "Integer")) 1 false) = .ok () t'
    ∧ s'.arena.binding? 1 "T" = .ok (some (.bound (TypeExpr.listOf "Number") 1))
    ∧ ∃ b : Binding TypeExpr, s'.arena.binding? 1 "T" = .ok (some b)
      ∧ t'.arena.binding? 1 "T" = .ok (some b) := by
  obtain ⟨s, s', t, t', hs, hs', ht, ht', hnumber⟩ : ∃ s s' t t', Arena.freshScope.register
        (.type 1 (.param ⟨"T", .covariant⟩) (some (.listOf "Integer")) 1 false) = .ok () s
      ∧ s.arena.register
        (.type 1 (.param ⟨"T", .covariant⟩) (some (.listOf "Float")) 1 false) = .ok () s'
      ∧ Arena.freshScope.register
        (.type 1 (.param ⟨"T", .covariant⟩) (some (.listOf "Float")) 1 false) = .ok () t
      ∧ t.arena.register
        (.type 1 (.param ⟨"T", .covariant⟩) (some (.listOf "Integer")) 1 false) = .ok () t'
      ∧ s'.arena.binding? 1 "T" = .ok (some (.bound (TypeExpr.listOf "Number") 1)) :=
    ⟨_, _, _, _, by with_unfolding_all rfl, by with_unfolding_all rfl, by with_unfolding_all rfl,
      by with_unfolding_all rfl, by with_unfolding_all rfl⟩
  refine ⟨s, s', t, t', hs, hs', ht, ht', hnumber, ?_⟩
  obtain ⟨b, b', hb, hb', rfl | ⟨_, _, hrelation, -⟩⟩ := register_comm
    Hierarchy.preloaded_wellFormed.regular ⟨{ name := .nil }, rfl, rfl, rfl⟩ rfl
    (Context.unlearnt_fresh 1 none none "T") (isFullyConcrete_listOf _) (isFullyConcrete_listOf _)
    (arity_listOf rfl rfl rfl) (arity_listOf rfl rfl rfl) (fun _ h => by cases h)
    (fun _ h => by cases h) hs hs' ht ht'
  · exact ⟨b, hb, hb'⟩
  · cases hrelation

end ScopedInference
