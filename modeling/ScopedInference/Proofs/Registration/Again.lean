import ScopedInference.Proofs.Registration.Values

/-!
# Registering a value again

A value that a decision has come to takes in the actual type (`Absorbs`): deciding on that type once
more gives the same value. So a fact that is registered again finds everything as it left it
(`register_again`), along whatever owners it was passed on. Only where two classes meet at the
bottom class is what they come to lost the second time (`register_again_nilSplit`).
-/

namespace ScopedInference

/-- The value of a parameter when an actual type is decided on again. -/
def Absorbs (h : Hierarchy) (p : TypeParam) (m v : TypeExpr) : Prop :=
  ∀ owner d, mergeDecision h p owner m v = .ok d → d.value? = some m

/-- No two other classes have the bottom class as their least common ancestor. -/
def Hierarchy.ApartFromNil (h : Hierarchy) : Prop :=
  ∀ a b, h.leastCommonAncestor? a b = some .nil → a = .nil ∨ b = .nil

section

variable {h : Hierarchy} {p : TypeParam} {owner : ContextId} {e v m : TypeExpr}
  {d : Decision TypeExpr}

theorem absorbs_of_merge (hne : ∀ l r, m = .relation l → v = .relation r → m = v)
    (hcols : ∀ r, v = .relation r → r.Distinct)
    (hm : h.merge p.variance .degrade m v = .ok m) : Absorbs h p m v := by
  intro owner d hd
  rcases mergeDecision_cases hd with ⟨l, r, rfl, rfl, -, hvalue⟩ | ⟨-, m', hm', hvalue, -⟩
  · cases hne l r rfl rfl
    rw [hvalue, if_pos (hcols l rfl).agree.canConcat, Relation.concat_self]
  · rw [hm] at hm'
    cases hm'
    exact hvalue

theorem absorbs_self (hcols : ∀ r, v = .relation r → r.Distinct) : Absorbs h p v v :=
  absorbs_of_merge (fun _ _ _ _ => rfl) hcols (Hierarchy.mergeWithin_self ..)

/-- What two values have come to takes in the second one. -/
theorem mergeDecision_absorbs (hnil : h.ApartFromNil) (hcols : ∀ r, v = .relation r → r.Distinct)
    (hd : mergeDecision h p owner e v = .ok d) (hm : d.value? = some m) : Absorbs h p m v := by
  rcases mergeDecision_cases hd with ⟨l, r, rfl, rfl, -, hvalue⟩ | ⟨hne, m', hm', hvalue, -⟩
  · rw [hvalue, Option.some.injEq] at hm
    subst hm
    split
    · rename_i hconcat
      obtain ⟨hagain, hsame⟩ := Relation.concat_concat (hcols r rfl).agree hconcat
      intro owner d hd
      rw [mergeDecision, if_pos hagain, hsame] at hd
      cases hd
      rfl
    · exact absorbs_of_merge (fun _ _ htop => nomatch htop) hcols (Hierarchy.mergeWithin_top ..)
  · rw [hvalue, Option.some.injEq] at hm
    subst hm
    refine absorbs_of_merge (fun l r hl hr => ?_) hcols (Hierarchy.mergeWithin_absorb hnil _ hm')
    subst hl hr
    rcases Hierarchy.mergeWithin_cases hm' with
      he | hv | htop | ⟨_, _, _, _, _, _, -, -, -, -, -, -, -, -, hclass⟩
    · exact absurd rfl (hne l r he.symm)
    · exact hv
    · cases htop
    · cases hclass

variable {id target : ContextId} {onTrial merge : Bool} {known : Option (Binding TypeExpr)}

/-- Deciding again on what has been decided leaves it known. -/
theorem typeDecision_known (hnil : h.ApartFromNil) (hv : v.isConcrete)
    (hcols : ∀ r, v = .relation r → r.Distinct)
    (hlocal : Local h id onTrial known)
    (hd : typeDecision h id target p onTrial merge known v = .ok d) {d' : Decision TypeExpr}
    (hd' : typeDecision h id target p onTrial merge (d.known target known) v = .ok d') :
    d'.known target (d.known target known) = d.known target known := by
  have hagain : ∀ m, d.value? = some m → m.isConcrete → Absorbs h p m v →
      d'.known target (d.known target known) = d.known target known := by
    intro m hm hconcrete habsorbs
    have hknown : d.known target known = some (.bound m target) := by
      rw [Decision.known, hm]
      rfl
    rw [hknown, typeDecision_concrete hconcrete hv] at hd'
    rw [hknown, Decision.known, habsorbs _ _ hd']
    rfl
  rcases typeDecision_cases hv hlocal hd with rfl | ⟨e, owner, rfl, he, hmerge⟩ | ⟨hnone, -⟩
  · exact hagain v rfl hv (absorbs_self hcols)
  · rcases mergeDecision_cases hmerge with ⟨l, r, rfl, rfl, -, hvalue⟩ | ⟨-, m, hm, hvalue, -⟩
    · refine hagain _ hvalue ?_ (mergeDecision_absorbs hnil hcols hmerge hvalue)
      split <;> rfl
    · exact hagain m hvalue (Hierarchy.merge_isConcrete he hv hm)
        (mergeDecision_absorbs hnil hcols hmerge hvalue)
  · have hknown : d.known target known = known := by
      rw [Decision.known, hnone]
      rfl
    rw [hknown] at hd' ⊢
    rw [hd, Except.ok.injEq] at hd'
    rw [← hd', hknown]

end

/-! ### Arenas -/

/-- Concrete values that are visible are fully concrete, with as many arguments as declared. -/
def Arena.ValuesClosed (a : Arena) : Prop :=
  ∀ id c name (b : Binding TypeExpr), a.context id = .ok c → c.current.binding? name = some b →
    b.value.isConcrete → b.value.isFullyConcrete ∧ b.value.AllClasses a.hierarchy.Arity

namespace Registration

/-- A fact that is registered again finds everything as it left it. The induction is on the levels
that the first registration has, one for each owner that it is passed on to. -/
theorem register_type_again {v : TypeExpr} {target : ContextId} {merge : Bool}
    (hconcrete : v.isConcrete) (hcols : ∀ r, v = .relation r → r.Distinct) :
    ∀ (n m : Nat) {id : ContextId} {p : TypeParam} {r s r' s' : Run}, r.arena.hierarchy.Regular →
      r.arena.hierarchy.ApartFromNil → r.arena.ValuesClosed → v.Settled r.arena.hierarchy →
      register n (.type id (.param p) (some v) target merge) r = .ok () s → r'.arena = s.arena →
      register m (.type id (.param p) (some v) target merge) r' = .ok () s' →
      s'.arena = s.arena := by
  have hne : ∀ left right, v ≠ .operation .equal left right := by
    rintro left right rfl
    cases hconcrete
  intro n
  induction n with
  | zero => exact fun _ _ _ _ _ _ _ _ _ _ _ hok => absurd hok (register_zero_ne_ok _ _)
  | succ n ih =>
    intro m id p r s r' s' hreg hnil hvalues hv hok hr' hok'
    rcases m with _ | m
    · exact absurd hok' (register_zero_ne_ok _ _)
    by_cases hlink : ∃ x owner, r.arena.Link id p.name (x : TypeExpr) owner
    · obtain ⟨x, owner, hl⟩ := hlink
      have hf := forwarding_type hne target merge
      have hkept := hf.links_kept hok hl
      obtain ⟨r₁, s₁, hr₁, hok₁, hs₁⟩ := hf.link rfl hl hok
      obtain ⟨r₂, s₂, hr₂, hok₂, hs₂⟩ := hf.link rfl (hr' ▸ hkept) hok'
      obtain ⟨-, -, -, -, hparam, -⟩ := hl
      cases x with
      | param q =>
        rw [← hs₁, ← hs₂]
        refine ih m ?_ ?_ ?_ ?_ hok₁ (by rw [hr₂, hr', hs₁]) hok₂ <;> rwa [hr₁]
      | _ => cases hparam
    · have hlocal : ∀ c, r.arena.context id = .ok c →
          Local r.arena.hierarchy id c.onTrial (c.current.binding? p.name) := by
        intro c hc
        constructor
        · intro e owner hb he
          obtain ⟨hclosed, harity⟩ := hvalues id c p.name _ hc hb he
          exact TypeExpr.settled_of_isFullyConcrete hclosed harity
        · intro e owner hb he howner
          by_contra htrial
          exact hlink ⟨e, owner, c, hc, Bool.not_eq_true _ ▸ htrial, hb, he, howner⟩
      have hboth : v.isConcrete ∧ v.Settled r.arena.hierarchy := ⟨hconcrete, hv⟩
      obtain ⟨c, d, c', d', hfirst, hagain, hbinding, hd'⟩ :=
        register_param_twice hreg hboth hboth hlocal hok hr' hok'
      rw [hagain.arena, ← hr']
      refine settled_of_known hagain.here ?_
      rw [hbinding]
      exact typeDecision_known hnil hconcrete hcols (hlocal c hfirst.here) hfirst.decision hd'

end Registration

/-- Registering a fully concrete type again changes nothing, neither here nor in a context that the
first registration passed it on to. -/
theorem register_again {a : Arena} {id target : ContextId} {p : TypeParam} {v : TypeExpr}
    {merge : Bool} {s s' : Run} (hreg : a.hierarchy.Regular) (hnil : a.hierarchy.ApartFromNil)
    (hvalues : a.ValuesClosed) (hv : v.isFullyConcrete) (harity : v.AllClasses a.hierarchy.Arity)
    (hcols : ∀ r, v = .relation r → r.Distinct)
    (hfirst : a.register (.type id (.param p) (some v) target merge) = .ok () s)
    (hagain : s.arena.register (.type id (.param p) (some v) target merge) = .ok () s') :
    s'.arena = s.arena := by
  have hrun : Registration.register (s.arena.maxDepth + 1)
      (.type id (.param p) (some v) target merge) { arena := s.arena } = .ok () s' := hagain
  refine Registration.register_type_again (TypeExpr.isConcrete_of_isFullyConcrete hv) hcols _ _ hreg
    hnil hvalues (TypeExpr.settled_of_isFullyConcrete hv harity) hfirst ?_ hrun
  rfl

/-! ### A link to an integer -/

theorem Arena.valuesClosed_empty (h : Hierarchy) (n : Nat) :
    ({ hierarchy := h, maxDepth := n } : Arena).ValuesClosed := by
  intro id c name b hc
  simp [context] at hc

theorem Arena.ValuesClosed.insert {a : Arena} (ha : a.ValuesClosed) {id : ContextId} {c : Context}
    (hc : ∀ name (b : Binding TypeExpr), c.current.binding? name = some b → b.value.isConcrete →
      b.value.isFullyConcrete ∧ b.value.AllClasses a.hierarchy.Arity) :
    (a.insert id c).ValuesClosed := by
  intro other d name b hd hb
  by_cases h : id = other
  · subst h
    rw [context_insert_self, Except.ok.injEq] at hd
    subst hd
    exact hc name b hb
  · rw [context_insert_of_ne a h] at hd
    exact ha other d name b hd hb

/-- The parameter of one context stands for one of another that has come to be an integer. -/
def Arena.linkedInteger : Arena :=
  ({ hierarchy := .preloaded, maxDepth := 4 } : Arena)
    |>.insert 1
      { Context.fresh 1 none none with
        current := ({} : BindingState).bind "U" (.bound (TypeExpr.atom "Integer") 1) }
    |>.insert 2
      { Context.fresh 2 (some 1) none with
        current := ({} : BindingState).bind "T" (.bound (TypeExpr.param ⟨"U", .covariant⟩) 1) }

theorem register_again_linkedInteger :
    ∃ s s', Arena.linkedInteger.register
        (.type 2 (.param ⟨"T", .covariant⟩) (some (.atom "Float")) 2 false) = .ok () s
      ∧ s.arena.register (.type 2 (.param ⟨"T", .covariant⟩) (some (.atom "Float")) 2 false)
        = .ok () s'
      ∧ s'.arena = s.arena
      ∧ s.arena.binding? 1 "U" = .ok (some (.bound (TypeExpr.atom "Number") 2)) := by
  obtain ⟨s, s', hfirst, hagain, hbinding⟩ : ∃ s s', Arena.linkedInteger.register
        (.type 2 (.param ⟨"T", .covariant⟩) (some (.atom "Float")) 2 false) = .ok () s
      ∧ s.arena.register (.type 2 (.param ⟨"T", .covariant⟩) (some (.atom "Float")) 2 false)
        = .ok () s'
      ∧ s.arena.binding? 1 "U" = .ok (some (.bound (TypeExpr.atom "Number") 2)) :=
    ⟨_, _, by with_unfolding_all rfl, by with_unfolding_all rfl, by with_unfolding_all rfl⟩
  refine ⟨s, s', hfirst, hagain, register_again ?_ ?_ ?_ ?_ ?_ ?_ hfirst hagain, hbinding⟩
  · exact Hierarchy.preloaded_wellFormed.regular
  · exact fun _ _ => Hierarchy.eq_nil_of_leastCommonAncestor?
      Hierarchy.preloaded_wellFormed.not_below_nil
  · refine ((Arena.valuesClosed_empty _ _).insert fun name b hb _ => ?_).insert
      fun name b hb he => ?_
    · rw [BindingState.eq_of_binding?_bind hb]
      exact ⟨TypeExpr.isFullyConcrete_atom _, Hierarchy.arity_atom rfl rfl rfl⟩
    · rw [BindingState.eq_of_binding?_bind hb] at he
      cases he
  · exact TypeExpr.isFullyConcrete_atom _
  · exact Hierarchy.arity_atom rfl rfl rfl
  · rintro r hr
    cases hr

/-! ### Two classes that meet at the bottom class -/

/-- The preloaded classes, and two that generalize the bottom class. -/
def Hierarchy.nilSplit : Hierarchy :=
  [{ name := "A", generalizations := [⟨.nil, [], []⟩] },
    { name := "B", generalizations := [⟨.nil, [], []⟩] }].foldl define preloaded

theorem Hierarchy.regular_nilSplit : nilSplit.Regular := by
  have hcases : ∀ {name d}, nilSplit.find? name = some d → ∀ g ∈ d.generalizations,
      g = ⟨.nil, [], []⟩ ∨ g = ⟨"Number", [], []⟩
        ∨ d.params = [⟨"T", .covariant⟩] ∧ g = ⟨.function, [.param ⟨"T", .covariant⟩], []⟩ := by
    intro name d hd g hg
    rcases mem_of_find?_foldl_define _ hd with ⟨hmem, -⟩ | hd
    · simp only [List.mem_cons, List.not_mem_nil, or_false] at hmem
      rcases hmem with rfl | rfl <;> exact .inl (List.mem_singleton.1 hg)
    · rcases generalizations_preloaded hd hg with ⟨-, rfl⟩ | ⟨-, hparams, rfl⟩
      · exact .inr (.inl rfl)
      · exact .inr (.inr ⟨hparams, rfl⟩)
  constructor
  · intro name d hd g hg q hq
    rcases hcases hd g hg with rfl | rfl | ⟨hparams, rfl⟩
    · simp [TypeExpr.parameters] at hq
    · simp [TypeExpr.parameters] at hq
    · have hq : q = .type "T" := by simpa [TypeExpr.parameters] using hq
      simp [hq, ClassDecl.parameters, hparams]
  · intro name d hd g hg
    rcases hcases hd g hg with rfl | rfl | ⟨-, rfl⟩
    · exact arity_atom rfl rfl rfl
    · exact arity_atom rfl rfl rfl
    · exact .classType (arity_of_find? (d := { name := .function, params := [⟨"T", .covariant⟩] })
        rfl rfl rfl) (List.forall_mem_singleton.2 (.param _))

def Arena.nilSplit : Arena :=
  ({ hierarchy := .nilSplit, maxDepth := 4 } : Arena).insert 1
    { Context.fresh 1 none none with
      current := ({} : BindingState).bind "T" (.bound (TypeExpr.atom "A") 1) }

/-- The two classes come to the bottom type, which the second registration takes the place of. -/
theorem register_again_nilSplit :
    ¬ ∀ (a : Arena) (id target : ContextId) (p : TypeParam) (v : TypeExpr) (merge : Bool)
        (s s' : Run), a.hierarchy.Regular → a.ValuesClosed → v.isFullyConcrete →
      v.AllClasses a.hierarchy.Arity → (∀ r, v = .relation r → r.Distinct) →
      a.register (.type id (.param p) (some v) target merge) = .ok () s →
      s.arena.register (.type id (.param p) (some v) target merge) = .ok () s' →
      s'.arena = s.arena := by
  intro h
  obtain ⟨s, s', hfirst, hagain, hnil, hb⟩ : ∃ s s', Arena.nilSplit.register
        (.type 1 (.param ⟨"T", .covariant⟩) (some (.atom "B")) 1 false) = .ok () s
      ∧ s.arena.register (.type 1 (.param ⟨"T", .covariant⟩) (some (.atom "B")) 1 false) = .ok () s'
      ∧ s.arena.binding? 1 "T" = .ok (some (.bound TypeExpr.bottom 1))
      ∧ s'.arena.binding? 1 "T" = .ok (some (.bound (TypeExpr.atom "B") 1)) :=
    ⟨_, _, by with_unfolding_all rfl, by with_unfolding_all rfl, by with_unfolding_all rfl,
      by with_unfolding_all rfl⟩
  have heq := h _ _ _ _ _ _ s s' Hierarchy.regular_nilSplit ?_ (TypeExpr.isFullyConcrete_atom _)
    (Hierarchy.arity_atom rfl rfl rfl) (fun r hr => by cases hr) hfirst hagain
  · rw [heq, hnil] at hb
    simp [TypeExpr.bottom, TypeExpr.atom, ClassName.nil] at hb
  · refine (Arena.valuesClosed_empty _ _).insert fun name b hb _ => ?_
    rw [BindingState.eq_of_binding?_bind hb]
    exact ⟨TypeExpr.isFullyConcrete_atom _, Hierarchy.arity_atom rfl rfl rfl⟩

end ScopedInference
