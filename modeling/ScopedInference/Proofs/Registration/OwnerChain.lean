import ScopedInference.Arena.Creation
import ScopedInference.Proofs.Registration.Update

/-!
# Registering along owners

A chain of links leads from a parameter to the one that stands for it at the end (`OwnerChain`). A
fact that is registered at the start is passed on link by link, one level deeper each time, and at
the end does what it would have done there to begin with (`register_along_owners`). The links stay,
so a value that is new at the end is what the whole chain resolves to (`OwnerChain.resolve`).
-/

namespace ScopedInference

namespace Arena

section

variable {α : Type} [Bindable α] {a : Arena} {here : ContextId} {b next : Binding α}

theorem follow_of_hop_none (h : a.hop? here b = .ok none) (n : Nat) :
    a.follow n here b = .ok b.value := by
  unfold follow
  rw [h]
  rfl

theorem follow_of_hop_some (h : a.hop? here b = .ok (some next)) (n : Nat) :
    a.follow (n + 1) here b = a.follow n b.owner next := by
  rw [follow, h]
  rfl

end

/-- The parameters on the way, each linked to the next, and what stands at the end of it. -/
inductive OwnerChain {α : Type} [Bindable α] (a : Arena) :
    ContextId → α → List (ContextId × String) → ContextId → α → Prop where
  | done (id v) : OwnerChain a id v [] id v
  | link {id name v w owner slots last u} : Bindable.parameterName? v = some name →
      a.Link id name w owner → OwnerChain a owner w slots last u →
      OwnerChain a id v ((id, name) :: slots) last u

namespace OwnerChain

variable {α : Type} [Bindable α] {a b : Arena} {id last : ContextId} {v u : α}
  {slots : List (ContextId × String)}

theorem congr (hlink : ∀ id name v owner, a.Link id name (v : α) owner → b.Link id name v owner)
    (h : a.OwnerChain id v slots last u) : b.OwnerChain id v slots last u := by
  induction h with
  | done id v => exact .done id v
  | link hname hl _ ih => exact .link hname (hlink _ _ _ _ hl) ih

theorem follow_eq {e : Binding α} {end' : String} (h : a.OwnerChain id v slots last u)
    (hu : Bindable.parameterName? u = some end') (hend : a.binding? last end' = .ok (some e))
    (hvalue : Bindable.parameterName? e.value = none) {name : String}
    (hname : Bindable.parameterName? v = some name) :
    ∃ e', a.binding? id name = .ok (some e')
      ∧ ∀ n, slots.length ≤ n → a.follow n id e' = .ok e.value := by
  induction h generalizing name with
  | done id v =>
    rw [hname, Option.some.injEq] at hu
    subst hu
    exact ⟨e, hend, fun n _ => follow_of_hop_none (by simp only [hop?, hvalue]) n⟩
  | @link id name' v w owner slots last u hname' hl _ ih =>
    rw [hname, Option.some.injEq] at hname'
    subst hname'
    obtain ⟨c, hc, -, hbinding, hparam, hne⟩ := hl
    obtain ⟨next, hnext⟩ := Option.isSome_iff_exists.1 hparam
    obtain ⟨e', he', hfollow⟩ := ih hu hend hnext
    refine ⟨.bound w owner, ?_, fun n hn => ?_⟩
    · simp only [binding?, hc, bind, Except.bind, pure, Except.pure, hbinding]
    · obtain ⟨n, rfl⟩ : ∃ m, n = m + 1 := ⟨n - 1, by simp at hn; omega⟩
      rw [@follow_of_hop_some _ _ _ _ _ e']
      · exact hfollow n (Nat.le_of_succ_le_succ hn)
      · simp only [hop?, Binding.value, Binding.owner, hnext, if_neg hne, he']

/-- Every parameter of a chain has the value that is bound at its end. -/
theorem resolve {e : Binding α} {end' : String} (h : a.OwnerChain id v slots last u)
    (hdepth : slots.length ≤ a.maxDepth) (hu : Bindable.parameterName? u = some end')
    (hend : a.binding? last end' = .ok (some e)) (hvalue : Bindable.parameterName? e.value = none) :
    ∀ slot ∈ slots ++ [(last, end')], a.resolveParameter slot.1 slot.2 = .ok (some e.value) := by
  induction h with
  | done id v =>
    intro slot hslot
    obtain rfl := List.mem_singleton.1 hslot
    obtain ⟨e', he', hfollow⟩ := (OwnerChain.done id v).follow_eq hu hend hvalue hu
    simp only [resolveParameter, he', bind, Except.bind, pure, Except.pure,
      hfollow _ (Nat.zero_le _)]
  | @link id name v w owner slots last u hname hl hrest ih =>
    intro slot hslot
    rcases List.mem_cons.1 hslot with rfl | hslot
    · obtain ⟨e', he', hfollow⟩ :=
        (OwnerChain.link hname hl hrest).follow_eq hu hend hvalue hname
      simp only [resolveParameter, he', bind, Except.bind, pure, Except.pure, hfollow _ hdepth]
    · exact ih (Nat.le_of_succ_le hdepth) hu hend slot hslot

end OwnerChain

end Arena

theorem TypeExpr.ne_equality {v : TypeExpr} (hv : v.isConcrete) :
    ∀ left right, v ≠ .operation .equal left right := by
  rintro left right rfl
  cases hv

namespace Registration

open RunM

/-- An equality is only looked at below a parent. -/
theorem stepEquality_eq_pure {recur : Request → RunM Unit} {here there : Context} {v : TypeExpr}
    {merge : Bool} (hv : there.parent = none ∨ ∀ left right, v ≠ .operation .equal left right) :
    stepEquality recur here there v merge = pure () := by
  unfold stepEquality
  split
  · rename_i hparent
    rcases hv with hnone | hne
    · exact absurd (hnone.symm.trans hparent) (by simp)
    · exact absurd rfl (hne _ _)
  · rfl

theorem forwardAll_singleton {recur : Request → RunM Unit} {q : Request} {r s : Run}
    (h : forwardAll recur [q] r = .ok () s) :
    ∃ r' s', r'.arena = r.arena ∧ recur q r' = .ok () s' ∧ s'.arena = s.arena := by
  obtain ⟨s', hs', rfl⟩ := nested_eq_ok.1 h
  obtain ⟨_, s'', hq, hs''⟩ := bind_eq_ok.1 hs'
  cases hs''
  exact ⟨r.record .indent, s', rfl, hq, rfl⟩

/-- What is decided on a type parameter is settled, and what it passes on is registered from
there. -/
theorem register_param_apply {n : Nat} {id target : ContextId} {p : TypeParam} {v : TypeExpr}
    {merge : Bool} {r : Run} {c there : Context} {d : Decision TypeExpr}
    (hc : r.arena.context id = .ok c) (hthere : r.arena.context target = .ok there)
    (hv : there.parent = none ∨ ∀ left right, v ≠ .operation .equal left right)
    (hd : typeDecision r.arena.hierarchy id target p c.onTrial merge (c.current.binding? p.name) v
      = .ok d) :
    ∃ r', r'.arena = settled r.arena id target c p.name d
      ∧ register (n + 1) (.type id (.param p) (some v) target merge) r
        = forwardAll (register n) (d.forwards.map fun f =>
          .type f.context f.template (some f.value) target merge) r' := by
  let r₁ := r.record (.trying (.param p) (some v) id target)
  obtain ⟨r₂, hsettle, harena⟩ := exists_settle (r := r₁) hc target p.name d
  refine ⟨r₂.record (.registerType (.param p) v id target), harena, ?_⟩
  simp only [register, step, stepType]
  rw [bind_of_eq_ok (context_eq_ok.2 ⟨hc, rfl⟩), bind_of_eq_ok (context_eq_ok.2 ⟨hthere, rfl⟩)]
  show (stepEquality _ c there v merge >>= fun _ => stepTemplate _ id _ v target merge) r₁ = _
  rw [stepEquality_eq_pure hv, pure_bind, stepTemplate, stepParameter_apply (r := r₁) hc hd,
    bind_of_eq_ok hsettle]
  rfl

theorem register_mul_apply {n : Nat} {id target : ContextId} {name : String} {v : Multiplicity}
    {r : Run} {c there : Context} (hc : r.arena.context id = .ok c)
    (hthere : r.arena.context target = .ok there) :
    let d := mulDecision id target c.onTrial (c.current.binding? name) v
    ∃ r', r'.arena = settled r.arena id target c name d
      ∧ register (n + 1) (.mul id (.param name) v target) r
        = forwardAll (register n) (d.forwards.map fun f =>
          .mul f.context f.template f.value target) r' := by
  intro d
  obtain ⟨s, hsettle, harena⟩ := exists_settle (r := r) hc target name d
  refine ⟨s.record (.registerMul (.param name) v id target), harena, ?_⟩
  simp only [register, step]
  rw [stepMul_apply hc hthere rfl, bind_of_eq_ok hsettle]
  rfl

/-- What is left of a registration when equalities have been seen to. -/
theorem register_type_ok {n : Nat} {id target : ContextId} {t v : TypeExpr} {merge : Bool}
    {r s : Run} (hv : ∀ left right, v ≠ .operation .equal left right)
    (hok : register (n + 1) (.type id t (some v) target merge) r = .ok () s) :
    ∃ r', r'.arena = r.arena ∧ stepTemplate (register n) id t v target merge r' = .ok () s := by
  simp only [register, step, stepType] at hok
  obtain ⟨_, r₁, h₁, hok₁⟩ := bind_eq_ok.1 hok
  obtain ⟨-, rfl⟩ := context_eq_ok.1 h₁
  obtain ⟨_, r₂, h₂, hok₂⟩ := bind_eq_ok.1 hok₁
  obtain ⟨-, rfl⟩ := context_eq_ok.1 h₂
  obtain ⟨_, r₃, h₃, hok₃⟩ := bind_eq_ok.1 hok₂
  cases h₃
  rw [stepEquality_eq_pure (.inr hv), pure_bind] at hok₃
  exact ⟨r₂.record (.trying t (some v) id target), rfl, hok₃⟩

/-- What a fact about a type parameter does: a decision, and what it leads to one level deeper. -/
theorem register_param_ok {n : Nat} {id target : ContextId} {p : TypeParam} {v : TypeExpr}
    {merge : Bool} {r s : Run} (hv : ∀ left right, v ≠ .operation .equal left right)
    (hok : register (n + 1) (.type id (.param p) (some v) target merge) r = .ok () s) :
    ∃ c d r', r.arena.context id = .ok c
      ∧ typeDecision r.arena.hierarchy id target p c.onTrial merge (c.current.binding? p.name) v
        = .ok d
      ∧ r'.arena = settled r.arena id target c p.name d
      ∧ forwardAll (register n) (d.forwards.map fun f =>
          .type f.context f.template (some f.value) target merge) r' = .ok () s := by
  obtain ⟨r₁, hr₁, hok₁⟩ := register_type_ok hv hok
  rw [stepTemplate, stepParameter] at hok₁
  obtain ⟨c, r₂, h₂, hok₂⟩ := bind_eq_ok.1 hok₁
  obtain ⟨hc, rfl⟩ := context_eq_ok.1 h₂
  obtain ⟨g, r₃, h₃, hok₃⟩ := bind_eq_ok.1 hok₂
  obtain ⟨rfl, rfl⟩ : r₂.arena.hierarchy = g ∧ r₂ = r₃ := EStateM.Result.ok.inj h₃
  rcases hd : typeDecision r₂.arena.hierarchy id target p c.onTrial merge
    (c.current.binding? p.name) v with e | d <;> rw [hd] at hok₃
  · cases hok₃
  obtain ⟨_, r₄, h₄, hok₄⟩ := bind_eq_ok.1 hok₃
  obtain ⟨_, r₅, h₅, hok₅⟩ := bind_eq_ok.1 hok₄
  cases h₅
  have hsettle := after_of_eq_ok h₄
  rw [after_settle hc, hr₁] at hsettle
  rw [hr₁] at hc hd
  exact ⟨c, d, r₄.record (.registerType (.param p) v id target), hc, hd, hsettle.symm, hok₅⟩

theorem register_mul_ok {n : Nat} {id target : ContextId} {name : String} {v : Multiplicity}
    {r s : Run} (hok : register (n + 1) (.mul id (.param name) v target) r = .ok () s) :
    ∃ c d r', r.arena.context id = .ok c
      ∧ mulDecision id target c.onTrial (c.current.binding? name) v = d
      ∧ r'.arena = settled r.arena id target c name d
      ∧ forwardAll (register n) (d.forwards.map fun f =>
          .mul f.context f.template f.value target) r' = .ok () s := by
  simp only [register, step, stepMul] at hok
  obtain ⟨c, r₁, h₁, hok₁⟩ := bind_eq_ok.1 hok
  obtain ⟨hc, rfl⟩ := context_eq_ok.1 h₁
  obtain ⟨_, r₂, h₂, hok₂⟩ := bind_eq_ok.1 hok₁
  obtain ⟨-, rfl⟩ := context_eq_ok.1 h₂
  obtain ⟨_, r₃, h₃, hok₃⟩ := bind_eq_ok.1 hok₂
  obtain ⟨_, r₄, h₄, hok₄⟩ := bind_eq_ok.1 hok₃
  cases h₄
  have hsettle := after_of_eq_ok h₃
  rw [after_settle hc] at hsettle
  exact ⟨c, _, r₃.record (.registerMul (.param name) v id target), hc, rfl, hsettle.symm, hok₄⟩

theorem binding?_settled {α : Type} [Bindable α] {a : Arena} {id target : ContextId} {c : Context}
    {name : String} {d : Decision α} {v : α} (hd : d.value? = some v) :
    (settled a id target c name d).binding? id name = .ok (some (.bound v target)) := by
  unfold settled
  rw [hd]
  simp only [Arena.binding?, Arena.context_insert_self, bind, Except.bind, pure, Except.pure,
    Context.mapCurrent, BindingState.binding?_bind_self]

/-- What a value does not change in the visible state is visible as before, in either table. -/
theorem binding?_settled_of_bind {α β : Type} [Bindable α] [Bindable β] {a : Arena}
    {id here : ContextId} {c : Context} {name other : String} (hc : a.context id = .ok c)
    (hbind : here = id → ∀ b : Binding α, (c.current.bind name b).binding? other
      = (c.current.binding? other : Option (Binding β))) (target : ContextId) (d : Decision α) :
    (settled a id target c name d).binding? here other
      = (a.binding? here other : Except InferError (Option (Binding β))) := by
  rw [settled_eq hc, Arena.binding?_insert]
  split
  · rename_i heq
    subst heq
    refine (Arena.binding?_eq_ok.2 ⟨c, hc, ?_⟩).symm
    rcases d.value? with _ | v
    · rfl
    · exact (hbind rfl _).symm
  · rfl

theorem binding?_settled_of_ne {α : Type} [Bindable α] {a : Arena} {id here : ContextId}
    {c : Context} {name other : String} (hc : a.context id = .ok c)
    (hne : here = id → other ≠ name) (target : ContextId) (d : Decision α) :
    (settled a id target c name d).binding? here other
      = (a.binding? here other : Except InferError (Option (Binding α))) :=
  binding?_settled_of_bind hc (fun h _ => BindingState.binding?_bind_of_ne _ (Ne.symm (hne h)) _)
    target d

/-- A binding is the value that is decided on, or it is as before. -/
theorem binding?_settled_cases {α : Type} [Bindable α] {a : Arena} {id : ContextId} {c : Context}
    (hc : a.context id = .ok c) (target : ContextId) (name : String) (d : Decision α)
    (here : ContextId) (other : String) :
    (here = id ∧ other = name ∧ ∃ v, d.value? = some v
        ∧ (settled a id target c name d).binding? here other = .ok (some (.bound v target)))
      ∨ (settled a id target c name d).binding? here other
        = (a.binding? here other : Except InferError (Option (Binding α))) := by
  by_cases hslot : here = id ∧ other = name
  · obtain ⟨rfl, rfl⟩ := hslot
    rcases hd : d.value? with _ | v
    · exact .inr (by rw [settled_of_none hd])
    · exact .inl ⟨rfl, rfl, v, rfl, binding?_settled hd⟩
  · exact .inr (binding?_settled_of_ne hc (fun h h' => hslot ⟨h, h'⟩) target d)

/-! ### Types and multiplicities alike -/

/-- How requests for one fact deal with the parameters they meet: a linked one passes the fact on to
its owner, and that is all; an unbound one gets it as its value. -/
structure Forwarding {α : Type} [Bindable α] (request : ContextId → α → Request) (v : α)
    (target : ContextId) : Prop where
  link : ∀ {n id name w x owner} {r s : Run}, Bindable.parameterName? w = some name →
    r.arena.Link id name x owner → register (n + 1) (request id w) r = .ok () s →
    ∃ r' s', r'.arena = r.arena ∧ register n (request owner x) r' = .ok () s'
      ∧ s'.arena = s.arena
  unbound : ∀ {n id name w} {r s : Run}, Bindable.parameterName? w = some name →
    r.arena.binding? id name = .ok (none : Option (Binding α)) →
    register (n + 1) (request id w) r = .ok () s →
    s.arena.binding? id name = .ok (some (.bound v target))
  update : ∀ {a b : Arena} {id name owner} {x : α}, a.Link id name x owner → a.Update b →
    b.Link id name x owner

theorem forwarding_type {v : TypeExpr} (hv : ∀ left right, v ≠ .operation .equal left right)
    (target : ContextId) (merge : Bool) :
    Forwarding (fun id w => .type id w (some v) target merge) v target where
  link := by
    intro n id name w x owner r s hname hl hok
    cases w with
    | param p =>
      obtain rfl : p.name = name := Option.some.inj hname
      obtain ⟨c, hc, htrial, hbinding, hparam, hne⟩ := hl
      obtain ⟨c', d, r', hc', hd, hr', hok'⟩ := register_param_ok hv hok
      obtain rfl : c = c' := Except.ok.inj (hc.symm.trans hc')
      rw [htrial, hbinding, typeDecision_link _ _ _ _ hparam hne] at hd
      cases hd
      obtain ⟨r'', s', hr'', hq, hs'⟩ := forwardAll_singleton hok'
      exact ⟨r'', s', hr''.trans hr', hq, hs'⟩
    | _ => exact absurd hname (by simp [Bindable.parameterName?, TypeExpr.parameterName?])
  unbound := by
    intro n id name w r s hname hnone hok
    cases w with
    | param p =>
      obtain rfl : p.name = name := Option.some.inj hname
      obtain ⟨c, d, r', hc, hd, hr', hok'⟩ := register_param_ok hv hok
      simp only [Arena.binding?, hc, bind, Except.bind, pure, Except.pure, Except.ok.injEq]
        at hnone
      rw [hnone] at hd
      cases hd
      cases hok'
      rw [hr']
      exact binding?_settled rfl
    | _ => exact absurd hname (by simp [Bindable.parameterName?, TypeExpr.parameterName?])
  update := Arena.Link.update_type

theorem forwarding_mul (v : Multiplicity) (target : ContextId) :
    Forwarding (fun id w => .mul id w v target) v target where
  link := by
    intro n id name w x owner r s hname hl hok
    cases w with
    | param p =>
      obtain rfl : p = name := Option.some.inj hname
      obtain ⟨c, hc, htrial, hbinding, hparam, hne⟩ := hl
      obtain ⟨c', d, r', hc', hd, hr', hok'⟩ := register_mul_ok hok
      obtain rfl : c = c' := Except.ok.inj (hc.symm.trans hc')
      rw [htrial, hbinding, mulDecision_link _ hparam hne] at hd
      cases hd
      obtain ⟨r'', s', hr'', hq, hs'⟩ := forwardAll_singleton hok'
      exact ⟨r'', s', hr''.trans hr', hq, hs'⟩
    | range _ _ =>
      exact absurd hname (by simp [Bindable.parameterName?, Multiplicity.parameterName?])
  unbound := by
    intro n id name w r s hname hnone hok
    cases w with
    | param p =>
      obtain rfl : p = name := Option.some.inj hname
      obtain ⟨c, d, r', hc, hd, hr', hok'⟩ := register_mul_ok hok
      simp only [Arena.binding?, hc, bind, Except.bind, pure, Except.pure, Except.ok.injEq]
        at hnone
      rw [hnone] at hd
      cases hd
      cases hok'
      rw [hr']
      exact binding?_settled rfl
    | range _ _ =>
      exact absurd hname (by simp [Bindable.parameterName?, Multiplicity.parameterName?])
  update := Arena.Link.update_mul

namespace Forwarding

variable {α : Type} [Bindable α] {request : ContextId → α → Request} {v : α} {target : ContextId}
  {id last : ContextId} {w u : α} {slots : List (ContextId × String)}

/-- From the start of a chain to its end, a level for each link. -/
theorem chain (hf : Forwarding request v target) {a : Arena}
    (h : a.OwnerChain id w slots last u) :
    ∀ {n : Nat} {r s : Run}, r.arena = a → register n (request id w) r = .ok () s →
      ∃ m r' s', n = m + 1 + slots.length ∧ r'.arena = a
        ∧ register (m + 1) (request last u) r' = .ok () s' ∧ s'.arena = s.arena := by
  induction h with
  | done id w =>
    intro n r s hr hok
    rcases n with _ | n
    · exact absurd hok (register_zero_ne_ok _ r)
    · exact ⟨n, r, s, rfl, hr, hok, rfl⟩
  | link hname hl _ ih =>
    intro n r s hr hok
    rcases n with _ | n
    · exact absurd hok (register_zero_ne_ok _ r)
    subst hr
    obtain ⟨r', s', hr', hok', hs'⟩ := hf.link hname hl hok
    obtain ⟨m, r'', s'', hn, hr'', hok'', hs''⟩ := ih hr' hok'
    exact ⟨m, r'', s'', by rw [hn]; rfl, hr'', hok'', hs''.trans hs'⟩

/-- No registration changes a link. -/
theorem links_kept (hf : Forwarding request v target) {n : Nat} {q : Request} {r s : Run}
    (hok : register n q r = .ok () s) {name : String} {owner : ContextId}
    (hl : r.arena.Link id name w owner) : s.arena.Link id name w owner := by
  have hu := register_updates n q r
  rw [after_of_eq_ok hok] at hu
  exact Arena.Updates.induct (P := fun a => a.Link id name w owner) (fun _ _ hu hl =>
    hf.update hl hu) hu hl

theorem along_owners (hf : Forwarding request v target) {a : Arena} {s : Run}
    (h : a.OwnerChain id w slots last u) (hok : a.register (request id w) = .ok () s) :
    (∃ s', a.register (request last u) = .ok () s' ∧ s'.arena = s.arena)
    ∧ (∀ {here name x owner}, a.Link here name (x : α) owner → s.arena.Link here name x owner)
    ∧ ∀ name, Bindable.parameterName? v = none → Bindable.parameterName? u = some name →
      a.binding? last name = .ok (none : Option (Binding α)) →
      ∀ slot ∈ slots ++ [(last, name)],
        s.arena.resolveParameter slot.1 slot.2 = .ok (some v) := by
  have hrun : register (a.maxDepth + 1) (request id w) { arena := a } = .ok () s := hok
  have hkept : ∀ {here name x owner}, a.Link here name (x : α) owner →
      s.arena.Link here name x owner := hf.links_kept hrun
  obtain ⟨m, r', s', hm, hr', hok', hs'⟩ := hf.chain h rfl hrun
  refine ⟨?_, @hkept, fun name hv hu hnone => ?_⟩
  · obtain ⟨s'', hok'', hs''⟩ := register_simulates sameArena
      (by omega : m + 1 ≤ a.maxDepth + 1) _ r' { arena := a } () s' hr'.symm hok'
    exact ⟨s'', hok'', hs''.trans hs'⟩
  · have hbound := hf.unbound hu (by rw [hr']; exact hnone) hok'
    rw [hs'] at hbound
    have hdepth : s.arena.maxDepth = a.maxDepth := by
      have hu := register_updates (a.maxDepth + 1) (request id w) { arena := a }
      rw [after_of_eq_ok hrun] at hu
      exact Arena.Updates.induct (P := fun b => b.maxDepth = a.maxDepth)
        (fun _ _ hu h => hu.maxDepth_eq.trans h) hu rfl
    exact (h.congr fun _ _ _ _ => hkept).resolve (by rw [hdepth]; omega) hu hbound hv

end Forwarding

end Registration

/-- Registering at the start of a chain of owners leaves what registering at its end leaves, for
types and for multiplicities. No link changes; if the end was unbound and the new value is concrete,
each parameter of the chain resolves to that value. -/
theorem register_along_owners (a : Arena) (target : ContextId) (s : Run) :
    (∀ id p slots last (u v : TypeExpr) merge,
      a.OwnerChain id (TypeExpr.param p) slots last u →
      (∀ left right, v ≠ .operation .equal left right) →
      a.register (.type id (.param p) (some v) target merge) = .ok () s →
      (∃ s', a.register (.type last u (some v) target merge) = .ok () s' ∧ s'.arena = s.arena)
      ∧ (∀ here name (x : TypeExpr) owner, a.Link here name x owner →
        s.arena.Link here name x owner)
      ∧ ∀ name, v.isConcrete → u.parameterName? = some name →
        a.binding? last name = .ok (none : Option (Binding TypeExpr)) →
        ∀ slot ∈ slots ++ [(last, name)],
          s.arena.resolveParameter slot.1 slot.2 = .ok (some v))
    ∧ ∀ id p slots last (u v : Multiplicity),
      a.OwnerChain id (Multiplicity.param p) slots last u →
      a.register (.mul id (.param p) v target) = .ok () s →
      (∃ s', a.register (.mul last u v target) = .ok () s' ∧ s'.arena = s.arena)
      ∧ (∀ here name (x : Multiplicity) owner, a.Link here name x owner →
        s.arena.Link here name x owner)
      ∧ ∀ name, v.isConcrete → u.parameterName? = some name →
        a.binding? last name = .ok (none : Option (Binding Multiplicity)) →
        ∀ slot ∈ slots ++ [(last, name)],
          s.arena.resolveParameter slot.1 slot.2 = .ok (some v) := by
  constructor
  · intro id p slots last u v merge h hv hok
    obtain ⟨hend, hkept, hresolve⟩ :=
      (Registration.forwarding_type hv target merge).along_owners h hok
    refine ⟨hend, fun _ _ _ _ => hkept, fun name hconcrete => hresolve name ?_⟩
    cases v with
    | param _ => exact absurd hconcrete (by simp [TypeExpr.isConcrete])
    | _ => rfl
  · intro id p slots last u v h hok
    obtain ⟨hend, hkept, hresolve⟩ := (Registration.forwarding_mul v target).along_owners h hok
    refine ⟨hend, fun _ _ _ _ => hkept, fun name hconcrete => hresolve name ?_⟩
    cases v with
    | param _ => exact absurd hconcrete (by simp [Multiplicity.isConcrete])
    | range _ _ => rfl

/-- Below a context that knows nothing, one with a type and a multiplicity that it owns. -/
def Arena.linkedPair : Arena :=
  ({ hierarchy := .empty, maxDepth := 1 } : Arena)
    |>.insert 1 (.fresh 1 none none)
    |>.insert 2
      { Context.fresh 2 (some 1) none with
        current := ({} : BindingState)
          |>.bind "T" (.bound (TypeExpr.param ⟨"U", .covariant⟩) 1)
          |>.bind "m" (.bound (Multiplicity.param "n") 1) }

theorem register_along_owners_linkedPair :
    (∃ s, Arena.linkedPair.register
        (.type 2 (.param ⟨"T", .covariant⟩) (some (.atom "Date")) 2 false) = .ok () s
      ∧ (∃ s', Arena.linkedPair.register
          (.type 1 (.param ⟨"U", .covariant⟩) (some (.atom "Date")) 2 false) = .ok () s'
        ∧ s'.arena = s.arena)
      ∧ s.arena.resolveParameter 2 "T" = .ok (some (TypeExpr.atom "Date")))
    ∧ ∃ s, Arena.linkedPair.register (.mul 2 (.param "m") .many 2) = .ok () s
      ∧ (∃ s', Arena.linkedPair.register (.mul 1 (.param "n") .many 2) = .ok () s'
        ∧ s'.arena = s.arena)
      ∧ s.arena.resolveParameter 2 "m" = .ok (some Multiplicity.many) := by
  constructor
  · obtain ⟨s, hs⟩ : ∃ s, Arena.linkedPair.register
        (.type 2 (.param ⟨"T", .covariant⟩) (some (.atom "Date")) 2 false) = .ok () s := ⟨_, rfl⟩
    obtain ⟨hend, -, hresolve⟩ := (register_along_owners Arena.linkedPair 2 s).1 2 _ _ 1 _ _ _
      (.link rfl ⟨_, rfl, rfl, rfl, rfl, by decide⟩ (.done 1 _)) (by simp [TypeExpr.atom]) hs
    exact ⟨s, hs, hend, hresolve "U" rfl rfl rfl (2, "T") (by simp)⟩
  · obtain ⟨s, hs⟩ : ∃ s, Arena.linkedPair.register (.mul 2 (.param "m") .many 2) = .ok () s :=
      ⟨_, rfl⟩
    obtain ⟨hend, -, hresolve⟩ := (register_along_owners Arena.linkedPair 2 s).2 2 _ _ 1 _ _
      (.link rfl ⟨_, rfl, rfl, rfl, rfl, by decide⟩ (.done 1 _)) hs
    exact ⟨s, hs, hend, hresolve "n" rfl rfl rfl (2, "m") (by simp)⟩

end ScopedInference
