import ScopedInference.Proofs.Registration.Values

/-!
# Invariants of registrations

`Leads` says which requests one request leads to, a level deeper: about parts of its two types,
about the sides of an equality, or facts that a decision passes on. A property of runs is an
invariant for some requests if their events and their settled decisions keep it and they lead to no
other requests (`Invariant`). A registration then keeps it, also where it fails, and fails only in
the ways that are allowed (`Invariant.register`). Decisions are always come to, since conflicts
degrade (`exists_typeDecision`).

A congruence says nothing of this kind: it does not know which requests are made.
-/

namespace ScopedInference

/-! ### Decisions without fail -/

section

variable (h : Hierarchy) (p : TypeParam)

theorem exists_mergeDecision (owner : ContextId) (e v : TypeExpr) :
    ∃ d, mergeDecision h p owner e v = .ok d := by
  unfold mergeDecision
  split
  · split <;> exact ⟨_, rfl⟩
  · obtain ⟨m, hm⟩ := h.exists_mergeWithin Hierarchy.maxMergeDepth p.variance e v
    rw [Hierarchy.commonSupertype_pair, Hierarchy.merge, hm]
    exact ⟨_, rfl⟩

theorem exists_typeDecision (id target : ContextId) (onTrial merge : Bool)
    (known : Option (Binding TypeExpr)) (v : TypeExpr) :
    ∃ d, typeDecision h id target p onTrial merge known v = .ok d := by
  rcases known with _ | ⟨e, owner⟩ | ⟨e, owner⟩
  · exact ⟨_, rfl⟩
  · dsimp only [typeDecision]
    split
    · exact exists_mergeDecision h p owner e v
    split
    · exact ⟨_, rfl⟩
    split
    · exact ⟨_, rfl⟩
    split
    · split
      · exact ⟨_, rfl⟩
      · split
        · exact ⟨_, rfl⟩
        · split <;> exact ⟨_, rfl⟩
    · split <;> exact ⟨_, rfl⟩
  · exact ⟨_, rfl⟩

end

/-! ### Facts that are passed on -/

section

variable {h : Hierarchy} {p : TypeParam} {id target owner : ContextId} {onTrial merge : Bool}
  {known : Option (Binding TypeExpr)} {e v : TypeExpr} {d : Decision TypeExpr}

theorem mergeDecision_forward (hd : mergeDecision h p owner e v = .ok d) :
    ∀ f ∈ d.forwards, f.context = owner := by
  intro f hf
  rcases mergeDecision_cases hd with ⟨-, -, -, -, hnone, -⟩ | ⟨-, m, -, -, hforwards⟩
  · rw [hnone] at hf
    cases hf
  rw [hforwards] at hf
  rcases List.mem_append.1 hf with hf | hf
  · unfold functionForwards at hf
    split at hf
    · split at hf
      · obtain ⟨i, hi, rfl⟩ := List.getElem_of_mem hf
        rw [List.getElem_zipWith]
      · cases hf
    · cases hf
  · unfold argumentForwards at hf
    split at hf
    · split at hf
      · obtain ⟨i, hi, rfl⟩ := List.getElem_of_mem (List.mem_filter.1 hf).1
        rw [List.getElem_zipWith]
      · cases hf
    · cases hf

/-- Facts follow from two concrete values, or outside of a trial from what a parameter was bound
to. -/
theorem typeDecision_forward (hd : typeDecision h id target p onTrial merge known v = .ok d)
    {f : Forward TypeExpr} (hf : f ∈ d.forwards) :
    ∃ e owner, known = some (.bound e owner)
      ∧ ((e.isConcrete ∧ v.isConcrete ∧ mergeDecision h p owner e v = .ok d)
        ∨ onTrial = false ∧ (f = ⟨target, v, e⟩ ∨ f = ⟨owner, e, v⟩)) := by
  rcases known with _ | ⟨e, owner⟩ | ⟨e, owner⟩
  · cases hd
    cases hf
  · refine ⟨e, owner, rfl, ?_⟩
    dsimp only [typeDecision] at hd
    split at hd
    · rename_i hconcrete
      obtain ⟨he, hv⟩ := Bool.and_eq_true_iff.1 hconcrete
      exact .inl ⟨he, hv, hd⟩
    split at hd
    · cases hd
      cases hf
    rename_i htrial
    refine .inr ⟨Bool.not_eq_true _ ▸ htrial, ?_⟩
    split at hd
    · cases hd
      exact .inl (List.mem_singleton.1 hf)
    split at hd
    · split at hd
      · cases hd
        cases hf
      split at hd
      · cases hd
        exact .inr (List.mem_singleton.1 hf)
      split at hd <;> cases hd <;> cases hf
    · split at hd <;> cases hd
      · exact .inr (List.mem_singleton.1 hf)
      · cases hf
  · cases hd
    cases hf

theorem mulDecision_forward {known : Option (Binding Multiplicity)} {v : Multiplicity}
    {f : Forward Multiplicity} (hf : f ∈ (mulDecision id target onTrial known v).forwards) :
    onTrial = false ∧ ∃ m owner, known = some (.bound m owner)
      ∧ (f = ⟨target, v, m⟩ ∨ f = ⟨owner, m, v⟩) := by
  rcases known with _ | ⟨m, owner⟩ | ⟨m, owner⟩
  · cases hf
  · dsimp only [mulDecision] at hf
    split at hf
    · cases hf
    split at hf
    · cases hf
    rename_i htrial
    refine ⟨Bool.not_eq_true _ ▸ htrial, m, owner, rfl, ?_⟩
    split at hf
    · exact .inl (List.mem_singleton.1 hf)
    split at hf
    · exact .inr (List.mem_singleton.1 hf)
    split at hf <;> cases hf
  · cases hf

end

/-! ### What a request leads to -/

namespace Request

/-- The context whose parameters the template speaks of. -/
def context : Request → ContextId
  | .type id _ _ _ _ | .function id _ _ _ _ | .mul id _ _ _ => id

/-- The context that owns what is learnt. -/
def target : Request → ContextId
  | .type _ _ _ target _ | .function _ _ _ target _ | .mul _ _ _ target => target

end Request

/-- The context that an attempt or a fact is about. -/
def Event.context? : Event → Option ContextId
  | .trying _ _ id _ | .registerType _ _ id _ | .registerMul _ _ id _ => some id
  | .indent | .outdent | .note _ => none

/-- The run with another arena, and what has made it so on record. -/
def Run.moveTo (r : Run) (a : Arena) (e : Event) : Run := { r with arena := a }.record e

/-- The requests that follow from a request, one level deeper. -/
inductive Arena.Leads (a : Arena) : Request → Request → Prop where
  | equality {id target template left right merge here there owner} :
      a.context id = .ok here → a.context target = .ok there → there.parent = some owner →
      Leads a (.type id template (some (.operation .equal left right)) target merge)
        (.type (here.parent.getD owner) left (some right) owner merge)
  | equated {id target left right actual merge} :
      Leads a (.type id (.operation .equal left right) (some actual) target merge)
        (.type id left (some actual) target merge)
  | left {id target kind left right left' right' merge} :
      Leads a (.type id (.operation kind left right) (some (.operation kind left' right')) target
        merge) (.type id left (some left') target merge)
  | right {id target kind left right left' right' merge} :
      Leads a (.type id (.operation kind left right) (some (.operation kind left' right')) target
        merge) (.type id right (some right') target merge)
  | column {id target r s merge q} : q ∈ Relation.align s r →
      Leads a (.type id (.relation r) (some (.relation s)) target merge)
        (.type id q.2.type (some q.1.type) target merge)
  | function {id target f g merge} :
      Leads a (.type id (.function f) (some (.function g)) target merge)
        (.function id f g target false)
  | mulArgument {id target c d templates values merge q} :
      Registration.pairArguments a.hierarchy c d = some (templates, values) →
      q ∈ templates.muls.zip values.muls → c.head ≠ .any ∧ d.head ≠ .any →
      Leads a (.type id (.classType c) (some (.classType d)) target merge)
        (.mul id q.1 q.2 target)
  | argument {id target c d templates values merge q} :
      Registration.pairArguments a.hierarchy c d = some (templates, values) →
      q ∈ templates.types.zip values.types → c.head ≠ .any ∧ d.head ≠ .any →
      Leads a (.type id (.classType c) (some (.classType d)) target merge)
        (.type id q.1 (some q.2) target merge)
  | functionArgument {id target c d templates values merge f g} :
      Registration.pairArguments a.hierarchy c d = some (templates, values) →
      (.function f, .function g) ∈ templates.types.zip values.types →
      c.head ≠ .any ∧ d.head ≠ .any →
      Leads a (.type id (.classType c) (some (.classType d)) target merge)
        (.function id f g target merge)
  | position {id target merge q} {f g : Arrow TypeExpr} :
      q ∈ f.params.zip g.params ++ [(f.result, g.result)] →
      Leads a (.function id f g target merge) (.type id q.1.type (some q.2.type) target merge)
  | positionMul {id target merge q} {f g : Arrow TypeExpr} :
      q ∈ f.params.zip g.params ++ [(f.result, g.result)] →
      Leads a (.function id f g target merge) (.mul id q.1.mul q.2.mul target)
  | fact {id target p v merge c d f} : a.context id = .ok c →
      typeDecision a.hierarchy id target p c.onTrial merge (c.current.binding? p.name) v = .ok d →
      f ∈ d.forwards →
      Leads a (.type id (.param p) (some v) target merge)
        (.type f.context f.template (some f.value) target merge)
  | mulFact {id target name v c f} : a.context id = .ok c →
      f ∈ (mulDecision id target c.onTrial (c.current.binding? name) v).forwards →
      Leads a (.mul id (.param name) v target) (.mul f.context f.template f.value target)

/-! ### Actions that keep an invariant -/

/-- Whatever the outcome of an action, the invariant holds afterwards; what it fails with is
allowed. -/
def Safe {σ α : Type} (I : σ → Prop) (E : InferError → Prop) (act : EStateM InferError σ α)
    (s : σ) : Prop :=
  match act s with
  | .ok _ t => I t
  | .error e t => I t ∧ E e

namespace Safe

section

variable {σ α β : Type} {I : σ → Prop} {E : InferError → Prop} {s : σ}

theorem of_eq_ok {act : EStateM InferError σ α} {t : σ} {x : α} (h : Safe I E act s)
    (ht : act s = .ok x t) : I t := by
  unfold Safe at h
  rwa [ht] at h

theorem of_eq_error {act : EStateM InferError σ α} {t : σ} {e : InferError} (h : Safe I E act s)
    (ht : act s = .error e t) : I t ∧ E e := by
  unfold Safe at h
  rwa [ht] at h

theorem bind {act : EStateM InferError σ α} {f : α → EStateM InferError σ β} (h : Safe I E act s)
    (hf : ∀ x t, act s = .ok x t → I t → Safe I E (f x) t) : Safe I E (act >>= f) s := by
  show match EStateM.bind act f s with
    | .ok _ t => I t
    | .error e t => I t ∧ E e
  unfold EStateM.bind
  rcases hs : act s with ⟨x, t⟩ | ⟨e, t⟩
  · exact hf x t hs (h.of_eq_ok hs)
  · exact h.of_eq_error hs

theorem forM {f : α → EStateM InferError σ Unit} : ∀ (l : List α) {s : σ}, I s →
    (∀ x ∈ l, ∀ t, I t → Safe I E (f x) t) → Safe I E (l.forM f) s
  | [], _, hs, _ => hs
  | x :: l, s, hs, h => (h x List.mem_cons_self s hs).bind fun _ _ _ ht =>
    forM l ht fun y hy => h y (List.mem_cons_of_mem x hy)

/-- What is read off the state is gone on with, or fails. -/
theorem ofExcept {g : σ → Except InferError α} {f : α → EStateM InferError σ β} (hs : I s)
    (he : ∀ e, g s = .error e → E e) (hf : ∀ x, g s = .ok x → Safe I E (f x) s) :
    Safe I E (do f (← MonadExcept.ofExcept (g (← get)))) s := by
  refine bind hs fun x t hx _ => ?_
  cases hx
  rcases hg : g s with e | x
  · exact ⟨hs, he e hg⟩
  · exact hf x hg

end

variable {I : Run → Prop} {E : InferError → Prop} {α : Type} {r : Run}

theorem final {act : RunM α} (h : Safe I E act r) : I (act.final r) := by
  unfold RunM.final
  rcases hr : act r with ⟨x, s⟩ | ⟨e, s⟩
  · exact h.of_eq_ok hr
  · exact (h.of_eq_error hr).1

theorem context {id : ContextId} {f : Context → RunM α} (hr : I r)
    (hid : (∃ c, r.arena.context id = .ok c) ∨ E (.unknownContext id))
    (hf : ∀ c, r.arena.context id = .ok c → Safe I E (f c) r) :
    Safe I E (RunM.context id >>= f) r :=
  ofExcept (g := fun r => r.arena.context id) hr (fun _ he => Arena.context_error hid he) hf

theorem hierarchy {f : Hierarchy → RunM α} (hf : Safe I E (f r.arena.hierarchy) r) :
    Safe I E (RunM.hierarchy >>= f) r :=
  hf

end Safe

namespace Registration

open RunM

/-- A property of runs that certain requests keep. -/
structure Invariant (I : Run → Prop) (Q : Request → Prop) (E : InferError → Prop) : Prop where
  leads : ∀ {r q q'}, I r → Q q → r.arena.Leads q q' → Q q'
  record : ∀ {r e}, I r → (∀ id, e.context? = some id → ∃ q, Q q ∧ q.context = id) → I (r.record e)
  type : ∀ {r id c p v target merge d}, I r → Q (.type id (.param p) (some v) target merge) →
    r.arena.context id = .ok c →
    typeDecision r.arena.hierarchy id target p c.onTrial merge (c.current.binding? p.name) v
      = .ok d →
    I (r.moveTo (settled r.arena id target c p.name d) (.registerType (.param p) v id target))
  mul : ∀ {r id c name v target}, I r → Q (.mul id (.param name) v target) →
    r.arena.context id = .ok c →
    I (r.moveTo (settled r.arena id target c name
      (mulDecision id target c.onTrial (c.current.binding? name) v))
        (.registerMul (.param name) v id target))
  here : ∀ {r q}, I r → Q q → (∃ c, r.arena.context q.context = .ok c)
    ∨ E (.unknownContext q.context)
  there : ∀ {r q}, I r → Q q → (∃ c, r.arena.context q.target = .ok c)
    ∨ E (.unknownContext q.target)
  depth : ∀ {r}, I r → E (.depthExceeded r.arena.maxDepth)

namespace Invariant

variable {I : Run → Prop} {Q : Request → Prop} {E : InferError → Prop} (hI : Invariant I Q E)
  {r : Run}

include hI

theorem mark {e : Event} (hr : I r) (he : e.context? = none) : I (r.record e) :=
  hI.record hr fun _ hid => by
    rw [he] at hid
    cases hid

theorem recorded {q : Request} {e : Event} (hr : I r) (hq : Q q)
    (he : e.context? = some q.context) : Safe I E (RunM.record e) r :=
  hI.record hr fun _ hid => ⟨q, hq, Option.some.inj (he.symm.trans hid)⟩

theorem nested {act : RunM Unit} (hr : I r) (h : ∀ s, I s → Safe I E act s) :
    Safe I E (RunM.nested act) r := by
  have hact := h _ (hI.mark (e := .indent) hr rfl)
  unfold Safe RunM.nested
  rcases hs : act (r.record .indent) with ⟨x, s⟩ | ⟨e, s⟩
  · exact hI.mark (hact.of_eq_ok hs) rfl
  · exact ⟨hI.mark (hact.of_eq_error hs).1 rfl, (hact.of_eq_error hs).2⟩

/-- What a decision settles is recorded at once. -/
theorem settle {α : Type} [Bindable α] {id target : ContextId} {c : Context} {name : String}
    {d : Decision α} {e : Event} {act : RunM Unit} (hr : I r) (hc : r.arena.context id = .ok c)
    (h : ∀ s : Run, I s → s.arena = r.arena → I (s.moveTo (settled s.arena id target c name d) e))
    (hact : ∀ s, I s → Safe I E act s) :
    Safe I E (do RunM.settle id target name d; RunM.record e; act) r := by
  have hsettled : I ((d.note?.elim r fun n => r.record (.note n)).moveTo
      (settled r.arena id target c name d) e) := by
    rcases d.note? with _ | n
    · exact h r hr rfl
    · exact h (r.record (.note n)) (hI.mark hr rfl) rfl
  have hrun := bind_of_eq_ok (settle_of_context hc target name d) fun _ => do
    RunM.record e
    act
  unfold Safe
  rw [hrun]
  exact hact _ hsettled

variable {recur : Request → RunM Unit} (h : ∀ q r, Q q → I r → Safe I E (recur q) r)

include h

theorem forwards {l : List Request} (hr : I r) (hl : ∀ q ∈ l, Q q) :
    Safe I E (forwardAll recur l) r := by
  unfold forwardAll
  split
  · exact hr
  · exact hI.nested hr fun s hs => .forM _ hs fun q hq s hs => h q s (hl q hq) hs

theorem parameter {id target : ContextId} {p : TypeParam} {v : TypeExpr} {merge : Bool}
    (hr : I r) (hq : Q (.type id (.param p) (some v) target merge)) :
    Safe I E (stepParameter recur id p v target merge) r := by
  refine .context hr (hI.here hr hq) fun c hc => .hierarchy ?_
  obtain ⟨d, hd⟩ := exists_typeDecision r.arena.hierarchy p id target c.onTrial merge
    (c.current.binding? p.name) v
  rw [hd]
  refine hI.settle hr hc (fun s hs harena => ?_) fun s hs => hI.forwards h hs fun q hmem => ?_
  · rw [← harena] at hc hd
    exact hI.type hs hq hc hd
  · obtain ⟨f, hf, rfl⟩ := List.mem_map.1 hmem
    exact hI.leads hr hq (.fact hc hd hf)

theorem multiplicity {id target : ContextId} {m v : Multiplicity} (hr : I r)
    (hq : Q (.mul id m v target)) : Safe I E (stepMul recur id m v target) r := by
  refine .context hr (hI.here hr hq) fun c hc => .context hr (hI.there hr hq) fun _ _ => ?_
  rcases m with ⟨lower, upper⟩ | name
  · exact hr
  refine hI.settle hr hc (fun s hs harena => ?_) fun s hs => hI.forwards h hs fun q hmem => ?_
  · rw [← harena] at hc
    exact hI.mul hs hq hc
  · obtain ⟨f, hf, rfl⟩ := List.mem_map.1 hmem
    exact hI.leads hr hq (.mulFact hc hf)

theorem operation {id target : ContextId} {kind : OperationKind} {left right actual : TypeExpr}
    {merge : Bool} (hr : I r)
    (hq : Q (.type id (.operation kind left right) (some actual) target merge)) :
    Safe I E (stepOperation recur id kind left right actual target merge) r := by
  have hsides : ∀ kind' left' right', actual = .operation kind' left' right' → ∀ s, I s →
      Safe I E (if kind' = kind then RunM.nested do
        recur (.type id left (some left') target merge)
        recur (.type id right (some right') target merge)
      else Pure.pure ()) s := by
    rintro kind' left' right' rfl s hs
    split
    · rename_i hkind
      subst hkind
      exact hI.nested hs fun s hs => (h _ s (hI.leads hr hq .left) hs).bind fun _ s _ hs =>
        h _ s (hI.leads hr hq .right) hs
    · exact hs
  have hequated : ∀ rest : RunM Unit, (∀ s, I s → Safe I E rest s) → Safe I E (do
      if kind = .equal then RunM.nested (recur (.type id left (some actual) target merge))
      rest) r := by
    intro rest hrest
    dsimp only
    split
    · rename_i hkind
      subst hkind
      exact .bind (hI.nested hr fun s hs => h _ s (hI.leads hr hq .equated) hs)
        fun _ s _ hs => hrest s hs
    · exact hrest r hr
  cases actual with
  | operation kind' left' right' => exact hequated _ fun s hs => hsides kind' left' right' rfl s hs
  | _ => exact hequated _ fun s hs => hs

theorem equality {id target : ContextId} {template actual : TypeExpr} {here there : Context}
    {merge : Bool} (hr : I r) (hq : Q (.type id template (some actual) target merge))
    (hhere : r.arena.context id = .ok here) (hthere : r.arena.context target = .ok there) :
    Safe I E (stepEquality recur here there actual merge) r := by
  unfold stepEquality
  split
  · rename_i hparent
    exact hI.nested hr fun s hs => h _ s (hI.leads hr hq (.equality hhere hthere hparent)) hs
  · exact hr

theorem arguments {id target : ContextId} {c d : ClassType} {merge : Bool} (hr : I r)
    (hq : Q (.type id (.classType c) (some (.classType d)) target merge))
    (hany : c.head ≠ .any ∧ d.head ≠ .any) :
    Safe I E (stepArguments recur id c d target merge) r := by
  refine .hierarchy ?_
  rcases hpair : pairArguments r.arena.hierarchy c d with _ | ⟨templates, values⟩
  · exact hr
  refine .bind (.forM _ hr fun q hmem s hs => ?_) fun _ s _ hs => .forM _ hs fun q hmem s hs => ?_
  · exact h _ s (hI.leads hr hq (.mulArgument hpair hmem hany)) hs
  · obtain ⟨t, v⟩ := q
    dsimp only
    split
    · exact h _ s (hI.leads hr hq (.functionArgument hpair hmem hany)) hs
    · exact hI.nested hs fun s hs => h _ s (hI.leads hr hq (.argument hpair hmem hany)) hs

theorem concrete {id target : ContextId} {template actual : TypeExpr} {merge : Bool} (hr : I r)
    (hq : Q (.type id template (some actual) target merge))
    (hextreme : isExtremum template = false ∧ isExtremum actual = false) :
    Safe I E (stepConcrete recur id template actual target merge) r := by
  unfold stepConcrete
  split
  · exact hI.nested hr fun s hs => .forM _ hs fun q hmem s hs =>
      h _ s (hI.leads hr hq (.column hmem)) hs
  · exact h _ r (hI.leads hr hq .function) hr
  · simp only [← Bool.not_eq_true, isExtremum_classType, not_or] at hextreme
    exact hI.arguments h hr hq ⟨hextreme.1.1, hextreme.2.1⟩
  · exact hr

theorem template {id target : ContextId} {template actual : TypeExpr} {merge : Bool} (hr : I r)
    (hq : Q (.type id template (some actual) target merge)) :
    Safe I E (stepTemplate recur id template actual target merge) r := by
  unfold stepTemplate
  split
  · exact hI.operation h hr hq
  · exact hI.parameter h hr hq
  · split
    · rename_i hextreme
      rw [Bool.and_assoc, Bool.and_eq_true, Bool.and_eq_true, Bool.not_eq_true',
        Bool.not_eq_true'] at hextreme
      exact hI.concrete h hr hq hextreme.2
    · exact hr

theorem stepType {id target : ContextId} {template : TypeExpr} {actual? : Option TypeExpr}
    {merge : Bool} (hr : I r) (hq : Q (.type id template actual? target merge)) :
    Safe I E (Registration.stepType recur id template actual? target merge) r := by
  refine .context hr (hI.here hr hq) fun here hhere => .context hr (hI.there hr hq)
    fun there hthere => .bind (hI.recorded hr hq rfl) fun _ s hs hI' => ?_
  cases hs
  rcases actual? with _ | actual
  · exact hI'
  · exact .bind (hI.equality h hI' hq hhere hthere) fun _ s _ hs => hI.template h hs hq

theorem function {id target : ContextId} {f g : Arrow TypeExpr} {merge : Bool} (hr : I r)
    (hq : Q (.function id f g target merge)) :
    Safe I E (stepFunction recur id f g target merge) r := by
  refine .bind (hI.recorded hr hq rfl) fun _ s _ hs => ?_
  split
  · exact hI.mark hs rfl
  · exact hI.nested hs fun s hs => .forM _ hs fun q hmem s hs =>
      (h _ s (hI.leads hr hq (.position hmem)) hs).bind fun _ s _ hs =>
        h _ s (hI.leads hr hq (.positionMul hmem)) hs

theorem step {q : Request} (hr : I r) (hq : Q q) : Safe I E (Registration.step recur q) r := by
  cases q with
  | type id template actual? target merge => exact hI.stepType h hr hq
  | function id template actual target merge => exact hI.function h hr hq
  | mul id m v target => exact hI.multiplicity h hr hq

omit h

theorem register : ∀ n q r, Q q → I r → Safe I E (register n q) r
  | 0, _, _, _, hr => ⟨hr, hI.depth hr⟩
  | n + 1, _, _, hq, hr => hI.step (register n) hr hq

end Invariant

end Registration

end ScopedInference
