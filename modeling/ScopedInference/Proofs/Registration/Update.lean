import Mathlib.Logic.Relation
import ScopedInference.Arena.Resolution
import ScopedInference.Proofs.Registration.Congruence

/-!
# What a registration can do to an arena

Between the runs before and after a registration, whether or not it succeeds, there is whatever
preorder there is across single events and settled decisions (`Passage`, `register_passage`). One
such preorder says that the arena goes through updates: a decision about one parameter of one
context, whose value the context then binds (`Update`, `register_updates`). What no decision touches
therefore stays. A link, a parameter that another context owns, is such a thing
(`Link.update_type`, `Link.update_mul`).
-/

namespace ScopedInference

/-- Of two entries of one key the later one stays. -/
theorem insert_insert_self {κ β : Type} [Ord κ] [Std.TransOrd κ] [Std.LawfulEqOrd κ]
    (m : Std.ExtTreeMap κ β) (k : κ) (x y : β) : (m.insert k x).insert k y = m.insert k y := by
  refine Std.ExtTreeMap.ext_getElem? fun other => ?_
  simp only [Std.ExtTreeMap.getElem?_insert]
  split <;> rfl

theorem BindingState.bind_bind (s : BindingState) (name : String) (b b' : Binding TypeExpr) :
    (s.bind name b).bind name b' = s.bind name b' :=
  congrArg (BindingState.mk · s.muls s.lookahead) (insert_insert_self s.types name b b')

theorem BindingState.bind_bind_mul (s : BindingState) (name : String)
    (b b' : Binding Multiplicity) : (s.bind name b).bind name b' = s.bind name b' :=
  congrArg (BindingState.mk s.types · s.lookahead) (insert_insert_self s.muls name b b')

theorem BindingState.bind_of_binding? {s : BindingState} {name : String} {b : Binding TypeExpr}
    (hb : s.binding? name = some b) : s.bind name b = s := by
  have htypes : s.types.insert name b = s.types := by
    refine Std.ExtTreeMap.ext_getElem? fun other => ?_
    rw [Std.ExtTreeMap.getElem?_insert]
    split
    · rename_i hname
      rw [← Std.LawfulEqCmp.eq_of_compare hname]
      exact hb.symm
    · rfl
  show { s with types := s.types.insert name b } = s
  rw [htypes]

theorem BindingState.eq_of_binding?_bind {name other : String} {b b' : Binding TypeExpr}
    (hb : (({} : BindingState).bind name b).binding? other = some b') : b' = b := by
  by_cases h : name = other
  · subst h
    rw [binding?_bind_self, Option.some.injEq] at hb
    exact hb.symm
  · rw [binding?_bind_of_ne _ h] at hb
    cases hb

namespace Arena

variable {a : Arena} {id : ContextId} {c : Context}

theorem insert_insert (a : Arena) (id : ContextId) (c d : Context) :
    (a.insert id c).insert id d = a.insert id d := by
  unfold insert
  rw [insert_insert_self]

theorem insert_of_context (hc : a.context id = .ok c) : a.insert id c = a := by
  have hcontexts : a.contexts.insert id c = a.contexts := by
    refine Std.ExtTreeMap.ext_getElem? fun other => ?_
    rw [Std.ExtTreeMap.getElem?_insert]
    split
    · rename_i hother
      rw [← Std.LawfulEqCmp.eq_of_compare hother]
      unfold context at hc
      split at hc
      · rename_i heq
        rw [heq, Except.ok.inj hc]
      · simp at hc
    · rfl
  unfold insert
  rw [hcontexts]

/-- Replacing a context loses none. -/
theorem exists_context_insert (c : Context) {other : ContextId}
    (hother : ∃ d, a.context other = .ok d) : ∃ d, (a.insert id c).context other = .ok d := by
  by_cases h : id = other
  · subst h
    exact ⟨c, context_insert_self a id c⟩
  · rwa [context_insert_of_ne a h c]

/-- A context that is missing is all that can be wrong with one. -/
theorem context_error {E : InferError → Prop}
    (hid : (∃ c, a.context id = .ok c) ∨ E (.unknownContext id)) {e : InferError}
    (he : a.context id = .error e) : E e := by
  obtain ⟨c, hc⟩ | hnone := hid
  · cases hc.symm.trans he
  · unfold context at he
    split at he
    · cases he
    · cases he
      exact hnone

theorem modify_eq_ok {b : Arena} {f : Context → Context} :
    a.modify id f = .ok b ↔ ∃ c, a.context id = .ok c ∧ b = a.insert id (f c) := by
  unfold modify
  rcases a.context id with e | c
  · simp [bind, Except.bind]
  · simp [bind, Except.bind, pure, Except.pure, eq_comm]

theorem modify_eq_error {e : InferError} {f : Context → Context} :
    a.modify id f = .error e ↔ a.context id = .error e := by
  unfold modify
  rcases a.context id with e | c
  · simp [bind, Except.bind]
  · simp [bind, Except.bind, pure, Except.pure]

theorem binding?_eq_ok {α : Type} [Bindable α] {a : Arena} {id : ContextId} {name : String}
    {t : Option (Binding α)} :
    a.binding? id name = .ok t ↔ ∃ c, a.context id = .ok c ∧ c.current.binding? name = t := by
  unfold binding?
  rcases a.context id with e | c
  · constructor
    · intro h
      cases h
    · rintro ⟨c, h, -⟩
      cases h
  · simp [bind, Except.bind, pure, Except.pure]

theorem binding?_of_context {α : Type} [Bindable α] {a : Arena} {id : ContextId} {c : Context}
    {name : String} {t : Option (Binding α)} (hc : a.context id = .ok c) :
    a.binding? id name = .ok t ↔ c.current.binding? name = t := by
  simp only [binding?_eq_ok, hc, Except.ok.injEq, exists_eq_left']

theorem binding?_insert {α : Type} [Bindable α] (a : Arena) (id : ContextId) (c : Context)
    (here : ContextId) (name : String) : (a.insert id c).binding? here name
      = if here = id then .ok (c.current.binding? name : Option (Binding α))
        else a.binding? here name := by
  unfold binding?
  split
  · rename_i heq
    rw [heq, context_insert_self]
    rfl
  · rename_i hne
    rw [context_insert_of_ne a (Ne.symm hne)]

/-- A value that is decided on becomes visible in a context. -/
inductive Update (a : Arena) : Arena → Prop where
  | type {id target p merge actual c d v} : a.context id = .ok c →
      typeDecision a.hierarchy id target p c.onTrial merge (c.current.binding? p.name) actual
        = .ok d → d.value? = some v →
      Update a (a.insert id (c.mapCurrent (·.bind p.name (.bound v target))))
  | mul {id target name actual c v} : a.context id = .ok c →
      (mulDecision id target c.onTrial (c.current.binding? name) actual).value? = some v →
      Update a (a.insert id (c.mapCurrent (·.bind name (.bound v target))))

/-- Some updates, one after the other. -/
abbrev Updates : Arena → Arena → Prop := Relation.ReflTransGen Update

end Arena

namespace Registration

open RunM

/-- The arena that a decision leaves: the context with what is decided on. -/
def settled {α : Type} [Bindable α] (a : Arena) (id target : ContextId) (c : Context)
    (name : String) (d : Decision α) : Arena :=
  match d.value? with
  | none => a
  | some v => a.insert id (c.mapCurrent (·.bind name (.bound v target)))

theorem settled_of_none {α : Type} [Bindable α] {a : Arena} {id target : ContextId} {c : Context}
    {name : String} {d : Decision α} (hd : d.value? = none) :
    settled a id target c name d = a := by
  simp only [settled, hd]

theorem settled_eq {α : Type} [Bindable α] {a : Arena} {id : ContextId} {c : Context}
    (hc : a.context id = .ok c) (target : ContextId)
    (name : String) (d : Decision α) : settled a id target c name d = a.insert id
      (c.mapCurrent fun s => d.value?.elim s fun v => s.bind name (.bound v target)) := by
  unfold settled
  rcases d.value? with _ | v
  · exact (Arena.insert_of_context hc).symm
  · rfl

/-- In a context that is there, a decision is settled without fail. -/
theorem settle_of_context {α : Type} [Bindable α] {id : ContextId} {r : Run} {c : Context}
    (hc : r.arena.context id = .ok c) (target : ContextId) (name : String) (d : Decision α) :
    settle id target name d r = .ok () { (d.note?.elim r fun n => r.record (.note n)) with
      arena := settled r.arena id target c name d } := by
  rw [settle_apply]
  unfold settled
  rcases d.value? with _ | v
  · rcases d.note? with _ | n <;> rfl
  · simp only [Arena.modifyCurrent, Arena.modify, hc, Bind.bind, Except.bind, pure, Except.pure]

theorem exists_settle {α : Type} [Bindable α] {id : ContextId} {r : Run} {c : Context}
    (hc : r.arena.context id = .ok c) (target : ContextId) (name : String) (d : Decision α) :
    ∃ s, settle id target name d r = .ok () s ∧ s.arena = settled r.arena id target c name d :=
  ⟨_, settle_of_context hc target name d, rfl⟩

theorem after_settle {α : Type} [Bindable α] {id target : ContextId} {name : String}
    {d : Decision α} {r : Run} {c : Context} (hc : r.arena.context id = .ok c) :
    (settle id target name d).after r = settled r.arena id target c name d := by
  obtain ⟨s, hs, harena⟩ := exists_settle hc target name d
  rw [after_of_eq_ok hs, harena]

section

variable {recur : Request → RunM Unit} {id target : ContextId} {c : Context} {r : Run}

theorem stepParameter_apply {p : TypeParam} {v : TypeExpr} {merge : Bool}
    {d : Decision TypeExpr} (hc : r.arena.context id = .ok c)
    (hd : typeDecision r.arena.hierarchy id target p c.onTrial merge (c.current.binding? p.name) v
      = .ok d) :
    stepParameter recur id p v target merge r = (do
      settle id target p.name d
      record (.registerType (.param p) v id target)
      forwardAll recur (d.forwards.map fun f =>
        .type f.context f.template (some f.value) target merge) : RunM Unit) r := by
  rw [stepParameter, bind_of_eq_ok (context_eq_ok.2 ⟨hc, rfl⟩), bind_of_eq_ok (hierarchy_apply r),
    hd]

theorem stepMul_apply {name : String} {v : Multiplicity} {there : Context}
    {d : Decision Multiplicity} (hc : r.arena.context id = .ok c)
    (hthere : r.arena.context target = .ok there)
    (hd : mulDecision id target c.onTrial (c.current.binding? name) v = d) :
    stepMul recur id (.param name) v target r = (do
      settle id target name d
      record (.registerMul (.param name) v id target)
      forwardAll recur (d.forwards.map fun f => .mul f.context f.template f.value target) :
      RunM Unit) r := by
  rw [stepMul, bind_of_eq_ok (context_eq_ok.2 ⟨hc, rfl⟩),
    bind_of_eq_ok (context_eq_ok.2 ⟨hthere, rfl⟩), ← hd]

end

/-! ### Before and after -/

/-- A relation between the runs before and after any action, of which only events and settled
decisions are asked. The marks of a level stand or fall together. -/
structure Passage (merge : Bool) (Rel : Run → Run → Prop) : Prop where
  refl : ∀ r, Rel r r
  trans : ∀ {r s t}, Rel r s → Rel s t → Rel r t
  record : ∀ r e, e.isMark = false → Rel r (r.record e)
  level : ∀ {r s}, Rel (r.record .indent) s → Rel r (s.record .outdent)
  type : ∀ {r : Run} {id c p v target d}, r.arena.context id = .ok c →
    typeDecision r.arena.hierarchy id target p c.onTrial merge (c.current.binding? p.name) v
      = .ok d → Rel r { r with arena := settled r.arena id target c p.name d }
  mul : ∀ {r : Run} {id c name v target d}, r.arena.context id = .ok c →
    mulDecision id target c.onTrial (c.current.binding? name) v = d →
      Rel r { r with arena := settled r.arena id target c name d }

namespace Passage

variable {merge : Bool} {Rel : Run → Run → Prop} (hP : Passage merge Rel)

include hP

theorem bind {α β : Type} {act : RunM α} {f : α → RunM β} {r : Run} (h : Rel r (act.final r))
    (hf : ∀ x s, act r = .ok x s → Rel s ((f x).final s)) : Rel r ((act >>= f).final r) := by
  rw [final_bind]
  rcases hr : act r with ⟨x, s⟩ | ⟨e, s⟩
  · rw [final_of_eq_ok hr] at h
    exact hP.trans h (hf x s hr)
  · rwa [final_of_eq_error hr] at h

theorem nested {act : RunM Unit} (h : ∀ r, Rel r (act.final r)) (r : Run) :
    Rel r ((RunM.nested act).final r) := by
  rw [final_nested]
  exact hP.level (h _)

theorem context (id : ContextId) (r : Run) : Rel r ((RunM.context id).final r) := by
  have hr : (RunM.context id).final r = r := by
    unfold final
    rw [context_apply]
    rcases r.arena.context id with e | c <;> rfl
  rw [hr]
  exact hP.refl r

/-- After what has been noted, the arena changes as the decision says. -/
theorem settle {α : Type} [Bindable α] {id target : ContextId} {c : Context} {name : String}
    {d : Decision α} {r : Run} (hc : r.arena.context id = .ok c)
    (h : ∀ s : Run, s.arena = r.arena →
      Rel s { s with arena := settled s.arena id target c name d }) :
    Rel r ((settle id target name d).final r) := by
  rw [final_of_eq_ok (settle_of_context hc target name d)]
  rcases d.note? with _ | n
  · exact h r rfl
  · exact hP.trans (hP.record r (.note n) rfl) (h (r.record (.note n)) rfl)

theorem parameter {recur : Request → RunM Unit}
    (h : ForwardsRelated merge (fun act _ => ∀ r, Rel r (act.final r)) recur recur)
    (id : ContextId) (p : TypeParam) (v : TypeExpr) (target : ContextId) (r : Run) :
    Rel r ((stepParameter recur id p v target merge).final r) := by
  unfold stepParameter
  refine hP.bind (hP.context id r) fun c s hs => ?_
  obtain ⟨hc, rfl⟩ := context_eq_ok.1 hs
  refine hP.bind (hP.refl s) fun g s' hs => ?_
  cases hs
  rcases hd : typeDecision s.arena.hierarchy id target p c.onTrial merge
    (c.current.binding? p.name) v with e | d
  · exact hP.refl s
  refine hP.bind (hP.settle hc fun s' hs' => ?_) fun _ s' _ => hP.bind (hP.record s' _ rfl)
    fun _ s'' _ => h _ (fun q hq => ?_) s''
  · rw [← hs'] at hc hd
    exact hP.type hc hd
  · obtain ⟨f, -, rfl⟩ := List.mem_map.1 hq
    rfl

theorem multiplicity {recur : Request → RunM Unit}
    (h : ForwardsRelated merge (fun act _ => ∀ r, Rel r (act.final r)) recur recur)
    (id : ContextId) (m v : Multiplicity) (target : ContextId) (r : Run) :
    Rel r ((stepMul recur id m v target).final r) := by
  unfold stepMul
  refine hP.bind (hP.context id r) fun c s hs => ?_
  obtain ⟨hc, rfl⟩ := context_eq_ok.1 hs
  refine hP.bind (hP.context target s) fun _ s' hs => ?_
  obtain ⟨-, rfl⟩ := context_eq_ok.1 hs
  rcases m with ⟨lower, upper⟩ | name
  · exact hP.refl s'
  refine hP.bind (hP.settle hc fun s hs => ?_) fun _ s _ => hP.bind (hP.record s _ rfl)
    fun _ s'' _ => h _ (fun q hq => ?_) s''
  · rw [← hs] at hc
    exact hP.mul hc rfl
  · obtain ⟨f, -, rfl⟩ := List.mem_map.1 hq
    trivial

theorem congruence : Congruence merge fun act _ => ∀ r, Rel r (act.final r) where
  pure _ := hP.refl
  bind h hf r := hP.bind (h r) fun x s _ => hf x s
  record e he r := hP.record r e he
  context := hP.context
  hierarchy := hP.refl
  nested := hP.nested
  parameter := hP.parameter
  mul := hP.multiplicity

end Passage

/-- What holds of every passage in both modes holds of every registration. -/
theorem register_passage {Rel : Run → Run → Prop} (hP : ∀ merge, Passage merge Rel) :
    ∀ n q r, Rel r ((register n q).final r)
  | 0, _, r => (hP true).refl r
  | n + 1, q, r => @Congruence.step_all (fun act _ => ∀ r, Rel r (act.final r))
    (register n) (register n) (fun merge => (hP merge).congruence) (register_passage hP n) q r

theorem updates_passage (merge : Bool) : Passage merge fun r s => r.arena.Updates s.arena where
  refl _ := .refl
  trans := .trans
  record _ _ _ := .refl
  level h := h
  type {_ _ _ _ _ _ d} hc hd := by
    unfold settled
    rcases hv : d.value? with _ | v
    · exact .refl
    · exact .single (.type hc hd hv)
  mul {_ _ _ _ _ _ d} hc hd := by
    unfold settled
    rcases hv : d.value? with _ | v
    · exact .refl
    · exact .single (.mul hc (by rw [hd, hv]))

/-- A registration changes the arena by updates only, also if it fails. -/
theorem register_updates (n : Nat) (q : Request) (r : Run) :
    r.arena.Updates ((register n q).after r) := by
  rw [← arena_final]
  exact register_passage updates_passage n q r

end Registration

/-- The first fact about a type parameter is its value. -/
theorem typeDecision_unbound (h : Hierarchy) (id target : ContextId) (p : TypeParam)
    (onTrial merge : Bool) {known : Option (Binding TypeExpr)} (hknown : known = none)
    (v : TypeExpr) : typeDecision h id target p onTrial merge known v = .ok { value? := some v } := by
  rw [hknown]
  rfl

/-! ### Links -/

/-- A fact about a type parameter that another context owns goes there, and changes nothing here. -/
theorem typeDecision_link (h : Hierarchy) {id owner : ContextId} (target : ContextId)
    (p : TypeParam) (merge : Bool) {v : TypeExpr} (hv : v.parameterName?.isSome)
    (howner : owner ≠ id) (actual : TypeExpr) :
    typeDecision h id target p false merge (some (.bound v owner)) actual
      = .ok { forwards := [⟨owner, v, actual⟩] } := by
  cases v with
  | param q =>
    simp only [typeDecision, TypeExpr.isConcrete, Bool.false_and, Bool.false_eq_true, if_false,
      if_pos howner, ite_self]
  | _ => simp [TypeExpr.parameterName?] at hv

theorem mulDecision_link {id owner : ContextId} (target : ContextId) {v : Multiplicity}
    (hv : v.parameterName?.isSome) (howner : owner ≠ id) (actual : Multiplicity) :
    mulDecision id target false (some (.bound v owner)) actual
      = { forwards := [⟨owner, v, actual⟩] } := by
  cases v with
  | param q =>
    simp only [mulDecision, Multiplicity.isConcrete, Bool.false_and, Bool.false_eq_true, if_false,
      if_pos howner]
  | range _ _ => simp [Multiplicity.parameterName?] at hv

namespace Arena

/-- In a context without trial states, a parameter stands for one that another context owns. -/
def Link {α : Type} [Bindable α] (a : Arena) (id : ContextId) (name : String) (v : α)
    (owner : ContextId) : Prop :=
  ∃ c, a.context id = .ok c ∧ c.onTrial = false
    ∧ c.current.binding? name = some (.bound v owner)
    ∧ (Bindable.parameterName? v).isSome ∧ owner ≠ id

namespace Link

variable {α : Type} [Bindable α] {a b : Arena} {id owner : ContextId} {name : String}

/-- Another binding in the same context, or any in another one. -/
theorem insert {v : α} (h : a.Link id name v owner) {other : ContextId} {c : Context}
    (hc : a.context other = .ok c) {f : BindingState → BindingState}
    (hf : other = id → c.onTrial = false → c.current.binding? name = some (.bound v owner) →
      (f c.current).binding? name = some (.bound v owner)) :
    (a.insert other (c.mapCurrent f)).Link id name v owner := by
  obtain ⟨d, hd, htrial, hbinding, hparam, hne⟩ := h
  by_cases heq : other = id
  · subst heq
    rw [hc, Except.ok.injEq] at hd
    subst hd
    exact ⟨c.mapCurrent f, context_insert_self .., htrial, hf rfl htrial hbinding, hparam, hne⟩
  · exact ⟨d, by rwa [context_insert_of_ne _ heq], htrial, hbinding, hparam, hne⟩

/-- No update changes a link: what is decided there is only where to go on. -/
theorem update_type {v : TypeExpr} (h : a.Link id name v owner) (hu : a.Update b) :
    b.Link id name v owner := by
  have ⟨_, _, _, _, hparam, hne⟩ := h
  cases hu with
  | @type other target p merge actual c d u hc hd hu =>
    refine h.insert hc fun heq htrial hbinding => ?_
    subst heq
    by_cases hp : p.name = name
    · rw [htrial, hp, hbinding, typeDecision_link _ _ _ _ hparam hne] at hd
      cases hd
      exact absurd hu (by simp)
    · rw [BindingState.binding?_bind_of_ne _ hp]
      exact hbinding
  | mul hc _ => exact h.insert hc fun _ _ hbinding => hbinding

theorem update_mul {v : Multiplicity} (h : a.Link id name v owner) (hu : a.Update b) :
    b.Link id name v owner := by
  have ⟨_, _, _, _, hparam, hne⟩ := h
  cases hu with
  | type hc _ _ => exact h.insert hc fun _ _ hbinding => hbinding
  | @mul other target n actual c u hc hu =>
    refine h.insert hc fun heq htrial hbinding => ?_
    subst heq
    by_cases hn : n = name
    · rw [htrial, hn, hbinding, mulDecision_link _ hparam hne] at hu
      exact absurd hu (by simp)
    · rw [BindingState.binding?_bind_of_ne _ hn]
      exact hbinding

end Link

theorem Update.maxDepth_eq {a b : Arena} (h : a.Update b) : b.maxDepth = a.maxDepth := by
  cases h <;> rfl

/-- What one update keeps, all of them keep. -/
theorem Updates.induct {P : Arena → Prop} (hstep : ∀ a b, a.Update b → P a → P b) {a b : Arena}
    (h : a.Updates b) (ha : P a) : P b := by
  induction h with
  | refl => exact ha
  | tail _ hu ih => exact hstep _ _ hu ih

end Arena

end ScopedInference
