import ScopedInference.Proofs.Arena.ParentChain
import ScopedInference.Proofs.Arena.Sessions
import ScopedInference.Proofs.Registration.OwnerChain

/-!
# Closed arenas

An arena is closed if it has all contexts that its own contexts refer to, as parents or as owners of
bindings (`Closed`). New contexts refer to nothing else, registrations and replacements bind to
owners that are there, and everything else only moves states around; so sessions come to closed
arenas only (`Reachable.closed`).

In a closed arena nothing that follows from a call meets a missing context. So a call fails because
of a context that it is given itself, before anything has happened, or at the depth limit
(`FailsOn`, `reachable_failures`).
-/

namespace ScopedInference

/-! ### What contexts refer to -/

/-- The owners of all bindings of one kind are among some contexts. -/
def BindingState.Owned (α : Type) [Bindable α] (Q : ContextId → Prop) (s : BindingState) : Prop :=
  ∀ name (b : Binding α), s.binding? name = some b → Q b.owner

theorem BindingState.Owned.bind {α : Type} [Bindable α] {Q : ContextId → Prop} {s : BindingState}
    (h : s.Owned α Q) {b : Binding α} (hb : Q b.owner) (name : String) :
    (s.bind name b).Owned α Q := by
  intro other b' hb'
  by_cases heq : name = other
  · subst heq
    cases (binding?_bind_self s name b).symm.trans hb'
    exact hb
  · exact h other b' ((binding?_bind_of_ne s heq b).symm.trans hb')

theorem BindingState.owned_declaring {Q : ContextId → Prop} {id : ContextId} (hid : Q id)
    (params : List TypeParam) :
    (declaring id params).Owned TypeExpr Q ∧ (declaring id params).Owned Multiplicity Q := by
  induction params using List.reverseRecOn with
  | nil => exact ⟨nofun, nofun⟩
  | append_singleton params p ih =>
    rw [declaring, List.foldl_concat]
    exact ⟨ih.1.bind (b := .terminal (.param p) id) hid p.name, ih.2⟩

/-- The parent and the owners of all bindings are among some contexts. -/
structure Context.Within (Q : ContextId → Prop) (c : Context) : Prop where
  parent : ∀ p, c.parent = some p → Q p
  types : ∀ s ∈ c.states, s.Owned TypeExpr Q
  muls : ∀ s ∈ c.states, s.Owned Multiplicity Q

namespace Context.Within

variable {Q Q' : ContextId → Prop} {c d : Context}

theorem mono (h : c.Within Q) (hQ : ∀ id, Q id → Q' id) : c.Within Q' where
  parent p hp := hQ p (h.parent p hp)
  types s hs name b hb := hQ _ (h.types s hs name b hb)
  muls s hs name b hb := hQ _ (h.muls s hs name b hb)

theorem fresh {id : ContextId} {parent : Option ContextId} (hid : Q id)
    (hparent : ∀ p, parent = some p → Q p) (signature : Option Signature) :
    (Context.fresh id parent signature).Within Q where
  parent := hparent
  types s hs := by
    rw [List.mem_singleton.1 hs]
    exact (BindingState.owned_declaring hid _).1
  muls s hs := by
    rw [List.mem_singleton.1 hs]
    exact (BindingState.owned_declaring hid _).2

theorem rearranged (h : c.Within Q) (hd : c.Rearranged d) : d.Within Q where
  parent p hp := h.parent p (hd.parent.symm.trans hp)
  types t ht name b hb := by
    obtain ⟨s, hs, htypes, -⟩ := hd.states t ht
    exact h.types s hs name b ((congrArg (·[name]?) htypes).symm.trans hb)
  muls t ht name b hb := by
    obtain ⟨s, hs, -, hmuls⟩ := hd.states t ht
    exact h.muls s hs name b ((congrArg (·[name]?) hmuls).symm.trans hb)

/-- What becomes of the visible state is all that matters. -/
theorem mapCurrent (h : c.Within Q) {f : BindingState → BindingState}
    (htypes : (f c.current).Owned TypeExpr Q) (hmuls : (f c.current).Owned Multiplicity Q) :
    (c.mapCurrent f).Within Q where
  parent := h.parent
  types s hs := by
    rcases List.mem_append.1 hs with hs | hs
    · exact h.types s (List.mem_append_left _ hs)
    · rwa [List.mem_singleton.1 hs]
  muls s hs := by
    rcases List.mem_append.1 hs with hs | hs
    · exact h.muls s (List.mem_append_left _ hs)
    · rwa [List.mem_singleton.1 hs]

theorem bind_type (h : c.Within Q) {b : Binding TypeExpr} (hb : Q b.owner) (name : String) :
    (c.mapCurrent (·.bind name b)).Within Q :=
  h.mapCurrent ((h.types _ c.current_mem_states).bind hb name)
    (h.muls c.current c.current_mem_states)

theorem bind_mul (h : c.Within Q) {b : Binding Multiplicity} (hb : Q b.owner) (name : String) :
    (c.mapCurrent (·.bind name b)).Within Q :=
  h.mapCurrent (h.types c.current c.current_mem_states)
    ((h.muls _ c.current_mem_states).bind hb name)

end Context.Within

namespace Arena

def Has (a : Arena) (id : ContextId) : Prop := ∃ c, a.context id = .ok c

theorem has_insert {a : Arena} {id other : ContextId} {c : Context} (hid : a.Has id) :
    (a.insert id c).Has other ↔ a.Has other := by
  refine ⟨fun ⟨d, hd⟩ => ?_, exists_context_insert c⟩
  by_cases h : id = other
  · exact h ▸ hid
  · exact ⟨d, (context_insert_of_ne a h c).symm.trans hd⟩

/-- The contexts refer to each other and to no others. -/
def Closed (a : Arena) : Prop := ∀ id c, a.context id = .ok c → c.Within a.Has

theorem Closed.insert {a : Arena} (h : a.Closed) {id : ContextId} {c : Context}
    (hc : c.Within (a.insert id c).Has) : (a.insert id c).Closed := by
  intro other d hd
  by_cases heq : id = other
  · subst heq
    cases (context_insert_self a id c).symm.trans hd
    exact hc
  · exact (h other d ((context_insert_of_ne a heq c).symm.trans hd)).mono
      fun _ => exists_context_insert c

theorem Closed.congr {a b : Arena} (h : a.Closed) (hb : b.contexts = a.contexts) : b.Closed := by
  intro id c hc
  refine (h id c ((context_congr hb id).symm.trans hc)).mono fun other hother => ?_
  obtain ⟨d, hd⟩ := hother
  exact ⟨d, (context_congr hb other).trans hd⟩

end Arena

/-! ### Registrations -/

namespace Arena

open Registration

variable {a : Arena}

theorem Framed.has {b : Arena} (h : a.Framed b) {id : ContextId} : b.Has id ↔ a.Has id :=
  ⟨fun ⟨d, hd⟩ => h.of_context id d hd, fun ⟨c, hc⟩ => by
    obtain ⟨d, hd, -⟩ := h.context id c hc
    exact ⟨d, hd⟩⟩

theorem Closed.settled (h : a.Closed) {α : Type} [Bindable α] {id target : ContextId} {c : Context}
    {name : String} (hbind : ∀ v : α, (c.mapCurrent (·.bind name (.bound v target))).Within a.Has)
    (d : Decision α) : (Registration.settled a id target c name d).Closed := by
  unfold Registration.settled
  split
  · exact h
  · exact h.insert ((hbind _).mono fun _ => exists_context_insert _)

/-- What a registration leads to is about contexts that are there, and it binds to owners that are
there. -/
theorem closed_invariant (a : Arena) : Registration.Invariant
    (fun r => a.Framed r.arena ∧ r.arena.Closed) (fun q => a.Has q.context ∧ a.Has q.target)
    (fun e => e = .depthExceeded a.maxDepth) where
  leads := by
    rintro r q q' ⟨hframed, hclosed⟩ ⟨hid, htarget⟩ hleads
    cases hleads with
    | @equality id target template left right merge here there owner hhere hthere hparent =>
      have howner := hframed.has.1 ((hclosed target there hthere).parent owner hparent)
      refine ⟨?_, howner⟩
      rcases hup : here.parent with _ | up
      · exact howner
      · exact hframed.has.1 ((hclosed id here hhere).parent up hup)
    | @fact id target p v merge c d f hc hd hf =>
      refine ⟨?_, htarget⟩
      obtain ⟨e, owner, hb, hcases⟩ := typeDecision_forward hd hf
      have howner := hframed.has.1 ((hclosed id c hc).types _ c.current_mem_states p.name _ hb)
      rcases hcases with ⟨-, -, hmerge⟩ | ⟨-, rfl | rfl⟩
      · show a.Has f.context
        rwa [mergeDecision_forward hmerge f hf]
      · exact htarget
      · exact howner
    | @mulFact id target name v c f hc hf =>
      refine ⟨?_, htarget⟩
      obtain ⟨-, m, owner, hb, rfl | rfl⟩ := mulDecision_forward hf
      · exact htarget
      · exact hframed.has.1 ((hclosed id c hc).muls _ c.current_mem_states name _ hb)
    | _ => exact ⟨hid, htarget⟩
  record hr _ := hr
  type {r id c p v target merge d} hr hq hc hd :=
    ⟨hr.1.trans ((framed_passage merge).type hc hd), hr.2.settled
      (fun w => (hr.2 id c hc).bind_type (b := .bound w target) (hr.1.has.2 hq.2) p.name) d⟩
  mul {r id c name v target} hr hq hc :=
    ⟨hr.1.trans ((framed_passage true).mul hc rfl), hr.2.settled
      (fun w => (hr.2 id c hc).bind_mul (b := .bound w target) (hr.1.has.2 hq.2) name) _⟩
  here hr hq := .inl (hr.1.has.2 hq.1)
  there hr hq := .inl (hr.1.has.2 hq.2)
  depth hr := by rw [hr.1.maxDepth]

/-! ### Replacements -/

/-- A replacement stays among the contexts that are there, and binds to them. -/
theorem closed_replacing (a : Arena) (operation value : TypeExpr) :
    Replacing operation value
      (fun b => (∀ id, b.Has id ↔ a.Has id) ∧ b.maxDepth = a.maxDepth ∧ b.Closed) a.Has
      (fun _ _ => True) (fun e => e = .depthExceeded a.maxDepth) where
  found {b id c name t} hb _ hc ht _ :=
    ⟨trivial, fun _ => (hb.1 _).1 ((hb.2.2 id c hc).types _ c.current_mem_states name t ht)⟩
  rebind {b id c name} hb hid _ hc := by
    obtain ⟨hhas, hdepth, hclosed⟩ := hb
    refine ⟨fun other => ?_, hdepth, hclosed.insert ?_⟩
    · rw [has_insert ⟨c, hc⟩, hhas]
    · refine ((hclosed id c hc).bind_type (b := .terminal value id) ⟨c, hc⟩ name).mono ?_
      exact fun _ => exists_context_insert _
  here hb hid := .inl ((hb.1 _).2 hid)
  depth hb := by rw [hb.2.1]

/-! ### Failures -/

/-- The first of some contexts that is not there. -/
def firstMissing? (a : Arena) (ids : List ContextId) : Option ContextId :=
  ids.find? (· ∉ a.contexts)

theorem has_iff_mem {id : ContextId} : a.Has id ↔ id ∈ a.contexts := by
  simp only [Has, context_eq_ok_iff, Std.ExtTreeMap.mem_iff_isSome_getElem?,
    Option.isSome_iff_exists]

theorem firstMissing?_eq_none {ids : List ContextId} :
    a.firstMissing? ids = none ↔ ∀ id ∈ ids, a.Has id := by
  simp [firstMissing?, has_iff_mem]

theorem firstMissing?_single {id i : ContextId} :
    a.firstMissing? [id] = some i ↔ ¬ a.Has id ∧ id = i := by
  by_cases h : id ∈ a.contexts <;> simp [firstMissing?, has_iff_mem, h]

theorem firstMissing?_pair {id target i : ContextId} : a.firstMissing? [id, target] = some i
    ↔ ¬ a.Has id ∧ id = i ∨ a.Has id ∧ ¬ a.Has target ∧ target = i := by
  by_cases h : id ∈ a.contexts <;> by_cases h' : target ∈ a.contexts <;>
    simp [firstMissing?, has_iff_mem, h, h']

theorem context_missing {id : ContextId} (h : ¬ a.Has id) :
    a.context id = .error (.unknownContext id) := by
  rcases hc : a.context id with e | c
  · exact congrArg Except.error
      (context_error (E := (· = .unknownContext id)) (.inr rfl) hc)
  · exact absurd ⟨c, hc⟩ h

theorem context_bind_missing {α : Type} {id : ContextId} {r : Run} (h : ¬ r.arena.Has id)
    (f : Context → RunM α) : (RunM.context id >>= f) r = .error (.unknownContext id) r := by
  show EStateM.bind (RunM.context id) f r = _
  unfold EStateM.bind
  rw [RunM.context_apply, context_missing h]

/-- The context is looked up first, then the target. -/
theorem register_missing {q : Request}
    (hq : ∀ id f g target merge, q ≠ .function id f g target merge) {i : ContextId}
    (hi : a.firstMissing? [q.context, q.target] = some i) :
    a.register q = .error (.unknownContext i) { arena := a } := by
  rcases firstMissing?_pair.1 hi with ⟨hid, rfl⟩ | ⟨⟨c, hc⟩, htarget, rfl⟩
  · cases q with
    | type id template actual? target merge => exact context_bind_missing hid _
    | function id f g target merge => exact absurd rfl (hq id f g target merge)
    | mul id m v target => exact context_bind_missing hid _
  · cases q with
    | type id template actual? target merge =>
      exact (RunM.bind_of_eq_ok (RunM.context_eq_ok.2 ⟨hc, rfl⟩) _).trans
        (context_bind_missing htarget _)
    | function id f g target merge => exact absurd rfl (hq id f g target merge)
    | mul id m v target =>
      exact (RunM.bind_of_eq_ok (RunM.context_eq_ok.2 ⟨hc, rfl⟩) _).trans
        (context_bind_missing htarget _)

theorem replace_missing {id : ContextId} (h : ¬ a.Has id) (operation value : TypeExpr) :
    Arena.replace id operation value a = .error (.unknownContext id) a := by
  show EStateM.bind (MonadExcept.ofExcept (a.context id)) _ a = _
  rw [context_missing h]
  rfl

theorem seekOwner_error (ha : a.Closed) (operation : TypeExpr) : ∀ (n : Nat) (id : ContextId),
    a.Has id → ∀ e, a.seekOwner operation n id = .error e → e = .depthExceeded a.maxDepth
  | 0, _, _, e, he => (Except.error.inj he).symm
  | n + 1, id, ⟨c, hc⟩, e, he => by
    simp only [seekOwner, hc, bind, Except.bind] at he
    split at he
    · cases he
    · rename_i name b rest hmatches
      split at he
      · cases he
      · have hb := (BindingState.mem_boundTo.1 (hmatches ▸ List.mem_cons_self)).1
        exact seekOwner_error ha operation n b.owner
          ((ha id c hc).types _ c.current_mem_states name b hb) e he

theorem follow_error {α : Type} [Bindable α]
    (ha : ∀ id c, a.context id = .ok c → c.current.Owned α a.Has) (n : Nat) : ∀ (here : ContextId)
    (b : Binding α), a.Has b.owner → ∀ e, a.follow n here b = .error e →
      e = .depthExceeded a.maxDepth := by
  have hhop : ∀ here (b : Binding α), a.Has b.owner → ∃ next?, a.hop? here b = .ok next?
      ∧ ∀ next, next? = some next → a.Has next.owner := by
    rintro here b ⟨c, hc⟩
    unfold hop?
    split
    · exact ⟨none, rfl, nofun⟩
    split
    · exact ⟨none, rfl, nofun⟩
    · simp only [binding?, hc, bind, Except.bind, pure, Except.pure]
      exact ⟨_, rfl, fun next hnext => ha b.owner c hc _ next hnext⟩
  induction n with
  | zero =>
    intro here b hb e he
    obtain ⟨_ | next, hnext, -⟩ := hhop here b hb
    · rw [follow_of_hop_none hnext] at he
      cases he
    · rw [follow, hnext] at he
      exact (Except.error.inj he).symm
  | succ n ih =>
    intro here b hb e he
    obtain ⟨_ | next, hnext, howner⟩ := hhop here b hb
    · rw [follow_of_hop_none hnext] at he
      cases he
    · rw [follow_of_hop_some hnext] at he
      exact ih b.owner next (howner next rfl) e he

/-- How a call fails that is given some contexts: if one is missing, because of the first such one,
and otherwise at the depth limit alone. -/
structure FailsOn (a : Arena) (ids : List ContextId) (fails : InferError → Prop) : Prop where
  unknown : ∀ i, fails (.unknownContext i) ↔ a.firstMissing? ids = some i
  depth : a.firstMissing? ids = none → ∀ e, fails e → e = .depthExceeded a.maxDepth

theorem FailsOn.of_missing {ids : List ContextId} {fails : InferError → Prop}
    (hone : ∀ e e', fails e → fails e' → e = e')
    (hmissing : ∀ i, a.firstMissing? ids = some i → fails (.unknownContext i))
    (hdepth : (∀ id ∈ ids, a.Has id) → ∀ e, fails e → e = .depthExceeded a.maxDepth) :
    a.FailsOn ids fails where
  unknown i := by
    refine ⟨fun h => ?_, hmissing i⟩
    rcases hj : a.firstMissing? ids with _ | j
    · cases hdepth (firstMissing?_eq_none.1 hj) _ h
    · cases hone _ _ h (hmissing j hj)
      rfl
  depth h := hdepth (firstMissing?_eq_none.1 h)

theorem Closed.register (ha : a.Closed) {q : Request}
    (hq : ∀ id f g target merge, q ≠ .function id f g target merge) :
    a.FailsOn [q.context, q.target] (fun e => ∃ r, a.register q = .error e r)
    ∧ ∀ i r, a.register q = .error (.unknownContext i) r → r = { arena := a } := by
  have hfails : a.FailsOn [q.context, q.target] (fun e => ∃ r, a.register q = .error e r) := by
    refine .of_missing ?_ (fun i hi => ⟨_, register_missing hq hi⟩) fun hids e ⟨r, hr⟩ => ?_
    · rintro e e' ⟨r, hr⟩ ⟨r', hr'⟩
      cases hr.symm.trans hr'
      rfl
    · exact ((closed_invariant a).register (a.maxDepth + 1) q { arena := a }
        ⟨hids _ (by simp), hids _ (by simp)⟩ ⟨.refl a, ha⟩).of_eq_error hr |>.2
  refine ⟨hfails, fun i r hr => ?_⟩
  cases hr.symm.trans (register_missing hq ((hfails.unknown i).1 ⟨r, hr⟩))
  rfl

theorem Closed.replace (ha : a.Closed) (id : ContextId) (operation value : TypeExpr) :
    a.FailsOn [id] (fun e => ∃ b, Arena.replace id operation value a = .error e b)
    ∧ ∀ i b, Arena.replace id operation value a = .error (.unknownContext i) b → b = a := by
  have hmissing : ∀ i, a.firstMissing? [id] = some i →
      Arena.replace id operation value a = .error (.unknownContext i) a := by
    intro i hi
    obtain ⟨hid, rfl⟩ := firstMissing?_single.1 hi
    exact replace_missing hid operation value
  have hfails : a.FailsOn [id] (fun e => ∃ b, Arena.replace id operation value a = .error e b) := by
    refine .of_missing ?_ (fun i hi => ⟨a, hmissing i hi⟩) fun hids e ⟨b, hb⟩ => ?_
    · rintro e e' ⟨r, hr⟩ ⟨r', hr'⟩
      cases hr.symm.trans hr'
      rfl
    · exact ((closed_replacing a operation value).replace (hids id (by simp))
        ⟨fun _ => .rfl, rfl, ha⟩).of_eq_error hb |>.2
  refine ⟨hfails, fun i b hb => ?_⟩
  cases hb.symm.trans (hmissing i ((hfails.unknown i).1 ⟨b, hb⟩))
  rfl

theorem Closed.operationOwner (ha : a.Closed) (id : ContextId) (operation : TypeExpr) :
    a.FailsOn [id] (fun e => a.operationOwner id operation = .error e) := by
  refine .of_missing (fun e e' he he' => Except.error.inj (he.symm.trans he')) (fun i hi => ?_)
    fun hids => a.seekOwner_error ha operation _ id (hids id (by simp))
  obtain ⟨hid, rfl⟩ := firstMissing?_single.1 hi
  simp only [Arena.operationOwner, seekOwner, context_missing hid, bind, Except.bind]

theorem resolveParameter_fails {α : Type} [Bindable α]
    (ha : ∀ id c, a.context id = .ok c → c.current.Owned α a.Has) (id : ContextId) (name : String) :
    a.FailsOn [id] (fun e => a.resolveParameter id name = (.error e : Except _ (Option α))) := by
  refine .of_missing (fun e e' he he' => Except.error.inj (he.symm.trans he')) (fun i hi => ?_)
    fun hids e he => ?_
  · obtain ⟨hid, rfl⟩ := firstMissing?_single.1 hi
    simp only [resolveParameter, binding?, context_missing hid, bind, Except.bind]
  · obtain ⟨c, hc⟩ := hids id (by simp)
    simp only [resolveParameter, binding?, hc, bind, Except.bind, pure, Except.pure] at he
    split at he
    · cases he
    · rename_i b hb
      rcases hfollow : a.follow a.maxDepth id b with e' | v <;> rw [hfollow] at he
      · cases he
        exact follow_error ha _ id b (ha id c hc name b hb) e hfollow
      · cases he

/-! ### Sessions -/

theorem Closed.registered (ha : a.Closed) {q : Request}
    (hq : ∀ id f g target merge, q ≠ .function id f g target merge) : (a.registered q).Closed := by
  rcases hi : a.firstMissing? [q.context, q.target] with _ | i
  · have hids := firstMissing?_eq_none.1 hi
    unfold Arena.registered
    rw [← RunM.arena_final]
    exact ((closed_invariant a).register (a.maxDepth + 1) q { arena := a }
      ⟨hids _ (by simp), hids _ (by simp)⟩ ⟨.refl a, ha⟩).final.2
  · unfold Arena.registered RunM.after
    rw [show Registration.register (a.maxDepth + 1) q { arena := a } = _ from register_missing hq hi]
    exact ha

theorem Closed.replaced (ha : a.Closed) (id : ContextId) (operation value : TypeExpr) :
    (a.replaced id operation value).Closed := by
  by_cases hid : a.Has id
  · exact ((closed_replacing a operation value).replaced hid ⟨fun _ => .rfl, rfl, ha⟩).2.2
  · unfold Arena.replaced
    rw [replace_missing hid]
    exact ha

theorem closed_step {s t : Session} {call : Call} (h : s.Step call t) (hs : s.arena.Closed) :
    t.arena.Closed := by
  cases h with
  | unchanged ha => exact hs.congr ha
  | @fresh _ parent signature id b hb hparent =>
    refine (hs.congr hb).insert (.fresh ⟨_, context_insert_self ..⟩ (fun p hp => ?_) signature)
    obtain ⟨c, hc⟩ := hparent p hp
    exact exists_context_insert _ ⟨c, (context_congr hb p).trans hc⟩
  | rearranged hc hd =>
    exact hs.insert (((hs _ _ hc).rearranged hd).mono fun _ => exists_context_insert _)
  | registered hq => exact hs.registered hq
  | replaced => exact hs.replaced _ _ _

theorem Reachable.closed (ha : a.Reachable) : a.Closed := by
  obtain ⟨start, calls, hstart, rfl⟩ := ha
  refine Session.run_induction (P := fun s => s.arena.Closed) calls start
    (fun _ _ _ _ h => closed_step h) fun id c hc => ?_
  simp [context_eq_ok_iff, hstart] at hc

end Arena

/-- Sessions come to closed arenas only. There a call fails because of a context that it is given,
in which case nothing has happened, or at the depth limit. -/
theorem reachable_failures {a : Arena} (ha : a.Reachable) :
    a.Closed
    ∧ (∀ q : Request, (∀ id f g target merge, q ≠ .function id f g target merge) →
      a.FailsOn [q.context, q.target] (fun e => ∃ r, a.register q = .error e r)
      ∧ ∀ i r, a.register q = .error (.unknownContext i) r → r = { arena := a })
    ∧ (∀ id operation value,
      a.FailsOn [id] (fun e => ∃ b, Arena.replace id operation value a = .error e b)
      ∧ ∀ i b, Arena.replace id operation value a = .error (.unknownContext i) b → b = a)
    ∧ (∀ id operation, a.FailsOn [id] (fun e => a.operationOwner id operation = .error e))
    ∧ (∀ id name, a.FailsOn [id] fun e =>
      a.resolveParameter id name = (.error e : Except _ (Option TypeExpr)))
    ∧ ∀ id name, a.FailsOn [id] fun e =>
      a.resolveParameter id name = (.error e : Except _ (Option Multiplicity)) := by
  have hclosed := ha.closed
  exact ⟨hclosed, fun q hq => hclosed.register hq, hclosed.replace, hclosed.operationOwner,
    Arena.resolveParameter_fails fun id c hc => (hclosed id c hc).types _ c.current_mem_states,
    Arena.resolveParameter_fails fun id c hc => (hclosed id c hc).muls _ c.current_mem_states⟩

/-- In an arena of one context no actual type can be read in a second one. -/
theorem reachable_failures_target :
    let s := Session.run ⟨.withFirstId .preloaded 1, fun _ => []⟩ [.newContext ⟨1025⟩ none none]
    s.arena.firstMissing? [1, 2] = some 2
      ∧ ∃ r, s.arena.register (.type 1 (.param ⟨"T", .covariant⟩) (some (.atom "String")) 2 false)
          = .error (.unknownContext 2) r ∧ r.events = #[] := by
  intro s
  have hreachable : s.arena.Reachable := ⟨_, _, rfl, rfl⟩
  have hmissing : s.arena.firstMissing? [1, 2] = some 2 := by with_unfolding_all rfl
  have hregister := (reachable_failures hreachable).2.1
    (.type 1 (.param ⟨"T", .covariant⟩) (some (.atom "String")) 2 false) (by simp)
  obtain ⟨r, hr⟩ := (hregister.1.unknown 2).2 hmissing
  exact ⟨hmissing, r, hr, congrArg Run.events (hregister.2 2 r hr)⟩

end ScopedInference
