import ScopedInference.Proofs.Arena.Closed
import ScopedInference.Proofs.Registration.OpenBindings
import ScopedInference.Proofs.Registration.Passing

/-!
# Registrations in trial states

When the copy is dropped that something has been registered in, the arena is as it was before,
unless there has been an attempt in another context (`local_invariant`). In a trial state, facts
leave the context only where two concrete values meet of which another context owns the first one.
So for values without equalities nothing leaves it if and only if its own are all the values that
pass something on (`register_trial`).
-/

namespace ScopedInference

/-! ### What is restored -/

/-- Something has been tried or learnt in another context. -/
def Run.ActsElsewhere (r : Run) (id : ContextId) : Prop :=
  ∃ e ∈ r.events, ∃ other, e.context? = some other ∧ other ≠ id

namespace Run.ActsElsewhere

variable {r s : Run} {id : ContextId}

theorem mono (h : r.ActsElsewhere id) (hs : ∀ e ∈ r.events, e ∈ s.events) : s.ActsElsewhere id := by
  obtain ⟨e, he, other, hother⟩ := h
  exact ⟨e, hs e he, other, hother⟩

theorem record (h : r.ActsElsewhere id) (e : Event) : (r.record e).ActsElsewhere id :=
  h.mono fun _ => Array.mem_push_of_mem _

theorem of_event {e : Event} {other : ContextId} (he : e.context? = some other)
    (hother : other ≠ id) : (r.record e).ActsElsewhere id :=
  ⟨e, Array.mem_push_self, other, he, hother⟩

end Run.ActsElsewhere

theorem BindingState.eq_of_binding? {s t : BindingState}
    (htypes : ∀ name, t.binding? name = (s.binding? name : Option (Binding TypeExpr)))
    (hmuls : ∀ name, t.binding? name = (s.binding? name : Option (Binding Multiplicity)))
    (hlookahead : t.lookahead = s.lookahead) : t = s := by
  have htable : t.types = s.types := Std.ExtTreeMap.ext_getElem? htypes
  have htable' : t.muls = s.muls := Std.ExtTreeMap.ext_getElem? hmuls
  obtain ⟨types, muls, lookahead⟩ := t
  obtain rfl : types = s.types := htable
  obtain rfl : muls = s.muls := htable'
  obtain rfl : lookahead = s.lookahead := hlookahead
  rfl

theorem Context.Framed.eq_of_current {c d : Context} (h : c.Framed d)
    (hcurrent : d.current = c.current) : d = c := by
  obtain ⟨id, parent, scope, declared, current, below⟩ := d
  obtain ⟨rfl, rfl, rfl, rfl, rfl, -⟩ := h
  obtain rfl : current = c.current := hcurrent
  rfl

namespace Arena

theorem eq_of_context {a b : Arena} (hhierarchy : b.hierarchy = a.hierarchy)
    (hmaxDepth : b.maxDepth = a.maxDepth) (hnextId : b.nextId = a.nextId)
    (hblockEnd : b.blockEnd = a.blockEnd) (h : ∀ id, b.context id = a.context id) : b = a := by
  have hcontexts : b.contexts = a.contexts :=
    Std.ExtTreeMap.ext_getElem? fun id => Option.ext fun c => by
      rw [← context_eq_ok_iff, ← context_eq_ok_iff, h id]
  cases a
  cases b
  subst hhierarchy hmaxDepth hnextId hblockEnd hcontexts
  rfl

theorem Framed.exists_binding? {a b : Arena} (h : a.Framed b) {id : ContextId} {name : String}
    {t : Binding TypeExpr} (ht : a.binding? id name = .ok (some t)) :
    ∃ t' : Binding TypeExpr, b.binding? id name = .ok (some t') := by
  obtain ⟨c, hc, ht⟩ := binding?_eq_ok.1 ht
  obtain ⟨d, hd, hframed⟩ := h.context id c hc
  obtain ⟨t', ht', -⟩ := hframed.current.types name t ht
  exact ⟨t', binding?_eq_ok.2 ⟨d, hd, ht'⟩⟩

/-- If visible bindings are all that may have changed, and none has, nothing has. -/
theorem Framed.eq_of_binding? {a b : Arena} (h : a.Framed b)
    (htypes : ∀ id name, b.binding? id name
      = (a.binding? id name : Except InferError (Option (Binding TypeExpr))))
    (hmuls : ∀ id name, b.binding? id name
      = (a.binding? id name : Except InferError (Option (Binding Multiplicity)))) : b = a := by
  refine eq_of_context h.hierarchy h.maxDepth h.nextId h.blockEnd fun id => ?_
  by_cases hid : a.Has id
  · obtain ⟨c, hc⟩ := hid
    obtain ⟨d, hd, hframed⟩ := h.context id c hc
    have hcurrent : d.current = c.current := BindingState.eq_of_binding?
      (fun name => (binding?_of_context hd).1
        ((htypes id name).trans (binding?_of_context hc |>.2 rfl)))
      (fun name => (binding?_of_context hd).1
        ((hmuls id name).trans (binding?_of_context hc |>.2 rfl)))
      hframed.current.lookahead
    rw [hd, hc, hframed.eq_of_current hcurrent]
  · have hid' : ¬ b.Has id := fun ⟨d, hd⟩ => hid (h.of_context id d hd)
    rw [context_missing hid, context_missing hid']

/-- If nothing but the copy has changed, the arena is restored when it is dropped. -/
theorem Framed.dropStates_eq {a b : Arena} {id : ContextId} {c : Context}
    (hc : a.context id = .ok c) (h : (a.insert id c.pushCopy).Framed b)
    (hothers : ∀ other, other ≠ id → b.context other = a.context other) :
    ∃ s, b.dropStates id 1 = .ok ([s], a) := by
  obtain ⟨s, hs⟩ := h.dropStates_one
  refine ⟨s, hs.trans (congrArg (fun a => Except.ok ([s], a)) ?_)⟩
  refine eq_of_context h.hierarchy h.maxDepth h.nextId h.blockEnd fun other => ?_
  by_cases heq : id = other
  · subst heq
    rw [context_insert_self, hc]
  · rw [context_insert_of_ne _ heq, hothers other (Ne.symm heq)]

end Arena

namespace Registration

theorem context_settled_of_ne {α : Type} [Bindable α] {a : Arena} {id other : ContextId}
    {c : Context} (hc : a.context id = .ok c) (h : id ≠ other) (target : ContextId) (name : String)
    (d : Decision α) : (settled a id target c name d).context other = a.context other := by
  rw [settled_eq hc, Arena.context_insert_of_ne _ h]

/-- Unless something has been tried elsewhere, all other contexts are as they were. -/
def ActsLocally (a : Arena) (id : ContextId) (r : Run) : Prop :=
  r.ActsElsewhere id ∨ ∀ other, other ≠ id → r.arena.context other = a.context other

theorem ActsLocally.moveTo {a : Arena} {id here target : ContextId} {r : Run} {c : Context}
    {α : Type} [Bindable α] (hr : ActsLocally a id r) (hc : r.arena.context here = .ok c)
    {e : Event} (he : e.context? = some here) (name : String) (d : Decision α) :
    ActsLocally a id (r.moveTo (settled r.arena here target c name d) e) := by
  by_cases hhere : here = id
  · refine hr.imp (fun h => .mono h fun _ => Array.mem_push_of_mem _) fun hothers other hne => ?_
    exact (context_settled_of_ne hc (hhere ▸ Ne.symm hne) target name d).trans (hothers other hne)
  · exact .inl (.of_event he hhere)

theorem local_invariant (a : Arena) (id : ContextId) :
    Invariant (ActsLocally a id) (fun _ => True) (fun _ => True) where
  leads _ _ _ := trivial
  record hr _ := hr.imp_left (·.record _)
  type hr _ hc _ := hr.moveTo hc rfl _ _
  mul hr _ hc := hr.moveTo hc rfl _ _
  here _ _ := .inr trivial
  there _ _ := .inr trivial
  depth _ := trivial

theorem Invariant.leaves {I : Run → Prop} {Q : Request → Prop} {E : InferError → Prop}
    (hI : Invariant I Q E) {a : Arena} {q : Request} {s : Run} (hs : a.Leaves q s) (hq : Q q)
    (ha : I { arena := a }) : I s := by
  rw [← hs.final_eq]
  exact (hI.register (a.maxDepth + 1) q { arena := a } hq ha).final

end Registration

theorem Arena.exists_leaves (a : Arena) (q : Request) : ∃ s, a.Leaves q s := by
  unfold Leaves
  rcases a.register q with ⟨_, s⟩ | ⟨e, s⟩
  · exact ⟨s, .inl rfl⟩
  · exact ⟨s, .inr ⟨e, rfl⟩⟩

namespace Arena.Leaves

variable {a : Arena} {q : Request} {s : Run}

theorem framed (hs : a.Leaves q s) : a.Framed s.arena := by
  rw [← hs.final_eq, RunM.arena_final]
  exact Registration.register_framed (a.maxDepth + 1) q { arena := a }

/-- What is registered in a copy is gone when the copy is dropped, unless something has been tried in
another context. -/
theorem restored {id : ContextId} {c : Context} (hc : a.context id = .ok c)
    (hs : (a.insert id c.pushCopy).Leaves q s) :
    s.ActsElsewhere id ∨ ∃ t, s.arena.dropStates id 1 = .ok ([t], a) := by
  have hlocal := (Registration.local_invariant a id).leaves hs trivial
    (.inr fun _ hne => context_insert_of_ne a (Ne.symm hne) _)
  exact hlocal.imp_right (hs.framed.dropStates_eq hc)

end Arena.Leaves

/-! ### What stays in a context -/

/-- The request is about one context alone, and the actual type has no equality in it. -/
def Request.StaysIn (id : ContextId) : Request → Prop
  | .type here _ actual? target _ =>
    here = id ∧ target = id ∧ ∀ v, actual? = some v → v.EqualityFree
  | .function here _ actual target _ =>
    here = id ∧ target = id ∧ (TypeExpr.function actual).EqualityFree
  | .mul here _ _ target => here = id ∧ target = id

namespace Request.StaysIn

variable {id here target : ContextId} {template v : TypeExpr} {merge : Bool} {q : Request}

theorem context_eq (hq : q.StaysIn id) : q.context = id := by
  cases q <;> exact hq.1

theorem type (hv : v.EqualityFree) : (Request.type id template (some v) id merge).StaysIn id :=
  ⟨rfl, rfl, fun _ heq => Option.some.inj heq ▸ hv⟩

theorem of_type (hq : (Request.type here template (some v) target merge).StaysIn id) :
    here = id ∧ target = id ∧ v.EqualityFree :=
  ⟨hq.1, hq.2.1, hq.2.2 v rfl⟩

end Request.StaysIn

namespace Registration

theorem pairArguments_equalityFree {h : Hierarchy} (hfree : h.EqualityFree)
    {c d templates values : ClassType} (hd : (TypeExpr.classType d).EqualityFree)
    (hpair : pairArguments h c d = some (templates, values)) :
    (TypeExpr.classType values).EqualityFree := by
  rcases of_pairArguments hpair with ⟨-, rfl⟩ | ⟨-, rfl⟩
  · exact hd
  · exact viewedAs_induct hd fun v hv => hfree.view hv hd

/-- A trial in which nothing has been done elsewhere, and of whose bindings only the context's own
pass something on. -/
structure Confined (id : ContextId) (r : Run) : Prop where
  inside : ¬ r.ActsElsewhere id
  equalityFree : r.arena.hierarchy.EqualityFree
  onTrial : ∀ c, r.arena.context id = .ok c → c.onTrial = true
  own : ∀ c, r.arena.context id = .ok c → ∀ name e owner,
    c.current.binding? name = some (.bound e owner) → r.arena.hierarchy.PassesOn e → owner = id

theorem Confined.record {id : ContextId} {r : Run} (hr : Confined id r) {e : Event}
    (he : ∀ other, e.context? = some other → other = id) : Confined id (r.record e) where
  inside := by
    rintro ⟨e', he', other, hother, hne⟩
    rcases Array.mem_push.1 he' with he' | rfl
    · exact hr.inside ⟨e', he', other, hother, hne⟩
    · exact hne (he other hother)
  equalityFree := hr.equalityFree
  onTrial := hr.onTrial
  own := hr.own

/-- New bindings belong to the context itself. -/
theorem Confined.settled {id : ContextId} {r : Run} (hr : Confined id r) {c : Context} {α : Type}
    [Bindable α] (hc : r.arena.context id = .ok c) (name : String) (d : Decision α)
    (hbind : ∀ (v : α) other e owner,
      (c.current.bind name (.bound v id)).binding? other = some (.bound (e : TypeExpr) owner) →
      owner = id ∨ c.current.binding? other = some (.bound e owner)) :
    Confined id { r with arena := Registration.settled r.arena id id c name d } := by
  rw [settled_eq hc]
  refine ⟨hr.inside, hr.equalityFree, fun c' hc' => ?_, fun c' hc' other e owner hb hpasses => ?_⟩
  · rw [Arena.context_insert_self] at hc'
    cases hc'
    exact hr.onTrial c hc
  · rw [Arena.context_insert_self] at hc'
    cases hc'
    rcases hv : d.value? with _ | v
    · simp only [Context.mapCurrent, hv, Option.elim_none] at hb
      exact hr.own c hc other e owner hb hpasses
    · simp only [Context.mapCurrent, hv, Option.elim_some] at hb
      rcases hbind v other e owner hb with howner | hb
      · exact howner
      · exact hr.own c hc other e owner hb hpasses

/-- What a request in a confined run leads to is about the same context. -/
theorem Confined.leads {id : ContextId} {r : Run} (hr : Confined id r) {q q' : Request}
    (hq : q.StaysIn id) (hleads : r.arena.Leads q q') : q'.StaysIn id := by
  cases hleads with
  | equality => exact absurd rfl hq.of_type.2.2.of_operation.1
  | equated => exact hq
  | left =>
    obtain ⟨rfl, rfl, hfree⟩ := hq.of_type
    exact .type hfree.of_operation.2.1
  | right =>
    obtain ⟨rfl, rfl, hfree⟩ := hq.of_type
    exact .type hfree.of_operation.2.2
  | column hmem =>
    obtain ⟨rfl, rfl, hfree⟩ := hq.of_type
    exact .type (hfree.of_relation _ (List.mem_of_find?_eq_some (mem_align hmem).2))
  | function => exact hq.of_type
  | mulArgument => exact ⟨hq.1, hq.2.1⟩
  | argument hpair hmem =>
    obtain ⟨rfl, rfl, hfree⟩ := hq.of_type
    exact .type ((pairArguments_equalityFree hr.equalityFree hfree hpair).of_classType _
      (List.of_mem_zip hmem).2)
  | functionArgument hpair hmem =>
    obtain ⟨hid, htarget, hfree⟩ := hq.of_type
    exact ⟨hid, htarget, (pairArguments_equalityFree hr.equalityFree hfree hpair).of_classType _
      (List.of_mem_zip hmem).2⟩
  | position hmem =>
    obtain ⟨rfl, rfl, hfree⟩ := hq
    exact .type (hfree.of_function _ (of_mem_positions hmem).2)
  | positionMul => exact ⟨hq.1, hq.2.1⟩
  | fact hc hd hf =>
    -- In a trial a fact follows from two concrete values only. It goes to the owner of the first
    -- one, which passes something on and so is the context's own.
    obtain ⟨rfl, rfl, hfree⟩ := hq.of_type
    obtain ⟨e, owner, hb, ⟨-, -, hmerge⟩ | ⟨htrial, -⟩⟩ := typeDecision_forward hd hf
    · rw [mergeDecision_forward hmerge _ hf,
        hr.own _ hc _ _ _ hb (mergeDecision_passesOn hmerge hf)]
      exact .type (mergeDecision_equalityFree hr.equalityFree hfree hmerge hf)
    · rw [hr.onTrial _ hc] at htrial
      cases htrial
  | mulFact hc hf =>
    obtain ⟨rfl, rfl⟩ := hq
    have htrial := (mulDecision_forward hf).1
    rw [hr.onTrial _ hc] at htrial
    cases htrial

theorem confined_invariant (id : ContextId) :
    Invariant (Confined id) (Request.StaysIn id) (fun _ => True) where
  leads hr hq hleads := hr.leads hq hleads
  record hr he := hr.record fun other hother => by
    obtain ⟨q, hq, rfl⟩ := he other hother
    exact hq.context_eq
  type {r here c p v target merge d} hr hq hc _ := by
    obtain ⟨rfl, rfl, -⟩ := hq
    refine (hr.settled hc p.name d fun w other e owner hb => ?_).record fun _ h =>
      (Option.some.inj h).symm
    by_cases hname : p.name = other
    · subst hname
      rw [BindingState.binding?_bind_self] at hb
      cases hb
      exact .inl rfl
    · exact .inr ((BindingState.binding?_bind_of_ne _ hname _).symm.trans hb)
  mul {r here c name v target} hr hq hc := by
    obtain ⟨rfl, rfl⟩ := hq
    exact (hr.settled (α := Multiplicity) hc name _ fun _ _ _ _ hb => .inr hb).record fun _ h =>
      (Option.some.inj h).symm
  here _ _ := .inr trivial
  there _ _ := .inr trivial
  depth _ := trivial

/-! ### What leaves a context -/

open RunM

/-- Between the first of some requests and the end, the mark of the end aside. -/
theorem first_passage {Rel : Run → Run → Prop} (hP : ∀ merge, Passage merge Rel)
    (hmark : ∀ r, Rel r (r.record .outdent)) (n : Nat) (q : Request) (l : List Request) (r : Run) :
    Rel ((register n q).final (r.record .indent)) ((forwardAll (register n) (q :: l)).final r) := by
  have hrest := @Congruence.forM true _ (hP true).congruence _ (register n) (register n) l
    fun q _ => register_passage hP n q
  show Rel _ ((RunM.nested ((q :: l).forM (register n))).final r)
  rw [final_nested]
  refine (hP true).trans ?_ (hmark _)
  show Rel _ ((register n q >>= fun _ => l.forM (register n)).final (r.record .indent))
  rw [final_bind]
  rcases hq : register n q (r.record .indent) with ⟨x, s⟩ | ⟨e, s⟩
  · rw [final_of_eq_ok hq]
    exact hrest s
  · rw [final_of_eq_error hq]
    exact (hP true).refl s

/-- In contexts that are there, an attempt is on record. -/
theorem register_tries {n : Nat} {id target : ContextId} {template v : TypeExpr} {merge : Bool}
    {r : Run} (hid : r.arena.Has id) (htarget : r.arena.Has target) :
    .trying template (some v) id target
      ∈ ((register (n + 1) (.type id template (some v) target merge)).final r).events := by
  obtain ⟨here, hhere⟩ := hid
  obtain ⟨there, hthere⟩ := htarget
  have hkept := (events_passage merge).congruence
  have hrecur : ∀ q : Request, q.InMode merge → ∀ r, ∀ e ∈ r.events,
      e ∈ ((register n q).final r).events := fun q _ => register_passage events_passage n q
  have hequality := @Congruence.equality merge _ hkept (register n) (register n) hrecur here there v
  have htemplate := @Congruence.template merge _ hkept (register n) (register n) hrecur id template v
    target fun f g _ _ => register_passage events_passage n (.function id f g target false)
  have hrun : (register (n + 1) (.type id template (some v) target merge)).final r
      = (do
        stepEquality (register n) here there v merge
        stepTemplate (register n) id template v target merge : RunM Unit).final
          (r.record (.trying template (some v) id target)) := by
    simp only [register, step, stepType, final]
    rw [bind_of_eq_ok (context_eq_ok.2 ⟨hhere, rfl⟩), bind_of_eq_ok (context_eq_ok.2 ⟨hthere, rfl⟩)]
    rfl
  rw [hrun]
  exact (events_passage merge).bind (hequality _) (fun _ s _ => htemplate s) _ Array.mem_push_self

/-- In a trial, what follows from two concrete values is registered, the first fact in the arena as
it is everywhere else. -/
theorem first_forward {a : Arena} {id : ContextId} {c : Context} {e v : TypeExpr}
    {owner : ContextId} {name : String} {d : Decision TypeExpr}
    (hb : c.current.binding? name = some (.bound e owner)) (he : e.isConcrete) (hv : v.isConcrete)
    (hd : mergeDecision a.hierarchy ⟨name, .covariant⟩ owner e v = .ok d) (hsome : d.forwards ≠ [])
    {Rel : Run → Run → Prop} (hP : ∀ merge, Passage merge Rel)
    (hmark : ∀ r, Rel r (r.record .outdent)) {s : Run}
    (hs : (a.insert id c.pushCopy).Leaves
      (.type id (.param ⟨name, .covariant⟩) (some v) id false) s) :
    ∃ f ∈ d.forwards, ∃ r : Run, r.arena.Has id
      ∧ (∀ other, other ≠ id → r.arena.context other = a.context other)
      ∧ Rel ((register a.maxDepth (.type f.context f.template (some f.value) id false)).final r)
        s := by
  have hc' : (a.insert id c.pushCopy).context id = .ok c.pushCopy := Arena.context_insert_self ..
  have hd' : typeDecision a.hierarchy id id ⟨name, .covariant⟩ true false
      (c.current.binding? name) v = .ok d := by
    rw [hb, typeDecision_concrete he hv, hd]
  obtain ⟨r, hr, happly⟩ := register_param_apply (n := a.maxDepth)
    (r := { arena := a.insert id c.pushCopy }) (p := ⟨name, .covariant⟩) hc' hc'
    (.inr (TypeExpr.ne_equality hv)) hd'
  obtain ⟨f, fs, hforwards⟩ := List.exists_cons_of_ne_nil hsome
  refine ⟨f, hforwards ▸ List.mem_cons_self, r.record .indent, ?_, fun other hne => ?_, ?_⟩
  · show r.arena.Has id
    rw [hr, settled_eq hc']
    exact ⟨_, Arena.context_insert_self ..⟩
  · show r.arena.context other = a.context other
    rw [hr, context_settled_of_ne hc' (Ne.symm hne), Arena.context_insert_of_ne a (Ne.symm hne)]
  · rw [← hs.final_eq]
    have hfinal : (register ((a.insert id c.pushCopy).maxDepth + 1)
          (.type id (.param ⟨name, .covariant⟩) (some v) id false)).final
          { arena := a.insert id c.pushCopy }
        = (forwardAll (register a.maxDepth) (d.forwards.map fun f =>
            .type f.context f.template (some f.value) id false)).final r := by
      unfold final
      rw [← happly]
      rfl
    rw [hfinal, hforwards]
    exact first_passage hP hmark a.maxDepth _ _ r

variable {a : Arena} {id owner : ContextId} {c : Context} {name : String} {s : Run}

/-- A value of another context that passes something on: all its arguments meet the top type. -/
theorem exists_actsElsewhere (howner : a.Has owner) (hne : owner ≠ id)
    (hdepth : 1 ≤ a.maxDepth) {e : TypeExpr}
    (hb : c.current.binding? name = some (.bound e owner)) (hpasses : a.hierarchy.PassesOn e) :
    ∃ v : TypeExpr, v.EqualityFree ∧ ∀ s, (a.insert id c.pushCopy).Leaves
      (.type id (.param ⟨name, .covariant⟩) (some v) id false) s → s.ActsElsewhere id := by
  obtain ⟨t, d, rfl, hsome, hd⟩ := exists_mergeDecision_forward hpasses owner name
  refine ⟨.classType (ClassType.mapTypes t fun _ => .top), .classType fun u hu => ?_,
    fun s hs => ?_⟩
  · obtain ⟨_, -, rfl⟩ := List.mem_map.1 hu
    exact .top
  obtain ⟨f, hf, r, hid, hothers, hkept⟩ :=
    first_forward hb rfl rfl hd hsome events_passage (fun _ _ => Array.mem_push_of_mem _) hs
  obtain ⟨n, hn⟩ : ∃ n, a.maxDepth = n + 1 := ⟨a.maxDepth - 1, by omega⟩
  have hcontext := mergeDecision_forward hd f hf
  refine ⟨.trying f.template (some f.value) f.context id, hkept _ ?_, f.context, rfl, hcontext ▸ hne⟩
  rw [hn]
  refine register_tries ?_ hid
  obtain ⟨there, hthere⟩ := howner
  exact ⟨there, by rw [hcontext, hothers owner hne, hthere]⟩

/-- A value of another context with an argument that is unbound there: the argument meets the top
type. -/
theorem exists_learnt_elsewhere (hne : owner ≠ id) (hdepth : 1 ≤ a.maxDepth) {t : ClassType}
    {q : TypeParam} (hb : c.current.binding? name = some (.bound (TypeExpr.classType t) owner))
    (hhead : a.hierarchy.KeepsClass t.head)
    (hfunction : a.hierarchy.isFunctionClass t.head = false) (hq : .param q ∈ t.types)
    (hunbound : a.binding? owner q.name = .ok (none : Option (Binding TypeExpr)))
    (hs : (a.insert id c.pushCopy).Leaves (.type id (.param ⟨name, .covariant⟩)
      (some (.classType (ClassType.mapTypes t (TypeExpr.topFor q)))) id false) s) :
    ∃ b : Binding TypeExpr, s.arena.binding? owner q.name = .ok (some b) := by
  obtain ⟨d, hd, hsome, hall⟩ := mergeDecision_topFor hhead hfunction hq owner name
  obtain ⟨f, hf, r, ⟨here, hhere⟩, hothers, hframed⟩ :=
    first_forward hb rfl rfl hd hsome framed_passage (fun r => .refl r.arena) hs
  obtain ⟨n, hn⟩ : ∃ n, a.maxDepth = n + 1 := ⟨a.maxDepth - 1, by omega⟩
  obtain ⟨there, hthere, hnone⟩ := Arena.binding?_eq_ok.1 hunbound
  rw [← hothers owner hne] at hthere
  have hdecision : typeDecision r.arena.hierarchy owner id q there.onTrial false
      (there.current.binding? q.name) .top = .ok { value? := some .top } := by
    rw [hnone]
    rfl
  obtain ⟨s', hs', hdecided⟩ := register_param_decided (n := n) hthere hhere rfl hdecision rfl
  rw [hall f hf, hn, final_of_eq_ok hs'] at hframed
  exact hframed.exists_binding? hdecided.binding?_eq

end Registration

/-! ### Isolation -/

namespace Arena

/-- All values of the context that pass something on are its own. -/
def OwnsPassing (a : Arena) (id : ContextId) : Prop :=
  ∀ name e owner, a.binding? id name = .ok (some (.bound e owner)) → a.hierarchy.PassesOn e →
    owner = id

theorem Closed.has_owner {a : Arena} (h : a.Closed) {id owner : ContextId} {name : String}
    {e : TypeExpr} (hb : a.binding? id name = .ok (some (.bound e owner))) : a.Has owner := by
  obtain ⟨c, hc, hb⟩ := binding?_eq_ok.1 hb
  exact (h id c hc).types _ c.current_mem_states name _ hb

theorem binding?_insert_of_ne {α : Type} [Bindable α] (a : Arena) {id other : ContextId}
    (h : id ≠ other) (c : Context) (name : String) :
    (a.insert id c).binding? (α := α) other name = a.binding? other name := by
  rw [binding?_insert, if_neg h.symm]

end Arena

namespace Registration

variable {a : Arena} {id : ContextId} {c : Context}

/-- Nothing without an equality leaves a trial in which the context owns what passes something
on. -/
theorem not_actsElsewhere (hc : a.context id = .ok c) (hfree : a.hierarchy.EqualityFree)
    (hown : a.OwnsPassing id) {template v : TypeExpr} (hv : v.EqualityFree) {merge : Bool} {s : Run}
    (hs : (a.insert id c.pushCopy).Leaves (.type id template (some v) id merge) s) :
    ¬ s.ActsElsewhere id := by
  have hcopy : ∀ d, (a.insert id c.pushCopy).context id = .ok d → d = c.pushCopy := fun d hd => by
    rw [Arena.context_insert_self] at hd
    exact (Except.ok.inj hd).symm
  refine ((confined_invariant id).leaves hs (.type hv) ⟨?_, hfree, ?_, ?_⟩).inside
  · rintro ⟨e, he, -⟩
    simp at he
  · rintro d hd
    rw [hcopy d hd]
    rfl
  · rintro d hd name e owner hb hpasses
    rw [hcopy d hd] at hb
    exact hown name e owner (Arena.binding?_eq_ok.2 ⟨c, hc, hb⟩) hpasses

end Registration

/-- What is registered in a trial state is gone when the state is dropped, unless something has been
tried in another context. For values without equalities that never happens if and only if the
context itself owns each of its values that passes something on. A parameter that a context does
not know, as an argument of a value that the context owns in another one, is known to it after some
trial there. -/
theorem register_trial {a a' : Arena} (ha : a.Reachable) {id : ContextId}
    (hpush : a.pushCopy id = .ok a') :
    (∀ q s, a'.Leaves q s → s.ActsElsewhere id ∨ ∃ t, s.arena.dropStates id 1 = .ok ([t], a))
    ∧ (a.hierarchy.EqualityFree → 1 ≤ a.maxDepth →
      ((∀ template v merge s, v.EqualityFree →
          a'.Leaves (.type id template (some v) id merge) s →
          ¬ s.ActsElsewhere id ∧ ∃ t, s.arena.dropStates id 1 = .ok ([t], a))
        ↔ a.OwnsPassing id))
    ∧ ∀ name t owner q, 1 ≤ a.maxDepth → owner ≠ id →
      a.binding? id name = .ok (some (.bound (TypeExpr.classType t) owner)) →
      (TypeExpr.classType t).EqualityFree → a.hierarchy.KeepsClass t.head →
      a.hierarchy.isFunctionClass t.head = false → .param q ∈ t.types →
      a.binding? owner q.name = .ok (none : Option (Binding TypeExpr)) →
      ∃ v : TypeExpr, v.EqualityFree ∧ ∀ s,
        a'.Leaves (.type id (.param ⟨name, .covariant⟩) (some v) id false) s →
        ∃ t b, s.arena.dropStates id 1 = .ok ([t], b)
          ∧ ∃ known : Binding TypeExpr, b.binding? owner q.name = .ok (some known) := by
  obtain ⟨c, hc, rfl⟩ := Arena.pushCopy_eq_ok.1 hpush
  have hrestored := fun q s (hs : (a.insert id c.pushCopy).Leaves q s) => hs.restored hc
  refine ⟨hrestored, fun hfree hdepth => ⟨fun h name e owner hb hpasses => ?_,
    fun hown template v merge s hv hs => ?_⟩, ?_⟩
  · by_contra hne
    obtain ⟨c', hc', hb'⟩ := Arena.binding?_eq_ok.1 hb
    obtain rfl : c = c' := Except.ok.inj (hc.symm.trans hc')
    obtain ⟨v, hv, helsewhere⟩ :=
      Registration.exists_actsElsewhere (ha.closed.has_owner hb) hne hdepth hb' hpasses
    obtain ⟨s, hs⟩ := Arena.exists_leaves (a.insert id c.pushCopy)
      (.type id (.param ⟨name, .covariant⟩) (some v) id false)
    exact (h _ v false s hv hs).1 (helsewhere s hs)
  · have hinside := Registration.not_actsElsewhere hc hfree hown hv hs
    exact ⟨hinside, (hrestored _ s hs).resolve_left hinside⟩
  · rintro name t owner q hdepth hne hb hfree hkeeps hfunction hq hunknown
    obtain ⟨c', hc', hb'⟩ := Arena.binding?_eq_ok.1 hb
    obtain rfl : c = c' := Except.ok.inj (hc.symm.trans hc')
    refine ⟨_, hfree.mapTypes_topFor q, fun s hs => ?_⟩
    obtain ⟨known, hknown⟩ := Registration.exists_learnt_elsewhere hne hdepth hb' hkeeps hfunction
      hq hunknown hs
    obtain ⟨t, ht⟩ := hs.framed.dropStates_one
    exact ⟨t, _, ht, known, by rw [Arena.binding?_insert_of_ne _ hne.symm, hknown]⟩

/-- Lists of elements of a type. -/
def TypeExpr.list (t : TypeExpr) : TypeExpr := .classType ⟨"List", [t], []⟩

theorem TypeExpr.EqualityFree.list {t : TypeExpr} (ht : t.EqualityFree) : t.list.EqualityFree :=
  .classType fun _ hu => List.mem_singleton.1 hu ▸ ht

/-- A context learns of a list whose argument belongs to the context above. -/
def callsInherited : List Call :=
  [.newContext ⟨1025⟩ none none, .newContext ⟨1025⟩ (some 1) none,
    .register 2 (.param ⟨"T", .covariant⟩) (some (.list (.param ⟨"X", .covariant⟩))) 1 false]

theorem Hierarchy.equalityFree_preloaded : preloaded.EqualityFree := by
  intro name d hd g hg
  rcases generalizations_preloaded hd hg with ⟨-, rfl⟩ | ⟨-, -, rfl⟩
  · exact .classType (by simp)
  · exact .classType (by simpa using .param _)

/-- All trials in the context above are undone, but one in the context below tells it what the
argument is. -/
theorem register_trial_inherited :
    let a := (Session.run ⟨.withFirstId .preloaded 1, fun _ => []⟩ callsInherited).arena
    (∃ a', a.pushCopy 1 = .ok a' ∧ ∀ template v merge s, v.EqualityFree →
      a'.Leaves (.type 1 template (some v) 1 merge) s →
      ∃ t, s.arena.dropStates 1 1 = .ok ([t], a))
    ∧ a.binding? 1 "X" = .ok (none : Option (Binding TypeExpr))
    ∧ ∃ a', a.pushCopy 2 = .ok a' ∧ ∃ v : TypeExpr, v.EqualityFree ∧ ∀ s,
      a'.Leaves (.type 2 (.param ⟨"T", .covariant⟩) (some v) 2 false) s →
      ∃ t b, s.arena.dropStates 2 1 = .ok ([t], b)
        ∧ ∃ known : Binding TypeExpr, b.binding? 1 "X" = .ok (some known) := by
  intro a
  have hreachable : a.Reachable := ⟨_, _, rfl, rfl⟩
  have hhierarchy : a.hierarchy = .preloaded := by with_unfolding_all rfl
  have hdepth : a.maxDepth = 256 := by with_unfolding_all rfl
  refine ⟨?_, ?_⟩
  · obtain ⟨a', hpush⟩ : ∃ a', a.pushCopy 1 = .ok a' := ⟨_, by with_unfolding_all rfl⟩
    have hc : a.context 1 = .ok (.fresh 1 none none) := by with_unfolding_all rfl
    have hown : a.OwnsPassing 1 := by
      intro name e owner hb _
      obtain ⟨c, hc', hb⟩ := Arena.binding?_eq_ok.1 hb
      cases hc.symm.trans hc'
      exact (BindingState.owned_declaring (Q := (· = 1)) rfl []).1 name _ hb
    have htrials := ((register_trial hreachable hpush).2.1
      (hhierarchy ▸ Hierarchy.equalityFree_preloaded) (by omega)).2 hown
    exact ⟨a', hpush, fun template v merge s hv hs => (htrials template v merge s hv hs).2⟩
  · have hunknown : a.binding? 1 "X" = .ok (none : Option (Binding TypeExpr)) := by
      with_unfolding_all rfl
    obtain ⟨a', hpush⟩ : ∃ a', a.pushCopy 2 = .ok a' := ⟨_, by with_unfolding_all rfl⟩
    have hkeeps : Hierarchy.preloaded.KeepsClass "List" :=
      .inr ⟨by decide, by with_unfolding_all rfl⟩
    have hfunction : Hierarchy.preloaded.isFunctionClass "List" = false := by
      with_unfolding_all rfl
    have hbound : a.binding? 2 "T" = .ok (some (.bound
        (TypeExpr.list (.param ⟨"X", .covariant⟩)) 1)) := by with_unfolding_all rfl
    have htrial := (register_trial hreachable hpush).2.2 "T" _ 1 ⟨"X", .covariant⟩ (by omega)
      (by decide) hbound (.list (.param _)) (hhierarchy ▸ hkeeps) (hhierarchy ▸ hfunction)
      List.mem_cons_self hunknown
    exact ⟨hunknown, a', hpush, htrial⟩

/-- A list of strings in the trial, and the context above has learnt of the strings. -/
theorem register_trial_strings :
    ¬ ∀ (a a' : Arena) (id : ContextId) (template v : TypeExpr) (merge : Bool) (r : Run),
      a.Reachable → v.EqualityFree → a.pushCopy id = .ok a' →
      a'.register (.type id template (some v) id merge) = .ok () r →
      ∃ states, r.arena.dropStates id 1 = .ok (states, a) := by
  intro h
  obtain ⟨a, a', r, hreachable, hunknown, hpush, hr, hknown⟩ : ∃ a a' r,
      Arena.Reachable a ∧ a.binding? 1 "X" = .ok (none : Option (Binding TypeExpr))
        ∧ a.pushCopy 2 = .ok a'
        ∧ a'.register (.type 2 (.param ⟨"T", .covariant⟩)
          (some (.list (.atom "String"))) 2 false) = .ok () r
        ∧ ((r.arena.dropStates 2 1).bind (·.2.binding? 1 "X"))
          = .ok (some (.bound (TypeExpr.atom "String") 2)) :=
    ⟨_, _, _, ⟨⟨.withFirstId .preloaded 1, fun _ => []⟩, callsInherited, rfl, rfl⟩,
      by with_unfolding_all rfl, by with_unfolding_all rfl, by with_unfolding_all rfl,
      by with_unfolding_all rfl⟩
  obtain ⟨states, hdrop⟩ := h a a' 2 _ _ false r hreachable
    (.list (.classType (by simp))) hpush hr
  rw [hdrop] at hknown
  cases hunknown.symm.trans hknown

end ScopedInference
