import ScopedInference.Arena.Trials
import ScopedInference.Proofs.Registration.Update

/-!
# What registrations leave alone

A registration binds parameters in visible states, and that is all it does (`Framed`): the tree of
contexts, the states under the visible ones, lookahead marks and terminal bindings are as before,
also after a failure in the middle. So whatever is registered anywhere while a copy is on top of a
context's stack, the context is restored when the copy is dropped (`register_frame`).
-/

namespace ScopedInference

/-! ### States -/

namespace BindingState

/-- Bindings of one kind are added, and replaced but for the terminal ones. -/
def Extends (α : Type) [Bindable α] (s t : BindingState) : Prop :=
  ∀ name (b : Binding α), s.binding? name = some b →
    ∃ b' : Binding α, t.binding? name = some b' ∧ (b.isTerminal → b' = b)

structure Framed (s t : BindingState) : Prop where
  types : s.Extends TypeExpr t
  muls : s.Extends Multiplicity t
  lookahead : t.lookahead = s.lookahead

section

variable {α : Type} [Bindable α] {s t u : BindingState}

theorem Extends.refl (s : BindingState) : s.Extends α s := fun _ b hb => ⟨b, hb, fun _ => rfl⟩

theorem Extends.trans (h : s.Extends α t) (h' : t.Extends α u) : s.Extends α u := by
  intro name b hb
  obtain ⟨b', hb', heq⟩ := h name b hb
  obtain ⟨b'', hb'', heq'⟩ := h' name b' hb'
  refine ⟨b'', hb'', fun hterminal => ?_⟩
  rw [heq hterminal] at heq'
  exact heq' hterminal

theorem extends_bind {name : String}
    (h : ∀ b : Binding α, s.binding? name = some b → b.isTerminal = false) (b : Binding α) :
    s.Extends α (s.bind name b) := by
  intro other b' hb'
  by_cases heq : name = other
  · subst heq
    refine ⟨b, binding?_bind_self .., fun hterminal => ?_⟩
    rw [h b' hb'] at hterminal
    cases hterminal
  · exact ⟨b', (binding?_bind_of_ne s heq b).trans hb', fun _ => rfl⟩

end

namespace Framed

variable {s t u : BindingState}

theorem refl (s : BindingState) : s.Framed s := ⟨.refl s, .refl s, rfl⟩

theorem trans (h : s.Framed t) (h' : t.Framed u) : s.Framed u :=
  ⟨h.types.trans h'.types, h.muls.trans h'.muls, h'.lookahead.trans h.lookahead⟩

theorem bind_type {name : String}
    (h : ∀ b : Binding TypeExpr, s.binding? name = some b → b.isTerminal = false)
    (b : Binding TypeExpr) : s.Framed (s.bind name b) :=
  ⟨extends_bind h b, .refl s, lookahead_bind s name b⟩

theorem bind_mul {name : String}
    (h : ∀ b : Binding Multiplicity, s.binding? name = some b → b.isTerminal = false)
    (b : Binding Multiplicity) : s.Framed (s.bind name b) :=
  ⟨.refl s, extends_bind h b, lookahead_bind s name b⟩

end Framed

end BindingState

/-! ### Contexts and arenas -/

/-- The same but for the visible state, where bindings that are not terminal may change. -/
structure Context.Framed (c d : Context) : Prop where
  id : d.id = c.id
  parent : d.parent = c.parent
  scope : d.scope = c.scope
  declared : d.declared = c.declared
  below : d.below = c.below
  current : c.current.Framed d.current

namespace Context.Framed

variable {c d e : Context}

theorem refl (c : Context) : c.Framed c := ⟨rfl, rfl, rfl, rfl, rfl, .refl _⟩

theorem trans (h : c.Framed d) (h' : d.Framed e) : c.Framed e where
  id := h'.id.trans h.id
  parent := h'.parent.trans h.parent
  scope := h'.scope.trans h.scope
  declared := h'.declared.trans h.declared
  below := h'.below.trans h.below
  current := h.current.trans h'.current

theorem mapCurrent {f : BindingState → BindingState} (h : c.current.Framed (f c.current)) :
    c.Framed (c.mapCurrent f) :=
  ⟨rfl, rfl, rfl, rfl, rfl, h⟩

/-- What has become of a copy is what is dropped, and the context is as it was. -/
theorem dropStates_one (h : c.pushCopy.Framed d) : d.dropStates 1 = ([d.current], c) := by
  obtain ⟨id, parent, scope, declared, current, below⟩ := d
  obtain ⟨rfl, rfl, rfl, rfl, rfl, -⟩ := h
  rfl

end Context.Framed

namespace Arena

structure Framed (a b : Arena) : Prop where
  hierarchy : b.hierarchy = a.hierarchy
  maxDepth : b.maxDepth = a.maxDepth
  nextId : b.nextId = a.nextId
  blockEnd : b.blockEnd = a.blockEnd
  context : ∀ id c, a.context id = .ok c → ∃ d, b.context id = .ok d ∧ c.Framed d
  of_context : ∀ id d, b.context id = .ok d → ∃ c, a.context id = .ok c

namespace Framed

variable {a b c : Arena}

theorem refl (a : Arena) : a.Framed a :=
  ⟨rfl, rfl, rfl, rfl, fun _ c hc => ⟨c, hc, .refl c⟩, fun _ c hc => ⟨c, hc⟩⟩

theorem trans (h : a.Framed b) (h' : b.Framed c) : a.Framed c where
  hierarchy := h'.hierarchy.trans h.hierarchy
  maxDepth := h'.maxDepth.trans h.maxDepth
  nextId := h'.nextId.trans h.nextId
  blockEnd := h'.blockEnd.trans h.blockEnd
  context id x hx := by
    obtain ⟨y, hy, hframed⟩ := h.context id x hx
    obtain ⟨z, hz, hframed'⟩ := h'.context id y hy
    exact ⟨z, hz, hframed.trans hframed'⟩
  of_context id z hz := by
    obtain ⟨y, hy⟩ := h'.of_context id z hz
    exact h.of_context id y hy

theorem insert {id : ContextId} {c d : Context} (hc : a.context id = .ok c) (hd : c.Framed d) :
    a.Framed (a.insert id d) where
  hierarchy := rfl
  maxDepth := rfl
  nextId := rfl
  blockEnd := rfl
  context other e he := by
    by_cases h : id = other
    · subst h
      cases hc.symm.trans he
      exact ⟨d, context_insert_self .., hd⟩
    · exact ⟨e, (context_insert_of_ne a h d).trans he, .refl e⟩
  of_context other e he := by
    by_cases h : id = other
    · subst h
      exact ⟨c, hc⟩
    · exact ⟨e, (context_insert_of_ne a h d).symm.trans he⟩

end Framed

/-- The arena after a registration, whether or not it succeeds. -/
def registered (a : Arena) (q : Request) : Arena :=
  (Registration.register (a.maxDepth + 1) q).after { arena := a }

/-- The arena after some registrations in turn, each of which may fail. -/
def registerAll (a : Arena) (qs : List Request) : Arena := qs.foldl registered a

end Arena

/-! ### Registrations -/

namespace Registration

open RunM

/-- A decision that spares terminal bindings settles no more than it binds. -/
theorem framed_settled {α : Type} [Bindable α] {a : Arena} {id target : ContextId} {c : Context}
    {name : String} {d : Decision α} (hc : a.context id = .ok c)
    (hbind : ∀ b : Binding α,
      (∀ b : Binding α, c.current.binding? name = some b → b.isTerminal = false) →
      c.current.Framed (c.current.bind name b))
    (hterminal : ∀ (v : α) owner, c.current.binding? name = some (.terminal v owner) →
      d.value? = none) : a.Framed (settled a id target c name d) := by
  rw [settled_eq hc]
  refine .insert hc (.mapCurrent ?_)
  rcases hv : d.value? with _ | v
  · exact .refl _
  · refine hbind _ fun b hb => ?_
    rcases b with ⟨w, owner⟩ | ⟨w, owner⟩
    · rfl
    · rw [hterminal w owner hb] at hv
      cases hv

theorem framed_passage (merge : Bool) : Passage merge fun r s => r.arena.Framed s.arena where
  refl r := .refl r.arena
  trans := .trans
  record r _ _ := .refl r.arena
  level h := h
  type hc hd := framed_settled hc (fun b h => .bind_type h b) fun v owner hb => by
    rw [hb] at hd
    cases hd
    rfl
  mul hc hd := framed_settled hc (fun b h => .bind_mul h b) fun v owner hb => by
    rw [hb] at hd
    rw [← hd]
    rfl

theorem register_framed (n : Nat) (q : Request) (r : Run) :
    r.arena.Framed ((register n q).after r) := by
  rw [← arena_final]
  exact register_passage framed_passage n q r

end Registration

namespace Arena

theorem registerAll_framed : ∀ (qs : List Request) (a : Arena), a.Framed (a.registerAll qs)
  | [], a => .refl a
  | q :: qs, a =>
    (Registration.register_framed (a.maxDepth + 1) q { arena := a }).trans
      (registerAll_framed qs (a.registered q))

theorem pushCopy_eq_ok {a a' : Arena} {id : ContextId} :
    a.pushCopy id = .ok a' ↔ ∃ c, a.context id = .ok c ∧ a' = a.insert id c.pushCopy :=
  modify_eq_ok

/-- What is dropped is what has become of the copy. -/
theorem Framed.dropStates_one {a b : Arena} {id : ContextId} {c : Context}
    (h : (a.insert id c.pushCopy).Framed b) :
    ∃ s, b.dropStates id 1 = .ok ([s], b.insert id c) := by
  obtain ⟨d, hd, hframed⟩ := h.context id _ (context_insert_self ..)
  refine ⟨d.current, ?_⟩
  simp only [dropStates, hd, bind, Except.bind, hframed.dropStates_one, pure, Except.pure]

end Arena

/-- A registration, failed ones included, keeps the tree of contexts, all that is under the visible
states, lookahead marks and terminal bindings, and no bound name disappears. So whatever is
registered anywhere between pushing a copy in a context and dropping it, the context with all its
states is then as it was before. -/
theorem register_frame (a : Arena) :
    (∀ q, a.Framed (a.registered q))
    ∧ ∀ id a' qs, a.pushCopy id = .ok a' →
      ∃ s b, (a'.registerAll qs).dropStates id 1 = .ok ([s], b)
        ∧ b.context id = a.context id := by
  refine ⟨fun q => Registration.register_framed _ q { arena := a }, fun id a' qs hpush => ?_⟩
  obtain ⟨c, hc, rfl⟩ := Arena.pushCopy_eq_ok.1 hpush
  obtain ⟨s, hs⟩ := (Arena.registerAll_framed qs (a.insert id c.pushCopy)).dropStates_one
  exact ⟨s, _, hs, (Arena.context_insert_self ..).trans hc.symm⟩

end ScopedInference
