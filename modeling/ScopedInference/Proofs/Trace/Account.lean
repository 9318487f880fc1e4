import ScopedInference.Proofs.Registration.Frame
import ScopedInference.Proofs.Registration.Invariant
import ScopedInference.Proofs.Trace.Brackets

/-!
# What traces account for

A binding that a registration changes anywhere belongs to the target that the last fact about it
was recorded with (`Accounted`), also where the registration fails later on. A recorder has a step
for each fact (`Recorder.exists_shows`), so the steps of a call account for all that has changed
(`register_accounted`).
-/

namespace ScopedInference

/-! ### Facts on record -/

namespace Event

/-- A fact about a type parameter of a context. -/
def TellsType (e : Event) (name : String) (id target : ContextId) : Prop :=
  ∃ p v, e = .registerType (.param p) v id target ∧ p.name = name

/-- A fact about a multiplicity parameter of a context. -/
def TellsMul (e : Event) (name : String) (id target : ContextId) : Prop :=
  ∃ v, e = .registerMul (.param name) v id target

end Event

namespace Registration

section

variable {α β : Type} [Bindable α] [Bindable β]

/-- Every binding of one kind that is another one than before has an owner that was told of as the
target. -/
def Accounted (α : Type) [Bindable α] (tells : Event → String → ContextId → ContextId → Prop)
    (a : Arena) (r : Run) : Prop :=
  ∀ id name, r.arena.binding? id name ≠ (a.binding? id name : Except _ (Option (Binding α))) →
    ∃ b : Binding α, r.arena.binding? id name = .ok (some b)
      ∧ ∃ e ∈ r.events, tells e name id b.owner

variable {tells : Event → String → ContextId → ContextId → Prop} {a : Arena} {r : Run}

theorem Accounted.record (h : Accounted α tells a r) (e : Event) :
    Accounted α tells a (r.record e) :=
  fun id name hne =>
    have ⟨b, hb, e', he', htells⟩ := h id name hne
    ⟨b, hb, e', Array.mem_push_of_mem _ he', htells⟩

variable {id target : ContextId} {c : Context} {name : String}

/-- A value that is bound is told of at once. -/
theorem Accounted.moveTo (h : Accounted α tells a r) (hc : r.arena.context id = .ok c) {e : Event}
    (he : tells e name id target) (d : Decision α) :
    Accounted α tells a (r.moveTo (settled r.arena id target c name d) e) := by
  intro here other hne
  rcases binding?_settled_cases hc target name d here other with ⟨rfl, rfl, v, -, hv⟩ | hkept
  · exact ⟨_, hv, e, Array.mem_push_self, he⟩
  · obtain ⟨b, hb, e', he', htells⟩ := h here other fun heq => hne (hkept.trans heq)
    exact ⟨b, hkept.trans hb, e', Array.mem_push_of_mem _ he', htells⟩

/-- A value of the other kind changes nothing. -/
theorem Accounted.moveTo_other (h : Accounted α tells a r) (hc : r.arena.context id = .ok c)
    (hbind : ∀ other (b : Binding β), (c.current.bind name b).binding? other
      = (c.current.binding? other : Option (Binding α))) (d : Decision β) (e : Event) :
    Accounted α tells a (r.moveTo (settled r.arena id target c name d) e) := by
  intro here other hne
  have hkept : (settled r.arena id target c name d).binding? here other
      = (r.arena.binding? here other : Except _ (Option (Binding α))) :=
    binding?_settled_of_bind hc (fun _ => hbind other) target d
  obtain ⟨b, hb, e', he', htells⟩ := h here other fun heq => hne (hkept.trans heq)
  exact ⟨b, hkept.trans hb, e', Array.mem_push_of_mem _ he', htells⟩

end

theorem accounted_invariant (a : Arena) : Invariant
    (fun r => Accounted TypeExpr Event.TellsType a r ∧ Accounted Multiplicity Event.TellsMul a r)
    (fun _ => True) (fun _ => True) where
  leads _ _ _ := trivial
  record hr _ := ⟨hr.1.record _, hr.2.record _⟩
  type hr _ hc _ :=
    ⟨hr.1.moveTo hc ⟨_, _, rfl, rfl⟩ _, hr.2.moveTo_other hc (fun _ _ => rfl) _ _⟩
  mul hr _ hc := ⟨hr.1.moveTo_other hc (fun _ _ => rfl) _ _, hr.2.moveTo hc ⟨_, rfl⟩ _⟩
  here _ _ := .inr trivial
  there _ _ := .inr trivial
  depth _ := trivial

end Registration

/-! ### Steps on record -/

/-- The step says what the event does. -/
def TraceStep.Shows (s : TraceStep) : Event → Prop
  | .trying template actual id target => s.action = .trying ∧ s.template = template.display
    ∧ s.actual = actual.map (·.display) ∧ s.context = id.hex ∧ s.target = target.hex
  | .registerType template actual id target => s.action = .registerType
    ∧ s.template = template.display ∧ s.actual = some actual.display ∧ s.context = id.hex
    ∧ s.target = target.hex
  | .registerMul template actual id target => s.action = .registerMul
    ∧ s.template = template.display ∧ s.actual = some actual.display ∧ s.context = id.hex
    ∧ s.target = target.hex
  | .indent | .outdent | .note _ => False

namespace Recorder

theorem observe_shows (r : Recorder) (e : Event) :
    ∃ new, (r.observe e).steps.toList = r.steps.toList ++ new
      ∧ (e.context?.isSome → ∃ s ∈ new, s.Shows e) := by
  cases e with
  | indent | outdent | note => exact ⟨[], by simp [observe], by simp [Event.context?]⟩
  | _ =>
    exact ⟨[_], Array.toList_push, fun _ =>
      ⟨_, List.mem_singleton_self _, rfl, rfl, rfl, rfl, rfl⟩⟩

/-- Each attempt and each fact has a step among the new ones. -/
theorem exists_shows (r : Recorder) (es : Array Event) :
    ∃ new, (r.observeAll es).steps.toList = r.steps.toList ++ new
      ∧ ∀ e ∈ es, e.context?.isSome → ∃ s ∈ new, s.Shows e := by
  unfold observeAll
  rw [← Array.foldl_toList]
  simp only [← Array.mem_toList_iff]
  induction es.toList generalizing r with
  | nil => exact ⟨[], by simp, fun _ he => absurd he List.not_mem_nil⟩
  | cons e es ih =>
    obtain ⟨new, hsteps, hone⟩ := r.observe_shows e
    obtain ⟨new', hsteps', hrest⟩ := ih (r.observe e)
    refine ⟨new ++ new', by rw [List.foldl_cons, hsteps', hsteps, List.append_assoc],
      fun e' he' hsome => ?_⟩
    rcases List.mem_cons.1 he' with rfl | he'
    · obtain ⟨s, hs, hshows⟩ := hone hsome
      exact ⟨s, List.mem_append_left _ hs, hshows⟩
    · obtain ⟨s, hs, hshows⟩ := hrest e' he' hsome
      exact ⟨s, List.mem_append_right _ hs, hshows⟩

end Recorder

/-- Whatever a registration comes to, its steps account for all that it has changed: for each
visible binding that is another one afterwards there is a step about its name in its context with
its owner as the target. -/
theorem register_accounted (a : Arena) (q : Request) (r : Recorder) :
    ∃ new, (r.observeAll (a.reported q)).steps.toList = r.steps.toList ++ new
      ∧ (∀ id name,
        (a.registered q).binding? id name
          ≠ (a.binding? id name : Except InferError (Option (Binding TypeExpr))) →
        ∃ b : Binding TypeExpr, (a.registered q).binding? id name = .ok (some b)
          ∧ ∃ s ∈ new, s.action = .registerType ∧ s.template = name ∧ s.context = id.hex
            ∧ s.target = b.owner.hex)
      ∧ (∀ id name,
        (a.registered q).binding? id name
          ≠ (a.binding? id name : Except InferError (Option (Binding Multiplicity))) →
        ∃ b : Binding Multiplicity, (a.registered q).binding? id name = .ok (some b)
          ∧ ∃ s ∈ new, s.action = .registerMul ∧ s.template = "[" ++ name ++ "]"
            ∧ s.context = id.hex ∧ s.target = b.owner.hex) := by
  obtain ⟨htypes, hmuls⟩ := ((Registration.accounted_invariant a).register (a.maxDepth + 1) q
    { arena := a } trivial ⟨fun _ _ h => absurd rfl h, fun _ _ h => absurd rfl h⟩).final
  obtain ⟨new, hsteps, hshows⟩ := r.exists_shows (a.reported q)
  refine ⟨new, hsteps, fun id name hne => ?_, fun id name hne => ?_⟩
  · rw [Arena.registered, ← RunM.arena_final] at hne ⊢
    obtain ⟨b, hb, e, he, p, v, rfl, rfl⟩ := htypes id name hne
    rw [← Arena.reported_eq] at he
    obtain ⟨s, hs, haction, htemplate, -, hcontext, htarget⟩ := hshows _ he rfl
    exact ⟨b, hb, s, hs, haction, htemplate.trans (by rw [TypeExpr.display]), hcontext, htarget⟩
  · rw [Arena.registered, ← RunM.arena_final] at hne ⊢
    obtain ⟨b, hb, e, he, v, rfl⟩ := hmuls id name hne
    rw [← Arena.reported_eq] at he
    obtain ⟨s, hs, haction, htemplate, -, hcontext, htarget⟩ := hshows _ he rfl
    exact ⟨b, hb, s, hs, haction, htemplate, hcontext, htarget⟩

end ScopedInference
