import ScopedInference.Proofs.Arena.Pool
import ScopedInference.Proofs.Arena.Replacement
import ScopedInference.Proofs.Registration.Frame

/-!
# Sessions

A session is what is done to one arena, call by call. Calls may fail, and the session goes on in the
arena that a failure leaves. Beside the arena a session knows which parameters each context was
made with; the arena itself keeps only their names.

`Step` says once what a call can do, and `run_induction` carries over to whole sessions what each
step keeps. The arenas that sessions come to from an empty one are `Reachable`.
-/

namespace ScopedInference

namespace Context

theorem current_mem_states (c : Context) : c.current ∈ c.states :=
  List.mem_append_right _ (List.mem_singleton_self _)

/-- The same place in the tree and no new binding: but for its lookahead mark, each state has been
there before. -/
structure Rearranged (c d : Context) : Prop where
  parent : d.parent = c.parent
  declared : d.declared = c.declared
  states : ∀ t ∈ d.states, ∃ s ∈ c.states, t.types = s.types ∧ t.muls = s.muls

namespace Rearranged

variable {c d e : Context}

theorem of_states_subset (hparent : d.parent = c.parent) (hdeclared : d.declared = c.declared)
    (h : d.states ⊆ c.states) : c.Rearranged d :=
  ⟨hparent, hdeclared, fun t ht => ⟨t, h ht, rfl, rfl⟩⟩

theorem trans (h : c.Rearranged d) (h' : d.Rearranged e) : c.Rearranged e where
  parent := h'.parent.trans h.parent
  declared := h'.declared.trans h.declared
  states u hu := by
    obtain ⟨t, ht, htypes, hmuls⟩ := h'.states u hu
    obtain ⟨s, hs, htypes', hmuls'⟩ := h.states t ht
    exact ⟨s, hs, htypes.trans htypes', hmuls.trans hmuls'⟩

theorem setScope (c : Context) (scope : String) : c.Rearranged { c with scope := some scope } :=
  .of_states_subset rfl rfl fun _ ht => ht

theorem mapLookahead (c : Context) (f : Lookahead → Lookahead) :
    c.Rearranged (c.mapCurrent fun s => { s with lookahead := f s.lookahead }) := by
  refine ⟨rfl, rfl, fun t ht => ?_⟩
  rcases List.mem_append.1 ht with ht | ht
  · exact ⟨t, List.mem_append_left _ ht, rfl, rfl⟩
  · obtain rfl := List.mem_singleton.1 ht
    exact ⟨c.current, c.current_mem_states, rfl, rfl⟩

theorem pushCopy (c : Context) : c.Rearranged c.pushCopy := by
  refine .of_states_subset rfl rfl fun t ht => ?_
  simp only [Context.states, Context.pushCopy, List.reverse_cons, List.mem_append] at ht ⊢
  tauto

theorem dropStates : ∀ (n : Nat) (c : Context), c.Rearranged (c.dropStates n).2
  | 0, c => .of_states_subset rfl rfl fun _ ht => ht
  | n + 1, ⟨id, parent, scope, declared, current, []⟩ =>
    .of_states_subset rfl rfl fun _ ht => ht
  | n + 1, ⟨id, parent, scope, declared, current, s :: below⟩ => by
    let c : Context := ⟨id, parent, scope, declared, s, below⟩
    refine trans (d := c) (of_states_subset rfl rfl fun t ht => ?_) (dropStates n c)
    simp only [c, Context.states, List.reverse_cons, List.mem_append] at ht ⊢
    tauto

end Rearranged

end Context

/-- What may change an arena. A new context draws its id from the shared counter, however far that
has come by then. -/
inductive Call where
  | newContext (counter : IdCounter) (parent : Option ContextId) (signature : Option Signature)
  | setScope (id : ContextId) (scope : String)
  | register (id : ContextId) (template : TypeExpr) (actual? : Option TypeExpr)
    (target : ContextId) (merge : Bool)
  | registerMul (id : ContextId) (template actual : Multiplicity) (target : ContextId)
  | pushCopy (id : ContextId)
  | dropStates (id : ContextId) (n : Nat)
  | replace (id : ContextId) (operation value : TypeExpr)
  | setLookahead (id : ContextId) (l : Lookahead)
  | consumeLookahead (id : ContextId)
  | limitDepth (limit : Nat)

/-- An arena, and the parameters that each of its contexts declares. -/
structure Session where
  arena : Arena
  params : ContextId → List TypeParam := fun _ => []

namespace Session

/-- Goes on in the arena that a call makes, or else in the same one. -/
def goOn (s : Session) : Except InferError Arena → Session
  | .ok a => { s with arena := a }
  | .error _ => s

def perform (s : Session) : Call → Session
  | .newContext counter parent signature =>
    match s.arena.newContext counter parent signature with
    | .ok (id, a, _) => ⟨a, Function.update s.params id (signature.elim [] (·.params))⟩
    | .error _ => s
  | .setScope id scope => s.goOn (s.arena.setScope id scope)
  | .register id template actual? target merge =>
    { s with arena := s.arena.registered (.type id template actual? target merge) }
  | .registerMul id template actual target =>
    { s with arena := s.arena.registered (.mul id template actual target) }
  | .pushCopy id => s.goOn (s.arena.pushCopy id)
  | .dropStates id n => s.goOn ((s.arena.dropStates id n).map (·.2))
  | .replace id operation value => { s with arena := s.arena.replaced id operation value }
  | .setLookahead id l => s.goOn (s.arena.setLookahead id l)
  | .consumeLookahead id => s.goOn (s.arena.consumeLookahead id)
  | .limitDepth limit => { s with arena := { s.arena with maxDepth := limit } }

/-- The session after some calls in turn. -/
def run (s : Session) (calls : List Call) : Session := calls.foldl perform s

/-- What a call can do. -/
inductive Step (s : Session) : Call → Session → Prop where
  | unchanged {call} {a : Arena} : a.contexts = s.arena.contexts → Step s call { s with arena := a }
  | fresh {counter parent signature id} {a : Arena} : a.contexts = s.arena.contexts →
      (∀ p, parent = some p → ∃ c, s.arena.context p = .ok c) →
      Step s (.newContext counter parent signature) ⟨a.insert id (.fresh id parent signature),
        Function.update s.params id (signature.elim [] (·.params))⟩
  | rearranged {call id c d} : s.arena.context id = .ok c → c.Rearranged d →
      Step s call { s with arena := s.arena.insert id d }
  | registered {call q} : (∀ id f g target merge, q ≠ .function id f g target merge) →
      Step s call { s with arena := s.arena.registered q }
  | replaced {id operation value} : Step s (.replace id operation value)
      { s with arena := s.arena.replaced id operation value }

theorem Step.goOn {s : Session} {call : Call} {r : Except InferError Arena}
    (h : ∀ a, r = .ok a → ∃ id c d, s.arena.context id = .ok c ∧ c.Rearranged d
      ∧ a = s.arena.insert id d) : s.Step call (s.goOn r) := by
  rcases r with e | a
  · exact .unchanged rfl
  · obtain ⟨id, c, d, hc, hd, rfl⟩ := h a rfl
    exact .rearranged hc hd

theorem Step.modify {s : Session} {call : Call} {id : ContextId} {f : Context → Context}
    (hf : ∀ c, Context.Rearranged c (f c)) : s.Step call (s.goOn (s.arena.modify id f)) :=
  .goOn fun _ ha => by
    obtain ⟨c, hc, rfl⟩ := Arena.modify_eq_ok.1 ha
    exact ⟨id, c, f c, hc, hf c, rfl⟩

theorem step_perform (s : Session) (call : Call) : s.Step call (s.perform call) := by
  cases call with
  | newContext counter parent signature =>
    simp only [perform, Arena.newContext]
    rcases hparent : s.arena.checkParent parent with e | u
    · exact .unchanged rfl
    rcases hid : s.arena.takeId counter with e | ⟨id, a, k⟩
    · exact .unchanged rfl
    · exact .fresh (Arena.takeId_contexts hid) fun p hp => Arena.checkParent_ok hparent hp
  | setScope id scope => exact .modify fun c => .setScope c scope
  | register id template actual? target merge => exact .registered (by simp)
  | registerMul id template actual target => exact .registered (by simp)
  | pushCopy id => exact .modify fun c => .pushCopy c
  | dropStates id n =>
    refine .goOn fun a ha => ?_
    simp only [Arena.dropStates] at ha
    rcases hc : s.arena.context id with e | c <;> rw [hc] at ha
    · cases ha
    · cases ha
      exact ⟨id, c, _, hc, .dropStates n c, rfl⟩
  | replace id operation value => exact .replaced
  | setLookahead id l => exact .modify fun c => .mapLookahead c fun _ => l
  | consumeLookahead id => exact .modify fun c => .mapLookahead c (·.consume)
  | limitDepth limit => exact .unchanged rfl

/-- What all steps keep holds at the end of every run. -/
theorem run_induction {P : Session → Prop} : ∀ (calls : List Call) (s : Session),
    (∀ call ∈ calls, ∀ s t : Session, s.Step call t → P s → P t) → P s → P (s.run calls)
  | [], _, _, hs => hs
  | call :: calls, s, hstep, hs =>
    run_induction calls (s.perform call) (fun x hx => hstep x (List.mem_cons_of_mem _ hx))
      (hstep call List.mem_cons_self s _ (s.step_perform call) hs)

end Session

/-- What calls have made of an arena that had no contexts. -/
def Arena.Reachable (a : Arena) : Prop :=
  ∃ (start : Session) (calls : List Call), start.arena.contexts = ∅ ∧ (start.run calls).arena = a

end ScopedInference
