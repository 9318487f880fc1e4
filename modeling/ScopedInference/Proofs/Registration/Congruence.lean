import Mathlib.Order.Basic
import ScopedInference.Registration.Basic

/-!
# Properties that registrations inherit from their parts

A congruence relates actions, and what is put together from related actions is related
(`Congruence`). One level of a registration is put together from nested registrations, so it is
enough to look at what happens to a parameter (`Congruence.step`). Nested registrations are in the
mode of the registration itself; only two function types are matched without merging in either.

A first congruence is simulation: a run that succeeds also succeeds with more levels to go, from any
run that is alike in what registrations read (`register_simulates`). Earlier events are not read
(`sameArena`).
-/

namespace ScopedInference

namespace RunM

/-- The arena after an action, whether or not it succeeds. -/
def after {α : Type} (act : RunM α) (r : Run) : Arena :=
  match act r with
  | .ok _ s | .error _ s => s.arena

theorem after_of_eq_ok {α : Type} {act : RunM α} {r s : Run} {x : α} (h : act r = .ok x s) :
    act.after r = s.arena := by
  unfold after
  rw [h]

/-- The run after an action, whether or not it succeeds. -/
def final {α : Type} (act : RunM α) (r : Run) : Run :=
  match act r with
  | .ok _ s | .error _ s => s

theorem final_of_eq_ok {α : Type} {act : RunM α} {r s : Run} {x : α} (h : act r = .ok x s) :
    act.final r = s := by
  unfold final
  rw [h]

theorem final_of_eq_error {α : Type} {act : RunM α} {r s : Run} {e : InferError}
    (h : act r = .error e s) : act.final r = s := by
  unfold final
  rw [h]

theorem arena_final {α : Type} (act : RunM α) (r : Run) :
    (act.final r).arena = act.after r := by
  unfold final after
  rcases act r with ⟨x, s⟩ | ⟨e, s⟩ <;> rfl

theorem final_bind {α β : Type} (act : RunM α) (f : α → RunM β) (r : Run) :
    (act >>= f).final r = match act r with
      | .ok x s => (f x).final s
      | .error _ s => s := by
  show final (EStateM.bind act f) r = _
  unfold final EStateM.bind
  rcases act r with ⟨x, s⟩ | ⟨e, s⟩ <;> rfl

theorem final_nested (act : RunM Unit) (r : Run) :
    (nested act).final r = (act.final (r.record .indent)).record .outdent := by
  unfold final nested
  rcases act (r.record .indent) with ⟨x, s⟩ | ⟨e, s⟩ <;> rfl

theorem bind_eq_ok {σ α β : Type} {act : EStateM InferError σ α} {f : α → EStateM InferError σ β}
    {r s : σ} {y : β} : (act >>= f) r = .ok y s ↔ ∃ x r', act r = .ok x r' ∧ f x r' = .ok y s := by
  show EStateM.bind act f r = _ ↔ _
  unfold EStateM.bind
  rcases act r with ⟨x, r'⟩ | ⟨e, r'⟩
  · refine ⟨fun h => ⟨x, r', rfl, h⟩, ?_⟩
    rintro ⟨_, _, heq, h⟩
    cases heq
    exact h
  · simp

/-- What comes after an action that succeeds. -/
theorem bind_of_eq_ok {σ α β : Type} {act : EStateM InferError σ α} {r s : σ} {x : α}
    (h : act r = .ok x s) (f : α → EStateM InferError σ β) : (act >>= f) r = f x s := by
  show EStateM.bind act f r = _
  unfold EStateM.bind
  rw [h]

theorem bind_of_eq_error {σ α β : Type} {act : EStateM InferError σ α} {r s : σ} {e : InferError}
    (h : act r = .error e s) (f : α → EStateM InferError σ β) : (act >>= f) r = .error e s := by
  show EStateM.bind act f r = _
  unfold EStateM.bind
  rw [h]

theorem nested_of_eq_error {act : RunM Unit} {r s : Run} {e : InferError}
    (h : act (r.record .indent) = .error e s) : nested act r = .error e (s.record .outdent) := by
  unfold nested
  rw [h]

theorem nested_eq_ok {act : RunM Unit} {r s : Run} {x : Unit} :
    nested act r = .ok x s ↔ ∃ s', act (r.record .indent) = .ok x s' ∧ s = s'.record .outdent := by
  unfold nested
  rcases act (r.record .indent) with ⟨y, s'⟩ | ⟨e, s'⟩
  · simp only [EStateM.Result.ok.injEq, true_and]
    constructor
    · rintro rfl
      exact ⟨s', rfl, rfl⟩
    · rintro ⟨_, rfl, rfl⟩
      rfl
  · simp

theorem context_apply (id : ContextId) (r : Run) : RunM.context id r = match r.arena.context id with
    | .ok c => .ok c r
    | .error e => .error e r := by
  show (MonadExcept.ofExcept (r.arena.context id) : RunM Context) r = _
  rcases r.arena.context id with e | c <;> rfl

theorem context_eq_ok {id : ContextId} {r s : Run} {c : Context} :
    RunM.context id r = .ok c s ↔ r.arena.context id = .ok c ∧ s = r := by
  rw [context_apply]
  rcases r.arena.context id with e | d
  · simp
  · simp only [EStateM.Result.ok.injEq, Except.ok.injEq, eq_comm]

theorem hierarchy_apply (r : Run) : RunM.hierarchy r = .ok r.arena.hierarchy r := rfl

/-- A note first; then the value is bound, if the context is there. -/
theorem settle_apply {α : Type} [Bindable α] (id target : ContextId) (name : String)
    (d : Decision α) (r : Run) :
    let r' := d.note?.elim r fun n => r.record (.note n)
    settle id target name d r = match d.value? with
      | none => .ok () r'
      | some v => match r.arena.modifyCurrent id (·.bind name (.bound v target)) with
        | .ok a => .ok () { r' with arena := a }
        | .error e => .error e r' := by
  have hbind : ∀ (v : α) (r' : Run), r'.arena = r.arena →
      (do
        let run ← get
        let arena ← MonadExcept.ofExcept
          (run.arena.modifyCurrent id (·.bind name (.bound v target)))
        set { run with arena } : RunM Unit) r'
      = match r.arena.modifyCurrent id (·.bind name (.bound v target)) with
        | .ok a => .ok () { r' with arena := a }
        | .error e => .error e r' := by
    intro v r' hr
    show (MonadExcept.ofExcept (r'.arena.modifyCurrent id (·.bind name (.bound v target))) >>=
      fun arena => set { r' with arena } : RunM Unit) r' = _
    rw [hr]
    rcases r.arena.modifyCurrent id (·.bind name (.bound v target)) with e | a <;> rfl
  rcases d with ⟨_ | v, forwards, _ | n⟩
  · rfl
  · rfl
  · exact hbind v r rfl
  · exact hbind v (r.record (.note n)) rfl

end RunM

/-- The marks around what happens one level deeper, which nested actions alone leave. -/
def Event.isMark : Event → Bool
  | .indent | .outdent => true
  | _ => false

/-- Whether a request merges. Multiplicities always do. -/
def Request.InMode (merge : Bool) : Request → Prop
  | .type _ _ _ _ m | .function _ _ _ _ m => m = merge
  | .mul _ _ _ _ => True

namespace Registration

open RunM

/-- A decision's forwards are related where they are in the mode. -/
def ForwardsRelated (merge : Bool) (R : ∀ {α : Type}, RunM α → RunM α → Prop)
    (recur recur' : Request → RunM Unit) : Prop :=
  ∀ l : List Request, (∀ q ∈ l, q.InMode merge) → R (forwardAll recur l) (forwardAll recur' l)

/-- A relation between actions that the ways of putting actions together keep, in one mode. Marks
around a nested action are not looked at one by one. -/
structure Congruence (merge : Bool) (R : ∀ {α : Type}, RunM α → RunM α → Prop) : Prop where
  pure : ∀ {α : Type} (x : α), R (pure x) (pure x)
  bind : ∀ {α β : Type} {act act' : RunM α} {f f' : α → RunM β}, R act act' →
    (∀ x, R (f x) (f' x)) → R (act >>= f) (act' >>= f')
  record : ∀ e, e.isMark = false → R (record e) (record e)
  context : ∀ id, R (context id) (context id)
  hierarchy : R RunM.hierarchy RunM.hierarchy
  nested : ∀ {act act' : RunM Unit}, R act act' → R (nested act) (nested act')
  parameter : ∀ {recur recur' : Request → RunM Unit}, ForwardsRelated merge R recur recur' →
    ∀ id p v target,
      R (stepParameter recur id p v target merge) (stepParameter recur' id p v target merge)
  mul : ∀ {recur recur' : Request → RunM Unit}, ForwardsRelated merge R recur recur' →
    ∀ id m v target, R (stepMul recur id m v target) (stepMul recur' id m v target)

namespace Congruence

variable {merge : Bool} {R : ∀ {α : Type}, RunM α → RunM α → Prop} (hR : Congruence merge R)

include hR

theorem forM {α : Type} {f f' : α → RunM Unit} :
    ∀ l : List α, (∀ x ∈ l, R (f x) (f' x)) → R (l.forM f) (l.forM f')
  | [], _ => hR.pure _
  | x :: l, h => hR.bind (h x List.mem_cons_self) fun _ =>
    forM l fun y hy => h y (List.mem_cons_of_mem x hy)

variable {recur recur' : Request → RunM Unit}
  (h : ∀ q, q.InMode merge → R (recur q) (recur' q))

include h

theorem forwards : ForwardsRelated merge R recur recur' := by
  intro l hl
  unfold forwardAll
  split
  · exact hR.pure _
  · exact hR.nested (hR.forM l fun q hq => h q (hl q hq))

theorem operation (id : ContextId) (kind : OperationKind) (left right actual : TypeExpr)
    (target : ContextId) :
    R (stepOperation recur id kind left right actual target merge)
      (stepOperation recur' id kind left right actual target merge) := by
  have htype : ∀ t v, R (recur (.type id t (some v) target merge))
      (recur' (.type id t (some v) target merge)) := fun _ _ => h _ rfl
  have hsides : ∀ kind' left' right', R
      (if kind' = kind then RunM.nested do
        recur (.type id left (some left') target merge)
        recur (.type id right (some right') target merge)
      else Pure.pure ())
      (if kind' = kind then RunM.nested do
        recur' (.type id left (some left') target merge)
        recur' (.type id right (some right') target merge)
      else Pure.pure ()) := by
    intro kind' left' right'
    split
    · exact hR.nested (hR.bind (htype _ _) fun _ => htype _ _)
    · exact hR.pure _
  unfold stepOperation
  dsimp only
  by_cases hk : kind = .equal
  · rw [if_pos hk, if_pos hk]
    refine hR.bind (hR.nested (htype _ _)) fun _ => ?_
    cases actual with
    | operation kind' left' right' => exact hsides kind' left' right'
    | _ => exact hR.pure _
  · rw [if_neg hk, if_neg hk]
    cases actual with
    | operation kind' left' right' => exact hsides kind' left' right'
    | _ => exact hR.pure _

theorem equality (here there : Context) (actual : TypeExpr) :
    R (stepEquality recur here there actual merge)
      (stepEquality recur' here there actual merge) := by
  unfold stepEquality
  split
  · exact hR.nested (h _ rfl)
  · exact hR.pure _

theorem arguments (id : ContextId) (template actual : ClassType) (target : ContextId) :
    R (stepArguments recur id template actual target merge)
      (stepArguments recur' id template actual target merge) := by
  unfold stepArguments
  refine hR.bind hR.hierarchy fun g => ?_
  rcases pairArguments g template actual with _ | ⟨templates, values⟩
  · exact hR.pure _
  · refine hR.bind (hR.forM _ fun q _ => h _ trivial) fun _ => hR.forM _ fun q _ => ?_
    dsimp only
    split
    · exact h _ rfl
    · exact hR.nested (h _ rfl)

/-- Of two function types, the positions are matched without merging. -/
theorem concrete (id : ContextId) (template actual : TypeExpr) (target : ContextId)
    (hpair : ∀ f g, template = .function f → actual = .function g →
      R (recur (.function id f g target false)) (recur' (.function id f g target false))) :
    R (stepConcrete recur id template actual target merge)
      (stepConcrete recur' id template actual target merge) := by
  unfold stepConcrete
  split
  · exact hR.nested (hR.forM _ fun _ _ => h _ rfl)
  · exact hpair _ _ rfl rfl
  · exact hR.arguments h ..
  · exact hR.pure _

theorem template (id : ContextId) (template actual : TypeExpr) (target : ContextId)
    (hpair : ∀ f g, template = .function f → actual = .function g →
      R (recur (.function id f g target false)) (recur' (.function id f g target false))) :
    R (stepTemplate recur id template actual target merge)
      (stepTemplate recur' id template actual target merge) := by
  unfold stepTemplate
  split
  · exact hR.operation h ..
  · exact hR.parameter (hR.forwards h) ..
  · split
    · exact hR.concrete h _ _ _ _ hpair
    · exact hR.pure _

theorem type (id : ContextId) (template : TypeExpr) (actual? : Option TypeExpr)
    (target : ContextId)
    (hpair : ∀ f g, template = .function f → actual? = some (.function g) →
      R (recur (.function id f g target false)) (recur' (.function id f g target false))) :
    R (stepType recur id template actual? target merge)
      (stepType recur' id template actual? target merge) := by
  unfold stepType
  refine hR.bind (hR.context _) fun here => hR.bind (hR.context _) fun there =>
    hR.bind (hR.record _ rfl) fun _ => ?_
  rcases actual? with _ | actual
  · exact hR.pure _
  · refine hR.bind (hR.equality h ..) fun _ => hR.template h _ _ _ _ fun f g hf hg => ?_
    exact hpair f g hf (by rw [hg])

theorem function (id : ContextId) (template actual : Arrow TypeExpr) (target : ContextId) :
    R (stepFunction recur id template actual target merge)
      (stepFunction recur' id template actual target merge) := by
  unfold stepFunction
  refine hR.bind (hR.record _ rfl) fun _ => ?_
  split
  · exact hR.record _ rfl
  · exact hR.nested (hR.forM _ fun _ _ => hR.bind (h _ rfl) fun _ => h _ trivial)

/-- One level of a registration is put together from nested ones. -/
theorem step {q : Request} (hq : q.InMode merge)
    (hpair : ∀ id f g target, q = .type id (.function f) (some (.function g)) target merge →
      R (recur (.function id f g target false)) (recur' (.function id f g target false))) :
    R (Registration.step recur q) (Registration.step recur' q) := by
  cases q with
  | type id template actual? target m =>
    cases hq
    exact hR.type h _ _ _ _ fun f g hf hg => hpair id f g target (by rw [hf, hg])
  | function id template actual target m =>
    cases hq
    exact hR.function h ..
  | mul id m v target => exact hR.mul (hR.forwards h) ..

omit hR h

/-- What is kept in both modes need not tell them apart. -/
theorem step_all (hR : ∀ merge, Congruence merge R) (h : ∀ q, R (recur q) (recur' q))
    (q : Request) : R (Registration.step recur q) (Registration.step recur' q) := by
  have hmode : ∃ merge, q.InMode merge := by
    cases q with
    | type _ _ _ _ m => exact ⟨m, rfl⟩
    | function _ _ _ _ m => exact ⟨m, rfl⟩
    | mul _ _ _ _ => exact ⟨false, trivial⟩
  obtain ⟨merge, hq⟩ := hmode
  exact (hR merge).step (fun q _ => h q) hq fun _ _ _ _ _ => h _

end Congruence

/-! ### Simulation -/

/-- Runs that are alike in all that registrations read, and stay so with what they do. -/
structure Likeness (rel : Run → Run → Prop) : Prop where
  record : ∀ {r r'} e, rel r r' → rel (r.record e) (r'.record e)
  context : ∀ {r r'}, rel r r' → ∀ id, r'.arena.context id = r.arena.context id
  hierarchy : ∀ {r r'}, rel r r' → r'.arena.hierarchy = r.arena.hierarchy
  insert : ∀ {r r'} id c, rel r r' →
    rel { r with arena := r.arena.insert id c } { r' with arena := r'.arena.insert id c }

/-- Where the first action succeeds, so does the second from any run that is alike, with the same
result, and what they come to is alike. -/
def Simulates (rel : Run → Run → Prop) {α : Type} (act act' : RunM α) : Prop :=
  ∀ r r' x s, rel r r' → act r = .ok x s → ∃ s', act' r' = .ok x s' ∧ rel s s'

namespace Simulates

variable {rel : Run → Run → Prop}

theorem pure {α : Type} (x : α) : Simulates rel (pure x : RunM α) (pure x) := by
  intro r r' y s hr hok
  cases hok
  exact ⟨r', rfl, hr⟩

theorem bind {α β : Type} {act act' : RunM α} {f f' : α → RunM β} (h : Simulates rel act act')
    (hf : ∀ x, Simulates rel (f x) (f' x)) : Simulates rel (act >>= f) (act' >>= f') := by
  intro r r' y s hr hok
  obtain ⟨x, r₁, hact, hfx⟩ := bind_eq_ok.1 hok
  obtain ⟨r₁', hact', hr₁⟩ := h r r' x r₁ hr hact
  obtain ⟨s', hfx', hs⟩ := hf x r₁ r₁' y s hr₁ hfx
  exact ⟨s', bind_eq_ok.2 ⟨x, r₁', hact', hfx'⟩, hs⟩

variable (hrel : Likeness rel)

include hrel

theorem record (e : Event) : Simulates rel (record e) (RunM.record e) := by
  intro r r' y s hr hok
  cases hok
  exact ⟨r'.record e, rfl, hrel.record e hr⟩

theorem context (id : ContextId) : Simulates rel (context id) (RunM.context id) := by
  intro r r' y s hr hok
  obtain ⟨hc, rfl⟩ := context_eq_ok.1 hok
  exact ⟨r', context_eq_ok.2 ⟨(hrel.context hr id).trans hc, rfl⟩, hr⟩

theorem hierarchy : Simulates rel hierarchy RunM.hierarchy := by
  intro r r' y s hr hok
  cases hok
  exact ⟨r', by rw [hierarchy_apply, hrel.hierarchy hr], hr⟩

theorem nested {act act' : RunM Unit} (h : Simulates rel act act') :
    Simulates rel (nested act) (RunM.nested act') := by
  intro r r' x s hr hok
  obtain ⟨s₁, hact, rfl⟩ := nested_eq_ok.1 hok
  obtain ⟨s₁', hact', hs⟩ := h _ _ x s₁ (hrel.record .indent hr) hact
  exact ⟨_, nested_eq_ok.2 ⟨s₁', hact', rfl⟩, hrel.record .outdent hs⟩

theorem settle {α : Type} [Bindable α] (id target : ContextId) (name : String) (d : Decision α) :
    Simulates rel (settle id target name d) (RunM.settle id target name d) := by
  intro r r' x s hr hok
  have hnote : rel (d.note?.elim r fun n => r.record (.note n))
      (d.note?.elim r' fun n => r'.record (.note n)) := by
    rcases d.note? with _ | n
    · exact hr
    · exact hrel.record _ hr
  have harena : ∀ r : Run, (d.note?.elim r fun n => r.record (.note n)).arena = r.arena := by
    intro r
    rcases d.note? with _ | n <;> rfl
  rw [settle_apply] at hok ⊢
  rcases hv : d.value? with _ | v <;> rw [hv] at hok
  · cases hok
    exact ⟨_, rfl, hnote⟩
  · simp only [Arena.modifyCurrent, Arena.modify, hrel.context hr] at hok ⊢
    rcases hc : r.arena.context id with e | c <;> rw [hc] at hok
    · cases hok
    · cases hok
      have hinsert := hrel.insert id (c.mapCurrent (·.bind name (.bound v target))) hnote
      rw [harena, harena] at hinsert
      exact ⟨_, rfl, hinsert⟩

theorem parameter {merge : Bool} {recur recur' : Request → RunM Unit}
    (h : ForwardsRelated merge (Simulates rel) recur recur') (id : ContextId) (p : TypeParam)
    (v : TypeExpr) (target : ContextId) :
    Simulates rel (stepParameter recur id p v target merge)
      (stepParameter recur' id p v target merge) := by
  unfold stepParameter
  refine bind (context hrel id) fun c => bind (hierarchy hrel) fun g => ?_
  rcases typeDecision g id target p c.onTrial merge (c.current.binding? p.name) v with e | d
  · intro r r' x s _ hok
    cases hok
  · refine bind (settle hrel _ _ _ _) fun _ => bind (record hrel _) fun _ => h _ fun q hq => ?_
    obtain ⟨f, -, rfl⟩ := List.mem_map.1 hq
    rfl

theorem mul {merge : Bool} {recur recur' : Request → RunM Unit}
    (h : ForwardsRelated merge (Simulates rel) recur recur') (id : ContextId) (m v : Multiplicity)
    (target : ContextId) :
    Simulates rel (stepMul recur id m v target) (stepMul recur' id m v target) := by
  unfold stepMul
  refine bind (context hrel id) fun c => bind (context hrel target) fun _ => ?_
  cases m with
  | range lower upper => exact pure _
  | param name =>
    refine bind (settle hrel _ _ _ _) fun _ => bind (record hrel _) fun _ => h _ fun q hq => ?_
    obtain ⟨f, -, rfl⟩ := List.mem_map.1 hq
    trivial

theorem congruence (merge : Bool) : Congruence merge (Simulates rel) where
  pure := pure
  bind := bind
  record e _ := record hrel e
  context := context hrel
  hierarchy := hierarchy hrel
  nested := nested hrel
  parameter := parameter hrel
  mul := mul hrel

end Simulates

theorem register_zero_ne_ok (q : Request) (r : Run) {x : Unit} {s : Run} :
    register 0 q r ≠ .ok x s := by
  intro hok
  cases hok

/-- More levels do not change a registration that succeeds. -/
theorem register_simulates {rel : Run → Run → Prop} (hrel : Likeness rel) : ∀ {m n : Nat}, m ≤ n →
    ∀ q, Simulates rel (register m q) (register n q)
  | 0, _, _, q => by
    intro r r' x s _ hok
    exact absurd hok (register_zero_ne_ok q r)
  | m + 1, n + 1, h, q => Congruence.step_all (Simulates.congruence hrel)
    (register_simulates hrel (Nat.le_of_succ_le_succ h)) q

/-- Earlier events do not matter to a registration. -/
theorem sameArena : Likeness fun r r' => r'.arena = r.arena where
  record _ h := h
  context h id := by rw [h]
  hierarchy h := by rw [h]
  insert id c h := congrArg (·.insert id c) h

end Registration

end ScopedInference
