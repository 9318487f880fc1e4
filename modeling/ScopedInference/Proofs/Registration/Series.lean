import ScopedInference.Proofs.Registration.Values

/-!
# One value after the other

Requests are registered in turn (`registerInTurn`). If they are facts about one parameter that is
unbound at first, and none of them passes anything on, then all that happens is that the parameter
comes to a value, and the requests are folded into it (`registerInTurn_foldl`). For a first fact, and
for one more concrete value, it suffices to know what is decided.
-/

namespace ScopedInference

namespace Arena

/-- A registration succeeds and comes to an arena. -/
def Registers (a : Arena) (q : Request) (b : Arena) : Prop :=
  ∃ s, a.register q = .ok () s ∧ s.arena = b

/-- Registers requests one after the other, until one fails. -/
def registerInTurn (a : Arena) : List Request → Except InferError Arena
  | [] => .ok a
  | q :: qs => match a.register q with
    | .ok _ s => s.arena.registerInTurn qs
    | .error e _ => .error e

theorem Registers.inTurn {a b : Arena} {q : Request} (h : a.Registers q b) (qs : List Request) :
    a.registerInTurn (q :: qs) = b.registerInTurn qs := by
  obtain ⟨s, hs, rfl⟩ := h
  rw [registerInTurn, hs]

/-- The arena in which a parameter of a context has come to a value. -/
def withBound {α : Type} [Bindable α] (a : Arena) (id target : ContextId) (c : Context)
    (name : String) (v : α) : Arena :=
  a.insert id (c.mapCurrent (·.bind name (.bound v target)))

section

variable {α β γ : Type} [Bindable α] {a : Arena} {id target : ContextId} {c : Context}
  {name : String}

theorem binding?_withBound (a : Arena) (id target : ContextId) (c : Context) (name : String)
    (v : α) : (a.withBound id target c name v).binding? id name = .ok (some (.bound v target)) := by
  unfold withBound binding?
  rw [context_insert_self]
  exact congrArg Except.ok (c.current.binding?_bind_self name _)

/-- The first request binds the parameter, and each further one takes its value a step on: the fold
of the steps is what the parameter comes to. -/
theorem registerInTurn_foldl {g : β → Request} {w : γ → α} {f : γ → β → γ} {P : γ → Prop}
    {Q : β → Prop} {x : γ} {y : β} {ys : List β}
    (hfirst : a.Registers (g y) (a.withBound id target c name (w x))) (hx : P x)
    (hys : ∀ y ∈ ys, Q y)
    (hstep : ∀ x y, P x → Q y → P (f x y) ∧ (a.withBound id target c name (w x)).Registers
      (g y) (a.withBound id target c name (w (f x y)))) :
    a.registerInTurn ((y :: ys).map g)
      = .ok (a.withBound id target c name (w (ys.foldl f x))) := by
  have hrest : ∀ (ys : List β) (x : γ), P x → (∀ y ∈ ys, Q y) →
      (a.withBound id target c name (w x)).registerInTurn (ys.map g)
        = .ok (a.withBound id target c name (w (ys.foldl f x))) := by
    intro ys
    induction ys with
    | nil => exact fun _ _ _ => rfl
    | cons y ys ih =>
      intro x hx hys
      obtain ⟨hnext, hregisters⟩ := hstep x y hx (hys y List.mem_cons_self)
      rw [List.map_cons, hregisters.inTurn, List.foldl_cons]
      exact ih _ hnext fun z hz => hys z (List.mem_cons_of_mem y hz)
  rw [List.map_cons, hfirst.inTurn]
  exact hrest ys x hx hys

end

variable {a : Arena} {id target : ContextId} {c there : Context} {p : TypeParam} {name : String}

open Registration

/-! ### Types -/

/-- The first type that is registered for a parameter is its value. -/
theorem register_unbound (hc : a.context id = .ok c) (hthere : a.context target = .ok there)
    (hfresh : c.current.binding? p.name = (none : Option (Binding TypeExpr))) {v : TypeExpr}
    (hv : v.isConcrete) (merge : Bool) :
    a.Registers (.type id (.param p) (some v) target merge)
      (a.withBound id target c p.name v) := by
  have hd := typeDecision_unbound a.hierarchy id target p c.onTrial merge hfresh v
  obtain ⟨s, hs, hdecided⟩ := register_param_decided (n := a.maxDepth) (r := { arena := a }) hc
    hthere hv hd rfl
  exact ⟨s, hs, hdecided.arena⟩

/-- One more type is merged into it. -/
theorem register_bound (hthere : a.context target = .ok there) {e v m : TypeExpr}
    {d : Decision TypeExpr} (he : e.isConcrete) (hv : v.isConcrete)
    (hd : mergeDecision a.hierarchy p target e v = .ok d) (hm : d.value? = some m)
    (hnone : d.forwards = []) (merge : Bool) :
    (a.withBound id target c p.name e).Registers (.type id (.param p) (some v) target merge)
      (a.withBound id target c p.name m) := by
  let c' := c.mapCurrent (·.bind p.name (.bound e target))
  have hc' : (a.withBound id target c p.name e).context id = .ok c' := context_insert_self ..
  obtain ⟨there', hthere'⟩ : ∃ d, (a.withBound id target c p.name e).context target = .ok d :=
    exists_context_insert _ ⟨there, hthere⟩
  have hbinding : c'.current.binding? p.name = some (.bound e target) :=
    BindingState.binding?_bind_self ..
  have hdecision : typeDecision (a.withBound id target c p.name e).hierarchy id target p c'.onTrial
      merge (c'.current.binding? p.name) v = .ok d := by
    rw [hbinding, typeDecision_concrete he hv]
    exact hd
  obtain ⟨s, hs, hdecided⟩ := register_param_decided
    (n := (a.withBound id target c p.name e).maxDepth)
    (r := { arena := a.withBound id target c p.name e }) hc' hthere' hv hdecision hnone
  refine ⟨s, hs, ?_⟩
  rw [hdecided.arena, settled, hm]
  show ((a.withBound id target c p.name e).insert id (c'.mapCurrent _)) = _
  rw [withBound, insert_insert]
  exact congrArg (fun s => a.insert id { c with current := s }) (BindingState.bind_bind ..)

/-! ### Multiplicities -/

theorem register_mul_unbound (hc : a.context id = .ok c) (hthere : a.context target = .ok there)
    (hfresh : c.current.binding? name = (none : Option (Binding Multiplicity)))
    (v : Multiplicity) :
    a.Registers (.mul id (.param name) v target) (a.withBound id target c name v) := by
  obtain ⟨s, harena, happly⟩ :=
    @register_mul_apply a.maxDepth id target name v { arena := a } c there hc hthere
  rw [hfresh] at harena happly
  exact ⟨s, happly, harena⟩

theorem register_mul_bound (hthere : a.context target = .ok there) {e v : Multiplicity}
    (he : e.isConcrete) (hv : v.isConcrete) :
    (a.withBound id target c name e).Registers (.mul id (.param name) v target)
      (a.withBound id target c name (e.join v)) := by
  let c' := c.mapCurrent (·.bind name (.bound e target))
  have hc' : (a.withBound id target c name e).context id = .ok c' := context_insert_self ..
  obtain ⟨there', hthere'⟩ : ∃ d, (a.withBound id target c name e).context target = .ok d :=
    exists_context_insert _ ⟨there, hthere⟩
  have hbinding : c'.current.binding? name = some (.bound e target) :=
    BindingState.binding?_bind_self ..
  have hdecision : mulDecision id target c'.onTrial (c'.current.binding? name) v
      = { value? := some (e.join v) } := by
    rw [hbinding, ← Multiplicity.leastSubsuming_pair]
    simp only [mulDecision, he, hv, Bool.and_self, if_true]
  obtain ⟨s, harena, happly⟩ := @register_mul_apply (a.withBound id target c name e).maxDepth id target
    name v { arena := a.withBound id target c name e } c' there' hc' hthere'
  rw [hdecision] at harena happly
  refine ⟨s, happly, harena.trans ?_⟩
  show ((a.withBound id target c name e).insert id (c'.mapCurrent _)) = _
  rw [withBound, insert_insert]
  exact congrArg (fun s => a.insert id { c with current := s }) (BindingState.bind_bind_mul ..)

end Arena

end ScopedInference
