import ScopedInference.Proofs.Arena.ParentChain
import ScopedInference.Proofs.Arena.Sessions
import ScopedInference.Proofs.Registration.OwnerChain

/-!
# Declared parameters

The parameters that a context declares are bound for good in each of its states, whatever a session
does; and as long as no bare parameter is replaced they are bound to themselves, where more than one
has the same name to the last one (`declared_self_bound`). Both are `Declares`, for different demands
on the bindings: registrations leave all terminal bindings alone, and a replacement touches only
what is bound to the operation.
-/

namespace ScopedInference

/-- The parameter that is declared last under a name. -/
def lastNamed? (params : List TypeParam) (name : String) : Option TypeParam :=
  params.reverse.find? (·.name = name)

theorem exists_lastNamed? {params : List TypeParam} {name : String}
    (h : name ∈ params.map (·.name)) : ∃ p, lastNamed? params name = some p := by
  obtain ⟨p, hp, rfl⟩ := List.mem_map.1 h
  exact Option.isSome_iff_exists.1 (List.find?_isSome.2 ⟨p, List.mem_reverse.2 hp, by simp⟩)

theorem BindingState.binding?_declaring (id : ContextId) (params : List TypeParam) (name : String) :
    (declaring id params).binding? name
      = (lastNamed? params name).map fun p => .terminal (TypeExpr.param p) id := by
  induction params using List.reverseRecOn with
  | nil => rfl
  | append_singleton params p ih =>
    simp only [declaring, List.foldl_concat, lastNamed?, List.reverse_append,
      List.reverse_singleton, List.singleton_append, List.find?_cons] at ih ⊢
    by_cases h : p.name = name
    · simp [h]
    · simp [h, binding?_bind_of_ne _ h, ih]

/-- The context declares the names of some parameters. In each state each of these names is bound
for good, in the way that is asked for the parameter declared last under it. -/
structure Context.Declares (P : TypeParam → Binding TypeExpr → Prop) (params : List TypeParam)
    (c : Context) : Prop where
  declared : c.declared = .ofList (params.map (·.name))
  bound : ∀ name p, lastNamed? params name = some p → ∀ s ∈ c.states,
    ∃ b, s.binding? name = some b ∧ b.isTerminal ∧ P p b

namespace Context.Declares

variable {P : TypeParam → Binding TypeExpr → Prop} {params : List TypeParam} {c d : Context}

theorem fresh {id : ContextId} (hP : ∀ p, P p (.terminal (.param p) id))
    (parent : Option ContextId) (signature : Option Signature) :
    (Context.fresh id parent signature).Declares P (signature.elim [] (·.params)) where
  declared := rfl
  bound name p hp s hs := by
    obtain rfl := List.mem_singleton.1 hs
    exact ⟨_, (BindingState.binding?_declaring ..).trans (by rw [hp]; rfl), rfl, hP p⟩

theorem rearranged (h : c.Declares P params) (hd : c.Rearranged d) : d.Declares P params where
  declared := hd.declared.trans h.declared
  bound name p hp t ht := by
    obtain ⟨s, hs, htypes, -⟩ := hd.states t ht
    obtain ⟨b, hb, hbound⟩ := h.bound name p hp s hs
    refine ⟨b, ?_, hbound⟩
    rw [← hb]
    exact congrArg (·[name]?) htypes

/-- What becomes of the visible state is all that matters. -/
theorem mapCurrent (h : c.Declares P params) (hdeclared : d.declared = c.declared)
    (hbelow : d.below = c.below)
    (hcurrent : ∀ name p b, lastNamed? params name = some p →
      c.current.binding? name = some b → b.isTerminal → P p b →
      ∃ b', d.current.binding? name = some b' ∧ b'.isTerminal ∧ P p b') :
    d.Declares P params where
  declared := hdeclared.trans h.declared
  bound name p hp t ht := by
    rcases List.mem_append.1 ht with ht | ht
    · rw [hbelow] at ht
      exact h.bound name p hp t (List.mem_append_left _ ht)
    · obtain rfl := List.mem_singleton.1 ht
      obtain ⟨b, hb, hterminal, hPb⟩ := h.bound name p hp _ c.current_mem_states
      exact hcurrent name p b hp hb hterminal hPb

theorem framed (h : c.Declares P params) (hd : c.Framed d) : d.Declares P params :=
  h.mapCurrent hd.declared hd.below fun name _ b _ hb hterminal hPb => by
    obtain ⟨b', hb', heq⟩ := hd.current.types name b hb
    rw [heq hterminal] at hb'
    exact ⟨b, hb', hterminal, hPb⟩

end Context.Declares

namespace Session

/-- Each context declares what it has been made with. -/
def Declares (P : ContextId → TypeParam → Binding TypeExpr → Prop) (s : Session) : Prop :=
  ∀ id c, s.arena.context id = .ok c → c.Declares (P id) (s.params id)

variable {P : ContextId → TypeParam → Binding TypeExpr → Prop} {s t : Session} {call : Call}

theorem Declares.insert (h : s.Declares P) {id : ContextId} {c : Context}
    (hc : c.Declares (P id) (s.params id)) :
    Declares P { s with arena := s.arena.insert id c } := by
  intro other d hd
  by_cases heq : id = other
  · subst heq
    rw [Arena.context_insert_self] at hd
    cases hd
    exact hc
  · rw [Arena.context_insert_of_ne _ heq] at hd
    exact h other d hd

/-- A replacement keeps the declared parameters if it may replace what they are bound to. -/
theorem Declares.replaced {operation value : TypeExpr}
    (hP : ∀ id p b, P id p b → b.value = operation → P id p (.terminal value id))
    (hs : s.Declares P) (id : ContextId) :
    Declares P { s with arena := s.arena.replaced id operation value } := by
  have hI : Arena.Replacing operation value (fun a => Declares P ⟨a, s.params⟩) (fun _ => True)
      (fun id name => ∀ p, lastNamed? (s.params id) name = some p → P id p (.terminal value id))
      fun _ => True := by
    refine ⟨fun {a id c name b} ha _ hc hb hvalue => ⟨fun p hp => ?_, fun _ => trivial⟩,
      fun {a id c name} ha _ hname hc => ha.insert ?_, fun _ _ => .inr trivial, fun _ => trivial⟩
    · obtain ⟨b', hb', -, hPb⟩ := (ha id c hc).bound name p hp _ c.current_mem_states
      cases hb.symm.trans hb'
      exact hP id p b hPb hvalue
    · refine (ha id c hc).mapCurrent rfl rfl fun other p b hp hb hterminal hPb => ?_
      by_cases h : name = other
      · subst h
        exact ⟨_, BindingState.binding?_bind_self .., rfl, hname p hp⟩
      · exact ⟨b, (BindingState.binding?_bind_of_ne _ h _).trans hb, hterminal, hPb⟩
  exact hI.replaced trivial hs

theorem Step.declares (hself : ∀ id p, P id p (.terminal (.param p) id))
    (hreplace : ∀ here operation value, call = .replace here operation value →
      ∀ id p b, P id p b → b.value = operation → P id p (.terminal value id))
    (h : s.Step call t) (hs : s.Declares P) : t.Declares P := by
  cases h with
  | unchanged ha =>
    intro id c hc
    exact hs id c ((Arena.context_congr ha id).symm.trans hc)
  | @fresh counter parent signature new a ha hparent =>
    intro id c hc
    by_cases h : new = id
    · subst h
      rw [Arena.context_insert_self] at hc
      cases hc
      simp only [Function.update_self]
      exact .fresh (hself new) parent signature
    · rw [Arena.context_insert_of_ne _ h, Arena.context_congr ha] at hc
      simp only [Function.update_of_ne (Ne.symm h)]
      exact hs id c hc
  | rearranged hc hd => exact hs.insert ((hs _ _ hc).rearranged hd)
  | @registered call q _ =>
    intro id d hd
    have hframed := Registration.register_framed (s.arena.maxDepth + 1) q { arena := s.arena }
    obtain ⟨c, hc⟩ := hframed.of_context id d hd
    obtain ⟨d', hd', hcd⟩ := hframed.context id c hc
    cases hd.symm.trans hd'
    exact (hs id c hc).framed hcd
  | replaced => exact hs.replaced (hreplace _ _ _ rfl) _

end Session

/-- A parameter that is bound to itself by its own context has itself as its value. -/
theorem Arena.resolveParameter_self {a : Arena} {id : ContextId} {c : Context} {name : String}
    {v : TypeExpr} (hc : a.context id = .ok c)
    (hb : c.current.binding? name = some (.terminal v id)) :
    a.resolveParameter id name = .ok (some v) := by
  have hhop : a.hop? id (.terminal v id) = .ok none := by
    unfold hop?
    split
    · rfl
    · exact if_pos rfl
  simp only [resolveParameter, binding?, hc, bind, Except.bind, pure, Except.pure, hb,
    follow_of_hop_none hhop, Binding.value]

/-- In each state of each context that a session makes, the parameters declared there are bound for
good. If no bare parameter is replaced, such a parameter is bound, in its own context, to itself as
declared last under its name, and that is its value within any depth limit. -/
theorem declared_self_bound (start : Session) (hstart : start.arena.contexts = ∅)
    (calls : List Call) :
    ∀ id c, (start.run calls).arena.context id = .ok c → ∀ name ∈ c.declared,
      (∀ s ∈ c.states, ∃ b : Binding TypeExpr, s.binding? name = some b ∧ b.isTerminal)
      ∧ ((∀ here p value, .replace here (.param p) value ∉ calls) →
        ∃ p, lastNamed? ((start.run calls).params id) name = some p
          ∧ (∀ s ∈ c.states, s.binding? name = some (.terminal (TypeExpr.param p) id))
          ∧ ∀ limit, { (start.run calls).arena with maxDepth := limit }.resolveParameter id name
            = .ok (some (TypeExpr.param p))) := by
  have hempty : ∀ P, start.Declares P := fun P id c hc => by
    simp [Arena.context_eq_ok_iff, hstart] at hc
  intro id c hc name hname
  have hbound := Session.run_induction (P := Session.Declares fun _ _ _ => True) calls start
    (fun _ _ _ _ h => h.declares (fun _ _ => trivial) fun _ _ _ _ _ _ _ _ _ => trivial) (hempty _)
    id c hc
  rw [hbound.declared, Std.ExtTreeSet.mem_ofList] at hname
  obtain ⟨p, hp⟩ := exists_lastNamed? (List.contains_iff_mem.1 hname)
  refine ⟨fun s hs => ?_, fun hcalls => ⟨p, hp, ?_⟩⟩
  · obtain ⟨b, hb, hterminal, -⟩ := hbound.bound name p hp s hs
    exact ⟨b, hb, hterminal⟩
  · have hself := Session.run_induction
      (P := Session.Declares fun id p b => b = .terminal (TypeExpr.param p) id) calls start
      (fun call hcall _ _ h => h.declares (fun _ _ => rfl) fun here operation value heq _ p b hb
        hvalue => by
          subst hb hvalue heq
          exact absurd hcall (hcalls here p value)) (hempty _) id c hc
    have hstates : ∀ s ∈ c.states, s.binding? name = some (.terminal (TypeExpr.param p) id) := by
      intro s hs
      obtain ⟨b, hb, -, rfl⟩ := hself.bound name p hp s hs
      exact hb
    exact ⟨hstates, fun limit =>
      Arena.resolveParameter_self (c := c) hc (hstates _ c.current_mem_states)⟩

/-- A context declares two parameters of one name, is told of a type for it, and has that type
replaced. -/
def callsNamedAlike : List Call :=
  [.newContext ⟨1025⟩ none (some ⟨"pair", [⟨"T", .covariant⟩, ⟨"T", .invariant⟩]⟩), .pushCopy 1,
    .register 1 (.param ⟨"T", .covariant⟩) (some (.atom "String")) 1 false,
    .replace 1 (.atom "String") (.atom "Number")]

/-- The last one of two parameters of one name stays, whatever is learnt or replaced. -/
theorem declared_self_bound_last :
    let s := Session.run ⟨.withFirstId .preloaded 1, fun _ => []⟩ callsNamedAlike
    ∃ c, s.arena.context 1 = .ok c ∧ c.states.length = 2
      ∧ ∀ t ∈ c.states, t.binding? "T" = some (.terminal (TypeExpr.param ⟨"T", .invariant⟩) 1) := by
  intro s
  obtain ⟨c, hc, hdeclared, hlength⟩ : ∃ c, s.arena.context 1 = .ok c ∧ "T" ∈ c.declared
      ∧ c.states.length = 2 :=
    ⟨_, by with_unfolding_all rfl, by with_unfolding_all decide, by with_unfolding_all rfl⟩
  have hbare : ∀ here p value, Call.replace here (.param p) value ∉ callsNamedAlike := by
    simp [callsNamedAlike, TypeExpr.atom]
  obtain ⟨p, hp, hself, -⟩ := (declared_self_bound _ rfl callsNamedAlike 1 c hc "T" hdeclared).2
    hbare
  cases hp
  exact ⟨c, hc, hlength, hself⟩

end ScopedInference
