import ScopedInference.Proofs.Arena.Closed
import ScopedInference.Proofs.Registration.Learning
import ScopedInference.Proofs.Registration.Series
import ScopedInference.Proofs.Registration.Trials

/-!
# The bottom type

A concrete value absorbs the bottom type, arguments of the bottom class apart (`absorbed`). The
binding that is left holds the same value, but the target owns it from then on. What it passes on
when it meets another value is told to the owner; so the bottom type makes a difference to what
comes later just where the value is one that passes something on and the owner is another one
(`bottom_absorbed`).
-/

namespace ScopedInference

/-- What a value is once it has met the bottom type. -/
def TypeExpr.absorbed (t : TypeExpr) : TypeExpr := if t.isBottom then .bottom else t

/-! ### Decisions -/

section

variable {h : Hierarchy} {owner : ContextId} {name : String} {t v : TypeExpr}

theorem not_passesOn_bottom : ¬ h.PassesOn .bottom := by
  rintro (⟨-, htypes⟩ | ⟨-, t, ht, -⟩)
  · exact htypes rfl
  · cases ht

theorem TypeExpr.isConcrete_absorbed (ht : t.isConcrete) : t.absorbed.isConcrete := by
  unfold absorbed
  split
  · rfl
  · exact ht

theorem isBottom_eq_true : t.isBottom ↔ ∃ c, t = .classType c ∧ c.head = .nil := by
  cases t <;> simp [TypeExpr.isBottom, TypeExpr.head?]

/-- A value of the bottom class gives way to any other. -/
theorem merge_of_isBottom (ht : t.isBottom) (hv : v.isConcrete) :
    h.merge .covariant .degrade t v = .ok v := by
  obtain ⟨c, rfl, hc⟩ := isBottom_eq_true.1 ht
  exact Hierarchy.mergeWithin_bottom _ _ hc hv

theorem merge_bottom (ht : t.isConcrete) :
    h.merge .covariant .degrade t .bottom = .ok t.absorbed := by
  unfold TypeExpr.absorbed
  split
  · exact merge_of_isBottom ‹_› rfl
  · rename_i hbottom
    have hne : t ≠ .bottom := by
      rintro rfl
      exact hbottom rfl
    unfold Hierarchy.merge Hierarchy.mergeWithin
    rw [if_neg hne, ht]
    exact (if_neg hbottom).trans (if_pos rfl)

theorem functionForwards_bottom : functionForwards h owner t .bottom = [] := by
  cases t <;> simp [functionForwards, TypeExpr.bottom, TypeExpr.atom]

theorem argumentForwards_absorbed : argumentForwards owner t t.absorbed = [] := by
  unfold TypeExpr.absorbed
  split
  · cases t <;> simp [argumentForwards, TypeExpr.bottom, TypeExpr.atom]
  · exact argumentForwards_self owner t

/-- Nothing follows from meeting the bottom type. -/
theorem mergeDecision_bottom (h : Hierarchy) (name : String) (owner : ContextId)
    (ht : t.isConcrete) :
    ∃ d, mergeDecision h ⟨name, .covariant⟩ owner t .bottom = .ok d
      ∧ d.value? = some t.absorbed ∧ d.forwards = [] := by
  obtain ⟨d, hd, hvalue, hforwards⟩ := mergeDecision_of_merge (p := ⟨name, .covariant⟩) owner
    (by simp [TypeExpr.bottom, TypeExpr.atom]) (merge_bottom (h := h) ht)
  exact ⟨d, hd, hvalue, by rw [hforwards, functionForwards_bottom, argumentForwards_absorbed]; rfl⟩

theorem mergeDecision_of_isBottom {d : Decision TypeExpr} (ht : t.isBottom) (hv : v.isConcrete)
    (hd : mergeDecision h ⟨name, .covariant⟩ owner t v = .ok d) : d.value? = some v := by
  rcases mergeDecision_cases hd with ⟨l, r, rfl, -⟩ | ⟨-, m, hm, hvalue, -⟩
  · cases ht
  · rw [merge_of_isBottom ht hv] at hm
    cases hm
    exact hvalue

/-- What two values come to does not depend on whether the first one has met the bottom type, nor on
who owns it. -/
theorem mergeDecision_absorbed {owner' : ContextId} {d d' : Decision TypeExpr} (hv : v.isConcrete)
    (hd : mergeDecision h ⟨name, .covariant⟩ owner t v = .ok d)
    (hd' : mergeDecision h ⟨name, .covariant⟩ owner' t.absorbed v = .ok d') :
    d'.value? = d.value? := by
  unfold TypeExpr.absorbed at hd'
  split at hd'
  · rename_i ht
    rw [mergeDecision_of_isBottom ht hv hd, mergeDecision_of_isBottom rfl hv hd']
  · rcases mergeDecision_cases hd with ⟨l, r, rfl, rfl, -, hvalue⟩ | ⟨hne, m, hm, hvalue, -⟩ <;>
      rcases mergeDecision_cases hd' with
        ⟨l', r', heq, heq', -, hvalue'⟩ | ⟨hne', m', hm', hvalue', -⟩
    · cases heq
      cases heq'
      rw [hvalue, hvalue']
    · exact absurd rfl (hne' l r rfl)
    · exact absurd heq' (hne l' r' heq)
    · cases hm.symm.trans hm'
      rw [hvalue, hvalue']

end

/-! ### Registrations -/

namespace Arena

variable {a b : Arena} {id target owner : ContextId} {name : String} {t v : TypeExpr} {merge : Bool}
  {c : Context}

/-- A decision that passes nothing on is all that a registration does. -/
theorem registers_decided {p : TypeParam} {d : Decision TypeExpr} (hc : a.context id = .ok c)
    (hv : v.isConcrete)
    (hd : typeDecision a.hierarchy id target p c.onTrial merge (c.current.binding? p.name) v
      = .ok d) (hnone : d.forwards = []) :
    a.Registers (.type id (.param p) (some v) target merge) b
      ↔ a.Has target ∧ b = Registration.settled a id target c p.name d := by
  by_cases htarget : a.Has target
  · obtain ⟨there, hthere⟩ := htarget
    obtain ⟨s, hs, hdecided⟩ := Registration.register_param_decided (n := a.maxDepth)
      (r := { arena := a }) hc hthere hv hd hnone
    constructor
    · rintro ⟨s', hs', rfl⟩
      cases hs.symm.trans hs'
      exact ⟨⟨there, hthere⟩, hdecided.arena⟩
    · rintro ⟨-, rfl⟩
      exact ⟨s, hs, hdecided.arena⟩
  · refine ⟨?_, fun h => absurd h.1 htarget⟩
    rintro ⟨s, hs, -⟩
    have hmissing : a.firstMissing? [id, target] = some target :=
      firstMissing?_pair.2 (.inr ⟨⟨c, hc⟩, htarget, rfl⟩)
    cases (register_missing (q := .type id (.param p) (some v) target merge) (by simp)
      hmissing).symm.trans hs

/-- What two concrete values come to, where nothing follows from it. -/
theorem registers_merged {d : Decision TypeExpr} (hc : a.context id = .ok c)
    (hb : c.current.binding? name = some (.bound t owner)) (ht : t.isConcrete) (hv : v.isConcrete)
    (hd : mergeDecision a.hierarchy ⟨name, .covariant⟩ owner t v = .ok d)
    (hnone : d.forwards = []) :
    a.Registers (.type id (.param ⟨name, .covariant⟩) (some v) target merge) b
      ↔ a.Has target ∧ ∃ m, d.value? = some m
        ∧ b = a.insert id (c.mapCurrent (·.bind name (.bound m target))) := by
  have hdecision : typeDecision a.hierarchy id target ⟨name, .covariant⟩ c.onTrial merge
      (c.current.binding? name) v = .ok d := by
    rw [hb, typeDecision_concrete ht hv, hd]
  obtain ⟨m, hm⟩ : ∃ m, d.value? = some m := by
    rcases mergeDecision_cases hd with ⟨_, _, -, -, -, hvalue⟩ | ⟨-, m, -, hvalue, -⟩
    · exact ⟨_, hvalue⟩
    · exact ⟨m, hvalue⟩
  rw [registers_decided hc hv hdecision hnone, Registration.settled_eq hc, hm]
  simp only [Option.elim_some, Option.some.injEq, exists_eq_left']

/-- The bottom type only makes the target the owner of what is there. -/
theorem registers_bottom (hc : a.context id = .ok c)
    (hb : c.current.binding? name = some (.bound t owner)) (ht : t.isConcrete) :
    a.Registers (.type id (.param ⟨name, .covariant⟩) (some .bottom) target merge) b
      ↔ a.Has target ∧ b = a.insert id (c.mapCurrent (·.bind name (.bound t.absorbed target))) := by
  obtain ⟨d, hd, hvalue, hnone⟩ := mergeDecision_bottom a.hierarchy name owner ht
  rw [registers_merged hc hb ht rfl hd hnone, hvalue]
  simp only [Option.some.injEq, exists_eq_left']

/-- A later value finds nothing else than it would have found, unless the value passes something on
and the owner is another one. -/
theorem registers_after_bottom (hc : a.context id = .ok c)
    (hb : c.current.binding? name = some (.bound t owner)) (ht : t.isConcrete) (hv : v.isConcrete)
    (hsilent : target = owner ∧ ¬ t.isBottom ∨ ¬ a.hierarchy.PassesOn t) (target' : ContextId)
    (merge' : Bool) (b : Arena) :
    (a.insert id (c.mapCurrent (·.bind name (.bound t.absorbed target)))).Registers
        (.type id (.param ⟨name, .covariant⟩) (some v) target' merge') b
      ↔ a.Registers (.type id (.param ⟨name, .covariant⟩) (some v) target' merge') b := by
  rcases hsilent with ⟨rfl, hbottom⟩ | hpasses
  · -- The binding is what it was.
    have hsame : c.mapCurrent (·.bind name (.bound t.absorbed target)) = c := by
      rw [TypeExpr.absorbed, if_neg hbottom]
      exact congrArg (fun s => { c with current := s }) (BindingState.bind_of_binding? hb)
    rw [hsame, insert_of_context hc]
  · have hpasses' : ¬ a.hierarchy.PassesOn t.absorbed := by
      unfold TypeExpr.absorbed
      split
      · exact not_passesOn_bottom
      · exact hpasses
    obtain ⟨d, hd⟩ := exists_mergeDecision a.hierarchy ⟨name, .covariant⟩ owner t v
    obtain ⟨d', hd'⟩ := exists_mergeDecision a.hierarchy ⟨name, .covariant⟩ target t.absorbed v
    have hnone : d.forwards = [] := List.eq_nil_iff_forall_not_mem.2 fun f hf =>
      hpasses (mergeDecision_passesOn hd hf)
    have hnone' : d'.forwards = [] := List.eq_nil_iff_forall_not_mem.2 fun f hf =>
      hpasses' (mergeDecision_passesOn hd' hf)
    rw [registers_merged hc hb ht hv hd hnone,
      registers_merged (context_insert_self a id _) (BindingState.binding?_bind_self _ _ _)
        (TypeExpr.isConcrete_absorbed ht) hv hd' hnone', mergeDecision_absorbed hv hd hd',
      has_insert ⟨c, hc⟩]
    simp only [insert_insert, Context.mapCurrent, BindingState.bind_bind]

end Arena

/-! ### All arguments are the top type -/

/-- The class type with the top type for all its arguments. -/
def ClassType.topped (e : ClassType) : TypeExpr := .classType (ClassType.mapTypes e fun _ => .top)

theorem ClassType.isFullyConcrete_topped (e : ClassType) :
    (ClassType.topped e).isFullyConcrete := by
  simp [ClassType.topped, ClassType.mapTypes, TypeExpr.isFullyConcrete, TypeExpr.top, TypeExpr.atom]

/-- What follows is that arguments are the top type, and a parameter among them is. -/
theorem mergeDecision_topped {h : Hierarchy} (name : String) (owner : ContextId) {e : ClassType}
    {q : TypeParam} (hpasses : h.PassesOn (.classType e)) (hq : .param q ∈ e.types) :
    ∃ d, mergeDecision h ⟨name, .covariant⟩ owner (.classType e) e.topped = .ok d
      ∧ ⟨owner, .param q, .top⟩ ∈ d.forwards
      ∧ ∀ f ∈ d.forwards, f.context = owner ∧ f.template ∈ e.types ∧ f.value = .top := by
  obtain ⟨d, hd⟩ := exists_mergeDecision h ⟨name, .covariant⟩ owner (.classType e) e.topped
  refine ⟨d, hd, ?_⟩
  obtain ⟨l, r, heq, -⟩ | ⟨-, m, hm, -, hforwards⟩ := mergeDecision_cases hd
  · cases heq
  rw [hforwards]
  constructor
  · rcases hpasses with ⟨hclass, htypes⟩ | ⟨hhead, -⟩
    · refine List.mem_append_left _ ?_
      have hlength : (e.types.map fun _ => TypeExpr.top).length = e.types.length :=
        List.length_map _
      obtain ⟨u, hu⟩ := exists_mem_zipWith owner hlength hq
      obtain ⟨-, -, rfl⟩ := List.mem_map.1 (mem_zipWith_forward hu).2
      simpa [functionForwards, ClassType.topped, ClassType.mapTypes, hclass] using hu
    · exact List.mem_append_right _ (merge_mapTypes_forward owner hq rfl rfl hhead hm).1
  · intro f hf
    rcases List.mem_append.1 hf with hf | hf
    · obtain ⟨c, v, heq, heq', -, hmem⟩ := of_functionForwards hf
      cases heq
      cases heq'
      obtain ⟨htemplate, hvalue⟩ := mem_zipWith_forward hmem
      obtain ⟨-, -, hvalue⟩ := List.mem_map.1 hvalue
      exact ⟨mergeDecision_forward hd f (hforwards ▸ List.mem_append_left _ hf), htemplate,
        hvalue.symm⟩
    · obtain ⟨c, after, heq, -, -, hmem, hopen, -⟩ := of_argumentForwards hf
      cases heq
      have hhead : h.KeepsClass e.head := by
        obtain ⟨c, heq, -, ⟨hnil, -⟩ | ⟨hany, hself, -⟩⟩ := merge_argument hm hf <;> cases heq
        · exact .inl hnil
        · exact .inr ⟨hany, hself⟩
      exact ⟨mergeDecision_forward hd f (hforwards ▸ List.mem_append_right _ hf),
        (mem_zipWith_forward hmem).1,
        ((merge_mapTypes_forward owner hq rfl rfl hhead hm).2 f hf).of_top hopen⟩

section

open Registration

variable {base : Arena} {id target : ContextId} {names : String → Prop} {merge : Bool} {n : Nat}

/-- A context learns of some parameters that they are the top type. Nothing was known of them. -/
def topping (base : Arena) (id target : ContextId) (names : String → Prop) : Progress where
  hierarchy := base.hierarchy
  holds seen a := a.hierarchy = base.hierarchy ∧ a.Has id ∧ a.Has target
    ∧ (∀ other, other ≠ id → a.context other = base.context other)
    ∧ ∀ name, names name → a.binding? id name
      = .ok (if .type name ∈ seen then some (.bound TypeExpr.top target) else none)
  sure _ := True
  hierarchy_eq h := h.1
  sure_left _ := trivial

theorem topping_has : (topping base id target names).Has id := fun _ _ _ h => h.2.1

theorem topping_has_target : (topping base id target names).Has target := fun _ _ _ h => h.2.2.1

/-- A parameter meets the top type for the first time or again. -/
theorem typeDecision_topping (h : Hierarchy) (id target : ContextId) (p : TypeParam)
    (onTrial merge seen : Bool) :
    ∃ d, typeDecision h id target p onTrial merge
        (if seen then some (.bound TypeExpr.top target) else none) .top = .ok d
      ∧ d.value? = some .top ∧ d.forwards = [] := by
  cases seen with
  | false => exact ⟨_, rfl, rfl, rfl⟩
  | true =>
    refine ⟨_, (typeDecision_concrete rfl rfl).trans (mergeDecision_self h p target
      (by simp [TypeExpr.top, TypeExpr.atom])), rfl, ?_⟩
    simp [functionForwards, TypeExpr.top, TypeExpr.atom]

theorem topping_parameter {p : TypeParam} (hp : names p.name) :
    (topping base id target names).Meets
      (register (n + 1) (.type id (.param p) (some .top) target merge)) [.type p.name] := by
  rintro seen r ⟨hhierarchy, ⟨c, hc⟩, ⟨there, hthere⟩, hothers, hnames⟩
  have hknown := (Arena.binding?_of_context hc).1 (hnames p.name hp)
  obtain ⟨d, hd, hvalue, hnone⟩ := typeDecision_topping r.arena.hierarchy id target p c.onTrial
    merge (decide (.type p.name ∈ seen))
  simp only [decide_eq_true_eq, ← hknown] at hd
  obtain ⟨s, hs, hdecided⟩ := register_param_decided (n := n) hc hthere rfl hd hnone
  refine ⟨fun s' hs' => ?_, fun _ => ⟨s, hs⟩⟩
  cases hs.symm.trans hs'
  refine ⟨hdecided.hierarchy_eq.trans hhierarchy, hdecided.exists_context ⟨c, hc⟩,
    hdecided.exists_context ⟨there, hthere⟩, fun other hne => ?_, fun name hname => ?_⟩
  · rw [hdecided.arena, context_settled_of_ne hc (Ne.symm hne), hothers other hne]
  · by_cases heq : name = p.name
    · subst heq
      rw [hdecided.arena, binding?_settled hvalue, if_pos (by simp)]
    · rw [hdecided.arena, binding?_settled_of_ne hc (fun _ => heq), hnames name hname]
      simp [heq]

theorem topping_concrete {t : TypeExpr} (ht : t.isConcrete) :
    (topping base id target names).Meets
      (register (n + 1) (.type id t (some .top) target merge)) [] := by
  refine .register_type topping_has topping_has_target (fun here there => ?_) ?_
  · rw [stepEquality_eq_pure (.inr (TypeExpr.ne_equality rfl))]
    exact .pure
  · have hpure : stepTemplate (register n) id t .top target merge = pure () := by
      cases t with
      | param _ => cases ht
      | operation _ _ _ => cases ht
      | _ =>
        simp [stepTemplate, isExtremum, TypeExpr.isTop, TypeExpr.top, TypeExpr.atom, TypeExpr.head?]
    rw [hpure]
    exact .pure

/-- The parameter that a fact is about. -/
def Request.parameter : Request → List Parameter
  | .type _ (.param p) _ _ _ => [.type p.name]
  | _ => []

/-- All facts are learnt without fail. -/
theorem topping_forwards {l : List (Forward TypeExpr)}
    (hl : ∀ f ∈ l, f.context = id ∧ f.value = .top
      ∧ (f.template.isConcrete ∨ ∃ p, f.template = .param p ∧ names p.name)) :
    (topping base id target names).Meets
      (forwardAll (register (n + 1))
        (l.map fun f => .type f.context f.template (some f.value) target merge))
      ((l.map fun f => .type f.context f.template (some f.value) target merge).flatMap
        Request.parameter) := by
  refine .forwardAll fun q hq => ?_
  obtain ⟨⟨_, t, _⟩, hf, rfl⟩ := List.mem_map.1 hq
  obtain ⟨rfl, rfl, ht | ⟨p, rfl, hp⟩⟩ := hl _ hf
  · cases t with
    | param _ => cases ht
    | _ => exact topping_concrete ht
  · exact topping_parameter hp

end

/-! ### Two runs -/

namespace Arena

/-- A context is there and has not bound a name. -/
def Unbound (a : Arena) (id : ContextId) (name : String) : Prop :=
  a.binding? id name = .ok (none : Option (Binding TypeExpr))

/-- Arguments are concrete, or parameters that the context has not bound. -/
def OpenIn (a : Arena) (id : ContextId) (e : ClassType) : Prop :=
  ∀ t ∈ e.types, t.isConcrete ∨ ∃ p, t = .param p ∧ a.Unbound id p.name

variable {a : Arena} {id owner target : ContextId} {name : String} {e : ClassType} {q : TypeParam}
  {c : Context} {merge : Bool}

theorem Unbound.ne {t : Binding TypeExpr} {other : ContextId} {name' : String}
    (h : a.Unbound other name') (hb : a.binding? id name = .ok (some t)) (heq : other = id) :
    name' ≠ name := by
  rintro rfl
  subst heq
  cases hb.symm.trans h

theorem Unbound.has (h : a.Unbound id name) : a.Has id := by
  obtain ⟨c, hc, -⟩ := binding?_eq_ok.1 h
  exact ⟨c, hc⟩

theorem OpenIn.unbound (h : a.OpenIn owner e) (hq : .param q ∈ e.types) :
    a.Unbound owner q.name := by
  rcases h _ hq with hconcrete | ⟨p, heq, hp⟩
  · cases hconcrete
  · cases heq
    exact hp

/-- What has been passed on is learnt, by the owner only. -/
theorem forwards_topped (n : Nat) (merge : Bool) {r : Run} {l : List (Forward TypeExpr)}
    (howner : r.arena.Has owner) (htarget : r.arena.Has target)
    (hl : ∀ f ∈ l, f.context = owner ∧ f.value = .top
      ∧ (f.template.isConcrete ∨ ∃ p, f.template = .param p ∧ r.arena.Unbound owner p.name))
    (hq : ⟨owner, .param q, .top⟩ ∈ l) (hunbound : r.arena.Unbound owner q.name) :
    ∃ s, Registration.forwardAll (Registration.register (n + 1))
        (l.map fun f => .type f.context f.template (some f.value) target merge) r = .ok () s
      ∧ s.arena.binding? owner q.name = .ok (some (.bound TypeExpr.top target))
      ∧ ∀ other, other ≠ owner → s.arena.context other = r.arena.context other := by
  have hmeets : (topping r.arena owner target (r.arena.Unbound owner)).Meets
      (Registration.forwardAll (Registration.register (n + 1))
        (l.map fun f => .type f.context f.template (some f.value) target merge)) _ :=
    topping_forwards hl
  obtain ⟨hok, hsure⟩ := hmeets [] r ⟨rfl, howner, htarget, fun _ _ => rfl, fun name' hname' => by
    rw [if_neg List.not_mem_nil]
    exact hname'⟩
  obtain ⟨s, hs⟩ := hsure trivial
  obtain ⟨-, -, -, hothers, hlearnt⟩ := hok s hs
  refine ⟨s, hs, ?_, hothers⟩
  rw [hlearnt q.name hunbound, if_pos]
  exact List.mem_flatMap.2 ⟨_, List.mem_map.2 ⟨_, hq, rfl⟩, List.mem_singleton.2 rfl⟩

/-- The owner learns the arguments, and no other context changes but for the value itself. -/
theorem registers_topped (merge : Bool) (hdepth : 1 ≤ a.maxDepth) (hc : a.context id = .ok c)
    (hb : c.current.binding? name = some (.bound (TypeExpr.classType e) owner))
    (hpasses : a.hierarchy.PassesOn (.classType e)) (hq : .param q ∈ e.types)
    (hopen : a.OpenIn owner e) (htarget : a.Has target) :
    ∃ b, a.Registers (.type id (.param ⟨name, .covariant⟩) (some e.topped) target merge) b
      ∧ b.binding? owner q.name = .ok (some (.bound TypeExpr.top target))
      ∧ ∀ other name', other ≠ owner → (other = id → name' ≠ name) → b.binding? other name'
        = (a.binding? other name' : Except _ (Option (Binding TypeExpr))) := by
  have hbinding : a.binding? id name = .ok (some (.bound (TypeExpr.classType e) owner)) :=
    (binding?_of_context hc).2 hb
  obtain ⟨n, hn⟩ : ∃ n, a.maxDepth = n + 1 := ⟨a.maxDepth - 1, by omega⟩
  obtain ⟨there, hthere⟩ := htarget
  obtain ⟨d, hd, hqforward, hforwards⟩ := mergeDecision_topped name owner hpasses hq
  have hdecision : typeDecision a.hierarchy id target ⟨name, .covariant⟩ c.onTrial merge
      (c.current.binding? name) e.topped = .ok d := by
    rw [hb, typeDecision_concrete rfl rfl, hd]
  obtain ⟨r, harena, happly⟩ := Registration.register_param_apply (n := n + 1) (r := { arena := a })
    hc hthere (.inr (TypeExpr.ne_equality rfl)) hdecision
  have hsettled : ∀ other name', (other = id → name' ≠ name) → r.arena.binding? other name'
      = (a.binding? other name' : Except _ (Option (Binding TypeExpr))) := fun other name' hne =>
    harena ▸ Registration.binding?_settled_of_ne hc hne target d
  have hunbound : ∀ name', a.Unbound owner name' → r.arena.Unbound owner name' :=
    fun name' h => (hsettled owner name' (h.ne hbinding)).trans h
  have htarget : r.arena.Has target := by
    rw [harena, Registration.settled_eq hc]
    exact exists_context_insert _ ⟨there, hthere⟩
  have howner := hunbound q.name (hopen.unbound hq)
  obtain ⟨s, hs, hlearnt, hothers⟩ := forwards_topped n merge howner.has htarget
    (fun f hf => by
      obtain ⟨hcontext, htemplate, hvalue⟩ := hforwards f hf
      refine ⟨hcontext, hvalue, (hopen _ htemplate).imp_right fun ⟨p, heq, hp⟩ => ?_⟩
      exact ⟨p, heq, hunbound p.name hp⟩) hqforward howner
  refine ⟨s.arena, ⟨s, ?_, rfl⟩, hlearnt, fun other name' hne hname' => ?_⟩
  · show Registration.register (a.maxDepth + 1) _ _ = _
    rw [hn, happly, hs]
  · rw [← hsettled other name' hname']
    simp only [binding?, hothers other hne]

theorem binding?_bind_of_ne (hc : a.context id = .ok c) {other : ContextId} {name' : String}
    (hne : other = id → name' ≠ name) (t : TypeExpr) (target : ContextId) :
    (a.insert id (c.mapCurrent (·.bind name (.bound t target)))).binding? other name'
      = (a.binding? other name' : Except _ (Option (Binding TypeExpr))) :=
  Registration.binding?_settled_of_ne hc hne target { value? := some t }

/-- A value takes the place of the bottom type, and that is all. -/
theorem registers_over_bottom {v : TypeExpr} {b : Arena} (hc : a.context id = .ok c)
    (hb : c.current.binding? name = some (.bound TypeExpr.bottom owner)) (hv : v.isConcrete) :
    a.Registers (.type id (.param ⟨name, .covariant⟩) (some v) target merge) b
      ↔ a.Has target ∧ b = a.insert id (c.mapCurrent (·.bind name (.bound v target))) := by
  obtain ⟨d, hd⟩ := exists_mergeDecision a.hierarchy ⟨name, .covariant⟩ owner .bottom v
  have hnone : d.forwards = [] := List.eq_nil_iff_forall_not_mem.2 fun f hf =>
    not_passesOn_bottom (mergeDecision_passesOn hd hf)
  rw [registers_merged hc hb rfl hv hd hnone, mergeDecision_of_isBottom rfl hv hd]
  simp only [Option.some.injEq, exists_eq_left']

/-- After the bottom type, the target learns the arguments in the owner's place, or nobody does. -/
theorem registers_topped_after_bottom {target' : ContextId} (merge : Bool)
    (hdepth : 1 ≤ a.maxDepth) (hc : a.context id = .ok c)
    (hb : c.current.binding? name = some (.bound (TypeExpr.classType e) owner))
    (hpasses : a.hierarchy.PassesOn (.classType e)) (hq : .param q ∈ e.types)
    (howner : a.Unbound owner q.name) (hopen : a.OpenIn target e)
    (hother : target = owner → (TypeExpr.classType e).isBottom) (htarget : a.Has target') :
    ∃ b, (a.insert id (c.mapCurrent (·.bind name
        (.bound (TypeExpr.classType e).absorbed target)))).Registers
          (.type id (.param ⟨name, .covariant⟩) (some (ClassType.topped e)) target' merge) b
      ∧ b.Unbound owner q.name := by
  have hbinding : a.binding? id name = .ok (some (.bound (TypeExpr.classType e) owner)) :=
    binding?_eq_ok.2 ⟨c, hc, hb⟩
  have hsame : ∀ {other name'} t, a.Unbound other name' →
      (a.insert id (c.mapCurrent (·.bind name (.bound t target)))).Unbound other name' :=
    fun t h => (binding?_bind_of_ne hc (h.ne hbinding) t target).trans h
  by_cases hbottom : (TypeExpr.classType e).isBottom
  · rw [show (TypeExpr.classType e).absorbed = .bottom from if_pos hbottom]
    refine ⟨_, (registers_over_bottom (context_insert_self a id _)
      (BindingState.binding?_bind_self _ _ _) rfl).2 ⟨exists_context_insert _ htarget, rfl⟩, ?_⟩
    refine (binding?_bind_of_ne (context_insert_self a id _) (howner.ne hbinding) _ _).trans
      (hsame _ howner)
  · rw [show (TypeExpr.classType e).absorbed = .classType e from if_neg hbottom]
    have hopen' : (a.insert id (c.mapCurrent (·.bind name
        (.bound (TypeExpr.classType e) target)))).OpenIn target e := fun t ht =>
      (hopen t ht).imp_right fun ⟨p, heq, hp⟩ => ⟨p, heq, hsame _ hp⟩
    obtain ⟨b, hregisters, -, hothers⟩ := registers_topped (a := a.insert id _) merge
      hdepth (context_insert_self a id _) (BindingState.binding?_bind_self _ _ _) hpasses hq hopen'
      (exists_context_insert _ htarget)
    refine ⟨b, hregisters, (hothers owner q.name (fun heq => hbottom (hother heq.symm))
      (howner.ne hbinding)).trans (hsame _ howner)⟩

end Arena

/-- The bottom type that meets a concrete value leaves it, but for arguments of the bottom class,
and makes the target its owner. What is registered after it comes to the same as without it, if the
target is the owner already or the value passes nothing on. Otherwise it matters whether the bottom
type came before: where arguments of the value are parameters that neither context has bound, some
value tells the owner of them without it, and does not tell the owner after it. -/
theorem bottom_absorbed {a : Arena} {id owner : ContextId} {name : String} {t : TypeExpr}
    (hb : a.binding? id name = .ok (some (.bound t owner))) (ht : t.isConcrete)
    (target : ContextId) :
    (∀ merge b, a.Registers (.type id (.param ⟨name, .covariant⟩) (some .bottom) target merge) b
      ↔ a.Has target ∧ ∃ c, a.context id = .ok c
        ∧ b = a.insert id (c.mapCurrent (·.bind name (.bound t.absorbed target))))
    ∧ (target = owner ∧ ¬ t.isBottom ∨ ¬ a.hierarchy.PassesOn t →
      ∀ merge b, a.Registers (.type id (.param ⟨name, .covariant⟩) (some .bottom) target merge) b →
      ∀ v target' merge' b', v.isConcrete →
        (b.Registers (.type id (.param ⟨name, .covariant⟩) (some v) target' merge') b'
          ↔ a.Registers (.type id (.param ⟨name, .covariant⟩) (some v) target' merge') b'))
    ∧ ∀ e q, t = .classType e → .param q ∈ e.types → a.OpenIn owner e → a.OpenIn target e →
      1 ≤ a.maxDepth → ¬ (target = owner ∧ ¬ t.isBottom ∨ ¬ a.hierarchy.PassesOn t) →
      ∃ v : TypeExpr, v.isFullyConcrete ∧ ∀ target', a.Has target' → ∀ merge merge', ∃ b b' b'',
        a.Registers (.type id (.param ⟨name, .covariant⟩) (some .bottom) target merge) b
        ∧ b.Registers (.type id (.param ⟨name, .covariant⟩) (some v) target' merge') b'
        ∧ a.Registers (.type id (.param ⟨name, .covariant⟩) (some v) target' merge') b''
        ∧ b'.binding? owner q.name = .ok (none : Option (Binding TypeExpr))
        ∧ b''.binding? owner q.name = .ok (some (.bound TypeExpr.top target')) := by
  obtain ⟨c, hc, hcb⟩ := Arena.binding?_eq_ok.1 hb
  have hbottom : ∀ merge b,
      a.Registers (.type id (.param ⟨name, .covariant⟩) (some .bottom) target merge) b
        ↔ a.Has target ∧ b = a.insert id (c.mapCurrent (·.bind name (.bound t.absorbed target))) :=
    fun merge b => Arena.registers_bottom hc hcb ht
  refine ⟨fun merge b => ?_, fun hsilent merge b hregisters v target' merge' b' hv => ?_, ?_⟩
  · rw [hbottom, hc]
    simp only [Except.ok.injEq, exists_eq_left']
  · obtain ⟨-, rfl⟩ := (hbottom merge b).1 hregisters
    exact Arena.registers_after_bottom hc hcb ht hv hsilent target' merge' b'
  · rintro e q rfl hq howner htarget hdepth htold
    obtain ⟨hother, hpasses⟩ := not_or.1 htold
    have hhas : a.Has target := (htarget.unbound hq).has
    refine ⟨ClassType.topped e, ClassType.isFullyConcrete_topped e,
      fun target' htarget' merge merge' => ?_⟩
    obtain ⟨b', hb', hnone⟩ := Arena.registers_topped_after_bottom merge' hdepth hc hcb
      (not_not.1 hpasses) hq (howner.unbound hq) htarget
      (fun heq => not_not.1 fun h => hother ⟨heq, h⟩) htarget'
    obtain ⟨b'', hb'', hlearnt, -⟩ := Arena.registers_topped merge' hdepth hc hcb
      (not_not.1 hpasses) hq howner htarget'
    exact ⟨_, b', b'', (hbottom merge _).2 ⟨hhas, rfl⟩, hb', hb'', hnone, hlearnt⟩

/-- A list of elements that the context above has not bound yet, as that context owns it. -/
def Arena.listFromAbove : Arena :=
  ({ hierarchy := .preloaded } : Arena)
    |>.insert 1 (.fresh 1 none none)
    |>.insert 2 { Context.fresh 2 (some 1) none with
      current := ({} : BindingState)
        |>.bind "T" (.bound (TypeExpr.list (.param ⟨"q", .covariant⟩)) 1) }

theorem Arena.noTrials_listFromAbove : listFromAbove.NoTrials := by
  intro id c hc
  by_cases h : 2 = id
  · subst h
    cases hc
    rfl
  rw [listFromAbove, context_insert_of_ne _ h] at hc
  by_cases h' : 1 = id
  · subst h'
    cases hc
    rfl
  · rw [context_insert_of_ne _ h'] at hc
    cases hc

/-- The bottom type makes no difference if the context above stays the owner, but it does if the
context below becomes the owner. -/
theorem bottom_absorbed_list :
    Arena.listFromAbove.binding? 2 "T"
        = .ok (some (.bound (TypeExpr.list (.param ⟨"q", .covariant⟩)) 1))
      ∧ (∃ b, Arena.listFromAbove.Registers
          (.type 2 (.param ⟨"T", .covariant⟩) (some .bottom) 1 false) b
        ∧ ∀ v target' merge' b', v.isConcrete →
          (b.Registers (.type 2 (.param ⟨"T", .covariant⟩) (some v) target' merge') b'
            ↔ Arena.listFromAbove.Registers
              (.type 2 (.param ⟨"T", .covariant⟩) (some v) target' merge') b'))
      ∧ ∃ v : TypeExpr, ∃ b b' b'', v.isFullyConcrete
        ∧ Arena.listFromAbove.Registers
          (.type 2 (.param ⟨"T", .covariant⟩) (some .bottom) 2 false) b
        ∧ b.Registers (.type 2 (.param ⟨"T", .covariant⟩) (some v) 2 false) b'
        ∧ Arena.listFromAbove.Registers (.type 2 (.param ⟨"T", .covariant⟩) (some v) 2 false) b''
        ∧ b'.binding? 1 "q" = .ok (none : Option (Binding TypeExpr))
        ∧ b''.binding? 1 "q" = .ok (some (.bound TypeExpr.top 2)) := by
  have hbound : Arena.listFromAbove.binding? 2 "T"
      = .ok (some (.bound (TypeExpr.list (.param ⟨"q", .covariant⟩)) 1)) := by
    with_unfolding_all rfl
  have hpasses : Arena.listFromAbove.hierarchy.PassesOn (.list (.param ⟨"q", .covariant⟩)) :=
    .inr ⟨.inr ⟨by decide, by with_unfolding_all rfl⟩, _, List.mem_cons_self, rfl⟩
  have hopen : ∀ id, Arena.listFromAbove.Unbound id "q" →
      Arena.listFromAbove.OpenIn id ⟨"List", [.param ⟨"q", .covariant⟩], []⟩ := fun id hid t ht =>
    .inr ⟨⟨"q", .covariant⟩, List.mem_singleton.1 ht, hid⟩
  refine ⟨hbound, ?_, ?_⟩
  · obtain ⟨hbottom, hsilent, -⟩ := bottom_absorbed hbound rfl 1
    have hb := (hbottom false _).2 ⟨⟨_, rfl⟩, _, rfl, rfl⟩
    exact ⟨_, hb, hsilent (.inl ⟨rfl, by decide⟩) false _ hb⟩
  · obtain ⟨v, hv, hruns⟩ := (bottom_absorbed hbound rfl 2).2.2 _ ⟨"q", .covariant⟩ rfl
      List.mem_cons_self (hopen 1 (by with_unfolding_all rfl)) (hopen 2 (by with_unfolding_all rfl))
      (by decide) (by
        rintro (⟨h, -⟩ | h)
        · cases h
        · exact h hpasses)
    obtain ⟨b, b', b'', hb, hb', hb'', hnone, htop⟩ := hruns 2 ⟨_, rfl⟩ false false
    exact ⟨v, b, b', b'', hv, hb, hb', hb'', hnone, htop⟩

/-- After the bottom type, the context above does not learn that the elements are strings. -/
theorem bottom_absorbed_strings :
    ¬ ∀ (a b b' b'' : Arena) (id owner target target' : ContextId) (name : String) (t v : TypeExpr)
      (merge merge' : Bool), a.NoTrials → a.binding? id name = .ok (some (.bound t owner)) →
      t.isConcrete → v.isFullyConcrete →
      a.Registers (.type id (.param ⟨name, .covariant⟩) (some .bottom) target merge) b →
      b.Registers (.type id (.param ⟨name, .covariant⟩) (some v) target' merge') b' →
      a.Registers (.type id (.param ⟨name, .covariant⟩) (some v) target' merge') b'' →
      ∀ other name', (b'.binding? other name' : Except _ (Option (Binding TypeExpr)))
        = b''.binding? other name' := by
  intro h
  obtain ⟨s, s', s'', hs, hs', hs'', hnone, hstring⟩ : ∃ s s' s'' : Run,
      Arena.listFromAbove.register (.type 2 (.param ⟨"T", .covariant⟩) (some .bottom) 2 false)
          = .ok () s
        ∧ s.arena.register (.type 2 (.param ⟨"T", .covariant⟩) (some (.list (.atom "String"))) 2
          false) = .ok () s'
        ∧ Arena.listFromAbove.register
          (.type 2 (.param ⟨"T", .covariant⟩) (some (.list (.atom "String"))) 2 false) = .ok () s''
        ∧ s'.arena.binding? 1 "q" = .ok (none : Option (Binding TypeExpr))
        ∧ s''.arena.binding? 1 "q" = .ok (some (.bound (TypeExpr.atom "String") 2)) :=
    ⟨_, _, _, by with_unfolding_all rfl, by with_unfolding_all rfl, by with_unfolding_all rfl,
      by with_unfolding_all rfl, by with_unfolding_all rfl⟩
  have hsame := h Arena.listFromAbove _ _ _ 2 1 2 2 "T" (.list (.param ⟨"q", .covariant⟩)) _ false
    false Arena.noTrials_listFromAbove (by with_unfolding_all rfl) rfl (by with_unfolding_all rfl)
    ⟨s, hs, rfl⟩ ⟨s', hs', rfl⟩ ⟨s'', hs'', rfl⟩ 1 "q"
  cases hnone.symm.trans (hsame.trans hstring)

end ScopedInference
