import ScopedInference.Proofs.Registration.Values

/-!
# Open bindings in merge mode

In merge mode a parameter that is bound to another parameter stays bound to it, whatever is
registered and whether or not that succeeds, until two function types are tried
(`register_keepsOpen`). These are matched as without merging, so that a type in one of their
positions takes the place of a parameter that the context itself owns
(`register_functions_overwrite`). No other one is lost in either mode (`keepsElsewhere_passage`).
`register_merge_open` puts this together.
-/

namespace ScopedInference

/-- The value is itself a parameter. -/
def Binding.IsOpen (t : Binding TypeExpr) : Prop := ∃ p, t.value = .param p

/-- Two function types have been tried. -/
def Run.TriesFunctions (r : Run) : Prop :=
  ∃ f g id target, Event.trying (.function f) (some (.function g)) id target ∈ r.events

namespace Arena

def NoTrials (a : Arena) : Prop := ∀ id c, a.context id = .ok c → c.onTrial = false

/-- Some bindings of the first arena are the same, owner included, in the second one. -/
def Keeps (P : ContextId → Binding TypeExpr → Prop) (a b : Arena) : Prop :=
  ∀ id name t, a.binding? id name = .ok (some t) → P id t → b.binding? id name = .ok (some t)

/-- What is bound to a parameter in the first arena is bound to some parameter in the second one. -/
def StaysOpen (a b : Arena) : Prop :=
  ∀ id name (t : Binding TypeExpr), a.binding? id name = .ok (some t) → t.IsOpen →
    ∃ u : Binding TypeExpr, b.binding? id name = .ok (some u) ∧ u.IsOpen

/-- A run that a registration leaves, whether or not it succeeds. -/
def Leaves (a : Arena) (q : Request) (s : Run) : Prop :=
  a.register q = .ok () s ∨ ∃ e, a.register q = .error e s

theorem Leaves.final_eq {a : Arena} {q : Request} {s : Run} (h : a.Leaves q s) :
    (Registration.register (a.maxDepth + 1) q).final { arena := a } = s := by
  rcases h with h | ⟨e, h⟩
  · exact RunM.final_of_eq_ok h
  · exact RunM.final_of_eq_error h

variable {P : ContextId → Binding TypeExpr → Prop} {a b : Arena}

theorem Keeps.refl (a : Arena) : a.Keeps P a := fun _ _ _ ht _ => ht

theorem Keeps.trans {c : Arena} (h : a.Keeps P b) (h' : b.Keeps P c) : a.Keeps P c :=
  fun id name t ht hP => h' id name t (h id name t ht hP) hP

variable {id : ContextId} {c : Context} {f : BindingState → BindingState}

theorem NoTrials.insert (ha : a.NoTrials) (hc : a.context id = .ok c) :
    (a.insert id (c.mapCurrent f)).NoTrials := by
  intro other d hd
  by_cases h : id = other
  · subst h
    rw [context_insert_self] at hd
    cases hd
    exact ha id c hc
  · rw [context_insert_of_ne a h] at hd
    exact ha other d hd

theorem Keeps.insert (hc : a.context id = .ok c)
    (hf : ∀ name t, c.current.binding? name = some t → P id t →
      (f c.current).binding? name = some t) :
    a.Keeps P (a.insert id (c.mapCurrent f)) := by
  intro other name t ht hP
  obtain ⟨d, hd, ht⟩ := binding?_eq_ok.1 ht
  by_cases h : id = other
  · subst h
    rw [hc, Except.ok.injEq] at hd
    subst hd
    exact binding?_eq_ok.2 ⟨_, context_insert_self .., hf name t ht hP⟩
  · exact binding?_eq_ok.2 ⟨d, by rwa [context_insert_of_ne a h], ht⟩

end Arena

/-! ### Decisions on open bindings -/

section

variable {id target : ContextId} {p : TypeParam} {t : Binding TypeExpr} {v : TypeExpr}

/-- An open binding stays where decisions merge, and in each mode if it is declared or belongs to
another context. -/
theorem typeDecision_open {h : Hierarchy} {merge : Bool} {d : Decision TypeExpr} (ht : t.IsOpen)
    (hkept : merge = true ∨ ∀ q, t ≠ .bound (.param q) id)
    (hd : typeDecision h id target p false merge (some t) v = .ok d) : d.value? = none := by
  obtain ⟨q, hq⟩ := ht
  cases t with
  | terminal w owner =>
    cases hd
    rfl
  | bound w owner =>
    obtain rfl : w = .param q := hq
    have hopen : (TypeExpr.param q).isConcrete = false := rfl
    by_cases howner : owner = id
    · have hmerge : merge = true := hkept.resolve_right fun h => h q (by rw [howner])
      cases hv : v.isConcrete <;> simp [typeDecision, hopen, howner, hmerge, hv] at hd <;> rw [← hd]
    · cases hv : v.isConcrete <;> simp [typeDecision, hopen, howner, hv] at hd <;> rw [← hd]

/-- Without merging, a parameter that its context owns makes room for a concrete type. -/
theorem typeDecision_open_local (h : Hierarchy) (q : TypeParam) (hv : v.isConcrete) :
    typeDecision h id target p false false (some (.bound (.param q) id)) v
      = .ok { value? := some v } := by
  have hq : (TypeExpr.param q).isConcrete = false := rfl
  simp [typeDecision, hq, hv]

end

namespace Registration

open RunM

theorem keeps_settled {P : ContextId → Binding TypeExpr → Prop} {a : Arena} {id target : ContextId}
    {c : Context} {name : String} {d : Decision TypeExpr} (hc : a.context id = .ok c)
    (hd : ∀ t, c.current.binding? name = some t → P id t → d.value? = none) :
    a.Keeps P (settled a id target c name d) := by
  rw [settled_eq hc]
  refine .insert hc fun other t ht hP => ?_
  by_cases h : name = other
  · subst h
    rw [hd t ht hP]
    exact ht
  · rcases d.value? with _ | v
    · exact ht
    · exact (BindingState.binding?_bind_of_ne _ h _).trans ht

theorem keeps_settled_mul (P : ContextId → Binding TypeExpr → Prop) {a : Arena} {id : ContextId}
    {c : Context} (hc : a.context id = .ok c) (target : ContextId) (name : String)
    (d : Decision Multiplicity) : a.Keeps P (settled a id target c name d) := by
  rw [settled_eq hc]
  refine .insert hc fun other t ht _ => ?_
  rcases d.value? with _ | v <;> exact ht

theorem noTrials_settled {α : Type} [Bindable α] {a : Arena} {id : ContextId} {c : Context}
    (ha : a.NoTrials) (hc : a.context id = .ok c) (target : ContextId) (name : String)
    (d : Decision α) : (settled a id target c name d).NoTrials := by
  rw [settled_eq hc]
  exact ha.insert hc

/-! ### What merging keeps -/

/-- Events stay. Where no two function types are tried, so do open bindings. -/
structure KeepsOpen (r s : Run) : Prop where
  events : ∀ e ∈ r.events, e ∈ s.events
  arena : r.arena.NoTrials → ¬ s.TriesFunctions →
    s.arena.NoTrials ∧ r.arena.Keeps (fun _ t => t.IsOpen) s.arena

theorem events_passage (merge : Bool) : Passage merge fun r s => ∀ e ∈ r.events, e ∈ s.events where
  refl _ _ he := he
  trans h h' e he := h' e (h e he)
  record _ _ _ _ he := Array.mem_push_of_mem _ he
  level h e he := Array.mem_push_of_mem _ (h e (Array.mem_push_of_mem _ he))
  type _ _ _ he := he
  mul _ _ _ he := he

theorem keepsOpen_passage : Passage true KeepsOpen where
  refl r := ⟨fun _ he => he, fun hr _ => ⟨hr, .refl _⟩⟩
  trans := by
    intro r s t h h'
    refine ⟨fun e he => h'.events e (h.events e he), fun hr ht => ?_⟩
    obtain ⟨hs, hkept⟩ := h.arena hr fun ⟨f, g, id, target, hs⟩ =>
      ht ⟨f, g, id, target, h'.events _ hs⟩
    obtain ⟨ht, hkept'⟩ := h'.arena hs ht
    exact ⟨ht, hkept.trans hkept'⟩
  record r e _ := ⟨fun _ he => Array.mem_push_of_mem _ he, fun hr _ => ⟨hr, .refl _⟩⟩
  level h := ⟨fun e he => Array.mem_push_of_mem _ (h.events e (Array.mem_push_of_mem _ he)),
    fun hr ht => h.arena hr fun ⟨f, g, id, target, hs⟩ =>
      ht ⟨f, g, id, target, Array.mem_push_of_mem _ hs⟩⟩
  type hc hd := by
    refine ⟨fun _ he => he, fun hr _ => ⟨noTrials_settled hr hc _ _ _, keeps_settled hc ?_⟩⟩
    intro t ht hopen
    rw [hr _ _ hc, ht] at hd
    exact typeDecision_open hopen (.inl rfl) hd
  mul hc _ :=
    ⟨fun _ he => he, fun hr _ => ⟨noTrials_settled hr hc _ _ _, keeps_settled_mul _ hc _ _ _⟩⟩

/-- Two function types: the mode is not handed on. -/
theorem register_functions (n : Nat) (id target : ContextId) (f g : Arrow TypeExpr)
    (merge : Bool) :
    register (n + 1) (.type id (.function f) (some (.function g)) target merge) = (do
      let _ ← RunM.context id
      let _ ← RunM.context target
      record (.trying (.function f) (some (.function g)) id target)
      register n (.function id f g target false)) :=
  rfl

theorem register_keepsOpen : ∀ n q, q.InMode true → ∀ r, KeepsOpen r ((register n q).final r)
  | 0, _, _, r => keepsOpen_passage.refl r
  | n + 1, q, hq, r => by
    by_cases hpair : ∃ id f g target, q = .type id (.function f) (some (.function g)) target true
    · obtain ⟨id, f, g, target, rfl⟩ := hpair
      rw [register_functions]
      refine keepsOpen_passage.bind (keepsOpen_passage.context id r) fun _ s _ =>
        keepsOpen_passage.bind (keepsOpen_passage.context target s) fun _ s _ => ?_
      -- The event that says so is there to stay.
      have hevents := register_passage events_passage n (.function id f g target false)
        (s.record (.trying (.function f) (some (.function g)) id target))
      refine ⟨fun e he => hevents e (Array.mem_push_of_mem _ he), fun _ ht => absurd ?_ ht⟩
      exact ⟨f, g, id, target, hevents _ Array.mem_push_self⟩
    · exact @Congruence.step true (fun act _ => ∀ r, KeepsOpen r (act.final r))
        keepsOpen_passage.congruence (register n) (register n)
        (fun q hq => register_keepsOpen n q hq) q hq
        (fun id f g target h => absurd ⟨id, f, g, target, h⟩ hpair) r

/-! ### What both modes keep -/

/-- Open, and declared or owned by another context than the one it is bound in. -/
def OpenElsewhere (id : ContextId) (t : Binding TypeExpr) : Prop :=
  t.IsOpen ∧ ∀ q, t ≠ .bound (.param q) id

theorem keepsElsewhere_passage (merge : Bool) : Passage merge fun r s =>
    r.arena.NoTrials → s.arena.NoTrials ∧ r.arena.Keeps OpenElsewhere s.arena where
  refl _ hr := ⟨hr, .refl _⟩
  trans h h' hr := ⟨(h' (h hr).1).1, (h hr).2.trans (h' (h hr).1).2⟩
  record _ _ _ hr := ⟨hr, .refl _⟩
  level h := h
  type hc hd hr := by
    refine ⟨noTrials_settled hr hc _ _ _, keeps_settled hc fun t ht helse => ?_⟩
    rw [hr _ _ hc, ht] at hd
    exact typeDecision_open helse.1 (.inr helse.2) hd
  mul hc _ hr := ⟨noTrials_settled hr hc _ _ _, keeps_settled_mul _ hc _ _ _⟩

/-! ### What function types overwrite -/

section

variable {n : Nat} {id target : ContextId} {r : Run}

/-- A concrete multiplicity has no parameter to learn about. -/
theorem register_mul_concrete {m v : Multiplicity} (hm : m.isConcrete)
    (hid : ∃ c, r.arena.context id = .ok c) (htarget : ∃ c, r.arena.context target = .ok c) :
    register (n + 1) (.mul id m v target) r = .ok () r := by
  obtain ⟨c, hc⟩ := hid
  obtain ⟨there, hthere⟩ := htarget
  simp only [register, step, stepMul]
  rw [bind_of_eq_ok (context_eq_ok.2 ⟨hc, rfl⟩), bind_of_eq_ok (context_eq_ok.2 ⟨hthere, rfl⟩)]
  cases m with
  | range lower upper => rfl
  | param name => cases hm

theorem register_top {merge : Bool} (hid : ∃ c, r.arena.context id = .ok c)
    (htarget : ∃ c, r.arena.context target = .ok c) :
    register (n + 1) (.type id .top (some .top) target merge) r
      = .ok () (r.record (.trying .top (some .top) id target)) := by
  obtain ⟨c, hc⟩ := hid
  obtain ⟨there, hthere⟩ := htarget
  simp only [register, step, stepType]
  rw [bind_of_eq_ok (context_eq_ok.2 ⟨hc, rfl⟩), bind_of_eq_ok (context_eq_ok.2 ⟨hthere, rfl⟩)]
  rfl

/-- Functions that take a value of a type. -/
def taking (t : TypeExpr) : Arrow TypeExpr := ⟨[⟨t, .one⟩], ⟨.top, .one⟩⟩

/-- A parameter that its own context owns is overwritten, in either mode, by a concrete type in a
position of a function type. -/
theorem register_functions_overwrite {a : Arena} {c there : Context} {p q : TypeParam}
    {v : TypeExpr} (hc : a.context id = .ok c) (htrial : c.onTrial = false)
    (hb : c.current.binding? p.name = some (.bound (TypeExpr.param q) id))
    (hthere : a.context target = .ok there) (hv : v.isConcrete) (hdepth : 2 ≤ a.maxDepth)
    (merge : Bool) :
    ∃ s, a.register (.type id (.function (taking (.param p))) (some (.function (taking v))) target
        merge) = .ok () s
      ∧ s.arena.binding? id p.name = .ok (some (.bound v target)) := by
  obtain ⟨n, hn⟩ : ∃ n, a.maxDepth + 1 = n + 3 := ⟨a.maxDepth - 2, by omega⟩
  let f := taking (.param p)
  let r : Run := ((({ arena := a } : Run).record
    (.trying (.function f) (some (.function (taking v))) id target)).record
      (.registerType (.function f) (.function (taking v)) id target)).record .indent
  have hd : typeDecision r.arena.hierarchy id target p c.onTrial false (c.current.binding? p.name) v
      = .ok { value? := some v } := by
    rw [hb, htrial]
    exact typeDecision_open_local _ q hv
  obtain ⟨s, hs, hdecided⟩ := register_param_decided (n := n) (r := r) hc hthere hv hd rfl
  have hid := hdecided.exists_context ⟨c, hc⟩
  have htarget := hdecided.exists_context ⟨there, hthere⟩
  let s' := s.record (.trying .top (some .top) id target)
  let positions : List (Position TypeExpr × Position TypeExpr) :=
    [(⟨.param p, .one⟩, ⟨v, .one⟩), (⟨.top, .one⟩, ⟨.top, .one⟩)]
  have hpositions : (positions.forM fun q => do
      register (n + 1) (.type id q.1.type (some q.2.type) target false)
      register (n + 1) (.mul id q.1.mul q.2.mul target)) r = .ok () s' :=
    bind_eq_ok.2 ⟨(), s, bind_eq_ok.2 ⟨(), s, hs, register_mul_concrete rfl hid htarget⟩,
      bind_eq_ok.2 ⟨(), s', bind_eq_ok.2 ⟨(), s', register_top hid htarget,
        register_mul_concrete rfl hid htarget⟩, rfl⟩⟩
  refine ⟨s'.record .outdent, ?_, hdecided.binding?_eq⟩
  unfold Arena.register
  rw [hn, register_functions, bind_of_eq_ok (context_eq_ok.2 ⟨hc, rfl⟩),
    bind_of_eq_ok (context_eq_ok.2 ⟨hthere, rfl⟩)]
  exact nested_eq_ok.2 ⟨s', hpositions, rfl⟩

end

end Registration

open Registration

/-- In an arena without trial states, merging changes no open binding until two function types are
tried. Whatever is tried, all that was open stays open if and only if no context owns an open
binding of its own. -/
theorem register_merge_open {a : Arena} (ha : a.NoTrials) :
    (∀ id template actual? target s, a.Leaves (.type id template actual? target true) s →
      s.TriesFunctions ∨ a.Keeps (fun _ t => t.IsOpen) s.arena)
    ∧ (2 ≤ a.maxDepth →
      ((∀ id template actual? target s, a.Leaves (.type id template actual? target true) s →
        a.StaysOpen s.arena)
      ↔ ∀ id name p, a.binding? id name ≠ .ok (some (.bound (TypeExpr.param p) id)))) := by
  refine ⟨fun id template actual? target s hs => ?_, fun hdepth => ⟨fun h id name q hb => ?_,
    fun h id template actual? target s hs => ?_⟩⟩
  · have hkept := register_keepsOpen (a.maxDepth + 1) (.type id template actual? target true) rfl
      { arena := a }
    rw [hs.final_eq] at hkept
    by_cases hf : s.TriesFunctions
    · exact .inl hf
    · exact .inr (hkept.arena ha hf).2
  · obtain ⟨c, hc, hb'⟩ := Arena.binding?_eq_ok.1 hb
    obtain ⟨s, hs, hbound⟩ := register_functions_overwrite (p := ⟨name, .covariant⟩) (v := .top)
      hc (ha id c hc) hb' hc rfl hdepth true
    obtain ⟨u, hu, p, hp⟩ := h _ _ _ _ s (.inl hs) id name _ hb ⟨q, rfl⟩
    rw [hbound] at hu
    cases hu
    cases hp
  · have hkept := register_passage keepsElsewhere_passage (a.maxDepth + 1)
      (.type id template actual? target true) { arena := a } ha
    rw [hs.final_eq] at hkept
    intro here name t ht hopen
    have helse : OpenElsewhere here t := ⟨hopen, fun q hq => h here name q (by rw [ht, hq])⟩
    exact ⟨t, hkept.2 here name t ht helse, hopen⟩

/-- A parameter bound to another one of the same context. -/
def Arena.openLocal : Arena :=
  ({ hierarchy := .preloaded, maxDepth := 4 } : Arena).insert 1
    { Context.fresh 1 none none with
      current := ({} : BindingState).bind "T" (.bound (TypeExpr.param ⟨"X", .covariant⟩) 1) }

theorem Arena.noTrials_openLocal : openLocal.NoTrials := by
  intro id c hc
  by_cases h : 1 = id
  · subst h
    cases hc
    rfl
  · rw [openLocal, context_insert_of_ne _ h] at hc
    cases hc

/-- The element type of a list does not take the place of the open binding; some function type
does. -/
theorem register_merge_open_list :
    (∃ s, Arena.openLocal.register (.type 1 (.classType ⟨"List", [.param ⟨"T", .covariant⟩], []⟩)
        (some (.classType ⟨"List", [.atom "String"], []⟩)) 1 true) = .ok () s
      ∧ s.arena.binding? 1 "T" = .ok (some (.bound (TypeExpr.param ⟨"X", .covariant⟩) 1)))
    ∧ ¬ ∀ id template actual? target s,
      Arena.openLocal.Leaves (.type id template actual? target true) s →
        Arena.openLocal.StaysOpen s.arena := by
  obtain ⟨hkept, hlocal⟩ := register_merge_open Arena.noTrials_openLocal
  constructor
  · obtain ⟨s, hs, hevents⟩ : ∃ s,
        Arena.openLocal.register (.type 1 (.classType ⟨"List", [.param ⟨"T", .covariant⟩], []⟩)
          (some (.classType ⟨"List", [.atom "String"], []⟩)) 1 true) = .ok () s
        ∧ s.events = #[
          .trying (.classType ⟨"List", [.param ⟨"T", .covariant⟩], []⟩)
            (some (.classType ⟨"List", [.atom "String"], []⟩)) 1 1,
          .indent,
          .trying (.param ⟨"T", .covariant⟩) (some (.atom "String")) 1 1,
          .note (.openKept 1 "T" (.param ⟨"X", .covariant⟩) (.atom "String")),
          .registerType (.param ⟨"T", .covariant⟩) (.atom "String") 1 1,
          .outdent] :=
      ⟨_, by with_unfolding_all rfl, by with_unfolding_all rfl⟩
    rcases hkept _ _ _ _ s (.inl hs) with ⟨f, g, id, target, htried⟩ | hkept
    · rw [hevents] at htried
      simp at htried
    · exact ⟨s, hs, hkept 1 "T" _ rfl ⟨_, rfl⟩⟩
  · rw [hlocal (by decide)]
    intro h
    exact h 1 "T" ⟨"X", .covariant⟩ rfl

/-- Merging functions from strings into functions from an open parameter binds it to strings. -/
theorem register_merge_open_function :
    ¬ ∀ (a : Arena) (id target : ContextId) (template : TypeExpr) (actual? : Option TypeExpr)
        (s : Run), a.NoTrials → a.Leaves (.type id template actual? target true) s →
      a.StaysOpen s.arena := by
  intro h
  obtain ⟨s, hs, hstring⟩ : ∃ s, Arena.openLocal.register
        (.type 1 (.function ⟨[⟨.param ⟨"T", .covariant⟩, .one⟩], ⟨.atom "Boolean", .one⟩⟩)
          (some (.function ⟨[⟨.atom "String", .one⟩], ⟨.atom "Boolean", .one⟩⟩)) 1 true) = .ok () s
      ∧ s.arena.binding? 1 "T" = .ok (some (.bound (TypeExpr.atom "String") 1)) :=
    ⟨_, by with_unfolding_all rfl, by with_unfolding_all rfl⟩
  obtain ⟨t, ht, p, hp⟩ := h _ _ _ _ _ s Arena.noTrials_openLocal (.inl hs) 1 "T" _ rfl ⟨_, rfl⟩
  rw [hstring] at ht
  cases ht
  cases hp

end ScopedInference
