import ScopedInference.Proofs.Arena.Rebinding

/-!
# The fact that a parameter is itself

It seems to say nothing, but it is registered as any other. It goes the way of open values: where
another context owns what a slot shows, it is passed on there, and of an equality it concerns the
left side (`Passes`). At the end of the way it is bound if nothing is, and a concrete value makes
room for it (`Arrival`), to come back as a fact about the parameter (`Return`).

So what it costs depends on the end of the way only (`self_fact_keeps_values`). A slot that becomes
bound is seen by what pointed there; if it belongs to another context than the parameter, the
parameter is seen from there in turn, and two that see each other do not resolve any more.
-/

namespace ScopedInference

/-- The parameter that an open value is told of a template: the template itself, or what leads the
left side of an equality. -/
def TypeExpr.leading? : TypeExpr → Option String
  | .param p => some p.name
  | .operation .equal left _ => left.leading?
  | _ => none

theorem TypeExpr.isConcrete_of_leading? {v : TypeExpr} {name : String}
    (h : v.leading? = some name) : v.isConcrete = false := by
  cases v with
  | param p => rfl
  | operation kind left right => rfl
  | _ => cases h

namespace Arena

/-- An open value that meets what a slot shows is passed on to another slot. -/
def Passes (a : Arena) (s t : Slot) : Prop :=
  ∃ v : TypeExpr, a.binding? s.1 s.2 = .ok (some (.bound v t.1)) ∧ v.leading? = some t.2
    ∧ t.1 ≠ s.1

theorem NoTrials.link {α : Type} [Bindable α] {a : Arena} {id owner : ContextId} {name : String}
    {v : α} (ha : a.NoTrials) (hv : a.binding? id name = .ok (some (.bound v owner)))
    (hname : (Bindable.parameterName? v).isSome) (hne : owner ≠ id) : a.Link id name v owner := by
  obtain ⟨c, hc, hbinding⟩ := binding?_eq_ok.1 hv
  exact ⟨c, hc, ha id c hc, hbinding, hname, hne⟩

/-- All slots on the way are bound but for the end of it. -/
theorem bound_of_passes {a : Arena} {s t : Slot} (h : Relation.ReflTransGen a.Passes s t) :
    s = t ∨ ∃ e : Binding TypeExpr, a.binding? s.1 s.2 = .ok (some e) := by
  rcases h.cases_head with rfl | ⟨_, ⟨v, hv, -⟩, -⟩
  · exact .inl rfl
  · exact .inr ⟨_, hv⟩

end Arena

/-- What is decided on an open value, without trial states: it is taken if nothing is known, or in
the place of a concrete value, which goes to the target; it goes to another owner of an open value;
or nothing happens. -/
theorem typeDecision_of_open {h : Hierarchy} {id target : ContextId} {p : TypeParam} {merge : Bool}
    {known : Option (Binding TypeExpr)} {v : TypeExpr} {d : Decision TypeExpr}
    (hv : v.isConcrete = false) (hd : typeDecision h id target p false merge known v = .ok d) :
    (known = none ∧ d.value? = some v ∧ d.forwards = [])
      ∨ (∃ w owner, known = some (.bound w owner) ∧ w.isConcrete ∧ d.value? = some v
        ∧ d.forwards = [⟨target, v, w⟩])
      ∨ (∃ w owner, known = some (.bound w owner) ∧ w.isConcrete = false ∧ owner ≠ id
        ∧ d.value? = none ∧ d.forwards = [⟨owner, w, v⟩])
      ∨ ∃ e, known = some e ∧ (∀ w owner, e = .bound w owner → w.isConcrete = false ∧ owner = id)
        ∧ d.value? = none ∧ d.forwards = [] := by
  rcases known with _ | ⟨w, owner⟩ | ⟨w, owner⟩
  · cases hd
    exact .inl ⟨rfl, rfl, rfl⟩
  · rcases hw : w.isConcrete with _ | _
    · by_cases howner : owner = id
      · simp only [typeDecision, hw, hv, howner, Bool.and_self, Bool.false_eq_true, if_false, ne_eq,
          not_true_eq_false, Except.ok.injEq] at hd
        cases hd
        refine .inr (.inr (.inr ⟨_, rfl, fun w' owner' heq => ?_, rfl, rfl⟩))
        cases heq
        exact ⟨hw, howner⟩
      · simp only [typeDecision, hw, hv, Bool.and_self, Bool.false_eq_true, if_false, ne_eq,
          howner, not_false_eq_true, if_true, Except.ok.injEq] at hd
        cases hd
        exact .inr (.inr (.inl ⟨w, owner, rfl, hw, howner, rfl, rfl⟩))
    · simp only [typeDecision, hw, hv, Bool.and_false, Bool.false_eq_true, if_false, if_true,
        Except.ok.injEq] at hd
      cases hd
      exact .inr (.inl ⟨w, owner, rfl, hw, rfl, rfl⟩)
  · cases hd
    exact .inr (.inr (.inr ⟨_, rfl, by simp, rfl, rfl⟩))

namespace Registration

open RunM

theorem rebound_settled {a : Arena} {id target : ContextId} {c : Context} {name : String}
    {d : Decision TypeExpr} {v : TypeExpr} (hc : a.context id = .ok c) (hd : d.value? = some v) :
    a.Rebound (settled a id target c name d) (id, name) (.bound v target) where
  maxDepth := by
    rw [settled_eq hc]
    rfl
  has other := by
    rw [settled_eq hc]
    exact Arena.has_insert ⟨c, hc⟩
  self := binding?_settled hd
  other s hs := binding?_settled_of_ne hc (fun heq hname => hs (Prod.ext heq hname)) target d

section

variable {p : TypeParam} {target : ContextId} {merge : Bool}

/-- An open value says nothing about a template but about its leading parameter. -/
theorem register_open_template : ∀ {n : Nat} {id : ContextId} {t : TypeExpr} {r s : Run},
    register n (.type id t (some (.param p)) target merge) r = .ok () s →
    (t.leading? = none ∧ s.arena = r.arena)
      ∨ ∃ q m r' s', t.leading? = some q.name ∧ m + 1 ≤ n ∧ r'.arena = r.arena
        ∧ register (m + 1) (.type id (.param q) (some (.param p)) target merge) r' = .ok () s'
        ∧ s'.arena = s.arena
  | 0, _, _, r, _, hok => absurd hok (register_zero_ne_ok _ r)
  | n + 1, id, t, r, s, hok => by
    obtain ⟨r', hr', hstep⟩ := register_type_ok (by simp) hok
    cases t with
    | param q => exact .inr ⟨q, n, r, s, rfl, Nat.le_refl _, rfl, hok, rfl⟩
    | operation kind left right =>
      unfold stepTemplate stepOperation at hstep
      dsimp only at hstep
      by_cases hkind : kind = .equal
      · subst hkind
        rw [if_pos rfl] at hstep
        obtain ⟨_, s', hleft, hs'⟩ := bind_eq_ok.1 hstep
        cases hs'
        obtain ⟨s'', hok', rfl⟩ := nested_eq_ok.1 hleft
        rcases register_open_template hok' with ⟨hnone, hs⟩ | ⟨q, m, r₁, s₁, hq, hm, hr₁, h₁, hs₁⟩
        · exact .inl ⟨hnone, hs.trans hr'⟩
        · exact .inr ⟨q, m, r₁, s₁, hq, by omega, hr₁.trans hr', h₁, hs₁⟩
      · rw [if_neg hkind] at hstep
        cases hstep
        refine .inl ⟨?_, hr'⟩
        cases kind with
        | equal => exact absurd rfl hkind
        | _ => rfl
    | _ =>
      cases hstep
      exact .inl ⟨rfl, hr'⟩

/-- What an open value does where it is not passed on any more: it is bound if nothing is, and
stays away from what is open or declared. A concrete value makes room for it, and comes back as a
fact about it in the target. -/
inductive Arrival (a : Arena) (p : TypeParam) (target : ContextId) (merge : Bool) (t : Slot)
    (b : Arena) : Prop where
  | learns (ht : a.binding? t.1 t.2 = .ok (none : Option (Binding TypeExpr)))
      (h : a.Rebound b t (.bound (TypeExpr.param p) target)) : Arrival a p target merge t b
  | stays (e : Binding TypeExpr) (ht : a.binding? t.1 t.2 = .ok (some e))
      (hopen : ∀ w owner, e = .bound w owner → w.isConcrete = false) (hb : b = a) :
      Arrival a p target merge t b
  | gives (w : TypeExpr) (owner : ContextId) (ht : a.binding? t.1 t.2 = .ok (some (.bound w owner)))
      (hw : w.isConcrete) (n : Nat) (r s : Run)
      (h : a.Rebound r.arena t (.bound (TypeExpr.param p) target)) (hr : r.arena.NoTrials)
      (hok : register n (.type target (.param p) (some w) target merge) r = .ok () s)
      (hb : b = s.arena) : Arrival a p target merge t b

/-- One step: the value arrives, or it is passed on to the owner of what is there. -/
theorem register_open_step {n : Nat} {id : ContextId} {q : TypeParam} {r s : Run}
    (hr : r.arena.NoTrials)
    (hok : register (n + 1) (.type id (.param q) (some (.param p)) target merge) r = .ok () s) :
    ((∀ u, ¬ r.arena.Passes (id, q.name) u)
        ∧ Arrival r.arena p target merge (id, q.name) s.arena)
      ∨ ∃ v owner r' s', r.arena.binding? id q.name = .ok (some (.bound v owner))
        ∧ v.isConcrete = false ∧ owner ≠ id ∧ r'.arena = r.arena
        ∧ register n (.type owner v (some (.param p)) target merge) r' = .ok () s'
        ∧ s'.arena = s.arena := by
  obtain ⟨c, d, r', hc, hd, hr', hok⟩ := register_param_ok (by simp) hok
  rw [hr id c hc] at hd
  have hshown : r.arena.binding? id q.name
      = .ok (c.current.binding? q.name : Option (Binding TypeExpr)) :=
    (Arena.binding?_of_context hc).2 rfl
  rcases typeDecision_of_open rfl hd with ⟨hknown, hvalue, hforwards⟩
    | ⟨w, owner, hknown, hw, hvalue, hforwards⟩ | ⟨w, owner, hknown, hw, hne, hvalue, hforwards⟩
    | ⟨e, hknown, hown, hvalue, hforwards⟩ <;> rw [hknown] at hshown <;> rw [hforwards] at hok
  · cases hok
    refine .inl ⟨?_, .learns hshown (hr' ▸ rebound_settled hc hvalue)⟩
    rintro u ⟨v, hv, -⟩
    cases hshown.symm.trans hv
  · obtain ⟨r₁, s₁, hr₁, h₁, hs₁⟩ := forwardAll_singleton hok
    rw [hr'] at hr₁
    refine .inl ⟨?_, .gives w owner hshown hw n r₁ s₁ (hr₁ ▸ rebound_settled hc hvalue)
      (hr₁ ▸ noTrials_settled hr hc _ _ _) h₁ hs₁.symm⟩
    rintro u ⟨v, hv, hname, -⟩
    cases hshown.symm.trans hv
    cases hw.symm.trans (TypeExpr.isConcrete_of_leading? hname)
  · obtain ⟨r₁, s₁, hr₁, h₁, hs₁⟩ := forwardAll_singleton hok
    rw [hr', settled_of_none hvalue] at hr₁
    exact .inr ⟨w, owner, r₁, s₁, hshown, hw, hne, hr₁, h₁, hs₁⟩
  · cases hok
    refine .inl ⟨?_, .stays e hshown (fun w owner heq => (hown w owner heq).1) ?_⟩
    · rintro u ⟨v, hv, -, hne⟩
      cases hshown.symm.trans hv
      exact hne (hown v u.1 rfl).2
    · rw [hr', settled_of_none hvalue]

/-- An open value goes its way to the end of it. -/
theorem register_arrives : ∀ {n : Nat} {id : ContextId} {q : TypeParam} {r s : Run},
    r.arena.NoTrials →
    register n (.type id (.param q) (some (.param p)) target merge) r = .ok () s →
    ∃ t, Relation.ReflTransGen r.arena.Passes (id, q.name) t ∧ (∀ u, ¬ r.arena.Passes t u)
      ∧ Arrival r.arena p target merge t s.arena := by
  intro n
  induction n using Nat.strong_induction_on with
  | h n ih =>
    intro id q r s hr hok
    rcases n with _ | n
    · exact absurd hok (register_zero_ne_ok _ r)
    obtain ⟨hends, harrival⟩ | ⟨v, owner, r₁, s₁, hv, hopen, hne, hr₁, h₁, hs₁⟩ :=
      register_open_step hr hok
    · exact ⟨(id, q.name), .refl, hends, harrival⟩
    obtain ⟨hnone, hsame⟩ | ⟨q', m, r₂, s₂, hq', hm, hr₂, h₂, hs₂⟩ := register_open_template h₁
    · refine ⟨(id, q.name), .refl, ?_, .stays _ hv (fun w owner' heq => ?_) ?_⟩
      · rintro u ⟨v', hv', hname, -⟩
        cases hv.symm.trans hv'
        cases hnone.symm.trans hname
      · cases heq
        exact hopen
      · rw [← hs₁, hsame, hr₁]
    · have hpass : r.arena.Passes (id, q.name) (owner, q'.name) := ⟨v, hv, hq', hne⟩
      have harena : r₂.arena = r.arena := hr₂.trans hr₁
      obtain ⟨t, ht, hends, harrival⟩ := ih (m + 1) (by omega) (harena ▸ hr) h₂
      rw [harena] at ht hends harrival
      rw [hs₂, hs₁] at harrival
      exact ⟨t, .head hpass ht, hends, harrival⟩

end

/-- Without merging, a concrete value takes the place of an open one that is not to be read in
another context. -/
theorem register_overwrites {n : Nat} {id target owner : ContextId} {q : TypeParam}
    {v w : TypeExpr} {r s : Run} (hr : r.arena.NoTrials) (hw : w.isConcrete)
    (hv : r.arena.binding? id q.name = .ok (some (.bound v owner))) (hopen : v.isConcrete = false)
    (howner : v.parameterName?.isSome → owner = id)
    (hok : register (n + 1) (.type id (.param q) (some w) target false) r = .ok () s) :
    r.arena.Rebound s.arena (id, q.name) (.bound w target) := by
  obtain ⟨c, d, r', hc, hd, hr', hok⟩ := register_param_ok (TypeExpr.ne_equality hw) hok
  rw [hr id c hc, (Arena.binding?_of_context hc).1 hv] at hd
  obtain rfl : d = { value? := some w } := by
    cases v with
    | param q' =>
      obtain rfl := howner rfl
      exact (Except.ok.inj ((typeDecision_open_local _ _ hw).symm.trans hd)).symm
    | operation kind left right =>
      simp only [typeDecision, hopen, hw, Bool.and_true, Bool.false_eq_true, if_false, if_true,
        Except.ok.injEq] at hd
      exact hd.symm
    | _ => cases hopen
  cases hok
  exact hr' ▸ rebound_settled hc rfl

/-- What a concrete value does that has made room for a parameter of the target: it takes its place
again if the target owns the slot, or that of the first equality on the way there. -/
inductive Return (a : Arena) (id : ContextId) (p : TypeParam) (t : Slot) (w : TypeExpr)
    (b b' : Arena) : Prop where
  | home (hid : t.1 = id) (m : Nat) (ht : a.Hops TypeExpr m (id, p.name) t)
      (hb : b.Rebound b' t (.bound w id)) : Return a id p t w b b'
  | early (m : Nat) (g : Slot) (e : Binding TypeExpr) (hg : a.Hops TypeExpr m (id, p.name) g)
      (he : a.binding? g.1 g.2 = .ok (some e)) (hopen : e.value.isConcrete = false)
      (hnone : e.value.parameterName? = none) (hb : b.Rebound b' g (.bound w id)) :
      Return a id p t w b b'

/-- The value goes the way that the parameter went, and round again if it finds the parameter in a
context that is not the target. -/
theorem register_returns {a b : Arena} {id owner : ContextId} {p : TypeParam} {t : Slot}
    {w : TypeExpr} (hab : a.Rebound b t (.bound (TypeExpr.param p) id)) (hb : b.NoTrials)
    (ht : a.binding? t.1 t.2 = .ok (some (.bound w owner))) (hw : w.isConcrete)
    (hway : Relation.ReflTransGen a.Passes (id, p.name) t) :
    ∀ {n m : Nat} {x : ContextId} {q : TypeParam} {r s : Run}, r.arena = b →
      a.Hops TypeExpr m (id, p.name) (x, q.name) →
      Relation.ReflTransGen a.Passes (x, q.name) t →
      register n (.type x (.param q) (some w) id false) r = .ok () s →
      Return a id p t w b s.arena := by
  intro n
  induction n with
  | zero => exact fun _ _ _ hok => absurd hok (register_zero_ne_ok _ _)
  | succ n ih =>
    intro m x q r s hr hhops hpasses hok
    subst hr
    have hlink : ∀ {v o}, r.arena.Link x q.name v o → ∃ r' s', r'.arena = r.arena
        ∧ register n (.type o v (some w) id false) r' = .ok () s' ∧ s'.arena = s.arena := fun hl =>
      (forwarding_type (TypeExpr.ne_equality hw) id false).link rfl hl hok
    rcases hpasses.cases_head with rfl | ⟨⟨o, name⟩, ⟨v, hv, hname, hne⟩, hrest⟩
    · by_cases hid : id = x
      · subst hid
        exact .home rfl m hhops (register_overwrites hb hw hab.self rfl (fun _ => rfl) hok)
      · obtain ⟨r₁, s₁, hr₁, h₁, hs₁⟩ := hlink (hb.link hab.self rfl hid)
        exact hs₁ ▸ ih hr₁ (.here _) hway h₁
    · have hopen := TypeExpr.isConcrete_of_leading? hname
      have hother : (x, q.name) ≠ t := by
        rintro rfl
        cases hv.symm.trans ht
        cases hw.symm.trans hopen
      have hv' := (hab.other _ hother).trans hv
      cases v with
      | param q' =>
        obtain rfl : q'.name = name := Option.some.inj hname
        obtain ⟨r₁, s₁, hr₁, h₁, hs₁⟩ := hlink (hb.link hv' rfl hne)
        obtain ⟨next, hnext⟩ : ∃ next, a.binding? o q'.name = .ok (some next) := by
          rcases Arena.bound_of_passes hrest with rfl | hbound
          · exact ⟨_, ht⟩
          · exact hbound
        have hhop : a.Hop TypeExpr (x, q.name) (o, q'.name) :=
          ⟨_, next, hv, rfl, rfl, hne, hnext⟩
        exact hs₁ ▸ ih hr₁ (hhops.trans (.hop hhop (.here _))) hrest h₁
      | operation kind left right =>
        exact .early m (x, q.name) _ hhops hv hopen rfl
          (register_overwrites hb hw hv' hopen (fun hsome => by cases hsome) hok)
      | _ => cases hname

end Registration

namespace Arena

/-- On the way of an open value there is an equality, or the way is that of resolution and points to
the end. -/
theorem pointsTo_of_passes {a : Arena} {s t : Slot} (h : Relation.ReflTransGen a.Passes s t)
    (hne : s ≠ t) (ht : a.binding? t.1 t.2 = .ok (none : Option (Binding TypeExpr))) :
    (∃ m v, a.PointsTo m s t (v : TypeExpr))
      ∨ ∃ m v, a.ResolvesIn m s (v : TypeExpr) ∧ v.parameterName? = none := by
  induction h using Relation.ReflTransGen.head_induction_on with
  | refl => exact absurd rfl hne
  | @head s u hpass hrest ih =>
    obtain ⟨v, hv, hname, hother⟩ := hpass
    cases v with
    | param q =>
      by_cases hu : u = t
      · subst hu
        exact .inl ⟨0, _, s, _, .here s, hv, rfl, hname, rfl, hother⟩
      obtain ⟨next, hnext⟩ := (bound_of_passes hrest).resolve_left hu
      have hhop : a.Hop TypeExpr s u := ⟨_, next, hv, hname, rfl, hother, hnext⟩
      rcases ih hu with ⟨m, v, g, e, hg, he⟩ | ⟨m, v, ⟨g, e, hg, he⟩, hnone⟩
      · exact .inl ⟨m + 1, v, g, e, .hop hhop hg, he⟩
      · exact .inr ⟨m + 1, v, ⟨g, e, .hop hhop hg, he⟩, hnone⟩
    | operation kind left right =>
      exact .inr ⟨0, _, ⟨s, _, .here s, hv, rfl, rfl⟩, rfl⟩
    | _ => cases hname

/-- No value is lost if the fact that a parameter is itself comes to a slot. Where nothing is bound,
what points there is the parameter already and resolves with a hop to spare, if the slot is in the
parameter's context; nothing points there and the parameter resolves with a hop to spare, if it is
in another one. Where a concrete value is bound, the parameter resolves to it. -/
structure Spares (a : Arena) (id : ContextId) (p : TypeParam) (t : Slot) : Prop where
  own : a.binding? t.1 t.2 = .ok (none : Option (Binding TypeExpr)) → t.1 = id →
    ∀ m s v, a.PointsTo m s t v → v = TypeExpr.param p ∧ m < a.maxDepth
  foreign : a.binding? t.1 t.2 = .ok (none : Option (Binding TypeExpr)) → t.1 ≠ id →
    (∀ m s (v : TypeExpr), ¬ a.PointsTo m s t v)
      ∧ ∃ m < a.maxDepth, ∃ v : TypeExpr, a.ResolvesIn m (id, p.name) v
  concrete : ∀ (w : TypeExpr) owner, a.binding? t.1 t.2 = .ok (some (.bound w owner)) →
    w.isConcrete → a.resolveParameter id p.name = .ok (some w)

section

variable {a b : Arena} {id : ContextId} {p : TypeParam} {t : Slot}

theorem Spares.of_bound {e : Binding TypeExpr} (ht : a.binding? t.1 t.2 = .ok (some e))
    (h : ∀ w owner, e = .bound w owner → w.isConcrete →
      a.resolveParameter id p.name = .ok (some w)) : a.Spares id p t where
  own hunbound := by cases ht.symm.trans hunbound
  foreign hunbound := by cases ht.symm.trans hunbound
  concrete w owner hw := by
    cases ht.symm.trans hw
    exact h w owner rfl

theorem keepsValues_iff_of_learns (ha : a.Resolves TypeExpr)
    (hway : Relation.ReflTransGen a.Passes (id, p.name) t)
    (ht : a.binding? t.1 t.2 = .ok (none : Option (Binding TypeExpr)))
    (h : a.Rebound b t (.bound (TypeExpr.param p) id)) :
    a.KeepsValues TypeExpr b ↔ a.Spares id p t := by
  have hconcrete : ∀ (w : TypeExpr) owner, a.binding? t.1 t.2 = .ok (some (.bound w owner)) →
      w.isConcrete → a.resolveParameter id p.name = .ok (some w) := fun w owner hw _ => by
    cases ht.symm.trans hw
  by_cases hid : t.1 = id
  · rw [h.keepsValues_iff_own ha ht hid.symm]
    exact ⟨fun hall => ⟨fun _ _ => hall, fun _ hne => absurd hid hne, hconcrete⟩,
      fun hspares => hspares.own ht hid⟩
  · have hne : (id, p.name) ≠ t := by
      rintro rfl
      exact hid rfl
    obtain ⟨e, he⟩ := (bound_of_passes hway).resolve_left hne
    rw [h.keepsValues_iff_foreign (r := (id, p.name)) ha ht rfl rfl (Ne.symm hid) he
      (pointsTo_of_passes hway hne ht)]
    exact ⟨fun hall => ⟨fun _ heq => absurd heq hid, fun _ _ => hall, hconcrete⟩,
      fun hspares => hspares.foreign ht hid⟩

theorem keepsValues_iff_of_returns {b' : Arena} {w : TypeExpr} {owner : ContextId}
    (ha : a.Resolves TypeExpr) (ht : a.binding? t.1 t.2 = .ok (some (.bound w owner)))
    (hw : w.isConcrete) (h : a.Rebound b t (.bound (TypeExpr.param p) id))
    (hreturn : Registration.Return a id p t w b b') :
    a.KeepsValues TypeExpr b' ↔ a.Spares id p t := by
  have hnone : w.parameterName? = none := by
    cases w with
    | param _ => cases hw
    | _ => rfl
  have hend : a.Ends TypeExpr t := ends_of_hop?_none ht (hop?_of_not_parameter hnone t.1)
  cases hreturn with
  | home hid m hhops hb =>
    have hresolves : a.resolveParameter id p.name = .ok (some w) :=
      (ha.resolvesIn (hhops.resolvesIn ht hnone)).2
    refine iff_of_true ((h.trans hb).keepsValues_of_value ha ht rfl hnone)
      (.of_bound ht fun w' owner' heq _ => ?_)
    cases heq
    exact hresolves
  | early m g e hg he hopen hnone' hb =>
    -- The parameter had the equality as its value and has the concrete one now.
    have hne : e.value ≠ w := by
      rintro rfl
      cases hw.symm.trans hopen
    have hgt : g ≠ t := by
      rintro rfl
      cases he.symm.trans ht
      exact hne rfl
    have heb : b.binding? g.1 g.2 = .ok (some e) := (h.other g hgt).trans he
    have hendb : b.Ends TypeExpr g := ends_of_hop?_none heb (hop?_of_not_parameter hnone' g.1)
    obtain ⟨hm, hbefore⟩ := ha.resolvesIn (hg.resolvesIn he hnone')
    have hafter : b'.resolveParameter id p.name = .ok (some w) :=
      ((hb.hops hendb (h.hops hend hg)).resolvesIn hb.self hnone).resolveParameter
        (hb.maxDepth.trans h.maxDepth ▸ hm)
    refine iff_of_false (fun hkept => ?_) fun hspares => ?_
    · cases (hkept.value id p.name _ hbefore).symm.trans hafter
      exact hne rfl
    · cases (hspares.concrete w owner ht hw).symm.trans hbefore
      exact hne rfl

end

end Arena

/-- The fact that a parameter is itself goes from owner to owner, to a slot that passes it on no
more. If it is registered at all, and no concrete value has to make room in a registration that
merges, then it costs no value and keeps all names resolvable just where that slot spares them. -/
theorem self_fact_keeps_values {a : Arena} (htrials : a.NoTrials) (ha : a.Resolves TypeExpr)
    {id : ContextId} {p : TypeParam} {merge : Bool} {s : Run}
    (hok : a.register (.type id (.param p) (some (.param p)) id merge) = .ok () s) :
    ∃ t, Relation.ReflTransGen a.Passes (id, p.name) t ∧ (∀ u, ¬ a.Passes t u)
      ∧ ((merge = true → ∀ (w : TypeExpr) owner,
          a.binding? t.1 t.2 = .ok (some (.bound w owner)) → w.isConcrete = false) →
        (a.KeepsValues TypeExpr s.arena ↔ a.Spares id p t)) := by
  obtain ⟨t, hway, hends, harrival⟩ :=
    Registration.register_arrives (r := { arena := a }) htrials hok
  refine ⟨t, hway, hends, fun hmerge => ?_⟩
  cases harrival with
  | learns ht h => exact Arena.keepsValues_iff_of_learns ha hway ht h
  | stays e ht hopen hb =>
    rw [hb]
    exact iff_of_true ⟨ha, fun _ _ _ h => h⟩ (.of_bound ht fun w owner heq hw => by
      cases (hopen w owner heq).symm.trans hw)
  | gives w owner ht hw n r s' h hr hok hb =>
    obtain rfl : merge = false := by
      cases merge with
      | false => rfl
      | true => cases (hmerge rfl w owner ht).symm.trans hw
    rw [hb]
    exact Arena.keepsValues_iff_of_returns ha ht hw h
      (Registration.register_returns h hr ht hw hway rfl (.here _) hway hok)

/-- A context that reads its parameter in the one above. -/
def Arena.readingAbove (above : BindingState) : Arena :=
  ({ hierarchy := .empty, maxDepth := 4 } : Arena)
    |>.insert 1 { Context.fresh 1 none none with current := above }
    |>.insert 2 { Context.fresh 2 (some 1) none with
      current := ({} : BindingState).bind "T" (.bound (TypeExpr.param ⟨"X", .covariant⟩) 1) }

theorem Arena.readingAbove_context {above : BindingState} {id : ContextId} {c : Context}
    (hc : (readingAbove above).context id = .ok c) : id = 1 ∨ id = 2 := by
  by_cases h : 2 = id
  · exact .inr h.symm
  rw [readingAbove, context_insert_of_ne _ h] at hc
  by_cases h' : 1 = id
  · exact .inl h'.symm
  rw [context_insert_of_ne _ h'] at hc
  cases hc

theorem Arena.noTrials_readingAbove (above : BindingState) : (readingAbove above).NoTrials := by
  intro id c hc
  rcases readingAbove_context hc with rfl | rfl <;> cases hc <;> rfl

/-- A context whose bindings are its own resolves, and so does the one that reads from it. -/
theorem Arena.resolves_readingAbove {above : BindingState}
    (hown : ∀ name (b : Binding TypeExpr), above.binding? name = some b → b.owner = 1) :
    (readingAbove above).Resolves TypeExpr := by
  have hone : ∀ name, (readingAbove above).binding? 1 name
      = .ok (above.binding? name : Option (Binding TypeExpr)) := fun _ => rfl
  have htwo : (readingAbove above).binding? 2 "T"
      = .ok (some (.bound (TypeExpr.param ⟨"X", .covariant⟩) 1)) := rfl
  have hends : ∀ name (b : Binding TypeExpr), above.binding? name = some b →
      (readingAbove above).hop? 1 b = .ok none := fun name b hb =>
    hop?_eq_none (s := (1, name)).2 fun t _ ht hne => absurd (ht.symm.trans (hown name b hb)) hne
  rintro id ⟨c, hc⟩ name
  rcases readingAbove_context hc with rfl | rfl
  · rcases hb : (above.binding? name : Option (Binding TypeExpr)) with _ | b
    · exact ⟨none, resolveParameter_eq_none.2 ((hone name).trans (congrArg _ hb))⟩
    · have hvalue : (readingAbove above).ResolvesIn 0 (1, name) b.value :=
        ⟨_, b, .here _, (hone name).trans (congrArg _ hb), hends name b hb, rfl⟩
      exact ⟨_, hvalue.resolveParameter (Nat.zero_le _)⟩
  by_cases hname : "T" = name
  · subst hname
    rcases hb : (above.binding? "X" : Option (Binding TypeExpr)) with _ | b
    · have hend : (readingAbove above).hop? 2 (.bound (TypeExpr.param ⟨"X", .covariant⟩) 1)
          = .ok none := (hone "X").trans (congrArg _ hb)
      have hvalue : (readingAbove above).ResolvesIn 0 (2, "T") (TypeExpr.param ⟨"X", .covariant⟩) :=
        ⟨_, _, .here _, htwo, hend, rfl⟩
      exact ⟨_, hvalue.resolveParameter (Nat.zero_le _)⟩
    · have hshown := (hone "X").trans (congrArg _ hb)
      have hvalue : (readingAbove above).ResolvesIn 1 (2, "T") b.value :=
        ⟨(1, "X"), b, .hop ⟨_, b, htwo, rfl, rfl, by decide, hshown⟩ (.here _), hshown,
          hends "X" b hb, rfl⟩
      exact ⟨_, hvalue.resolveParameter (show 1 ≤ 4 by decide)⟩
  · exact ⟨none, resolveParameter_eq_none.2
      (congrArg Except.ok (BindingState.binding?_bind_of_ne _ hname _))⟩

/-- A date stays one, also for the context below. -/
theorem self_fact_keeps_values_date :
    let a := Arena.readingAbove (({} : BindingState).bind "X" (.bound (TypeExpr.atom "Date") 1))
    a.NoTrials ∧ a.Resolves TypeExpr ∧ ∃ s, a.register
        (.type 1 (.param ⟨"X", .covariant⟩) (some (.param ⟨"X", .covariant⟩)) 1 false) = .ok () s
      ∧ a.KeepsValues TypeExpr s.arena := by
  intro a
  have ha : a.Resolves TypeExpr := Arena.resolves_readingAbove fun name b hb => by
    rw [BindingState.eq_of_binding?_bind hb]
    rfl
  have hdate : a.binding? 1 "X" = .ok (some (.bound (TypeExpr.atom "Date") 1)) := rfl
  obtain ⟨s, hs⟩ : ∃ s, a.register
      (.type 1 (.param ⟨"X", .covariant⟩) (some (.param ⟨"X", .covariant⟩)) 1 false) = .ok () s :=
    ⟨_, by with_unfolding_all rfl⟩
  refine ⟨Arena.noTrials_readingAbove _, ha, s, hs, ?_⟩
  obtain ⟨t, hway, -, hkept⟩ :=
    self_fact_keeps_values (Arena.noTrials_readingAbove _) ha hs
  obtain rfl : (1, "X") = t := by
    rcases hway.cases_head with heq | ⟨⟨o, name⟩, ⟨v, hv, hname, -⟩, -⟩
    · exact heq
    · cases hdate.symm.trans hv
      cases hname
  refine (hkept nofun).2 (.of_bound hdate fun w owner heq _ => ?_)
  cases heq
  exact (ha.resolvesIn ((Arena.Hops.here (1, "X")).resolvesIn hdate rfl)).2

/-- A parameter that the context below reads above, where nothing is bound: the fact is bound there,
and the two parameters stand for each other. -/
theorem self_fact_circle :
    ¬ ∀ (a : Arena) (id : ContextId) (p : TypeParam) (merge : Bool) (s : Run), a.NoTrials →
      a.Resolves TypeExpr →
      a.register (.type id (.param p) (some (.param p)) id merge) = .ok () s →
      a.KeepsValues TypeExpr s.arena := by
  intro h
  obtain ⟨s, hs, hone, htwo⟩ : ∃ s, (Arena.readingAbove {}).register
        (.type 2 (.param ⟨"T", .covariant⟩) (some (.param ⟨"T", .covariant⟩)) 2 false) = .ok () s
      ∧ s.arena.binding? 1 "X" = .ok (some (.bound (TypeExpr.param ⟨"T", .covariant⟩) 2))
      ∧ s.arena.binding? 2 "T" = .ok (some (.bound (TypeExpr.param ⟨"X", .covariant⟩) 1)) :=
    ⟨_, by with_unfolding_all rfl, by with_unfolding_all rfl, by with_unfolding_all rfl⟩
  have hkept := h _ 2 ⟨"T", .covariant⟩ false s (Arena.noTrials_readingAbove _)
    (Arena.resolves_readingAbove fun _ _ hb => by cases hb) hs
  have hthere : s.arena.Hop TypeExpr (2, "T") (1, "X") := ⟨_, _, htwo, rfl, rfl, by decide, hone⟩
  have hback : s.arena.Hop TypeExpr (1, "X") (2, "T") := ⟨_, _, hone, rfl, rfl, by decide, htwo⟩
  exact hkept.resolves.not_circle (.hop hthere (.hop hback (.here _)))

end ScopedInference
