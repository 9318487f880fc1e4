import ScopedInference.Proofs.Registration.Alike

/-!
# Nested equalities

An equality that a parameter is told of is looked at below a parent: its right side is registered
for its left side there first. The right side may be an equality again, and so each nested one
climbs one scope, until they or the parents run out (`register_climbs`). In contexts in which
nothing is bound every level binds one parameter, and nothing else is bound anywhere
(`register_nestedEqualities`).
-/

namespace ScopedInference

/-- Parameters in turn, each equal to what comes after it. -/
def nestedEqualities (xs : List TypeParam) (r : TypeExpr) : TypeExpr :=
  xs.foldr (fun p t => .operation .equal (.param p) t) r

/-- What is learnt on the way up: each parameter, with what it is equal to, in the next context. -/
def equalityFacts (r : TypeExpr) :
    List ContextId → List TypeParam → List (ContextId × String × TypeExpr)
  | id :: ids, p :: ps => (id, p.name, nestedEqualities ps r) :: equalityFacts r ids ps
  | _, _ => []

section

variable {r : TypeExpr}

theorem mem_equalityFacts {f : ContextId × String × TypeExpr} : ∀ {ids : List ContextId}
    {ps : List TypeParam}, f ∈ equalityFacts r ids ps ↔ ∃ (i : Nat) (p : TypeParam),
      ids[i]? = some f.1 ∧ ps[i]? = some p ∧ p.name = f.2.1
        ∧ f.2.2 = nestedEqualities (ps.drop (i + 1)) r
  | [], _ => by simp [equalityFacts]
  | _ :: _, [] => by simp [equalityFacts]
  | id :: ids, p :: ps => by
    rw [equalityFacts, List.mem_cons, @mem_equalityFacts f ids ps]
    constructor
    · rintro (rfl | ⟨i, q, hi, hq, hname, hvalue⟩)
      · exact ⟨0, p, rfl, rfl, rfl, rfl⟩
      · exact ⟨i + 1, q, hi, hq, hname, hvalue⟩
    · rintro ⟨_ | i, q, hi, hq, hname, hvalue⟩
      · obtain rfl : p = q := Option.some.inj hq
        obtain rfl : id = f.1 := Option.some.inj hi
        exact .inl (Prod.ext rfl (Prod.ext hname.symm hvalue))
      · exact .inr ⟨i, q, hi, hq, hname, hvalue⟩

theorem fst_mem_of_mem_equalityFacts {ids : List ContextId} {ps : List TypeParam} {id : ContextId}
    (h : id ∈ (equalityFacts r ids ps).map (·.1)) : id ∈ ids := by
  obtain ⟨f, hf, rfl⟩ := List.mem_map.1 h
  obtain ⟨i, p, hi, -⟩ := mem_equalityFacts.1 hf
  exact List.mem_of_getElem? hi

end

namespace Arena

/-! ### The way up -/

/-- Contexts in which nothing is bound, each the child of the next, up to one without a parent. -/
inductive FreshChain (a : Arena) : List ContextId → Prop where
  | top {id c} : a.context id = .ok c → c.parent = none → c.Blank → FreshChain a [id]
  | child {id parent ids c} : a.context id = .ok c → c.parent = some parent → c.Blank →
      FreshChain a (parent :: ids) → FreshChain a (id :: parent :: ids)

namespace FreshChain

variable {a b : Arena} {id : ContextId} {ids ids' : List ContextId}

/-- A context has one way up only. -/
theorem eq_of_head (h : a.FreshChain (id :: ids)) (h' : a.FreshChain (id :: ids')) :
    ids = ids' := by
  generalize hl : id :: ids = l at h
  induction h generalizing id ids ids' with
  | @top _ c hc hparent _ =>
    cases hl
    cases h' with
    | top => rfl
    | child hc' hparent' =>
      cases hc.symm.trans hc'
      rw [hparent] at hparent'
      cases hparent'
  | @child _ parent rest c hc hparent _ _ ih =>
    cases hl
    cases h' with
    | top hc' hparent' =>
      cases hc.symm.trans hc'
      rw [hparent] at hparent'
      cases hparent'
    | child hc' hparent' _ hrest' =>
      cases hc.symm.trans hc'
      obtain rfl : parent = _ := Option.some.inj (hparent.symm.trans hparent')
      rw [ih hrest' rfl]

theorem of_append : ∀ {l : List ContextId}, a.FreshChain (l ++ id :: ids) → a.FreshChain (id :: ids)
  | [], h => h
  | [_], .child _ _ _ h => h
  | _ :: x :: l, .child _ _ _ h => of_append (l := x :: l) h

/-- A way up never comes back. -/
theorem not_mem (h : a.FreshChain (id :: ids)) : id ∉ ids := by
  intro hmem
  obtain ⟨l, l', rfl⟩ := List.append_of_mem hmem
  have hlength := congrArg List.length (h.eq_of_head (of_append (l := id :: l) h))
  simp at hlength
  omega

theorem congr (h : a.FreshChain ids) (hb : b.contexts = a.contexts) : b.FreshChain ids := by
  induction h with
  | top hc hparent hblank => exact .top ((context_congr hb _).trans hc) hparent hblank
  | child hc hparent hblank _ ih => exact .child ((context_congr hb _).trans hc) hparent hblank ih

end FreshChain

/-! ### What is bound on it -/

/-- In the second arena some contexts in which nothing was bound have one value each, which they own
themselves; all others are as they were. -/
structure Gains (a b : Arena) (facts : List (ContextId × String × TypeExpr)) : Prop where
  gained : ∀ f ∈ facts, ∃ c, a.context f.1 = .ok c ∧ c.Blank
    ∧ b.context f.1 = .ok (c.mapCurrent (·.bind f.2.1 (.bound f.2.2 f.1)))
  distinct : (facts.map (·.1)).Nodup
  others : ∀ id, id ∉ facts.map (·.1) → b.context id = a.context id

namespace Gains

variable {a b : Arena} {facts : List (ContextId × String × TypeExpr)}

theorem nil (a : Arena) : a.Gains a [] where
  gained _ hf := absurd hf List.not_mem_nil
  distinct := .nil
  others _ _ := rfl

theorem cons (h : a.Gains b facts) {id : ContextId} {c : Context} (hc : a.context id = .ok c)
    (hblank : c.Blank) (hid : id ∉ facts.map (·.1)) (name : String) (v : TypeExpr) :
    a.Gains (b.insert id (c.mapCurrent (·.bind name (.bound v id)))) ((id, name, v) :: facts) where
  gained f hf := by
    rcases List.mem_cons.1 hf with rfl | hf
    · exact ⟨c, hc, hblank, context_insert_self ..⟩
    · obtain ⟨d, hd, hdblank, hgained⟩ := h.gained f hf
      have hne : id ≠ f.1 := fun heq => hid (heq ▸ List.mem_map_of_mem hf)
      exact ⟨d, hd, hdblank, (context_insert_of_ne _ hne _).trans hgained⟩
  distinct := List.nodup_cons.2 ⟨hid, h.distinct⟩
  others other hother := by
    rw [List.map_cons, List.mem_cons, not_or] at hother
    rw [context_insert_of_ne _ (Ne.symm hother.1), h.others other hother.2]

/-- The visible types are the new ones and those there were. -/
theorem binding?_iff (h : a.Gains b facts) {id : ContextId} {name : String}
    {t : Binding TypeExpr} : b.binding? id name = .ok (some t)
      ↔ (∃ v, (id, name, v) ∈ facts ∧ t = .bound v id) ∨ a.binding? id name = .ok (some t) := by
  by_cases hid : id ∈ facts.map (·.1)
  · obtain ⟨⟨id, name', v⟩, hf, rfl⟩ := List.mem_map.1 hid
    obtain ⟨c, hc, hblank, hb⟩ := h.gained _ hf
    have hnone : a.binding? id name ≠ .ok (some t) := fun ht => by
      rw [binding?_of_context hc, hblank.types] at ht
      cases ht
    rw [binding?_of_context hb, or_iff_left hnone]
    constructor
    · intro ht
      by_cases hname : name' = name
      · subst hname
        exact ⟨v, hf, (Option.some.inj ((BindingState.binding?_bind_self ..).symm.trans ht)).symm⟩
      · rw [Context.mapCurrent, BindingState.binding?_bind_of_ne _ hname, hblank.types] at ht
        cases ht
    · rintro ⟨w, hw, rfl⟩
      cases List.inj_on_of_nodup_map h.distinct hf hw rfl
      exact BindingState.binding?_bind_self ..
  · rw [binding?, binding?, h.others id hid, or_iff_right]
    rintro ⟨v, hv, -⟩
    exact hid (List.mem_map_of_mem hv)

/-- Multiplicities are as they were. -/
theorem binding?_mul (h : a.Gains b facts) (id : ContextId) (name : String) : b.binding? id name
    = (a.binding? id name : Except InferError (Option (Binding Multiplicity))) := by
  unfold binding?
  by_cases hid : id ∈ facts.map (·.1)
  · obtain ⟨f, hf, rfl⟩ := List.mem_map.1 hid
    obtain ⟨c, hc, -, hb⟩ := h.gained f hf
    rw [hc, hb]
    rfl
  · rw [h.others id hid]

end Gains

end Arena

namespace Registration

open RunM

section

variable {n : Nat} {id : ContextId} {p : TypeParam} {v : TypeExpr} {merge : Bool} {run : Run}
  {c : Context}

/-- An unbound parameter takes the value, and passes nothing on. -/
theorem stepTemplate_unbound (recur : Request → RunM Unit) (hc : run.arena.context id = .ok c)
    (hb : c.current.binding? p.name = (none : Option (Binding TypeExpr))) (v : TypeExpr)
    (target : ContextId) (merge : Bool) :
    ∃ s, stepTemplate recur id (.param p) v target merge run = .ok () s
      ∧ s.arena = run.arena.insert id (c.mapCurrent (·.bind p.name (.bound v target))) := by
  have hd := typeDecision_unbound run.arena.hierarchy id target p c.onTrial merge hb v
  obtain ⟨s, hs, harena⟩ := exists_settle hc target p.name { value? := some v }
  rw [stepTemplate, stepParameter_apply hc hd, bind_of_eq_ok hs]
  exact ⟨_, rfl, harena⟩

/-- First the parent is told, then the parameter. -/
theorem register_equality {parent : ContextId} (hc : run.arena.context id = .ok c)
    (hparent : c.parent = some parent) (p : TypeParam) (left right : TypeExpr) (n : Nat)
    (merge : Bool) :
    register (n + 1) (.type id (.param p) (some (.operation .equal left right)) id merge) run = (do
      nested (register n (.type parent left (some right) parent merge))
      stepTemplate (register n) id (.param p) (.operation .equal left right) id merge : RunM Unit)
        (run.record (.trying (.param p) (some (.operation .equal left right)) id id)) := by
  simp only [register, step, stepType]
  rw [bind_of_eq_ok (context_eq_ok.2 ⟨hc, rfl⟩), bind_of_eq_ok (context_eq_ok.2 ⟨hc, rfl⟩)]
  show (stepEquality _ c c _ merge >>= fun _ => stepTemplate _ id _ _ id merge) _ = _
  simp only [stepEquality, hparent, Option.getD_some]

/-- Without a parent, or if it is not told of an equality, an unbound parameter takes the value. -/
theorem register_here (hc : run.arena.context id = .ok c) (hblank : c.Blank)
    (hv : c.parent = none ∨ ∀ left right, v ≠ .operation .equal left right) :
    ∃ s, register (n + 1) (.type id (.param p) (some v) id merge) run = .ok () s
      ∧ run.arena.Gains s.arena [(id, p.name, v)] := by
  have hd := typeDecision_unbound run.arena.hierarchy id id p c.onTrial merge
    (hblank.types p.name) v
  obtain ⟨s, hs, happly⟩ := register_param_apply (n := n) hc hc hv hd
  refine ⟨s, happly, ?_⟩
  rw [hs]
  exact (Arena.Gains.nil _).cons hc hblank List.not_mem_nil p.name v

end

/-- Nested equalities climb as far as there are levels left, and otherwise fail. -/
theorem register_climbs {r : TypeExpr} (hr : ∀ left right, r ≠ .operation .equal left right)
    (merge : Bool) : ∀ {ids : List ContextId} {id : ContextId} (p : TypeParam) (ps : List TypeParam)
    (n : Nat) (run : Run), run.arena.FreshChain (id :: ids) →
    let q := Request.type id (.param p) (some (nestedEqualities ps r)) id merge
    (min ps.length ids.length ≤ n ∧ ∃ s, register (n + 1) q run = .ok () s
        ∧ run.arena.Gains s.arena (equalityFacts r (id :: ids) (p :: ps)))
      ∨ (n < min ps.length ids.length ∧ ∃ e s, register (n + 1) q run = .error e s)
  | [], id, p, ps, n, run, .top hc hparent hblank =>
    .inl ⟨by simp, register_here hc hblank (.inl hparent)⟩
  | parent :: ids, id, p, [], n, run, .child hc hparent hblank _ =>
    .inl ⟨by simp, register_here hc hblank (.inr hr)⟩
  | parent :: ids, id, p, x :: ps, n, run, h => by
    intro q
    obtain ⟨c, hc, hparent, hblank, hrest⟩ : ∃ c, run.arena.context id = .ok c
        ∧ c.parent = some parent ∧ c.Blank ∧ run.arena.FreshChain (parent :: ids) := by
      cases h with
      | child hc hparent hblank hrest => exact ⟨_, hc, hparent, hblank, hrest⟩
    have hq := register_equality hc hparent p (.param x) (nestedEqualities ps r) n merge
    rcases n with _ | n
    · exact .inr ⟨by simp, _, _, hq⟩
    let told := run.record (.trying (.param p) (some (nestedEqualities (x :: ps) r)) id id)
    rcases register_climbs hr merge x ps n (told.record .indent) hrest with ⟨hle, s, hs, hgains⟩ | ⟨hlt, e, s, hs⟩
    · refine .inl ⟨by simp only [List.length_cons]; omega, ?_⟩
      -- What is learnt further up is in other contexts, so nothing is bound in this one yet.
      have hnot : id ∉ (equalityFacts r (parent :: ids) (x :: ps)).map (·.1) := fun hmem =>
        h.not_mem (fst_mem_of_mem_equalityFacts hmem)
      have hc' : (s.record .outdent).arena.context id = .ok c := (hgains.others id hnot).trans hc
      obtain ⟨t, ht, harena⟩ := stepTemplate_unbound (register (n + 1)) hc' (hblank.types p.name)
        (nestedEqualities (x :: ps) r) id merge
      refine ⟨t, ?_, ?_⟩
      · rw [← ht]
        exact hq.trans (bind_of_eq_ok (nested_eq_ok.2 ⟨s, hs, rfl⟩) _)
      · rw [harena]
        exact hgains.cons hc hblank hnot p.name _
    · exact .inr ⟨by simp only [List.length_cons]; omega, e, s.record .outdent,
        hq.trans (bind_of_eq_error (nested_of_eq_error hs) _)⟩

end Registration

/-- In fresh contexts, nested equalities climb one scope per level: with enough levels for the way
that they go, and only then, the first parameter is bound to all of it in its own context, each
further one to what it is equal to in the next context up, as long as there are both, and nothing
else changes. -/
theorem register_nestedEqualities {a : Arena} {id : ContextId} {ids : List ContextId}
    (hchain : a.FreshChain (id :: ids)) (z : TypeParam) (xs : List TypeParam) {r : TypeExpr}
    (hr : ∀ left right, r ≠ .operation .equal left right) (merge : Bool) :
    let q := Request.type id (.param z) (some (nestedEqualities xs r)) id merge
    ((∃ s, a.register q = .ok () s) ↔ min xs.length ids.length ≤ a.maxDepth)
    ∧ ∀ s, a.register q = .ok () s →
      (∀ other name (t : Binding TypeExpr), s.arena.binding? other name = .ok (some t)
        ↔ (∃ (i : Nat) (p : TypeParam), (id :: ids)[i]? = some other ∧ (z :: xs)[i]? = some p
            ∧ p.name = name ∧ t = .bound (nestedEqualities (xs.drop i) r) other)
          ∨ a.binding? other name = .ok (some t))
      ∧ ∀ other name, s.arena.binding? other name
        = (a.binding? other name : Except InferError (Option (Binding Multiplicity))) := by
  intro q
  rcases Registration.register_climbs hr merge z xs a.maxDepth { arena := a } hchain
    with ⟨hle, s, hs, hgains⟩ | ⟨hlt, e, s, hs⟩
  · refine ⟨iff_of_true ⟨s, hs⟩ hle, fun s' hs' => ?_⟩
    cases hs.symm.trans hs'
    refine ⟨fun other name t => ?_, hgains.binding?_mul⟩
    rw [hgains.binding?_iff]
    refine or_congr_left ⟨?_, ?_⟩
    · rintro ⟨v, hv, rfl⟩
      obtain ⟨i, p, hi, hp, hname, rfl⟩ := mem_equalityFacts.1 hv
      exact ⟨i, p, hi, hp, hname, rfl⟩
    · rintro ⟨i, p, hi, hp, hname, rfl⟩
      exact ⟨_, mem_equalityFacts.2 ⟨i, p, hi, hp, hname, rfl⟩, rfl⟩
  · have hfails : ∀ s', a.register q ≠ .ok () s' := fun s' hs' => by cases hs.symm.trans hs'
    exact ⟨iff_of_false (fun ⟨s', hs'⟩ => hfails s' hs') (Nat.not_le.2 hlt),
      fun s' hs' => absurd hs' (hfails s')⟩

/-- A child of a context without a parent, and that context; nothing is bound in either. -/
def Arena.freshChild : Arena :=
  (({ hierarchy := .preloaded } : Arena).insert 2 (.fresh 2 (some 1) none)).insert 1
    (.fresh 1 none none)

/-- With two equalities below one parent, the second one is not looked at. -/
theorem register_nestedEqualities_freshChild :
    Arena.freshChild.FreshChain [2, 1]
    ∧ (∀ left right, TypeExpr.atom "String" ≠ .operation .equal left right)
    ∧ ∃ s, Arena.freshChild.register (.type 2 (.param ⟨"Z", .covariant⟩)
          (some (nestedEqualities [⟨"X", .covariant⟩, ⟨"Y", .covariant⟩] (.atom "String"))) 2 false)
        = .ok () s
      ∧ s.arena.binding? 1 "X" = .ok (some (.bound
          (nestedEqualities [⟨"Y", .covariant⟩] (.atom "String")) 1))
      ∧ ∀ t : Binding TypeExpr, s.arena.binding? 1 "Y" ≠ .ok (some t) := by
  have hchain : Arena.freshChild.FreshChain [2, 1] :=
    .child rfl rfl (Context.blank_fresh 2 (some 1))
      (.top rfl rfl (Context.blank_fresh 1 none))
  have hr : ∀ left right, TypeExpr.atom "String" ≠ .operation .equal left right :=
    TypeExpr.ne_equality rfl
  obtain ⟨hiff, hbindings⟩ := register_nestedEqualities hchain ⟨"Z", .covariant⟩
    [⟨"X", .covariant⟩, ⟨"Y", .covariant⟩] hr false
  obtain ⟨s, hs⟩ := hiff.2 (by decide)
  obtain ⟨htypes, -⟩ := hbindings s hs
  refine ⟨hchain, hr, s, hs, (htypes 1 "X" _).2 (.inl ⟨1, _, rfl, rfl, rfl, rfl⟩), fun t hy => ?_⟩
  rcases (htypes 1 "Y" t).1 hy with ⟨i, p, hi, hp, hname, -⟩ | hbefore
  · match i, hi, hp with
    | 0, hi, _ => cases hi
    | 1, _, hp =>
      cases hp
      exact absurd hname (by decide)
    | 2, hi, _ => cases hi
  · cases hbefore

end ScopedInference
