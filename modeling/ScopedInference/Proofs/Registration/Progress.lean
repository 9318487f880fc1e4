import ScopedInference.Proofs.Registration.Congruence
import ScopedInference.Proofs.TypeExpr.Parameters

/-!
# Registrations that meet parameters

A registration meets the parameters of its template one after the other. `Progress` says what holds
of the arena once certain parameters have been met, and when an action that meets them is sure to
succeed. `Meets` is the triple for it: if the action succeeds, progress has been made; if it is sure
to, it does. There is one rule for each way of putting actions together, and one for each step.
-/

namespace ScopedInference

open RunM

structure Progress where
  hierarchy : Hierarchy
  /-- What holds of the arena after the parameters of a list have been met. -/
  holds : List Parameter → Arena → Prop
  /-- Meeting the parameters of a list does not fail. -/
  sure : List Parameter → Prop
  hierarchy_eq : ∀ {l a}, holds l a → a.hierarchy = hierarchy
  sure_left : ∀ {l l'}, sure (l ++ l') → sure l

namespace Progress

variable (P : Progress)

def Meets (act : RunM Unit) (ps : List Parameter) : Prop :=
  ∀ seen r, P.holds seen r.arena →
    (∀ s, act r = .ok () s → P.holds (seen ++ ps) s.arena)
      ∧ (P.sure (seen ++ ps) → ∃ s, act r = .ok () s)

/-- The context is there whenever success is due. -/
def Has (id : ContextId) : Prop :=
  ∀ l a, P.sure l → P.holds l a → ∃ c, a.context id = .ok c

variable {P}

namespace Meets

theorem pure : P.Meets (pure ()) [] := by
  intro seen r h
  rw [List.append_nil]
  exact ⟨fun s hs => by cases hs; exact h, fun _ => ⟨r, rfl⟩⟩

theorem record (e : Event) : P.Meets (record e) [] := by
  intro seen r h
  rw [List.append_nil]
  exact ⟨fun s hs => by cases hs; exact h, fun _ => ⟨_, rfl⟩⟩

theorem bind {act act' : RunM Unit} {ps qs : List Parameter} (h : P.Meets act ps)
    (h' : P.Meets act' qs) : P.Meets (act >>= fun _ => act') (ps ++ qs) := by
  intro seen r hr
  obtain ⟨hok, hsure⟩ := h seen r hr
  rw [← List.append_assoc]
  constructor
  · intro s hs
    obtain ⟨_, r', hr', hs'⟩ := bind_eq_ok.1 hs
    exact (h' _ r' (hok r' hr')).1 s hs'
  · intro hs
    obtain ⟨r', hr'⟩ := hsure (P.sure_left hs)
    obtain ⟨s, hs'⟩ := (h' _ r' (hok r' hr')).2 hs
    exact ⟨s, bind_eq_ok.2 ⟨(), r', hr', hs'⟩⟩

/-- A first action that meets no parameter. -/
theorem bind_nil {act act' : RunM Unit} {ps : List Parameter} (h : P.Meets act [])
    (h' : P.Meets act' ps) : P.Meets (act >>= fun _ => act') ps :=
  h.bind h'

theorem nested {act : RunM Unit} {ps : List Parameter} (h : P.Meets act ps) :
    P.Meets (RunM.nested act) ps := by
  intro seen r hr
  obtain ⟨hok, hsure⟩ := h seen (r.record .indent) hr
  constructor
  · intro s hs
    obtain ⟨s', hs', rfl⟩ := nested_eq_ok.1 hs
    exact hok s' hs'
  · intro hs
    obtain ⟨s', hs'⟩ := hsure hs
    exact ⟨_, nested_eq_ok.2 ⟨s', hs', rfl⟩⟩

theorem forM {α : Type} {f : α → RunM Unit} {ps : α → List Parameter} :
    ∀ {l : List α}, (∀ x ∈ l, P.Meets (f x) (ps x)) → P.Meets (l.forM f) (l.flatMap ps)
  | [], _ => pure
  | x :: l, h => by
    rw [List.flatMap_cons]
    exact (h x List.mem_cons_self).bind (forM fun y hy => h y (List.mem_cons_of_mem x hy))

theorem context {id : ContextId} {f : Context → RunM Unit} {ps : List Parameter} (hid : P.Has id)
    (h : ∀ c, P.Meets (f c) ps) : P.Meets (RunM.context id >>= f) ps := by
  intro seen r hr
  constructor
  · intro s hs
    obtain ⟨c, r', hc, hs'⟩ := bind_eq_ok.1 hs
    obtain ⟨-, rfl⟩ := context_eq_ok.1 hc
    exact (h c seen r' hr).1 s hs'
  · intro hs
    obtain ⟨c, hc⟩ := hid seen r.arena (P.sure_left hs) hr
    obtain ⟨s, hs'⟩ := (h c seen r hr).2 hs
    exact ⟨s, bind_eq_ok.2 ⟨c, r, context_eq_ok.2 ⟨hc, rfl⟩, hs'⟩⟩

theorem hierarchy {f : Hierarchy → RunM Unit} {ps : List Parameter}
    (h : P.Meets (f P.hierarchy) ps) : P.Meets (RunM.hierarchy >>= f) ps := by
  intro seen r hr
  rw [← P.hierarchy_eq hr] at h
  obtain ⟨hok, hsure⟩ := h seen r hr
  constructor
  · intro s hs
    obtain ⟨g, r', hg, hs'⟩ := bind_eq_ok.1 hs
    cases hg
    exact hok s hs'
  · intro hs
    obtain ⟨s, hs'⟩ := hsure hs
    exact ⟨s, bind_eq_ok.2 ⟨_, r, hierarchy_apply r, hs'⟩⟩

/-! ### Steps -/

open Registration

section

variable {recur : Request → RunM Unit} {id target : ContextId} {merge : Bool}

theorem forwardAll {l : List Request} {ps : Request → List Parameter}
    (h : ∀ q ∈ l, P.Meets (recur q) (ps q)) : P.Meets (forwardAll recur l) (l.flatMap ps) := by
  unfold Registration.forwardAll
  split
  · rename_i hl
    rw [List.isEmpty_iff.1 hl]
    exact pure
  · exact nested (forM h)

theorem function {f g : Arrow TypeExpr} (hlength : f.params.length = g.params.length)
    {ps : Position TypeExpr × Position TypeExpr → List Parameter}
    (h : ∀ q ∈ f.params.zip g.params ++ [(f.result, g.result)],
      P.Meets (do
        recur (.type id q.1.type (some q.2.type) target merge)
        recur (.mul id q.1.mul q.2.mul target)) (ps q)) :
    P.Meets (stepFunction recur id f g target merge)
      ((f.params.zip g.params ++ [(f.result, g.result)]).flatMap ps) := by
  unfold stepFunction
  rw [if_neg (by simpa using hlength)]
  exact (record _).bind_nil (nested (forM h))

theorem function_of_ne {f g : Arrow TypeExpr} (hlength : f.params.length ≠ g.params.length) :
    P.Meets (stepFunction recur id f g target merge) [] := by
  unfold stepFunction
  rw [if_pos hlength]
  exact (record _).bind_nil (record _)

theorem relation {r s : Relation TypeExpr} {ps : Column TypeExpr × Column TypeExpr → List Parameter}
    (h : ∀ q ∈ s.align r, P.Meets (recur (.type id q.2.type (some q.1.type) target merge)) (ps q)) :
    P.Meets (stepConcrete recur id (.relation r) (.relation s) target merge)
      ((s.align r).flatMap ps) :=
  nested (forM h)

theorem arguments_of_none {c d : ClassType} (hpair : pairArguments P.hierarchy c d = none) :
    P.Meets (stepArguments recur id c d target merge) [] := by
  unfold stepArguments
  refine hierarchy ?_
  rw [hpair]
  exact pure

/-- A type argument is registered; a function type is matched with another one directly. -/
def argument (recur : Request → RunM Unit) (id target : ContextId) (merge : Bool)
    (q : TypeExpr × TypeExpr) : RunM Unit :=
  match q.1, q.2 with
  | .function f, .function g => recur (.function id f g target merge)
  | _, _ => RunM.nested (recur (.type id q.1 (some q.2) target merge))

theorem arguments {c d templates values : ClassType}
    (hpair : pairArguments P.hierarchy c d = some (templates, values))
    {ms : Multiplicity × Multiplicity → List Parameter} {ps : TypeExpr × TypeExpr → List Parameter}
    (hm : ∀ q ∈ templates.muls.zip values.muls, P.Meets (recur (.mul id q.1 q.2 target)) (ms q))
    (ht : ∀ q ∈ templates.types.zip values.types,
      P.Meets (argument recur id target merge q) (ps q)) :
    P.Meets (stepArguments recur id c d target merge)
      ((templates.muls.zip values.muls).flatMap ms
        ++ (templates.types.zip values.types).flatMap ps) := by
  unfold stepArguments
  refine hierarchy ?_
  rw [hpair]
  exact (forM hm).bind (forM ht)

end

/-- A request about a type, from what is said of an equality and of the template. -/
theorem register_type {n : Nat} {id target : ContextId} {t v : TypeExpr} {merge : Bool}
    {ps : List Parameter} (hid : P.Has id) (htarget : P.Has target)
    (hequality : ∀ here there, P.Meets (stepEquality (register n) here there v merge) [])
    (htemplate : P.Meets (stepTemplate (register n) id t v target merge) ps) :
    P.Meets (register (n + 1) (.type id t (some v) target merge)) ps :=
  context hid fun here => context htarget fun there =>
    (record _).bind_nil ((hequality here there).bind_nil htemplate)

/-- Without levels nothing succeeds, and nothing should be sure to. -/
theorem register_zero {q : Request} {ps : List Parameter} (h : ∀ l, ¬ P.sure l) :
    P.Meets (register 0 q) ps :=
  fun _ r _ => ⟨fun _ hs => absurd hs (register_zero_ne_ok q r), fun hs => absurd hs (h _)⟩

/-- A concrete multiplicity teaches nothing. -/
theorem register_mul_range {n lower : Nat} {upper : Option Nat} {id target : ContextId}
    {v : Multiplicity} (hid : P.Has id) (htarget : P.Has target) :
    P.Meets (register (n + 1) (.mul id (.range lower upper) v target)) [] :=
  context hid fun _ => context htarget fun _ => pure

end Meets

end Progress

end ScopedInference
