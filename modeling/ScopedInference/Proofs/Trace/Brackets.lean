import Mathlib.Data.List.Induction
import ScopedInference.Arena.Creation
import ScopedInference.Proofs.Registration.Update
import ScopedInference.Trace.Log
import ScopedInference.Trace.Recorder

/-!
# Depths in traces and logs

Registrations report `indent` and `outdent` like brackets (`Balanced`): every nested part closes
what it has opened, also when it fails. Recorders and loggers that start at the same depth are
therefore at the same depth at each event, never below the one they started at, and back there at
the end (`register_bracketed`).
-/

namespace ScopedInference

/-- What a registration reports, whether or not it succeeds. -/
def Arena.reported (a : Arena) (q : Request) : Array Event :=
  match a.register q with
  | .ok _ s | .error _ s => s.events

theorem Arena.reported_eq (a : Arena) (q : Request) : a.reported q
    = ((Registration.register (a.maxDepth + 1) q).final { arena := a }).events := by
  unfold reported register RunM.final
  rcases Registration.register (a.maxDepth + 1) q { arena := a } with ⟨x, s⟩ | ⟨e, s⟩ <;> rfl

/-! ### Brackets -/

/-- Nothing is closed before it is opened, and nothing is left open. -/
structure Balanced (es : List Event) : Prop where
  opened : ∀ p, p <+: es → p.count .outdent ≤ p.count .indent
  closed : es.count .outdent = es.count .indent

namespace Balanced

variable {es es' : List Event}

theorem nil : Balanced [] where
  opened p hp := by simp [List.prefix_nil.1 hp]
  closed := rfl

theorem append (h : Balanced es) (h' : Balanced es') : Balanced (es ++ es') where
  opened p hp := by
    rcases List.prefix_or_prefix_of_prefix hp (List.prefix_append es es') with hp | ⟨q, rfl⟩
    · exact h.opened p hp
    · have hclosed := h.closed
      have hopened := h'.opened q ((List.prefix_append_right_inj es).1 hp)
      rw [List.count_append, List.count_append]
      omega
  closed := by rw [List.count_append, List.count_append, h.closed, h'.closed]

theorem singleton {e : Event} (he : e.isMark = false) : Balanced [e] where
  opened p hp := by
    have hout : [e].count .outdent = 0 := List.count_eq_zero.2 fun h => by
      rw [← List.mem_singleton.1 h] at he
      cases he
    have := hp.sublist.count_le Event.outdent
    omega
  closed := by cases e <;> first | rfl | cases he

/-- What is balanced, one level deeper. -/
theorem level (h : Balanced es) : Balanced (.indent :: es ++ [.outdent]) := by
  have hclosed := h.closed
  refine ⟨fun p hp => ?_, ?_⟩
  · rcases List.prefix_concat_iff.1 hp with rfl | hp
    · simp
      omega
    · rcases List.prefix_cons_iff.1 hp with rfl | ⟨q, rfl, hq⟩
      · simp
      · have hopened := h.opened q hq
        simp
        omega
  · simp
    omega

end Balanced

namespace Registration

/-- What is reported in the course of an action is balanced. -/
theorem balanced_passage (merge : Bool) : Passage merge fun r s =>
    ∃ es, Balanced es ∧ s.events.toList = r.events.toList ++ es where
  refl r := ⟨[], .nil, by simp⟩
  trans := by
    rintro r s t ⟨es, hes, hs⟩ ⟨es', hes', ht⟩
    exact ⟨es ++ es', hes.append hes', by rw [ht, hs, List.append_assoc]⟩
  record r e he := ⟨[e], .singleton he, Array.toList_push⟩
  level := by
    rintro r s ⟨es, hes, hs⟩
    refine ⟨_, hes.level, ?_⟩
    simp [Run.record, hs]
  type _ _ := ⟨[], .nil, by simp⟩
  mul _ _ := ⟨[], .nil, by simp⟩

theorem balanced_reported (a : Arena) (q : Request) : Balanced (a.reported q).toList := by
  obtain ⟨es, hes, heq⟩ := register_passage balanced_passage (a.maxDepth + 1) q { arena := a }
  rw [Arena.reported_eq, heq]
  exact hes

/-- The element type of a list is one level too deep, and the level is closed. -/
example :
    (({ hierarchy := .preloaded, maxDepth := 0 } : Arena).insert 1 (.fresh 1 none none)).reported
      (.type 1 (.classType ⟨"List", [.param ⟨"T", .covariant⟩], []⟩)
        (some (.classType ⟨"List", [.atom "String"], []⟩)) 1 false)
    = #[.trying (.classType ⟨"List", [.param ⟨"T", .covariant⟩], []⟩)
        (some (.classType ⟨"List", [.atom "String"], []⟩)) 1 1, .indent, .outdent] := by
  with_unfolding_all rfl

end Registration

/-! ### Depths -/

/-- The depth after an event. -/
def Event.depthAfter (d : Nat) : Event → Nat
  | .indent => d + 1
  | .outdent => d - 1
  | _ => d

theorem Recorder.depth_observe (r : Recorder) (e : Event) :
    (r.observe e).depth = e.depthAfter r.depth := by
  cases e <;> rfl

theorem Logger.depth_observe (l : Logger) (e : Event) :
    (l.observe e).depth = e.depthAfter l.depth := by
  rcases e with ⟨_, _ | _, _, _⟩ | _ | _ | _ | _ | _ <;> rfl

theorem Recorder.depth_observeAll (r : Recorder) (es : Array Event) :
    (r.observeAll es).depth = es.toList.foldl Event.depthAfter r.depth := by
  unfold observeAll
  rw [← Array.foldl_toList]
  exact (List.foldl_hom Recorder.depth fun r e => (r.depth_observe e).symm).symm

theorem Logger.depth_observeAll (l : Logger) (es : Array Event) :
    (l.observeAll es).depth = es.toList.foldl Event.depthAfter l.depth := by
  unfold observeAll
  rw [← Array.foldl_toList]
  exact (List.foldl_hom Logger.depth fun l e => (l.depth_observe e).symm).symm

/-- Where nothing is closed before it is opened, the depth says how many levels are open. -/
theorem depthAfter_foldl (d : Nat) (es : List Event)
    (h : ∀ p, p <+: es → p.count .outdent ≤ p.count .indent) :
    es.foldl Event.depthAfter d + es.count .outdent = d + es.count .indent := by
  -- Prefixes lose events at the end, so the induction takes them from there.
  induction es using List.reverseRecOn with
  | nil => rfl
  | append_singleton es e ih =>
    have hbefore := ih fun p hp => h p (hp.trans (List.prefix_append es [e]))
    have hall := h _ List.prefix_rfl
    rw [List.foldl_append, List.foldl_cons, List.foldl_nil]
    cases e <;> simp [Event.depthAfter] at hall ⊢ <;> omega

/-! ### Steps and lines -/

/-- The fields of the log line for what a step records. -/
def TraceStep.logFields (s : TraceStep) : List (String × String) :=
  [("depth", toString s.depth), ("template", s.template)]
    ++ (s.actual.elim [] fun a => [("actual", a)])
    ++ [("context", s.context), ("target", s.target)]

/-- What two observers have heard in between: as many steps as trace lines, of the same contents,
and the steps numbered on. -/
structure Heard (r r' : Recorder) (l l' : Logger) (new : List TraceStep) (told : List LogLine) :
    Prop where
  steps : r'.steps.toList = r.steps.toList ++ new
  lines : l'.lines.toList = l.lines.toList ++ told
  number : new.map (·.number) = List.range' r.steps.size new.length
  fields : (told.filter (·.level = .trace)).map (·.fields) = new.map (·.logFields)

namespace Heard

variable {r r' r'' : Recorder} {l l' l'' : Logger} {new new' : List TraceStep}
  {told told' : List LogLine}

theorem refl (r : Recorder) (l : Logger) : Heard r r l l [] [] := ⟨by simp, by simp, rfl, rfl⟩

theorem trans (h : Heard r r' l l' new told) (h' : Heard r' r'' l' l'' new' told') :
    Heard r r'' l l'' (new ++ new') (told ++ told') where
  steps := by rw [h'.steps, h.steps, List.append_assoc]
  lines := by rw [h'.lines, h.lines, List.append_assoc]
  number := by
    have hsize : r'.steps.size = r.steps.size + new.length := by
      rw [← Array.length_toList, h.steps, List.length_append, Array.length_toList]
    rw [List.map_append, List.length_append, h.number, h'.number, hsize, ← List.range'_append_1]
  fields := by rw [List.filter_append, List.map_append, List.map_append, h.fields, h'.fields]

/-- At the same depth, an event is heard the same. -/
theorem observe (h : r.depth = l.depth) (e : Event) :
    ∃ new told, Heard r (r.observe e) l (l.observe e) new told := by
  rcases e with ⟨t, _ | v, id, target⟩ | ⟨t, v, id, target⟩ | ⟨m, v, id, target⟩ | _ | _ | n
  case indent | outdent =>
    exact ⟨[], [], by simp [Recorder.observe], by simp [Logger.observe], rfl, rfl⟩
  case note => exact ⟨[], [n.logLine], by simp [Recorder.observe], Array.toList_push, rfl, rfl⟩
  all_goals
    refine ⟨[_], [_], Array.toList_push, Array.toList_push, rfl, ?_⟩
    simp [traceLine, TraceStep.logFields, h]

theorem observeAll (h : r.depth = l.depth) (es : Array Event) :
    ∃ new told, Heard r (r.observeAll es) l (l.observeAll es) new told := by
  unfold Recorder.observeAll Logger.observeAll
  rw [← Array.foldl_toList, ← Array.foldl_toList]
  induction es.toList generalizing r l with
  | nil => exact ⟨[], [], .refl r l⟩
  | cons e es ih =>
    obtain ⟨new, told, hone⟩ := observe h e
    obtain ⟨new', told', hrest⟩ := ih (r := r.observe e) (l := l.observe e)
      (by rw [r.depth_observe, l.depth_observe, h])
    exact ⟨_, _, hone.trans hrest⟩

end Heard

/-! ### Calls in turn -/

/-- What some registrations report one after the other, each in an arena of its own. -/
def reportedAll (calls : List (Arena × Request)) : List Event :=
  calls.flatMap fun c => (c.1.reported c.2).toList

def Recorder.follow (r : Recorder) (calls : List (Arena × Request)) : Recorder :=
  calls.foldl (fun r c => r.observeAll (c.1.reported c.2)) r

def Logger.follow (l : Logger) (calls : List (Arena × Request)) : Logger :=
  calls.foldl (fun l c => l.observeAll (c.1.reported c.2)) l

theorem Recorder.follow_eq (r : Recorder) (calls : List (Arena × Request)) :
    r.follow calls = r.observeAll (reportedAll calls).toArray := by
  unfold follow reportedAll observeAll
  rw [← Array.foldl_toList, List.foldl_flatMap]
  simp only [Array.foldl_toList]

theorem Logger.follow_eq (l : Logger) (calls : List (Arena × Request)) :
    l.follow calls = l.observeAll (reportedAll calls).toArray := by
  unfold follow reportedAll observeAll
  rw [← Array.foldl_toList, List.foldl_flatMap]
  simp only [Array.foldl_toList]

theorem balanced_reportedAll : ∀ calls, Balanced (reportedAll calls)
  | [] => .nil
  | c :: calls => (Registration.balanced_reported c.1 c.2).append (balanced_reportedAll calls)

/-- Whatever is registered, and whatever comes of it, levels are closed as they are opened. So over
any calls in turn, a recorder and a logger that start at one depth are at the same depth at each
event, are never at zero when a level is closed, and end where they started; the steps and the
trace lines tell the same with the same depths, and the steps are numbered on. -/
theorem register_bracketed (calls : List (Arena × Request)) (d : Nat) (steps : Array TraceStep)
    (lines : Array LogLine) :
    (∀ c ∈ calls, Balanced (c.1.reported c.2).toList)
    ∧ (∀ p, p <+: reportedAll calls →
        let r := ({ depth := d, steps } : Recorder).observeAll p.toArray
        let l := ({ depth := d, lines } : Logger).observeAll p.toArray
        l.depth = r.depth ∧ r.depth + p.count .outdent = d + p.count .indent
          ∧ (p ++ [.outdent] <+: reportedAll calls → d < r.depth))
    ∧ (({ depth := d, steps } : Recorder).follow calls).depth = d
    ∧ (({ depth := d, lines } : Logger).follow calls).depth = d
    ∧ ∃ new told, Heard { depth := d, steps } (({ depth := d, steps } : Recorder).follow calls)
        { depth := d, lines } (({ depth := d, lines } : Logger).follow calls) new told := by
  have hall := balanced_reportedAll calls
  have hdepth : ∀ p, p <+: reportedAll calls →
      p.foldl Event.depthAfter d + p.count .outdent = d + p.count .indent := fun p hp =>
    depthAfter_foldl d p fun q hq => hall.opened q (hq.trans hp)
  have hend : (reportedAll calls).foldl Event.depthAfter d = d := by
    have := hdepth _ List.prefix_rfl
    rwa [hall.closed, Nat.add_right_cancel_iff] at this
  refine ⟨fun c _ => Registration.balanced_reported c.1 c.2, fun p hp => ?_, ?_, ?_, ?_⟩
  · dsimp only
    rw [Recorder.depth_observeAll, Logger.depth_observeAll]
    refine ⟨rfl, hdepth p hp, fun hout => ?_⟩
    have hopened := hall.opened _ hout
    have hnow := hdepth p hp
    simp only [List.count_append, List.count_singleton_self] at hopened
    have hin : List.count Event.indent [.outdent] = 0 := rfl
    show d < p.foldl Event.depthAfter d
    omega
  · rw [Recorder.follow_eq, Recorder.depth_observeAll, List.toList_toArray, hend]
  · rw [Logger.follow_eq, Logger.depth_observeAll, List.toList_toArray, hend]
  · rw [Recorder.follow_eq, Logger.follow_eq]
    exact Heard.observeAll rfl _

end ScopedInference
