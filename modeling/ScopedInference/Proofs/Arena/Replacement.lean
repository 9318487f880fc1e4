import ScopedInference.Arena.Operations
import ScopedInference.Proofs.Registration.Invariant

/-!
# Invariants of replacements

Like a registration, a replacement goes from context to context and may fail on the way. A property
of arenas is an invariant of it if it keeps the property to rebind, in the contexts that it goes to,
the names that it finds there (`Replacing`). It then holds after a replacement, also after a failed
one, which fails only in the ways that are allowed (`Replacing.replaceWithin`).
-/

namespace ScopedInference

theorem BindingState.mem_boundTo {s : BindingState} {t : TypeExpr} {name : String}
    {b : Binding TypeExpr} :
    (name, b) ∈ s.boundTo t ↔ s.binding? name = some b ∧ b.value = t := by
  simp only [boundTo, bindings, List.mem_filter, decide_eq_true_eq, binding?,
    Std.ExtTreeMap.mem_toList_iff_getElem?_eq_some]

namespace Arena

/-- The arena after a replacement, whether or not it succeeds. -/
def replaced (a : Arena) (id : ContextId) (operation value : TypeExpr) : Arena :=
  match Arena.replace id operation value a with
  | .ok _ b | .error _ b => b

/-- A property of arenas that a replacement keeps which goes to certain contexts and finds certain
names there. -/
structure Replacing (operation value : TypeExpr) (I : Arena → Prop) (Q : ContextId → Prop)
    (Found : ContextId → String → Prop) (E : InferError → Prop) : Prop where
  found : ∀ {a id c name b}, I a → Q id → a.context id = .ok c →
    c.current.binding? name = some b → b.value = operation →
    Found id name ∧ (b.owner ≠ id → Q b.owner)
  rebind : ∀ {a id c name}, I a → Q id → Found id name → a.context id = .ok c →
    I (a.insert id (c.mapCurrent (·.bind name (.terminal value id))))
  here : ∀ {a id}, I a → Q id → (∃ c, a.context id = .ok c) ∨ E (.unknownContext id)
  depth : ∀ {a}, I a → E (.depthExceeded a.maxDepth)

namespace Replacing

variable {operation value : TypeExpr} {I : Arena → Prop} {Q : ContextId → Prop}
  {Found : ContextId → String → Prop} {E : InferError → Prop}

variable (hI : Replacing operation value I Q Found E) {a : Arena} {id : ContextId}

include hI

theorem replaceWithin : ∀ (n : Nat) (id : ContextId) (a : Arena), Q id → I a →
    Safe I E (Arena.replaceWithin operation value n id) a
  | 0, _, _, _, ha => ⟨ha, hI.depth ha⟩
  | n + 1, id, a, hid, ha => by
    refine .ofExcept (g := fun a => a.context id) ha (fun _ he => context_error (hI.here ha hid) he)
      fun c hc => ?_
    refine .forM _ ha fun (name, b) hmem a' ha' => ?_
    -- The names to rebind have been found before the first one is.
    obtain ⟨hb, hvalue⟩ := BindingState.mem_boundTo.1 hmem
    obtain ⟨hname, howner⟩ := hI.found ha hid hc hb hvalue
    refine .ofExcept (g := fun a => a.modifyCurrent id (·.bind name (.terminal value id)))
      (f := fun d => do
        set d
        if b.owner ≠ id then Arena.replaceWithin operation value n b.owner) ha'
      (fun e he => context_error (hI.here ha' hid) (modify_eq_error.1 he)) fun d hd => ?_
    obtain ⟨c', hc', rfl⟩ := modify_eq_ok.1 hd
    refine .bind (hI.rebind ha' hid hname hc') fun _ a'' _ ha'' => ?_
    split
    · rename_i hne
      exact replaceWithin n b.owner a'' (howner hne) ha''
    · exact ha''

theorem replace (hid : Q id) (ha : I a) : Safe I E (Arena.replace id operation value) a :=
  hI.replaceWithin (a.maxDepth + 1) id a hid ha

theorem replaced (hid : Q id) (ha : I a) : I (a.replaced id operation value) := by
  unfold Arena.replaced
  split
  · rename_i hb
    exact (hI.replace hid ha).of_eq_ok hb
  · rename_i hb
    exact ((hI.replace hid ha).of_eq_error hb).1

end Replacing

end Arena

end ScopedInference
