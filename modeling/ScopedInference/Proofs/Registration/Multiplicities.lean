import ScopedInference.Arena.Creation
import ScopedInference.Arena.Trials
import ScopedInference.Proofs.Registration.Series

/-!
# Learning a multiplicity from several

Registered in turn, ranges are joined into the multiplicity parameter that they are registered for.
What it comes to is the least multiplicity that subsumes them all, whichever comes first
(`register_multiplicities`).
-/

namespace ScopedInference

/-- Above every multiplicity of a list, and below whatever else is. -/
structure Multiplicity.LeastAbove (ms : List Multiplicity) (v : Multiplicity) : Prop where
  above : ∀ m ∈ ms, v.subsumes m
  least : ∀ n : Multiplicity, (∀ m ∈ ms, n.subsumes m) → n.subsumes v

namespace Multiplicity.LeastAbove

variable {ms ns : List Multiplicity} {v w : Multiplicity}

theorem of_leastSubsuming (hne : ms ≠ []) (hms : ∀ m ∈ ms, m.isConcrete) :
    LeastAbove ms (leastSubsuming ms) where
  above := (subsumes_leastSubsuming_iff hne hms).1 (subsumes_refl _)
  least _ := (subsumes_leastSubsuming_iff hne hms).2

theorem unique (hv : LeastAbove ms v) (hw : LeastAbove ms w) : v = w :=
  subsumes_antisymm (hw.least v hv.above) (hv.least w hw.above)

end Multiplicity.LeastAbove

/-- Ranges that are registered in turn for a parameter that is unbound bind it to what is above them
all, and change nothing else. -/
theorem Arena.registerInTurn_muls {a : Arena} {id target : ContextId} {c there : Context}
    {name : String} (hc : a.context id = .ok c) (hthere : a.context target = .ok there)
    (hfresh : c.current.binding? name = (none : Option (Binding Multiplicity)))
    {ms : List Multiplicity} (hne : ms ≠ []) (hms : ∀ m ∈ ms, m.isConcrete) :
    a.registerInTurn (ms.map fun m => .mul id (.param name) m target)
      = .ok (a.withBound id target c name (Multiplicity.leastSubsuming ms)) := by
  obtain ⟨m, ms, rfl⟩ := List.exists_cons_of_ne_nil hne
  rw [Multiplicity.leastSubsuming_cons]
  refine registerInTurn_foldl (w := fun m : Multiplicity => m)
    (P := fun m => m.isConcrete) (register_mul_unbound hc hthere hfresh m)
    (hms m List.mem_cons_self) (fun n hn => hms n (List.mem_cons_of_mem m hn)) fun e v he hv => ?_
  exact ⟨Multiplicity.join_isConcrete he hv, register_mul_bound hthere he hv⟩

/-- Subsumption is a partial order, and above a range that is not empty it is inclusion of counts.
The smallest multiplicity above ranges is their least upper bound; a list may be taken apart and
reordered, parameters in it or not. So the ranges that are registered for an unbound parameter, in
any order and on trial or not, bind it to the least upper bound of them all. -/
theorem register_multiplicities :
    ((∀ m : Multiplicity, m.subsumes m)
      ∧ (∀ m n : Multiplicity, m.subsumes n → n.subsumes m → m = n)
      ∧ ∀ k m n : Multiplicity, k.subsumes m → m.subsumes n → k.subsumes n)
    ∧ (∀ lower upper lower' upper', (∀ u ∈ upper', lower' ≤ u) →
      ((Multiplicity.range lower upper).subsumes (.range lower' upper')
        ↔ Multiplicity.counts lower' upper' ⊆ Multiplicity.counts lower upper))
    ∧ (∀ ms : List Multiplicity, ms ≠ [] → (∀ m ∈ ms, m.isConcrete) →
      Multiplicity.LeastAbove ms (.leastSubsuming ms))
    ∧ (∀ ms ns : List Multiplicity, ms ≠ [] → ns ≠ [] → Multiplicity.leastSubsuming (ms ++ ns)
      = .leastSubsuming [.leastSubsuming ms, .leastSubsuming ns])
    ∧ (∀ m : Multiplicity, Multiplicity.leastSubsuming [m] = m)
    ∧ (∀ ms ns : List Multiplicity, ms.Perm ns →
      Multiplicity.leastSubsuming ms = .leastSubsuming ns)
    ∧ ∀ (a : Arena) (id target : ContextId) (c there : Context) (name : String),
      a.context id = .ok c → a.context target = .ok there →
      c.current.binding? name = (none : Option (Binding Multiplicity)) →
      ∀ ms ns : List Multiplicity, ms ≠ [] → (∀ m ∈ ms, m.isConcrete) → ns.Perm ms →
        ∃ v, Multiplicity.LeastAbove ms v
          ∧ a.registerInTurn (ns.map fun m => .mul id (.param name) m target)
            = .ok (a.withBound id target c name v) := by
  refine ⟨⟨Multiplicity.subsumes_refl, fun _ _ => Multiplicity.subsumes_antisymm,
      fun _ _ _ => Multiplicity.subsumes_trans⟩,
    fun _ _ _ _ => Multiplicity.range_subsumes_iff, fun _ => .of_leastSubsuming,
    fun _ _ => Multiplicity.leastSubsuming_append, fun m => Multiplicity.leastSubsuming_cons m [],
    fun _ _ => Multiplicity.leastSubsuming_perm,
    fun a id target c there name hc hthere hfresh ms ns hne hms hperm => ?_⟩
  refine ⟨_, .of_leastSubsuming hne hms, ?_⟩
  have hne' : ns ≠ [] := by
    rintro rfl
    exact hne hperm.nil_eq.symm
  rw [Arena.registerInTurn_muls hc hthere hfresh hne' fun m hm => hms m (hperm.mem_iff.1 hm),
    Multiplicity.leastSubsuming_perm hperm]

/-- A context whose visible state is being tried. -/
def Arena.trialScope : Arena :=
  ({ hierarchy := .preloaded, maxDepth := 4 } : Arena).insert 1
    (Context.fresh 1 none none).pushCopy

/-- No value or one, three to five, and exactly one are at most five. -/
theorem register_multiplicities_trialScope :
    ∃ v, Multiplicity.LeastAbove [.zeroOne, .range 3 (some 5), .one] v
      ∧ Arena.trialScope.registerInTurn ([.one, .zeroOne, .range 3 (some 5)].map
          fun m => .mul 1 (.param "m") m 1)
        = .ok (Arena.trialScope.withBound 1 1 (Context.fresh 1 none none).pushCopy "m" v)
      ∧ v = .range 0 (some 5) := by
  have hms : ∀ m ∈ [Multiplicity.zeroOne, .range 3 (some 5), .one], m.isConcrete := by decide
  have hperm : [Multiplicity.one, .zeroOne, .range 3 (some 5)].Perm
    [.zeroOne, .range 3 (some 5), .one] := by decide
  obtain ⟨-, -, hleast, -, -, -, hregister⟩ := register_multiplicities
  obtain ⟨v, hv, hrun⟩ := hregister Arena.trialScope 1 1 _ _ "m" rfl rfl rfl _ _
    (List.cons_ne_nil _ _) hms hperm
  exact ⟨v, hv, hrun, hv.unique (hleast _ (List.cons_ne_nil _ _) hms)⟩

end ScopedInference
