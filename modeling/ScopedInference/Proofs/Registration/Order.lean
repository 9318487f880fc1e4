import ScopedInference.Proofs.Hierarchy.Joins
import ScopedInference.Proofs.Registration.Commute
import ScopedInference.Proofs.Registration.Series

/-!
# Observations in any order

Class types without arguments are registered for one parameter, one after the other. What it ends
with is their join, taken from the left (`learns_atoms`). It does not depend on the order, for all
lists of classes, just where all pairs of them have a least common ancestor; it is then the least
class above the whole list (`register_order`).
-/

namespace ScopedInference

namespace Arena

/-- Registers types for a parameter, one after the other. -/
def registerEach (a : Arena) (id target : ContextId) (p : TypeParam) (merge : Bool) :
    List TypeExpr → Except InferError Arena
  | [] => .ok a
  | t :: ts => match a.register (.type id (.param p) (some t) target merge) with
    | .ok _ s => s.arena.registerEach id target p merge ts
    | .error e _ => .error e

theorem registerEach_eq (id target : ContextId) (p : TypeParam) (merge : Bool) :
    ∀ (a : Arena) (ts : List TypeExpr), a.registerEach id target p merge ts
      = a.registerInTurn (ts.map fun t => .type id (.param p) (some t) target merge)
  | _, [] => rfl
  | a, t :: ts => by
    rw [registerEach, List.map_cons, registerInTurn]
    rcases a.register (.type id (.param p) (some t) target merge) with ⟨_, s⟩ | ⟨e, s⟩
    · exact registerEach_eq id target p merge s.arena ts
    · rfl

/-- After all registrations, which succeed, the parameter has the value. -/
def Learns (a : Arena) (id target : ContextId) (p : TypeParam) (merge : Bool) (ts : List TypeExpr)
    (v : TypeExpr) : Prop :=
  ∃ b, a.registerEach id target p merge ts = .ok b
    ∧ b.binding? id p.name = .ok (some (.bound v target))

theorem Learns.unique {a : Arena} {id target : ContextId} {p : TypeParam} {merge : Bool}
    {ts : List TypeExpr} {v w : TypeExpr} (hv : a.Learns id target p merge ts v)
    (hw : a.Learns id target p merge ts w) : v = w := by
  obtain ⟨b, hb, hv⟩ := hv
  obtain ⟨b', hb', hw⟩ := hw
  cases hb.symm.trans hb'
  cases hv.symm.trans hw
  rfl

end Arena

/-! ### Class types without arguments -/

section

variable {S : Set ClassName} {x : ClassName} {id target : ContextId} {name : String} {merge : Bool}

theorem forwards_atom (h : Hierarchy) (owner : ContextId) (x y z : ClassName) :
    functionForwards h owner (.atom x) (.atom y) ++ argumentForwards owner (.atom x) (.atom z)
      = [] := by
  simp [functionForwards, argumentForwards, TypeExpr.atom]

/-- The parameter ends with the join of the list, taken from the left. -/
theorem learns_atoms {a : Arena} {c : Context} (hS : a.hierarchy.PlainAbove S)
    (hany : ∀ y, Relation.ReflTransGen a.hierarchy.Extends .any y → a.hierarchy.Plain y)
    (hc : a.context id = .ok c)
    (hfresh : c.current.binding? name = (none : Option (Binding TypeExpr)))
    (hthere : ∃ d, a.context target = .ok d) {l : List ClassName}
    (hl : ∀ y ∈ x :: l, y ∈ S ∨ y = .nil) :
    a.Learns id target ⟨name, .covariant⟩ merge ((x :: l).map .atom)
      (.atom (l.foldl a.hierarchy.join x)) := by
  obtain ⟨there, hthere⟩ := hthere
  have hrun : a.registerEach id target ⟨name, .covariant⟩ merge ((x :: l).map .atom)
      = .ok (a.withBound id target c name (TypeExpr.atom (l.foldl a.hierarchy.join x))) := by
    rw [Arena.registerEach_eq, List.map_map]
    refine Arena.registerInTurn_foldl (w := TypeExpr.atom) (P := fun y => y ∈ S ∨ y = .nil)
      (Arena.register_unbound hc hthere hfresh rfl merge) (hl x List.mem_cons_self)
      (fun y hy => hl y (List.mem_cons_of_mem x hy)) fun x y hx hy => ⟨hS.join_mem hx hy, ?_⟩
    obtain ⟨d, hd, hvalue, hforwards⟩ := mergeDecision_of_merge (p := ⟨name, .covariant⟩) target
      (fun l r hl => by cases hl) (hS.merge_atom hany hx hy)
    rw [forwards_atom] at hforwards
    exact Arena.register_bound hthere rfl rfl hd hvalue hforwards merge
  exact ⟨_, hrun, Arena.binding?_withBound ..⟩

end

/-- Class types without arguments, of classes in `S` or of the bottom class, are registered for a
covariant parameter that is unbound. For all of their lists the order is of no account just in case
any two classes of `S` have exactly one minimal common ancestor, and then the parameter ends with
the least class above the list. What the top class declares to generalize is never climbed, but
views do follow it, so it should take no arguments either. -/
theorem register_order {a : Arena} {S : Set ClassName} {id target : ContextId} {name : String}
    {c : Context} (merge : Bool) (hS : a.hierarchy.PlainAbove S)
    (hany : ∀ y, Relation.ReflTransGen a.hierarchy.Extends .any y → a.hierarchy.Plain y)
    (hc : a.context id = .ok c)
    (hfresh : c.current.binding? name = (none : Option (Binding TypeExpr)))
    (hthere : ∃ d, a.context target = .ok d) :
    ((∀ l l' : List ClassName, l ≠ [] → (∀ x ∈ l, x ∈ S ∨ x = .nil) → l.Perm l' →
        ∃ v, a.Learns id target ⟨name, .covariant⟩ merge (l.map .atom) v
          ∧ a.Learns id target ⟨name, .covariant⟩ merge (l'.map .atom) v)
      ↔ ∀ x ∈ S, ∀ y ∈ S, ∃! m, a.hierarchy.MinimalCommonAncestor x y m)
    ∧ ((∀ x ∈ S, ∀ y ∈ S, ∃! m, a.hierarchy.MinimalCommonAncestor x y m) →
        ∀ l : List ClassName, l ≠ [] → (∀ x ∈ l, x ∈ S ∨ x = .nil) →
          ∃ m, a.Learns id target ⟨name, .covariant⟩ merge (l.map .atom) (.atom m)
            ∧ a.hierarchy.Joined S l m) := by
  have hleast : (∀ x ∈ S, ∀ y ∈ S, ∃! m, a.hierarchy.MinimalCommonAncestor x y m) →
      ∀ x ∈ S, ∀ y ∈ S, ∃ m, a.hierarchy.leastCommonAncestor? x y = some m :=
    fun h x hx y hy =>
      Option.isSome_iff_exists.1 (Hierarchy.existsUnique_minimalCommonAncestor.1 (h x hx y hy))
  have hjoined : (∀ x ∈ S, ∀ y ∈ S, ∃! m, a.hierarchy.MinimalCommonAncestor x y m) →
      ∀ l : List ClassName, l ≠ [] → (∀ x ∈ l, x ∈ S ∨ x = .nil) →
        ∃ m, a.Learns id target ⟨name, .covariant⟩ merge (l.map .atom) (.atom m)
          ∧ a.hierarchy.Joined S l m := by
    intro hunique l hne hl
    cases l with
    | nil => exact absurd rfl hne
    | cons x l =>
      refine ⟨_, learns_atoms hS hany hc hfresh hthere hl, ?_⟩
      exact (Hierarchy.Joined.singleton (hl x List.mem_cons_self)).foldl hS (hleast hunique)
        fun y hy => hl y (List.mem_cons_of_mem x hy)
  refine ⟨⟨fun horder x hx y hy => ?_, fun hunique l l' hne hl hperm => ?_⟩, hjoined⟩
  · have hjoin : ∀ m ∈ S, a.hierarchy.join (a.hierarchy.join x y) m
        = a.hierarchy.join (a.hierarchy.join x m) y := by
      intro m hm
      have hall : ∀ z ∈ [x, y, m], z ∈ S ∨ z = .nil := by
        simp [hx, hy, hm]
      have hall' : ∀ z ∈ [x, m, y], z ∈ S ∨ z = .nil := by
        simp [hx, hy, hm]
      obtain ⟨v, hv, hv'⟩ := horder [x, y, m] [x, m, y] (by simp) hall (.cons x (.swap m y []))
      have heq := (learns_atoms hS hany hc hfresh hthere hall).unique hv
      have heq' := (learns_atoms hS hany hc hfresh hthere hall').unique hv'
      simpa [TypeExpr.atom] using heq.trans heq'.symm
    exact Hierarchy.existsUnique_minimalCommonAncestor.2
      (Option.isSome_iff_exists.2 (hS.exists_least hx hy hjoin))
  · obtain ⟨m, hm, hjoin⟩ := hjoined hunique l hne hl
    have hl' : ∀ x ∈ l', x ∈ S ∨ x = .nil := fun x hx => hl x (hperm.mem_iff.2 hx)
    have hne' : l' ≠ [] := by
      rintro rfl
      exact hne hperm.eq_nil
    obtain ⟨m', hm', hjoin'⟩ := hjoined hunique l' hne' hl'
    rw [← hjoin.unique hS hjoin' fun _ => hperm.mem_iff] at hm'
    exact ⟨_, hm, hm'⟩

/-! ### Numbers -/

namespace Hierarchy

theorem plain_of_find? {h : Hierarchy} {name : ClassName} {d : ClassDecl}
    (hd : h.find? name = some d)
    (hplain : ∀ g ∈ d.generalizations, g.types = [] ∧ g.muls = []) : h.Plain name := by
  intro e he
  cases hd.symm.trans he
  exact hplain

/-- No class but the top one lies above two others. -/
theorem short_of_flat {h : Hierarchy} {S : Set ClassName}
    (hflat : ∀ y ∈ S, ∀ x ∈ h.directSupertypes y, ∀ z ∈ h.directSupertypes x, z = .any) {n : Nat}
    {c d : ClassName} (hc : c ∈ S) (hchain : h.Chain n c d) : n ≤ maxSteps := by
  rcases hchain with _ | ⟨hcany, -, hext, hrest⟩
  · exact Nat.zero_le _
  rcases hrest with _ | ⟨hxany, hzany, hext', -⟩
  · decide
  · exact absurd (hflat c hc _ (mem_directSupertypes_of_extends hcany hext) _
      (mem_directSupertypes_of_extends hxany hext')) hzany

end Hierarchy

/-- The top class and the classes of numbers. -/
def numbers : List ClassName := [.any, "Number", "Integer", "Float"]

theorem plainAbove_numbers : Hierarchy.preloaded.PlainAbove {x | x ∈ numbers} := by
  have hclosed : ∀ y ∈ numbers, ∀ x ∈ Hierarchy.preloaded.directSupertypes y, x ∈ numbers := by
    decide
  constructor
  · exact List.mem_cons_self
  · show ¬ ClassName.nil ∈ numbers
    decide
  · exact hclosed
  · intro y hy _ d hd g hg
    rcases Hierarchy.generalizations_preloaded hd hg with ⟨-, rfl⟩ | ⟨rfl, -⟩
    · exact ⟨rfl, rfl⟩
    · exact absurd (show "LambdaFunction" ∈ numbers from hy) (by decide)
  · exact fun n c d hc => Hierarchy.short_of_flat (show ∀ y ∈ numbers,
      ∀ x ∈ Hierarchy.preloaded.directSupertypes y,
        ∀ z ∈ Hierarchy.preloaded.directSupertypes x, z = .any by decide) hc

/-- An integer, a float and what is below all classes are numbers, in any order. -/
theorem register_order_numbers :
    (∀ x ∈ numbers, ∀ y ∈ numbers, ∃! m, Hierarchy.preloaded.MinimalCommonAncestor x y m)
    ∧ ∃ v, Arena.freshScope.Learns 1 1 ⟨"T", .covariant⟩ false
        (["Integer", "Float", ClassName.nil].map .atom) v
      ∧ Arena.freshScope.Learns 1 1 ⟨"T", .covariant⟩ false
        ([ClassName.nil, "Float", "Integer"].map .atom) v
      ∧ ∃ m, v = .atom m
        ∧ Hierarchy.preloaded.Joined {x | x ∈ numbers} ["Integer", "Float", .nil] m := by
  have hunique : ∀ x ∈ numbers, ∀ y ∈ numbers,
      ∃! m, Hierarchy.preloaded.MinimalCommonAncestor x y m := by
    simp only [Hierarchy.existsUnique_minimalCommonAncestor]
    decide
  have hany : ∀ y, Relation.ReflTransGen Hierarchy.preloaded.Extends .any y →
      Hierarchy.preloaded.Plain y := by
    intro y hy
    rcases Relation.ReflTransGen.cases_head hy with rfl | ⟨_, ⟨d, hd, g, hg, -⟩, -⟩
    · exact Hierarchy.plain_of_find? (d := { name := .any }) rfl (by simp)
    · exact absurd hg (by rw [Hierarchy.preloaded_wellFormed.extremes _ d (.inl rfl) hd]; simp)
  have hl : ∀ x ∈ ["Integer", "Float", ClassName.nil], x ∈ numbers ∨ x = ClassName.nil := by
    decide
  have hperm : ["Integer", "Float", ClassName.nil].Perm [ClassName.nil, "Float", "Integer"] := by
    decide
  have hc : Arena.freshScope.context 1 = .ok (.fresh 1 none none) := rfl
  have hfresh : (Context.fresh 1 none none).current.binding? "T"
      = (none : Option (Binding TypeExpr)) := rfl
  obtain ⟨hiff, hleast⟩ := register_order false plainAbove_numbers hany hc hfresh ⟨_, hc⟩
  obtain ⟨v, hv, hv'⟩ := hiff.2 hunique _ _ (List.cons_ne_nil _ _) hl hperm
  obtain ⟨m, hm, hjoined⟩ := hleast hunique _ (List.cons_ne_nil _ _) hl
  exact ⟨hunique, v, hv, hv', m, hv.unique hm, hjoined⟩

/-! ### A top class that generalizes another one -/

/-- Two classes are below a third one, and below the top class, which generalizes a type of the
third one that has an argument. -/
def Hierarchy.aboveAny : Hierarchy :=
  [{ name := "D" }, { name := .any, generalizations := [⟨"D", [.atom "String"], []⟩] },
    { name := "C", generalizations := [⟨.any, [], []⟩, ⟨"D", [], []⟩] },
    { name := "E", generalizations := [⟨.any, [], []⟩, ⟨"D", [], []⟩] }].foldl define preloaded

def Arena.aboveAny : Arena :=
  ({ hierarchy := .aboveAny, maxDepth := 4 } : Arena).insert 1 (.fresh 1 none none)

/-- The classes of the example. -/
def belowAny : List ClassName := [.any, "D", "C", "E"]

theorem plainAbove_belowAny : Hierarchy.aboveAny.PlainAbove {x | x ∈ belowAny} := by
  have hclosed : ∀ y ∈ belowAny, ∀ x ∈ Hierarchy.aboveAny.directSupertypes y, x ∈ belowAny := by
    decide
  have hplain : ∀ y ∈ belowAny, y ≠ .any → ((Hierarchy.aboveAny.find? y).all fun d =>
      d.generalizations.all fun g => g.types.isEmpty && g.muls.isEmpty) := by
    decide
  constructor
  · exact List.mem_cons_self
  · show ¬ ClassName.nil ∈ belowAny
    decide
  · exact hclosed
  · intro y hy hany d hd g hg
    have hall := hplain y hy hany
    rw [hd] at hall
    simpa using List.all_eq_true.1 hall g hg
  · exact fun n c d hc => Hierarchy.short_of_flat (show ∀ y ∈ belowAny,
      ∀ x ∈ Hierarchy.aboveAny.directSupertypes y,
        ∀ z ∈ Hierarchy.aboveAny.directSupertypes x, z = .any by decide) hc

/-- Views climb through the top class, and so come upon the argument. -/
theorem register_order_aboveAny :
    ¬ ∀ (a : Arena) (S : Set ClassName) (id target : ContextId) (name : String) (merge : Bool)
        (c : Context), a.hierarchy.PlainAbove S → a.context id = .ok c →
      c.current.binding? name = (none : Option (Binding TypeExpr)) →
      (∃ d, a.context target = .ok d) →
      (∀ x ∈ S, ∀ y ∈ S, ∃! m, a.hierarchy.MinimalCommonAncestor x y m) →
      ∀ l : List ClassName, l ≠ [] → (∀ x ∈ l, x ∈ S ∨ x = .nil) →
        ∃ m, a.Learns id target ⟨name, .covariant⟩ merge (l.map .atom) (.atom m)
          ∧ a.hierarchy.Joined S l m := by
  intro h
  have hc : Arena.aboveAny.context 1 = .ok (.fresh 1 none none) := rfl
  have hunique : ∀ x ∈ belowAny, ∀ y ∈ belowAny,
      ∃! m, Hierarchy.aboveAny.MinimalCommonAncestor x y m := by
    simp only [Hierarchy.existsUnique_minimalCommonAncestor]
    decide
  have hl : ∀ x ∈ ["C", "E"], x ∈ belowAny ∨ x = ClassName.nil := by decide
  obtain ⟨m, hm, -⟩ := h Arena.aboveAny {x | x ∈ belowAny} 1 1 "T" false _ plainAbove_belowAny hc
    rfl ⟨_, hc⟩ hunique ["C", "E"] (List.cons_ne_nil _ _) hl
  have hlearns : Arena.aboveAny.Learns 1 1 ⟨"T", .covariant⟩ false (["C", "E"].map .atom)
      (.classType ⟨"D", [.atom "String"], []⟩) :=
    ⟨_, by with_unfolding_all rfl, by with_unfolding_all rfl⟩
  have heq := hm.unique hlearns
  simp [TypeExpr.atom] at heq

end ScopedInference
