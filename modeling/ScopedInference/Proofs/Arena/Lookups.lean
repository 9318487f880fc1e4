import Mathlib.Data.Finset.Card
import ScopedInference.Proofs.Arena.Closed

/-!
# Lookups in one step

An arena that draws all its ids from the shared counter numbers its contexts as they are made, so
every parent has a smaller id (`Counted.numbered`) and the way up ends within as many
steps as there are contexts (`Numbered.exists_root`). Every one-step lookup in such an arena has an
answer.

`resolve` reads the binding here, and the one at the root only if there is none here (`ReadsFrom`).
`isResolved` goes on to the root also from a binding here that is open. The two agree on all
parameters but those whose open binding hides a settled one at the root (`settled_lookups`).
-/

namespace ScopedInference

/-- When a new context is made, the shared counter has come past the arena's block. -/
def Call.Counts (a : Arena) : Call → Prop
  | .newContext counter _ _ => a.blockEnd ≤ counter.next
  | _ => True

def Session.Counts : Session → List Call → Prop
  | _, [] => True
  | s, call :: calls => call.Counts s.arena ∧ (s.perform call).Counts calls

/-- What calls have made of a new arena, which draws all its ids from the shared counter. -/
def Arena.Counted (a : Arena) : Prop :=
  ∃ (h : Hierarchy) (calls : List Call),
    Session.Counts ⟨{ hierarchy := h }, fun _ => []⟩ calls
      ∧ (Session.run ⟨{ hierarchy := h }, fun _ => []⟩ calls).arena = a

namespace Arena

/-- Contexts have ids that have been drawn, and parents have been made before. -/
structure Numbered (a : Arena) : Prop where
  lt_next : ∀ id c, a.context id = .ok c → id < a.nextId
  next_le : a.nextId ≤ a.blockEnd
  parent : ∀ id c p, a.context id = .ok c → c.parent = some p → p < id ∧ a.Has p

namespace Numbered

variable {a b : Arena} {id : ContextId}

/-- The tree of contexts and what has been drawn are all that matters. -/
theorem congr (h : a.Numbered) (hnextId : b.nextId = a.nextId) (hblockEnd : b.blockEnd = a.blockEnd)
    (hhas : ∀ id, a.Has id → b.Has id)
    (hparent : ∀ id d, b.context id = .ok d → ∃ c, a.context id = .ok c ∧ d.parent = c.parent) :
    b.Numbered where
  lt_next id d hd := by
    obtain ⟨c, hc, -⟩ := hparent id d hd
    exact hnextId ▸ h.lt_next id c hc
  next_le := by
    rw [hnextId, hblockEnd]
    exact h.next_le
  parent id d p hd hp := by
    obtain ⟨c, hc, heq⟩ := hparent id d hd
    obtain ⟨hlt, hhas'⟩ := h.parent id c p hc (heq.symm.trans hp)
    exact ⟨hlt, hhas p hhas'⟩

theorem insert (h : a.Numbered) {c d : Context} (hc : a.context id = .ok c)
    (hd : d.parent = c.parent) : (a.insert id d).Numbered := by
  refine h.congr rfl rfl (fun other => exists_context_insert d) fun other e he => ?_
  by_cases heq : id = other
  · subst heq
    cases (context_insert_self a id d).symm.trans he
    exact ⟨c, hc, hd⟩
  · exact ⟨e, (context_insert_of_ne a heq d).symm.trans he, rfl⟩

theorem registered (h : a.Numbered) (q : Request) : (a.registered q).Numbered := by
  have hframed := Registration.register_framed (a.maxDepth + 1) q { arena := a }
  refine h.congr hframed.nextId hframed.blockEnd (fun id ⟨c, hc⟩ => ?_) fun id d hd => ?_
  · obtain ⟨d, hd, -⟩ := hframed.context id c hc
    exact ⟨d, hd⟩
  · obtain ⟨c, hc⟩ := hframed.of_context id d hd
    obtain ⟨d', hd', hcd⟩ := hframed.context id c hc
    cases hd.symm.trans hd'
    exact ⟨c, hc, hcd.parent⟩

theorem replaced (h : a.Numbered) (id : ContextId) (operation value : TypeExpr) :
    (a.replaced id operation value).Numbered := by
  have hreplacing : Replacing operation value Arena.Numbered (fun _ => True) (fun _ _ => True)
      fun _ => True :=
    { found := fun _ _ _ _ _ => ⟨trivial, fun _ => trivial⟩
      rebind := fun h _ _ hc => h.insert hc rfl
      here := fun _ _ => .inr trivial
      depth := fun _ => trivial }
  exact hreplacing.replaced trivial h

/-- The id of a new context is above all others. -/
theorem newContext (h : a.Numbered) {k k' : IdCounter} (hk : a.blockEnd ≤ k.next)
    {parent : Option ContextId} {signature : Option Signature}
    (hb : a.newContext k parent signature = .ok (id, b, k')) : b.Numbered := by
  unfold Arena.newContext at hb
  rcases hparent : a.checkParent parent with e | u <;> rw [hparent] at hb
  · cases hb
  rcases hid : a.takeId k with e | ⟨id', a', k''⟩ <;> rw [hid] at hb
  · cases hb
  cases hb
  obtain ⟨hge, hnext, hle⟩ : a.nextId ≤ id ∧ a'.nextId = id + 1 ∧ a'.nextId ≤ a'.blockEnd := by
    have hle := h.next_le
    rcases takeId_cases hid with ⟨hne, rfl, rfl, -⟩ | ⟨heq, -, rfl, rfl, -⟩
    · exact ⟨Nat.le_refl _, rfl, Nat.lt_of_le_of_ne hle hne⟩
    · exact ⟨hle.trans hk, rfl, Nat.add_le_add_left (by decide) _⟩
  have hcontext := context_congr (takeId_contexts hid)
  constructor
  · intro other c hc
    show other < a'.nextId
    rw [hnext]
    by_cases heq : id = other
    · exact heq ▸ Nat.lt_succ_self id
    · rw [context_insert_of_ne _ heq, hcontext] at hc
      exact Nat.lt_succ_of_lt (Nat.lt_of_lt_of_le (h.lt_next other c hc) hge)
  · exact hle
  · intro other c p hc hp
    by_cases heq : id = other
    · subst heq
      cases (context_insert_self a' id _).symm.trans hc
      obtain ⟨d, hd⟩ := checkParent_ok hparent hp
      exact ⟨Nat.lt_of_lt_of_le (h.lt_next p d hd) hge,
        exists_context_insert _ ⟨d, (hcontext p).trans hd⟩⟩
    · rw [context_insert_of_ne _ heq, hcontext] at hc
      obtain ⟨hlt, d, hd⟩ := h.parent other c p hc hp
      exact ⟨hlt, exists_context_insert _ ⟨d, (hcontext p).trans hd⟩⟩

theorem goOn {s : Session} (h : s.arena.Numbered) {r : Except InferError Arena}
    (hr : ∀ a, r = .ok a → ∃ id c d, s.arena.context id = .ok c ∧ c.Rearranged d
      ∧ a = s.arena.insert id d) : (s.goOn r).arena.Numbered := by
  rcases r with e | a
  · exact h
  · obtain ⟨id, c, d, hc, hd, rfl⟩ := hr a rfl
    exact h.insert hc hd.parent

theorem goOn_modify {s : Session} (h : s.arena.Numbered) {f : Context → Context}
    (hf : ∀ c, Context.Rearranged c (f c)) : (s.goOn (s.arena.modify id f)).arena.Numbered :=
  h.goOn fun _ ha => by
    obtain ⟨c, hc, rfl⟩ := modify_eq_ok.1 ha
    exact ⟨id, c, f c, hc, hf c, rfl⟩

/-- The contexts with ids up to that of a parent are fewer than those up to a child's. -/
theorem card_lt (h : a.Numbered) {c : Context} {p : ContextId} (hc : a.context id = .ok c)
    (hp : c.parent = some p) :
    (a.contexts.keys.toFinset.filter (· ≤ p)).card
      < (a.contexts.keys.toFinset.filter (· ≤ id)).card := by
  obtain ⟨hlt, -⟩ := h.parent id c p hc hp
  refine Finset.card_lt_card (Finset.ssubset_iff_of_subset (fun other hother => ?_) |>.2
    ⟨id, ?_, fun hmem => Nat.not_le_of_lt hlt (Finset.mem_filter.1 hmem).2⟩)
  · obtain ⟨hmem, hle⟩ := Finset.mem_filter.1 hother
    exact Finset.mem_filter.2 ⟨hmem, Nat.le_of_lt (Nat.lt_of_le_of_lt hle hlt)⟩
  · refine Finset.mem_filter.2 ⟨List.mem_toFinset.2 ?_, Nat.le_refl id⟩
    rw [Std.ExtTreeMap.mem_keys, Std.ExtTreeMap.mem_iff_isSome_getElem?, context_eq_ok_iff.1 hc]
    rfl

/-- The way up is no longer than there are contexts with smaller ids. -/
theorem exists_rootWithin (h : a.Numbered) : ∀ (n : Nat) (id : ContextId), a.Has id →
    (a.contexts.keys.toFinset.filter (· ≤ id)).card < n →
    ∃ top, a.rootWithin n id = .ok top ∧ a.Has top
  | 0, _, _, hn => absurd hn (Nat.not_lt_zero _)
  | n + 1, id, ⟨c, hc⟩, hn => by
    simp only [rootWithin, hc, bind, Except.bind]
    rcases hp : c.parent with _ | p
    · exact ⟨id, rfl, c, hc⟩
    · exact h.exists_rootWithin n p (h.parent id c p hc hp).2
        (Nat.lt_of_lt_of_le (h.card_lt hc hp) (Nat.le_of_lt_succ hn))

theorem exists_root (h : a.Numbered) (hid : a.Has id) : ∃ top, a.root id = .ok top ∧ a.Has top := by
  refine h.exists_rootWithin _ id hid (Nat.lt_succ_of_le ?_)
  refine (Finset.card_filter_le _ _).trans ((List.toFinset_card_le _).trans ?_)
  rw [Std.ExtTreeMap.length_keys]

end Numbered

theorem Numbered.perform {s : Session} (h : s.arena.Numbered) {call : Call}
    (hcounts : call.Counts s.arena) : (s.perform call).arena.Numbered := by
  cases call with
  | newContext counter parent signature =>
    simp only [Session.perform]
    split
    · exact h.newContext hcounts ‹_›
    · exact h
  | setScope id scope => exact h.goOn_modify fun c => .setScope c scope
  | register id template actual? target merge => exact h.registered _
  | registerMul id template actual target => exact h.registered _
  | pushCopy id => exact h.goOn_modify fun c => .pushCopy c
  | dropStates id n =>
    refine h.goOn fun a ha => ?_
    simp only [dropStates] at ha
    rcases hc : s.arena.context id with e | c <;> rw [hc] at ha <;> cases ha
    exact ⟨id, c, _, hc, .dropStates n c, rfl⟩
  | replace id operation value => exact h.replaced id operation value
  | setLookahead id l => exact h.goOn_modify fun c => .mapLookahead c fun _ => l
  | consumeLookahead id => exact h.goOn_modify fun c => .mapLookahead c (·.consume)
  | limitDepth limit => exact h.congr rfl rfl (fun _ hid => hid) fun _ d hd => ⟨d, hd, rfl⟩

theorem Numbered.run : ∀ (calls : List Call) (s : Session), s.arena.Numbered → s.Counts calls →
    (s.run calls).arena.Numbered
  | [], _, h, _ => h
  | _ :: calls, _, h, hcounts => run calls _ (h.perform hcounts.1) hcounts.2

theorem numbered_new (h : Hierarchy) : Numbered { hierarchy := h } := by
  have hnone : ∀ id c, ({ hierarchy := h } : Arena).context id ≠ .ok c := by
    simp [context_eq_ok_iff]
  exact ⟨fun id c hc => absurd hc (hnone id c), Nat.le_refl 0,
    fun id c _ hc => absurd hc (hnone id c)⟩

theorem Counted.numbered {a : Arena} (h : a.Counted) : a.Numbered := by
  obtain ⟨h, calls, hcounts, rfl⟩ := h
  exact .run calls _ (numbered_new h) hcounts

/-! ### What is read -/

end Arena

/-- Its value is concrete, or is there for good. -/
def Binding.isSettled (b : Binding TypeExpr) : Bool := b.isTerminal || b.value.isConcrete

namespace Arena

section

variable (a : Arena) (id : ContextId) (name : String)

/-- A name is read from its binding here, or else from the one at the root. -/
inductive ReadsFrom (b : Binding TypeExpr) : Prop where
  | here : a.binding? id name = .ok (some b) → ReadsFrom b
  | root {top} : a.binding? id name = .ok (none : Option (Binding TypeExpr)) →
      a.root id = .ok top → a.binding? top name = .ok (some b) → ReadsFrom b

/-- An open binding here hides a settled one at the root. -/
def Hidden : Prop :=
  ∃ b b' : Binding TypeExpr, ∃ top, a.binding? id name = .ok (some b) ∧ ¬ b.isSettled
    ∧ a.root id = .ok top ∧ a.binding? top name = .ok (some b') ∧ b'.isSettled

/-- A parameter is resolved to a value that is concrete or that a terminal binding holds. -/
def ResolvesSettled (p : TypeParam) : Prop :=
  ∃ v b, a.resolve id (.param p) = .ok (some v) ∧ a.ReadsFrom id p.name b ∧ b.value = v
    ∧ (v.isConcrete ∨ b.isTerminal)

/-- What is found of a name here and at the root, and what the lookups make of it. -/
structure Finds (p : TypeParam) (here root : Option (Binding TypeExpr)) : Prop where
  readsFrom : ∀ b, a.ReadsFrom id p.name b ↔ here.or root = some b
  hidden : a.Hidden id p.name ↔ here.any (!·.isSettled) ∧ root.any (·.isSettled)
  resolve : a.resolve id (.param p) = .ok ((here.or root).map (·.value))
  isResolved : a.isResolved id (.param p)
    = .ok (here.any (·.isSettled) || root.any (·.isSettled))

end

variable {a : Arena} {id : ContextId} {p : TypeParam}

theorem Numbered.exists_finds (h : a.Numbered) (hid : a.Has id) (p : TypeParam) :
    ∃ here root, a.Finds id p here root := by
  obtain ⟨top, htop, d, hd⟩ := h.exists_root hid
  obtain ⟨c, hc⟩ := hid
  have hhere : a.binding? id p.name = .ok (c.current.binding? p.name : Option (Binding TypeExpr)) :=
    binding?_eq_ok.2 ⟨c, hc, rfl⟩
  have hroot : a.binding? top p.name
      = .ok (d.current.binding? p.name : Option (Binding TypeExpr)) := binding?_eq_ok.2 ⟨d, hd, rfl⟩
  generalize (c.current.binding? p.name : Option (Binding TypeExpr)) = here at hhere
  generalize (d.current.binding? p.name : Option (Binding TypeExpr)) = root at hroot
  refine ⟨here, root, fun b => ⟨?_, fun h => ?_⟩, ⟨?_, fun h => ?_⟩, ?_, ?_⟩
  · rintro (hb | ⟨hnone, htop', hb⟩)
    · cases hhere.symm.trans hb
      rfl
    · cases hhere.symm.trans hnone
      cases htop.symm.trans htop'
      cases hroot.symm.trans hb
      rfl
  · rcases here with _ | b'
    · exact .root hhere htop (hroot.trans (congrArg _ h))
    · exact .here (hhere.trans (congrArg _ h))
  · rintro ⟨b, b', top', hb, hopen, htop', hb', hsettled⟩
    cases hhere.symm.trans hb
    cases htop.symm.trans htop'
    cases hroot.symm.trans hb'
    simp [hopen, hsettled]
  · obtain ⟨b, rfl, hopen⟩ := (Option.any_eq_true ..).1 h.1
    obtain ⟨b', rfl, hsettled⟩ := (Option.any_eq_true ..).1 h.2
    exact ⟨b, b', top, hhere, by simpa using hopen, htop, hroot, hsettled⟩
  · simp only [Arena.resolve, TypeExpr.isConcrete, TypeExpr.parameterName?, hhere, bind,
      Except.bind]
    rcases here with _ | b
    · simp [htop, hroot, pure, Except.pure]
    · simp [pure, Except.pure]
  · show (do
      if (← a.binding? id p.name).any Binding.isSettled then return true
      return (← a.binding? (← a.root id) p.name).any Binding.isSettled) = _
    rw [hhere, htop]
    simp only [bind, Except.bind, hroot, pure, Except.pure]
    split <;> simp_all

theorem Finds.resolvesSettled_iff {here root : Option (Binding TypeExpr)}
    (h : a.Finds id p here root) :
    a.ResolvesSettled id p ↔ (here.or root).any (·.isSettled) := by
  constructor
  · rintro ⟨_, b, -, hb, rfl, hsettled⟩
    rw [(h.readsFrom b).1 hb]
    simp only [Option.any_some, Binding.isSettled, Bool.or_eq_true]
    exact hsettled.symm
  · intro hany
    obtain ⟨b, hb, hsettled⟩ := (Option.any_eq_true ..).1 hany
    refine ⟨b.value, b, by rw [h.resolve, hb]; rfl, (h.readsFrom b).2 hb, rfl, ?_⟩
    simpa only [Binding.isSettled, Bool.or_eq_true, or_comm] using hsettled

theorem resolve_missing (hid : ¬ a.Has id) :
    a.resolve id (.param p) = .error (.unknownContext id) := by
  simp [resolve, binding?, context_missing hid, TypeExpr.isConcrete, TypeExpr.parameterName?,
    bind, Except.bind]

theorem isResolved_missing (hid : ¬ a.Has id) :
    a.isResolved id (.param p) = .error (.unknownContext id) := by
  simp [isResolved, binding?, context_missing hid, TypeExpr.isConcrete, TypeExpr.parameterName?,
    bind, Except.bind]

theorem ReadsFrom.has {name : String} {b : Binding TypeExpr} (h : a.ReadsFrom id name b) :
    a.Has id := by
  rcases h with hb | ⟨hnone, -, -⟩
  · obtain ⟨c, hc, -⟩ := binding?_eq_ok.1 hb
    exact ⟨c, hc⟩
  · obtain ⟨c, hc, -⟩ := binding?_eq_ok.1 hnone
    exact ⟨c, hc⟩

end Arena

/-- In an arena that draws its ids from the shared counter, a parameter of a context is resolved to
the value of its binding there, or at the root if there is none. It counts as resolved if that value
is concrete or the binding is terminal, and also where an open binding hides one at the root of
which this is true. So the two lookups agree just if no open binding hides a settled one. -/
theorem settled_lookups {a : Arena} (ha : a.Counted) (id : ContextId) (p : TypeParam) :
    (a.Has id → ∃ v? r, a.resolve id (.param p) = .ok v? ∧ a.isResolved id (.param p) = .ok r)
    ∧ (∀ v, a.resolve id (.param p) = .ok (some v) ↔ ∃ b, a.ReadsFrom id p.name b ∧ b.value = v)
    ∧ (a.isResolved id (.param p) = .ok true ↔ a.ResolvesSettled id p ∨ a.Hidden id p.name)
    ∧ ((a.isResolved id (.param p) = .ok true ↔ a.ResolvesSettled id p)
      ↔ ¬ a.Hidden id p.name) := by
  by_cases hid : a.Has id
  · obtain ⟨here, root, h⟩ := ha.numbered.exists_finds hid p
    refine ⟨fun _ => ⟨_, _, h.resolve, h.isResolved⟩, fun v => ?_, ?_⟩
    · rw [h.resolve]
      simp only [Except.ok.injEq, Option.map_eq_some_iff, h.readsFrom]
    · rw [h.resolvesSettled_iff, h.hidden, h.isResolved]
      rcases here with _ | b
      · simp
      · cases hsettled : b.isSettled <;> cases root.any (·.isSettled) <;> simp [hsettled]
  · have hreads : ∀ b, ¬ a.ReadsFrom id p.name b := fun b hb => hid hb.has
    have hhidden : ¬ a.Hidden id p.name := fun ⟨b, _, _, hb, _⟩ => hreads b (.here hb)
    simp [hid, hreads, hhidden, Arena.ResolvesSettled, Arena.resolve_missing hid,
      Arena.isResolved_missing hid]

/-- Makes a context whose signature declares a parameter, and one below it that binds the same name
to another parameter. -/
def Call.redeclaring : List Call :=
  [.newContext ⟨1⟩ none (some ⟨"lookup", [⟨"T", .covariant⟩]⟩), .newContext ⟨1025⟩ (some 1) none,
    .register 2 (.param ⟨"T", .covariant⟩) (some (.param ⟨"X", .covariant⟩)) 2 false]

def Session.redeclared : Session :=
  Session.run ⟨{ hierarchy := .empty }, fun _ => []⟩ Call.redeclaring

theorem Session.redeclared_counted : redeclared.arena.Counted :=
  ⟨.empty, Call.redeclaring,
    ⟨Nat.zero_le 1, by with_unfolding_all exact Nat.le_refl 1025, trivial, trivial⟩, rfl⟩

/-- The lookups agree on the declared parameter in its own context. -/
theorem settled_lookups_declared :
    Session.redeclared.arena.Counted
      ∧ Session.redeclared.arena.isResolved 1 (.param ⟨"T", .covariant⟩) = .ok true
      ∧ Session.redeclared.arena.ResolvesSettled 1 ⟨"T", .covariant⟩ := by
  have hresolved : Session.redeclared.arena.isResolved 1 (.param ⟨"T", .covariant⟩) = .ok true := by
    with_unfolding_all rfl
  have hhere : Session.redeclared.arena.binding? 1 "T"
      = .ok (some (.terminal (TypeExpr.param ⟨"T", .covariant⟩) 1)) := by with_unfolding_all rfl
  have hseen : ¬ Session.redeclared.arena.Hidden 1 "T" := by
    rintro ⟨b, -, -, hb, hopen, -⟩
    cases hhere.symm.trans hb
    exact hopen rfl
  obtain ⟨-, -, -, hagree⟩ := settled_lookups Session.redeclared_counted 1 ⟨"T", .covariant⟩
  exact ⟨Session.redeclared_counted, hresolved, (hagree.2 hseen).1 hresolved⟩

/-- They do not agree on the name in the context below. -/
theorem settled_lookups_hidden :
    Session.redeclared.arena.Counted
      ∧ Session.redeclared.arena.resolve 2 (.param ⟨"T", .covariant⟩)
        = .ok (some (.param ⟨"X", .covariant⟩))
      ∧ Session.redeclared.arena.isResolved 2 (.param ⟨"T", .covariant⟩) = .ok true
      ∧ ¬ Session.redeclared.arena.ResolvesSettled 2 ⟨"T", .covariant⟩ := by
  refine ⟨Session.redeclared_counted, by with_unfolding_all rfl, by with_unfolding_all rfl, ?_⟩
  have hhere : Session.redeclared.arena.binding? 2 "T"
      = .ok (some (.bound (TypeExpr.param ⟨"X", .covariant⟩) 2)) := by with_unfolding_all rfl
  rintro ⟨_, b, -, hb | ⟨hnone, -, -⟩, rfl, hsettled⟩
  · cases hhere.symm.trans hb
    exact hsettled.elim nofun nofun
  · cases hhere.symm.trans hnone

end ScopedInference
