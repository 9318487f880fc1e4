import ScopedInference.Proofs.Arena.Closed
import ScopedInference.Proofs.Registration.OpenBindings
import ScopedInference.Workload

/-!
# Hops

A slot is a name in a context. If what it shows is a parameter that another context owns and has
bound, a hop leads there (`Hop`). From every slot there is at most one hop, so the hops from it make
one path, which ends somewhere or goes on for ever.

Resolution comes to the end of the path if the depth limit allows for as many hops, and fails at the
limit otherwise, on a circle in particular (`ResolvesExactly`). A chain of contexts each of which
reads its parameter in the one above shows where the limit is: what is as many links below the root
as the limit says still resolves, and what is further down does not (`links_ok`).
-/

namespace ScopedInference

/-- A name in a context. -/
abbrev Slot := ContextId × String

theorem BindingState.mem_bindings {α : Type} [Bindable α] {s : BindingState} {name : String}
    {b : Binding α} : (name, b) ∈ s.bindings ↔ s.binding? name = some b :=
  Std.ExtTreeMap.mem_toList_iff_getElem?_eq_some

namespace Arena

section

variable (α : Type) [Bindable α] (a : Arena)

/-- The first slot shows a parameter that another context owns, and the second one is its slot
there, which is bound. -/
def Hop (s t : Slot) : Prop :=
  ∃ b next : Binding α, a.binding? s.1 s.2 = .ok (some b)
    ∧ Bindable.parameterName? b.value = some t.2 ∧ b.owner = t.1 ∧ t.1 ≠ s.1
    ∧ a.binding? t.1 t.2 = .ok (some next)

/-- So many hops, one after the other. -/
inductive Hops : Nat → Slot → Slot → Prop where
  | here (s) : Hops 0 s s
  | hop {n s t u} : a.Hop α s t → Hops n t u → Hops (n + 1) s u

/-- No hop leads on from a slot. -/
def Ends (s : Slot) : Prop := ∀ t, ¬ a.Hop α s t

end

/-! ### The path from a slot -/

section

variable {α : Type} [Bindable α] {a : Arena} {s t u : Slot} {m n : Nat}

theorem Hop.unique (h : a.Hop α s t) (h' : a.Hop α s u) : t = u := by
  obtain ⟨b, _, hb, hname, howner, -, -⟩ := h
  obtain ⟨b', _, hb', hname', howner', -, -⟩ := h'
  cases hb.symm.trans hb'
  exact Prod.ext (howner.symm.trans howner') (Option.some.inj (hname.symm.trans hname'))

namespace Hops

theorem trans (h : a.Hops α m s t) (h' : a.Hops α n t u) : a.Hops α (m + n) s u := by
  induction h with
  | here => rwa [Nat.zero_add]
  | hop hs _ ih =>
    rw [Nat.add_right_comm]
    exact .hop hs (ih h')

/-- A path of some hops starts with fewer of them. -/
theorem take (h : a.Hops α n s u) : ∀ {m}, m ≤ n → ∃ t, a.Hops α m s t := by
  induction h with
  | here s => exact fun hm => ⟨s, by rw [Nat.le_zero.1 hm]; exact .here s⟩
  | hop hs _ ih =>
    rintro (_ | m) hm
    · exact ⟨_, .here _⟩
    · obtain ⟨t, ht⟩ := ih (Nat.le_of_succ_le_succ hm)
      exact ⟨t, .hop hs ht⟩

/-- No path is longer than one that ends, and one that is as long ends there too. -/
theorem of_ends (h : a.Hops α n s t) (ht : a.Ends α t) (h' : a.Hops α m s u) :
    m ≤ n ∧ (a.Ends α u → m = n ∧ u = t) := by
  induction h generalizing m with
  | here s =>
    cases h' with
    | here => exact ⟨Nat.le_refl 0, fun _ => ⟨rfl, rfl⟩⟩
    | hop hs _ => exact absurd hs (ht _)
  | hop hs _ ih =>
    cases h' with
    | here => exact ⟨Nat.zero_le _, fun hu => absurd hs (hu _)⟩
    | hop hs' h' =>
      obtain rfl := hs.unique hs'
      obtain ⟨hle, heq⟩ := ih ht h'
      exact ⟨Nat.succ_le_succ hle, fun hu => ⟨congrArg _ (heq hu).1, (heq hu).2⟩⟩

/-- A circle is a path as long as one likes. -/
theorem circle (h : a.Hops α (m + 1) t t) : ∀ n, ∃ k, n ≤ k ∧ a.Hops α k t t
  | 0 => ⟨0, Nat.le_refl 0, .here t⟩
  | n + 1 => by
    obtain ⟨k, hk, hcircle⟩ := h.circle n
    exact ⟨m + 1 + k, by omega, h.trans hcircle⟩

end Hops

/-! ### Following the path -/

theorem Hop.hop?_eq {b : Binding α} (h : a.Hop α s t) (hb : a.binding? s.1 s.2 = .ok (some b)) :
    ∃ next, a.binding? t.1 t.2 = .ok (some next) ∧ b.owner = t.1
      ∧ a.hop? s.1 b = .ok (some next) := by
  obtain ⟨b', next, hb', hname, howner, hne, hnext⟩ := h
  cases hb.symm.trans hb'
  refine ⟨next, hnext, howner, ?_⟩
  simp only [hop?, hname, howner, if_neg hne, hnext]

theorem Hops.follow_eq_ok (h : a.Hops α m s t) {e : Binding α}
    (he : a.binding? t.1 t.2 = .ok (some e)) (hend : a.hop? t.1 e = .ok none) :
    ∀ {n}, m ≤ n → ∀ {b}, a.binding? s.1 s.2 = .ok (some b) →
      a.follow n s.1 b = .ok e.value := by
  induction h with
  | here s =>
    intro n _ b hb
    cases hb.symm.trans he
    exact follow_of_hop_none hend n
  | hop hs _ ih =>
    rintro (_ | n) hm b hb
    · exact absurd hm (Nat.not_succ_le_zero _)
    · obtain ⟨next, hnext, howner, hhop⟩ := hs.hop?_eq hb
      rw [follow_of_hop_some hhop, howner]
      exact ih he hend (Nat.le_of_succ_le_succ hm) hnext

theorem Hops.follow_eq_error : ∀ {n : Nat} {s : Slot}, a.Hops α (n + 1) s t →
    ∀ {b : Binding α}, a.binding? s.1 s.2 = .ok (some b) →
      a.follow n s.1 b = .error (.depthExceeded a.maxDepth)
  | 0, s, .hop hs _, b, hb => by
    obtain ⟨next, -, -, hhop⟩ := hs.hop?_eq hb
    rw [follow, hhop]
    rfl
  | n + 1, s, .hop hs h, b, hb => by
    obtain ⟨next, hnext, howner, hhop⟩ := hs.hop?_eq hb
    rw [follow_of_hop_some hhop, howner]
    exact h.follow_eq_error hnext

theorem resolveParameter_of_bound {id : ContextId} {name : String} {b : Binding α}
    (hb : a.binding? id name = .ok (some b)) :
    a.resolveParameter id name = (a.follow a.maxDepth id b).map some := by
  simp only [resolveParameter, hb, bind, Except.bind, pure, Except.pure]
  rcases a.follow a.maxDepth id b with e | v <;> rfl

theorem resolveParameter_eq_none {id : ContextId} {name : String} :
    a.resolveParameter id name = .ok (none : Option α)
      ↔ a.binding? id name = .ok (none : Option (Binding α)) := by
  rcases hb : a.binding? id name with e | _ | b
  · simp only [resolveParameter, hb, bind, Except.bind, reduceCtorEq]
  · simp only [resolveParameter, hb, bind, Except.bind, pure, Except.pure]
  · rw [resolveParameter_of_bound hb]
    rcases a.follow a.maxDepth id b with e | v <;> simp [Except.map]

/-- What ends the path of a slot that shows something. -/
theorem ends_of_hop?_none {b : Binding α} (hb : a.binding? s.1 s.2 = .ok (some b))
    (h : a.hop? s.1 b = .ok none) : a.Ends α s := by
  intro t ht
  obtain ⟨next, -, -, hhop⟩ := ht.hop?_eq hb
  exact absurd (h.symm.trans hhop) (by simp)

theorem Hops.exists_binding {e : Binding α} (h : a.Hops α n s t)
    (he : a.binding? t.1 t.2 = .ok (some e)) :
    ∃ b : Binding α, a.binding? s.1 s.2 = .ok (some b) := by
  cases h with
  | here => exact ⟨e, he⟩
  | hop hs _ =>
    obtain ⟨b, -, hb, -⟩ := hs
    exact ⟨b, hb⟩

theorem Hops.resolveParameter_eq_error (h : a.Hops α (a.maxDepth + 1) s t) :
    a.resolveParameter s.1 s.2
      = (.error (.depthExceeded a.maxDepth) : Except _ (Option α)) := by
  obtain ⟨b, hb⟩ : ∃ b : Binding α, a.binding? s.1 s.2 = .ok (some b) := by
    cases h with
    | hop hs _ =>
      obtain ⟨b, -, hb, -⟩ := hs
      exact ⟨b, hb⟩
  rw [resolveParameter_of_bound hb, h.follow_eq_error hb]
  rfl

end

/-! ### Where no owner is missing -/

/-- What resolution makes of a slot: nothing if it is unbound, the value where its path ends if the
limit allows for the hops, and a failure if there are more of them. -/
structure ResolvesExactly (α : Type) [Bindable α] (a : Arena) (s : Slot) : Prop where
  unbound : a.resolveParameter s.1 s.2 = .ok (none : Option α)
    ↔ a.binding? s.1 s.2 = .ok (none : Option (Binding α))
  value : ∀ v : α, a.resolveParameter s.1 s.2 = .ok (some v)
    ↔ ∃ n ≤ a.maxDepth, ∃ t b, a.Hops α n s t ∧ a.Ends α t
      ∧ a.binding? t.1 t.2 = .ok (some b) ∧ b.value = v
  depth : a.resolveParameter s.1 s.2 = (.error (.depthExceeded a.maxDepth) : Except _ (Option α))
    ↔ ∃ t, a.Hops α (a.maxDepth + 1) s t
  circle : ∀ m n t, a.Hops α m s t → a.Hops α (n + 1) t t →
    a.resolveParameter s.1 s.2 = (.error (.depthExceeded a.maxDepth) : Except _ (Option α))

section

variable {α : Type} [Bindable α] {a : Arena}
  (hown : ∀ id c, a.context id = .ok c → c.current.Owned α a.Has)

include hown

theorem hop_cases {s : Slot} {b : Binding α} (hb : a.binding? s.1 s.2 = .ok (some b)) :
    a.hop? s.1 b = .ok none
      ∨ ∃ (t : Slot) (next : Binding α), a.Hop α s t ∧ a.binding? t.1 t.2 = .ok (some next) := by
  unfold hop?
  rcases hname : Bindable.parameterName? b.value with _ | name
  · exact .inl rfl
  by_cases howner : b.owner = s.1
  · exact .inl (if_pos howner)
  obtain ⟨c, hc, hbinding⟩ := binding?_eq_ok.1 hb
  obtain ⟨d, hd⟩ := hown s.1 c hc s.2 b hbinding
  rcases hnext : (d.current.binding? name : Option (Binding α)) with _ | next
  · refine .inl ?_
    simp only [if_neg howner, binding?, hd, bind, Except.bind, pure, Except.pure, hnext]
  · have hshown : a.binding? b.owner name = .ok (some next) := by
      simp only [binding?, hd, bind, Except.bind, pure, Except.pure, hnext]
    exact .inr ⟨(b.owner, name), next, ⟨b, next, hb, hname, rfl, howner, hshown⟩, hshown⟩

theorem hop?_of_ends {s : Slot} {b : Binding α} (hb : a.binding? s.1 s.2 = .ok (some b))
    (h : a.Ends α s) : a.hop? s.1 b = .ok none := by
  rcases hop_cases hown hb with hnone | ⟨t, _, ht, -⟩
  · exact hnone
  · exact absurd ht (h t)

/-- A path ends after some hops, or has one more. -/
theorem ends_or_goes_on (n : Nat) {s : Slot} {b : Binding α}
    (hb : a.binding? s.1 s.2 = .ok (some b)) :
    (∃ m ≤ n, ∃ (t : Slot) (e : Binding α), a.Hops α m s t ∧ a.Ends α t
      ∧ a.binding? t.1 t.2 = .ok (some e))
    ∨ ∃ t, a.Hops α (n + 1) s t := by
  induction n generalizing s b with
  | zero =>
    rcases hop_cases hown hb with hnone | ⟨t, _, ht, -⟩
    · exact .inl ⟨0, Nat.le_refl 0, s, b, .here s, ends_of_hop?_none hb hnone, hb⟩
    · exact .inr ⟨t, .hop ht (.here t)⟩
  | succ n ih =>
    rcases hop_cases hown hb with hnone | ⟨t, next, ht, hnext⟩
    · exact .inl ⟨0, Nat.zero_le _, s, b, .here s, ends_of_hop?_none hb hnone, hb⟩
    rcases ih hnext with ⟨m, hm, u, e, hu, hend, he⟩ | ⟨u, hu⟩
    · exact .inl ⟨m + 1, Nat.succ_le_succ hm, u, e, .hop ht hu, hend, he⟩
    · exact .inr ⟨u, .hop ht hu⟩

theorem Hops.resolveParameter_eq_ok {s t : Slot} {n : Nat} {e : Binding α} (h : a.Hops α n s t)
    (hn : n ≤ a.maxDepth) (hend : a.Ends α t) (he : a.binding? t.1 t.2 = .ok (some e)) :
    a.resolveParameter s.1 s.2 = .ok (some e.value) := by
  obtain ⟨b, hb⟩ := h.exists_binding he
  rw [resolveParameter_of_bound hb, h.follow_eq_ok he (hop?_of_ends hown he hend) hn hb]
  rfl

theorem resolvesExactly_of_owned (s : Slot) : a.ResolvesExactly α s where
  unbound := resolveParameter_eq_none
  value v := by
    constructor
    · intro h
      rcases hb : (a.binding? s.1 s.2 : Except _ (Option (Binding α))) with e | _ | b
      · simp only [resolveParameter, hb, bind, Except.bind, reduceCtorEq] at h
      · rw [resolveParameter_eq_none.2 hb] at h
        simp at h
      rcases ends_or_goes_on hown a.maxDepth hb with ⟨m, hm, t, e, ht, hend, he⟩ | ⟨t, ht⟩
      · rw [ht.resolveParameter_eq_ok hown hm hend he] at h
        exact ⟨m, hm, t, e, ht, hend, he, by simpa using h⟩
      · rw [ht.resolveParameter_eq_error] at h
        cases h
    · rintro ⟨n, hn, t, b, ht, hend, hb, rfl⟩
      exact ht.resolveParameter_eq_ok hown hn hend hb
  depth := by
    constructor
    · intro h
      by_cases hid : a.Has s.1
      swap
      · simp only [resolveParameter, binding?, context_missing hid, bind, Except.bind] at h
        cases h
      obtain ⟨c, hc⟩ := hid
      rcases hshown : (c.current.binding? s.2 : Option (Binding α)) with _ | b
      · rw [resolveParameter_eq_none.2 (binding?_eq_ok.2 ⟨c, hc, hshown⟩)] at h
        cases h
      rcases ends_or_goes_on hown a.maxDepth (binding?_eq_ok.2 ⟨c, hc, hshown⟩)
        with ⟨m, hm, t, e, ht, hend, he⟩ | hlong
      · rw [ht.resolveParameter_eq_ok hown hm hend he] at h
        cases h
      · exact hlong
    · rintro ⟨t, ht⟩
      exact ht.resolveParameter_eq_error
  circle m n t ht hcircle := by
    obtain ⟨k, hk, hround⟩ := hcircle.circle (a.maxDepth + 1)
    obtain ⟨u, hu⟩ := (ht.trans hround).take (m := a.maxDepth + 1) (by omega)
    exact hu.resolveParameter_eq_error

end

section

variable {α : Type} [Bindable α] {a : Arena}

theorem exists_mapM_eq_ok {ε β γ : Type} {f : β → Except ε γ} :
    ∀ l : List β, (∃ ys, l.mapM f = .ok ys) ↔ ∀ x ∈ l, ∃ y, f x = .ok y
  | [] => ⟨fun _ => by simp, fun _ => ⟨[], rfl⟩⟩
  | x :: l => by
    rw [List.mapM_cons, List.forall_mem_cons, ← exists_mapM_eq_ok l]
    rcases f x with e | y
    · simp [bind, Except.bind]
    rcases l.mapM f with e | ys
    · simp [bind, Except.bind]
    · simp [bind, Except.bind, pure, Except.pure]

/-- All parameters of a context resolve at once if each of them does. -/
theorem exists_resolvedParameters (id : ContextId) :
    (∃ l : List (String × α), a.resolvedParameters id = .ok l)
      ↔ ∀ name, ∃ v? : Option α, a.resolveParameter id name = .ok v? := by
  rcases hc : a.context id with e | c
  · simp [resolvedParameters, resolveParameter, binding?, hc, bind, Except.bind]
  simp only [resolvedParameters, hc, bind, Except.bind]
  rw [exists_mapM_eq_ok]
  constructor
  · intro h name
    rcases hb : (c.current.binding? name : Option (Binding α)) with _ | b
    · exact ⟨none, resolveParameter_eq_none.2 (binding?_eq_ok.2 ⟨c, hc, hb⟩)⟩
    · rw [resolveParameter_of_bound (binding?_eq_ok.2 ⟨c, hc, hb⟩)]
      obtain ⟨y, hy⟩ := h (name, b) (BindingState.mem_bindings.2 hb)
      rcases hv : a.follow a.maxDepth id b with e | v
      · rw [hv] at hy
        cases hy
      · exact ⟨some v, rfl⟩
  · rintro h ⟨name, b⟩ hb
    have hshown := BindingState.mem_bindings.1 hb
    obtain ⟨v?, hv⟩ := h name
    rw [resolveParameter_of_bound (binding?_eq_ok.2 ⟨c, hc, hshown⟩)] at hv
    rcases hfollow : a.follow a.maxDepth id b with e | v <;> rw [hfollow] at hv
    · cases hv
    · exact ⟨(name, v), by simp only [pure, Except.pure]⟩

end

end Arena

/-! ### A chain of contexts -/

namespace Workload

/-- The ids in use are below those that are still to be drawn. -/
structure Unspent (a : Arena) (k : IdCounter) : Prop where
  below : ∀ id, a.Has id → id < a.nextId
  block : a.nextId ≤ a.blockEnd
  counter : a.blockEnd ≤ k.next

theorem Unspent.takeId {a b : Arena} {k k' : IdCounter} {id : ContextId} (h : Unspent a k)
    (hid : a.takeId k = .ok (id, b, k')) :
    ¬ a.Has id ∧ id < b.nextId ∧ a.nextId ≤ b.nextId ∧ b.nextId ≤ b.blockEnd
      ∧ b.blockEnd ≤ k'.next ∧ b.maxDepth = a.maxDepth := by
  have hblock := h.block
  have hcounter := h.counter
  have hfresh : ∀ {id}, a.nextId ≤ id → ¬ a.Has id := fun hle hhas =>
    absurd (h.below _ hhas) (Nat.not_lt.2 hle)
  rcases Arena.takeId_cases hid with ⟨hne, rfl, rfl, rfl⟩ | ⟨heq, -, rfl, rfl, rfl⟩
  · exact ⟨hfresh (Nat.le_refl _), Nat.lt_succ_self _, Nat.le_succ _,
      Nat.lt_of_le_of_ne hblock hne, hcounter, rfl⟩
  · refine ⟨hfresh (hblock.trans hcounter), Nat.lt_succ_self _, ?_, ?_, Nat.le_refl _, rfl⟩
    · exact (hblock.trans hcounter).trans (Nat.le_succ _)
    · exact Nat.add_le_add_left (by decide) _

/-- What an arena has stays, and its limit. -/
structure Kept (a b : Arena) : Prop where
  context : ∀ id, a.Has id → b.context id = a.context id
  maxDepth : b.maxDepth = a.maxDepth

theorem Kept.trans {a b c : Arena} (h : Kept a b) (h' : Kept b c) : Kept a c where
  context id hid := by
    obtain ⟨d, hd⟩ := hid
    rw [h'.context id ⟨d, (h.context id ⟨d, hd⟩).trans hd⟩, h.context id ⟨d, hd⟩]
  maxDepth := h'.maxDepth.trans h.maxDepth

theorem get_apply (s : Arena × IdCounter) : (get : ChainM _) s = .ok s s :=
  rfl

theorem link_apply (parent : Option ContextId) (name : String) (value : TypeExpr) (a : Arena)
    (k : IdCounter) : link parent name value (a, k) = match a.newContext k parent with
      | .error e => .error e (a, k)
      | .ok (id, b, k') =>
        match b.register (.type id (.param ⟨name, .covariant⟩) (some value) (parent.getD id) false)
        with
        | .ok _ run => .ok id (run.arena, k')
        | .error e run => .error e (run.arena, k') := by
  rcases h : a.newContext k parent with e | ⟨id, b, k'⟩
  · simp only [link, bind, EStateM.bind, get_apply, h]
    rfl
  · simp only [link, bind, EStateM.bind, get_apply, h]
    show (match b.register _ with | .ok _ run => _ | .error e run => _ : ChainM ContextId) _ = _
    rcases b.register _ with ⟨_, run⟩ | ⟨e, run⟩ <;> rfl

theorem link_ok {parent : Option ContextId} {name : String} {value : TypeExpr} {a b : Arena}
    {k k' : IdCounter} {id : ContextId} (ha : Unspent a k)
    (hv : parent = none ∨ ∀ left right, value ≠ .operation .equal left right)
    (hok : link parent name value (a, k) = .ok id (b, k')) :
    Unspent b k' ∧ Kept a b ∧ ¬ a.Has id ∧ (∀ q, parent = some q → a.Has q)
      ∧ b.binding? id name = .ok (some (.bound value (parent.getD id))) := by
  rw [link_apply] at hok
  unfold Arena.newContext at hok
  rcases hparent : a.checkParent parent with e | u <;> rw [hparent] at hok
  · cases hok
  rcases hid : a.takeId k with e | ⟨id', a₁, k₁⟩ <;> rw [hid] at hok
  · cases hok
  simp only [bind, Except.bind, pure, Except.pure] at hok
  obtain ⟨hnew, hlt, hnext, hblock, hcounter, hdepth⟩ := ha.takeId hid
  have hcontexts := Arena.takeId_contexts hid
  have hhas : ∀ q, parent = some q → a.Has q := fun q hq => Arena.checkParent_ok hparent hq
  let c := Context.fresh id' parent none
  let a₂ := a₁.insert id' c
  have hold : ∀ other, other ≠ id' → a₂.context other = a.context other := fun other hne =>
    (Arena.context_insert_of_ne a₁ hne.symm c).trans (Arena.context_congr hcontexts other)
  have hc : a₂.context id' = .ok c := Arena.context_insert_self ..
  obtain ⟨there, hthere, htop⟩ : ∃ there, a₂.context (parent.getD id') = .ok there
      ∧ (there.parent = none ∨ ∀ left right, value ≠ .operation .equal left right) := by
    rcases parent with _ | q
    · exact ⟨c, hc, .inl rfl⟩
    · obtain ⟨there, hthere⟩ := hhas q rfl
      have hne : q ≠ id' := fun heq => hnew (heq ▸ ⟨there, hthere⟩)
      exact ⟨there, (hold q hne).trans hthere, .inr (hv.resolve_left (by simp))⟩
  obtain ⟨s, harena, hs⟩ := Registration.register_param_apply (n := a₂.maxDepth)
    (r := { arena := a₂ }) (p := ⟨name, .covariant⟩) hc hthere htop rfl
  rw [show a₂.register _ = _ from hs] at hok
  cases hok
  rw [harena]
  have hkept : ∀ other, other ≠ id → (a₂.insert id (c.mapCurrent
      (·.bind name (.bound value (parent.getD id))))).context other = a.context other :=
    fun other hne => (Arena.context_insert_of_ne a₂ hne.symm _).trans (hold other hne)
  refine ⟨⟨fun other hother => ?_, hblock, hcounter⟩, ⟨fun other hother => ?_, hdepth⟩, hnew, hhas,
    ?_⟩
  · by_cases heq : other = id
    · exact heq ▸ hlt
    · obtain ⟨d, hd⟩ := hother
      exact Nat.lt_of_lt_of_le (ha.below other ⟨d, (hkept other heq).symm.trans hd⟩) hnext
  · exact hkept other fun heq => hnew (heq ▸ hother)
  · exact Registration.binding?_settled rfl

/-- In a context the parameter number `i` is `i` links away from the leaf. -/
inductive Reads (a : Arena) (leaf : TypeExpr) : Nat → ContextId → Prop where
  | root {id} : a.binding? id ("p" ++ toString 0) = .ok (some (.bound leaf id)) → Reads a leaf 0 id
  | link {i id parent} : parent ≠ id → Reads a leaf i parent →
      a.binding? id ("p" ++ toString (i + 1))
        = .ok (some (.bound (TypeExpr.param ⟨"p" ++ toString i, .covariant⟩) parent)) →
      Reads a leaf (i + 1) id

theorem Kept.binding?_eq {a b : Arena} (h : Kept a b) {id : ContextId} {name : String}
    {bound : Binding TypeExpr} (hbound : a.binding? id name = .ok (some bound)) :
    b.binding? id name = .ok (some bound) := by
  obtain ⟨c, hc, hname⟩ := Arena.binding?_eq_ok.1 hbound
  exact Arena.binding?_eq_ok.2 ⟨c, (h.context id ⟨c, hc⟩).trans hc, hname⟩

namespace Reads

variable {a b : Arena} {leaf : TypeExpr} {i : Nat} {id : ContextId}

theorem kept (h : Reads a leaf i id) (hab : Kept a b) : Reads b leaf i id := by
  induction h with
  | root hbinding => exact .root (hab.binding?_eq hbinding)
  | link hne _ hbinding ih => exact .link hne ih (hab.binding?_eq hbinding)

/-- The path to the leaf has a hop for each link. -/
theorem hops (h : Reads a leaf i id) : ∃ (t : Slot) (e : Binding TypeExpr),
    a.Hops TypeExpr i (id, "p" ++ toString i) t ∧ a.binding? t.1 t.2 = .ok (some e)
      ∧ a.hop? t.1 e = .ok none ∧ e.value = leaf := by
  induction h with
  | @root id hbinding =>
    refine ⟨(id, "p" ++ toString 0), .bound leaf id, .here _, hbinding, ?_, rfl⟩
    unfold Arena.hop?
    split
    · rfl
    · exact if_pos rfl
  | link hne _ hbinding ih =>
    obtain ⟨t, e, ht, he, hend, hvalue⟩ := ih
    obtain ⟨next, hnext⟩ := ht.exists_binding he
    exact ⟨t, e, .hop ⟨_, next, hbinding, rfl, rfl, hne, hnext⟩ ht, he, hend, hvalue⟩

theorem resolveParameter_eq (h : Reads a leaf i id) :
    a.resolveParameter id ("p" ++ toString i)
      = if i ≤ a.maxDepth then .ok (some leaf) else .error (.depthExceeded a.maxDepth) := by
  obtain ⟨t, e, ht, he, hend, hvalue⟩ := h.hops
  obtain ⟨b, hb⟩ := ht.exists_binding he
  split
  · rename_i hi
    rw [Arena.resolveParameter_of_bound hb, ht.follow_eq_ok he hend hi hb, hvalue]
    rfl
  · rename_i hi
    obtain ⟨u, hu⟩ := ht.take (m := a.maxDepth + 1) (by omega)
    exact hu.resolveParameter_eq_error

end Reads

theorem links_ok {leaf : TypeExpr} : ∀ {n i : Nat} {parent : ContextId} {a b : Arena}
    {k k' : IdCounter} {ids : List ContextId}, Unspent a k → Reads a leaf i parent →
    links n i parent (a, k) = .ok ids (b, k') →
    Kept a b ∧ ids.length = n ∧ ∀ j (hj : j < ids.length), Reads b leaf (i + 1 + j) ids[j]
  | 0, i, parent, a, b, k, k', ids, _, _, hok => by
    cases hok
    exact ⟨⟨fun _ _ => rfl, rfl⟩, rfl, fun j hj => absurd hj (Nat.not_lt_zero j)⟩
  | n + 1, i, parent, a, b, k, k', ids, ha, hparent, hok => by
    obtain ⟨id, ⟨a₁, k₁⟩, hlink, hok⟩ := RunM.bind_eq_ok.1 hok
    obtain ⟨rest, ⟨b₁, k₂⟩, hrest, hok⟩ := RunM.bind_eq_ok.1 hok
    cases hok
    obtain ⟨ha₁, hkept, hnew, hhas, hbinding⟩ := link_ok ha (.inr (by simp)) hlink
    have hid : Reads a₁ leaf (i + 1) id :=
      .link (fun heq => hnew (heq ▸ hhas parent rfl)) (hparent.kept hkept) hbinding
    obtain ⟨hkept', hlength, hreads⟩ := links_ok ha₁ hid hrest
    refine ⟨hkept.trans hkept', congrArg (· + 1) hlength, fun j hj => ?_⟩
    rcases j with _ | j
    · exact hid.kept hkept'
    · rw [show i + 1 + (j + 1) = i + 1 + 1 + j by omega]
      exact hreads j (Nat.lt_of_succ_lt_succ hj)

/-- A chain that begins in a new arena: what is further from the root than the limit allows does not
resolve. -/
theorem ownerChain_ok {h : Hierarchy} {limit length : Nat} {leaf : TypeExpr} {b : Arena}
    {k k' : IdCounter} {chain : List ContextId}
    (hok : ownerChain length leaf ({ hierarchy := h, maxDepth := limit }, k) = .ok chain (b, k')) :
    chain.length = length + 1 ∧ ∀ i (hi : i < chain.length),
      b.resolveParameter chain[i] ("p" ++ toString i)
        = if i ≤ limit then .ok (some leaf) else .error (.depthExceeded limit) := by
  have hempty : Unspent { hierarchy := h, maxDepth := limit } k :=
    ⟨fun id ⟨c, hc⟩ => absurd (Arena.context_eq_ok_iff.1 hc) (by simp), Nat.le_refl 0,
      Nat.zero_le _⟩
  obtain ⟨root, ⟨a₁, k₁⟩, hlink, hok⟩ := RunM.bind_eq_ok.1 hok
  obtain ⟨rest, ⟨b₁, k₂⟩, hrest, hok⟩ := RunM.bind_eq_ok.1 hok
  cases hok
  obtain ⟨ha₁, hkept, -, -, hbinding⟩ := link_ok hempty (.inl rfl) hlink
  have hroot : Reads a₁ leaf 0 root := .root hbinding
  obtain ⟨hkept', hlength, hreads⟩ := links_ok ha₁ hroot hrest
  have hdepth : b.maxDepth = limit := (hkept.trans hkept').maxDepth
  refine ⟨congrArg (· + 1) hlength, fun i hi => ?_⟩
  rw [← hdepth]
  rcases i with _ | i
  · exact (hroot.kept hkept').resolveParameter_eq
  · have := (hreads i (Nat.lt_of_succ_lt_succ hi)).resolveParameter_eq
    rwa [show 0 + 1 + i = i + 1 by omega] at this

end Workload

/-- Resolution follows the hops from a slot to their end, as long as there are not more of them than
the limit says, and all parameters of a context resolve together if each of them does. In a chain of
contexts that begins in a new arena the limit is the last number that resolves. -/
theorem resolution_exact {a : Arena} (ha : a.Closed) :
    (∀ s, a.ResolvesExactly TypeExpr s) ∧ (∀ s, a.ResolvesExactly Multiplicity s)
    ∧ (∀ id, (∃ l : List (String × TypeExpr), a.resolvedParameters id = .ok l)
      ↔ ∀ name, ∃ v? : Option TypeExpr, a.resolveParameter id name = .ok v?)
    ∧ ∀ (h : Hierarchy) (limit length : Nat) (leaf : TypeExpr) (k k' : IdCounter) (b : Arena)
        (chain : List ContextId),
      Workload.ownerChain length leaf ({ hierarchy := h, maxDepth := limit }, k)
        = .ok chain (b, k') →
      chain.length = length + 1 ∧ ∀ i (hi : i < chain.length),
        b.resolveParameter chain[i] ("p" ++ toString i)
          = if i ≤ limit then .ok (some leaf) else .error (.depthExceeded limit) :=
  ⟨Arena.resolvesExactly_of_owned fun id c hc => (ha id c hc).types _ c.current_mem_states,
    Arena.resolvesExactly_of_owned fun id c hc => (ha id c hc).muls _ c.current_mem_states,
    Arena.exists_resolvedParameters,
    fun _ _ _ _ _ _ _ _ hok => Workload.ownerChain_ok hok⟩

/-- Two parameters that stand for each other. -/
theorem resolution_exact_circle :
    let s := Session.run ⟨.withFirstId .preloaded 1, fun _ => []⟩
      [.newContext ⟨1025⟩ none none, .newContext ⟨1025⟩ none none,
        .register 1 (.param ⟨"T", .covariant⟩) (some (.param ⟨"U", .covariant⟩)) 2 false,
        .register 2 (.param ⟨"U", .covariant⟩) (some (.param ⟨"T", .covariant⟩)) 1 false]
    s.arena.Closed ∧ s.arena.resolveParameter 1 "T"
      = (.error (.depthExceeded 256) : Except _ (Option TypeExpr)) := by
  intro s
  have hclosed : s.arena.Closed := Arena.Reachable.closed ⟨_, _, rfl, rfl⟩
  have hone : s.arena.binding? 1 "T" = .ok (some (.bound (TypeExpr.param ⟨"U", .covariant⟩) 2)) := by
    with_unfolding_all rfl
  have htwo : s.arena.binding? 2 "U" = .ok (some (.bound (TypeExpr.param ⟨"T", .covariant⟩) 1)) := by
    with_unfolding_all rfl
  have hthere : s.arena.Hop TypeExpr (1, "T") (2, "U") :=
    ⟨_, _, hone, rfl, rfl, by decide, htwo⟩
  have hback : s.arena.Hop TypeExpr (2, "U") (1, "T") :=
    ⟨_, _, htwo, rfl, rfl, by decide, hone⟩
  have hcircle := ((resolution_exact hclosed).1 (1, "T")).circle 0 1 (1, "T") (.here _)
    (.hop hthere (.hop hback (.here _)))
  have hdepth : s.arena.maxDepth = 256 := by with_unfolding_all rfl
  rw [hdepth] at hcircle
  exact ⟨hclosed, hcircle⟩

end ScopedInference
