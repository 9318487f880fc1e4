import Mathlib.Logic.Function.Basic
import ScopedInference.Proofs.Arena.ParentChain

/-!
# Arenas that share a counter

Any number of arenas create contexts at the same time. Within one arena calls of `newContext` come
one after the other; calls of different arenas overlap. A call is taken apart into its steps: it
looks for the parent, it draws the id, and it inserts the context. Drawing is where the counter may
be changed, in one indivisible step. A call that nothing interrupts is `newContext`
(`run_call_of_ok`, `run_call_of_error`).

`Step` says once what an action can do to the arenas (`step_act`); what holds along a whole run
follows from it (`run_induction`).
-/

namespace ScopedInference

namespace Arena

theorem takeId_own {a : Arena} (h : a.nextId ≠ a.blockEnd) (k : IdCounter) :
    a.takeId k = .ok (a.nextId, { a with nextId := a.nextId + 1 }, k) := by
  simp only [takeId, if_neg h, pure, Except.pure]

theorem takeId_shared {a : Arena} {k : IdCounter} (h : a.nextId = a.blockEnd)
    (hl : k.next + IdCounter.blockSize ≤ IdCounter.limit) :
    a.takeId k = .ok (k.next,
      { a with nextId := k.next + 1, blockEnd := k.next + IdCounter.blockSize },
      ⟨k.next + IdCounter.blockSize⟩) := by
  simp only [takeId, if_pos h, IdCounter.takeBlock, if_pos hl, bind, Except.bind, pure, Except.pure]

/-- An id comes from the arena's block, or else from a new block. -/
theorem takeId_cases {a b : Arena} {k k' : IdCounter} {id : ContextId}
    (h : a.takeId k = .ok (id, b, k')) :
    (a.nextId ≠ a.blockEnd ∧ id = a.nextId ∧ b = { a with nextId := a.nextId + 1 } ∧ k' = k)
    ∨ (a.nextId = a.blockEnd ∧ k.next + IdCounter.blockSize ≤ IdCounter.limit ∧ id = k.next
      ∧ b = { a with nextId := k.next + 1, blockEnd := k.next + IdCounter.blockSize }
      ∧ k' = ⟨k.next + IdCounter.blockSize⟩) := by
  by_cases hb : a.nextId = a.blockEnd
  · by_cases hl : k.next + IdCounter.blockSize ≤ IdCounter.limit
    · rw [takeId_shared hb hl, Except.ok.injEq, Prod.mk.injEq, Prod.mk.injEq] at h
      obtain ⟨rfl, rfl, rfl⟩ := h
      exact .inr ⟨hb, hl, rfl, rfl, rfl⟩
    · simp [takeId, IdCounter.takeBlock, hb, hl, bind, Except.bind] at h
  · rw [takeId_own hb, Except.ok.injEq, Prod.mk.injEq, Prod.mk.injEq] at h
    obtain ⟨rfl, rfl, rfl⟩ := h
    exact .inl ⟨hb, rfl, rfl, rfl⟩

/-- Drawing an id moves the start of what is left, or opens another block. -/
theorem takeId_moves {a b : Arena} {k k' : IdCounter} {id : ContextId}
    (h : a.takeId k = .ok (id, b, k')) : b.nextId ≠ a.nextId ∨ b.blockEnd ≠ a.blockEnd := by
  rcases takeId_cases h with ⟨-, -, rfl, -⟩ | ⟨hb, -, -, rfl, -⟩
  · exact .inl (Nat.succ_ne_self _)
  · by_contra hne
    simp only [not_or, not_not] at hne
    have hle : k.next + 1 < k.next + IdCounter.blockSize := Nat.add_lt_add_left (by decide) _
    rw [hne.1, hne.2, hb] at hle
    exact Nat.lt_irrefl _ hle

/-- Ids run out when a new block is needed and does not fit. -/
theorem takeId_error {a : Arena} {k : IdCounter} {e : InferError} (h : a.takeId k = .error e) :
    e = .idsExhausted ∧ a.nextId = a.blockEnd
      ∧ IdCounter.limit < k.next + IdCounter.blockSize := by
  unfold takeId IdCounter.takeBlock at h
  split_ifs at h with hb hl
  · simp [bind, Except.bind, pure, Except.pure] at h
  · simp only [bind, Except.bind, Except.error.injEq] at h
    exact ⟨h.symm, hb, Nat.lt_of_not_le hl⟩
  · simp [pure, Except.pure] at h

theorem takeId_contexts {a b : Arena} {k k' : IdCounter} {id : ContextId}
    (h : a.takeId k = .ok (id, b, k')) : b.contexts = a.contexts := by
  rcases takeId_cases h with ⟨-, -, rfl, -⟩ | ⟨-, -, -, rfl, -⟩ <;> rfl

theorem checkParent_ok {a : Arena} {parent : Option ContextId} {u : Unit}
    (h : a.checkParent parent = .ok u) {q : ContextId} (hq : parent = some q) :
    ∃ c, a.context q = .ok c := by
  subst hq
  simp only [checkParent] at h
  rcases hc : a.context q with e | c
  · rw [hc] at h
    simp [Except.map] at h
  · exact ⟨c, rfl⟩

theorem checkParent_error {a : Arena} {parent : Option ContextId} {e : InferError}
    (h : a.checkParent parent = .error e) :
    ∃ q, parent = some q ∧ e = .unknownContext q ∧ ∀ c, a.context q ≠ .ok c := by
  rcases parent with _ | q
  · simp [checkParent] at h
  · simp only [checkParent, context] at h ⊢
    rcases hq : a.contexts[q]? with _ | c
    · simp only [hq, Except.map, Except.error.injEq] at h
      exact ⟨q, rfl, h.symm, by simp [hq]⟩
    · simp [hq, Except.map] at h

end Arena

/-- How far a call of `newContext` has come. -/
inductive Creation where
  /-- The parent has been found. -/
  | admitted (parent : Option ContextId) (signature : Option Signature)
  /-- The id of the new context has been drawn. -/
  | numbered (id : ContextId) (parent : Option ContextId) (signature : Option Signature)

def Creation.parent : Creation → Option ContextId
  | .admitted parent _ | .numbered _ parent _ => parent

/-- An arena, and the call that is under way in it. -/
structure Site where
  arena : Arena
  pending : Option Creation := none

structure Pool (ι : Type) where
  sites : ι → Site
  counter : IdCounter
  /-- The ids that calls have returned, latest first, each with the arena of the call. -/
  returned : List (ι × ContextId) := []

inductive Pool.Action (ι : Type) where
  | enter (i : ι) (parent : Option ContextId) (signature : Option Signature)
  | draw (i : ι)
  | finish (i : ι)

namespace Pool

variable {ι : Type} [DecidableEq ι]

def put (p : Pool ι) (i : ι) (s : Site) : Pool ι :=
  { p with sites := Function.update p.sites i s }

/-- The error that an action ends a call with, and the pool after the action. An action whose turn
it is not does nothing. -/
def act (p : Pool ι) : Action ι → Option InferError × Pool ι
  | .enter i parent signature =>
    match (p.sites i).pending, (p.sites i).arena.checkParent parent with
    | none, .ok _ => (none, p.put i ⟨(p.sites i).arena, some (.admitted parent signature)⟩)
    | none, .error e => (some e, p)
    | some _, _ => (none, p)
  | .draw i =>
    match (p.sites i).pending with
    | some (.admitted parent signature) =>
      match (p.sites i).arena.takeId p.counter with
      | .ok (id, arena, counter) =>
        (none, ⟨(p.put i ⟨arena, some (.numbered id parent signature)⟩).sites, counter, p.returned⟩)
      | .error e => (some e, p.put i ⟨(p.sites i).arena, none⟩)
    | _ => (none, p)
  | .finish i =>
    match (p.sites i).pending with
    | some (.numbered id parent signature) =>
      (none, ⟨(p.put i ⟨(p.sites i).arena.insert id (.fresh id parent signature), none⟩).sites,
        p.counter, (i, id) :: p.returned⟩)
    | _ => (none, p)

def run (p : Pool ι) (actions : List (Action ι)) : Pool ι :=
  actions.foldl (fun p x => (p.act x).2) p

/-- The ids that calls in one arena have returned, latest first. -/
def log (p : Pool ι) (i : ι) : List ContextId := (p.returned.filter (·.1 = i)).map (·.2)

omit [DecidableEq ι] in
theorem mem_log_iff [DecidableEq ι] {p : Pool ι} {i : ι} {id : ContextId} :
    id ∈ p.log i ↔ (i, id) ∈ p.returned := by
  simp only [log, List.mem_map, List.mem_filter, decide_eq_true_eq, Prod.exists]
  constructor
  · rintro ⟨j, x, ⟨h, rfl⟩, rfl⟩
    exact h
  · exact fun h => ⟨i, id, ⟨h, rfl⟩, rfl⟩

@[simp]
theorem put_sites_self (p : Pool ι) (i : ι) (s : Site) : (p.put i s).sites i = s := by
  simp [put]

theorem put_sites_of_ne (p : Pool ι) {i j : ι} (h : j ≠ i) (s : Site) :
    (p.put i s).sites j = p.sites j := by
  simp [put, h]

/-- A site that keeps what is to be drawn next. -/
theorem put_ids (p : Pool ι) (i : ι) {s : Site} (hnext : s.arena.nextId = (p.sites i).arena.nextId)
    (hend : s.arena.blockEnd = (p.sites i).arena.blockEnd) :
    (∀ j, ((p.put i s).sites j).arena.nextId = (p.sites j).arena.nextId)
      ∧ ∀ j, ((p.put i s).sites j).arena.blockEnd = (p.sites j).arena.blockEnd := by
  refine ⟨fun j => ?_, fun j => ?_⟩ <;> by_cases hj : j = i
  · rw [hj, put_sites_self, hnext]
  · rw [put_sites_of_ne _ hj]
  · rw [hj, put_sites_self, hend]
  · rw [put_sites_of_ne _ hj]

/-- What an action can do: nothing, or let one call come a step further. -/
inductive Step (p : Pool ι) : Pool ι → Prop where
  | stay : Step p p
  | enter {i parent signature} :
      (∀ q, parent = some q → ∃ c, (p.sites i).arena.context q = .ok c) →
      Step p (p.put i ⟨(p.sites i).arena, some (.admitted parent signature)⟩)
  | draw {i parent signature id arena counter} :
      (p.sites i).pending = some (.admitted parent signature) →
      (p.sites i).arena.takeId p.counter = .ok (id, arena, counter) →
      Step p ⟨(p.put i ⟨arena, some (.numbered id parent signature)⟩).sites, counter, p.returned⟩
  | fail {i} : Step p (p.put i ⟨(p.sites i).arena, none⟩)
  | finish {i id parent signature} :
      (p.sites i).pending = some (.numbered id parent signature) →
      Step p ⟨(p.put i ⟨(p.sites i).arena.insert id (.fresh id parent signature), none⟩).sites,
        p.counter, (i, id) :: p.returned⟩

theorem step_act (p : Pool ι) (x : Action ι) : p.Step (p.act x).2 := by
  cases x with
  | enter i parent signature =>
    simp only [act]
    split
    · rename_i h
      exact .enter fun q hq => Arena.checkParent_ok h hq
    · exact .stay
    · exact .stay
  | draw i =>
    simp only [act]
    split
    · rename_i h
      split
      · rename_i ht
        exact .draw h ht
      · exact .fail
    · exact .stay
  | finish i =>
    simp only [act]
    split
    · rename_i h
      exact .finish h
    · exact .stay

/-- What every step keeps holds at the end of every run. -/
theorem run_induction {P : Pool ι → Prop} (hstep : ∀ p q, p.Step q → P p → P q) :
    ∀ (actions : List (Action ι)) (p : Pool ι), P p → P (p.run actions)
  | [], _, h => h
  | x :: actions, p, h => run_induction hstep actions _ (hstep _ _ (p.step_act x) h)

theorem run_append (p : Pool ι) (xs ys : List (Action ι)) :
    p.run (xs ++ ys) = (p.run xs).run ys :=
  List.foldl_append

/-- What has been returned stays on record. -/
theorem mem_returned_run {p : Pool ι} {x : ι × ContextId} (h : x ∈ p.returned)
    (actions : List (Action ι)) : x ∈ (p.run actions).returned := by
  refine run_induction (P := fun p => x ∈ p.returned) (fun p q hstep hx => ?_) actions p h
  cases hstep with
  | finish _ => exact List.mem_cons_of_mem _ hx
  | stay | enter _ | draw _ _ | fail => exact hx

/-- A call that fails changes no arena and does not touch the counter. It fails because the parent
is not in the arena, or because a new block of ids does not fit any more. -/
theorem act_fails {p : Pool ι} {x : Action ι} {e : InferError} (h : (p.act x).1 = some e) :
    (∀ i, ((p.act x).2.sites i).arena = (p.sites i).arena) ∧ (p.act x).2.counter = p.counter
    ∧ (p.act x).2.returned = p.returned
    ∧ ((∃ i q signature, x = .enter i (some q) signature ∧ e = .unknownContext q
        ∧ ∀ c, (p.sites i).arena.context q ≠ .ok c)
      ∨ ∃ i, x = .draw i ∧ e = .idsExhausted
        ∧ (p.sites i).arena.nextId = (p.sites i).arena.blockEnd
        ∧ IdCounter.limit < p.counter.next + IdCounter.blockSize) := by
  cases x with
  | enter i parent signature =>
    simp only [act] at h ⊢
    split at h
    · simp at h
    · rename_i hpar
      simp only [Option.some.injEq] at h
      subst h
      obtain ⟨q, rfl, he, hq⟩ := Arena.checkParent_error hpar
      exact ⟨fun _ => rfl, rfl, rfl, .inl ⟨i, q, signature, rfl, he, hq⟩⟩
    · simp at h
  | draw i =>
    simp only [act] at h ⊢
    split at h
    · split at h
      · simp at h
      · rename_i ht
        simp only [Option.some.injEq] at h
        subst h
        obtain ⟨he, hw⟩ := Arena.takeId_error ht
        refine ⟨fun j => ?_, rfl, rfl, .inr ⟨i, rfl, he, hw⟩⟩
        by_cases hj : j = i
        · subst hj
          simp [put]
        · simp [put, hj]
    · simp at h
  | finish i =>
    simp only [act] at h
    split at h <;> simp at h

/-- Looking for the parent changes no arena and does not touch the counter. -/
theorem act_enter (p : Pool ι) (i : ι) (parent : Option ContextId) (signature : Option Signature) :
    (∀ j, ((p.act (.enter i parent signature)).2.sites j).arena = (p.sites j).arena)
    ∧ (p.act (.enter i parent signature)).2.counter = p.counter
    ∧ (p.act (.enter i parent signature)).2.returned = p.returned := by
  simp only [act]
  split
  · refine ⟨fun j => ?_, rfl, rfl⟩
    by_cases hj : j = i
    · rw [hj, put_sites_self]
    · rw [put_sites_of_ne _ hj]
  · exact ⟨fun _ => rfl, rfl, rfl⟩
  · exact ⟨fun _ => rfl, rfl, rfl⟩

/-- The actions of one call. -/
def call (i : ι) (parent : Option ContextId) (signature : Option Signature) : List (Action ι) :=
  [.enter i parent signature, .draw i, .finish i]

/-- A call that nothing interrupts is `newContext`. -/
theorem run_call_of_ok {p : Pool ι} {i : ι} {parent : Option ContextId}
    {signature : Option Signature} {id : ContextId} {arena : Arena} {counter : IdCounter}
    (hidle : (p.sites i).pending = none)
    (h : (p.sites i).arena.newContext p.counter parent signature = .ok (id, arena, counter)) :
    p.run (call i parent signature)
      = ⟨(p.put i ⟨arena, none⟩).sites, counter, (i, id) :: p.returned⟩ := by
  unfold Arena.newContext at h
  rcases hc : (p.sites i).arena.checkParent parent with e | u
  · simp [hc, bind, Except.bind] at h
  rcases ht : (p.sites i).arena.takeId p.counter with e | ⟨id', arena', counter'⟩
  · simp [hc, ht, bind, Except.bind] at h
  simp only [hc, ht, bind, Except.bind, pure, Except.pure, Except.ok.injEq, Prod.mk.injEq] at h
  obtain ⟨rfl, rfl, rfl⟩ := h
  simp [run, call, act, hidle, hc, put, ht]

theorem run_call_of_error {p : Pool ι} {i : ι} {parent : Option ContextId}
    {signature : Option Signature} {e : InferError} (hidle : (p.sites i).pending = none)
    (h : (p.sites i).arena.newContext p.counter parent signature = .error e) :
    p.run (call i parent signature) = p := by
  have hs : (⟨(p.sites i).arena, none⟩ : Site) = p.sites i := by
    rw [← hidle]
  unfold Arena.newContext at h
  rcases hc : (p.sites i).arena.checkParent parent with e' | u
  · simp [run, call, act, hidle, hc]
  rcases ht : (p.sites i).arena.takeId p.counter with e' | ⟨id', arena', counter'⟩
  · simp [run, call, act, hidle, hc, put, ht, hs]
  · simp [hc, ht, bind, Except.bind, pure, Except.pure] at h

/-! ### The ids that calls have drawn -/

/-- A call in the arena has drawn the id, whether or not it has returned yet. -/
def Drawn (p : Pool ι) (i : ι) (id : ContextId) : Prop :=
  (i, id) ∈ p.returned
    ∨ ∃ parent signature, (p.sites i).pending = some (.numbered id parent signature)

/-- The id that the call under way in an arena has drawn is new to the arena. -/
def PendingNew (p : Pool ι) (i : ι) : Prop :=
  ∀ id parent signature, (p.sites i).pending = some (.numbered id parent signature) →
    id ∉ p.log i

namespace Step

variable {p q : Pool ι}

/-- The next ids and blocks change in one arena, by `takeId`, or not at all. -/
theorem windows (h : p.Step q) :
    (q.counter = p.counter ∧ (∀ j, (q.sites j).arena.nextId = (p.sites j).arena.nextId)
      ∧ ∀ j, (q.sites j).arena.blockEnd = (p.sites j).arena.blockEnd)
    ∨ ∃ i id, (p.sites i).arena.takeId p.counter = .ok (id, (q.sites i).arena, q.counter)
      ∧ ∀ j, j ≠ i → (q.sites j).arena = (p.sites j).arena := by
  cases h with
  | stay => exact .inl ⟨rfl, fun _ => rfl, fun _ => rfl⟩
  | @draw i _ _ id arena _ _ ht =>
    refine .inr ⟨i, id, ?_, fun j hj => by rw [put_sites_of_ne _ hj]⟩
    rw [put_sites_self]
    exact ht
  | enter _ => exact .inl ⟨rfl, p.put_ids _ rfl rfl⟩
  | fail => exact .inl ⟨rfl, p.put_ids _ rfl rfl⟩
  | finish _ => exact .inl ⟨rfl, p.put_ids _ rfl rfl⟩

/-- A call that has drawn its id now had drawn it before, or draws it in this step. -/
theorem numbered (h : p.Step q) {i : ι} {id : ContextId} {parent : Option ContextId}
    {signature : Option Signature}
    (hs : (q.sites i).pending = some (.numbered id parent signature)) :
    ((p.sites i).pending = some (.numbered id parent signature) ∧ q.log i = p.log i)
    ∨ (p.sites i).arena.takeId p.counter = .ok (id, (q.sites i).arena, q.counter)
      ∧ q.returned = p.returned := by
  cases h with
  | stay => exact .inl ⟨hs, rfl⟩
  | @enter j _ _ _ =>
    by_cases hj : i = j
    · rw [hj, put_sites_self] at hs
      simp at hs
    · rw [put_sites_of_ne _ hj] at hs
      exact .inl ⟨hs, rfl⟩
  | @draw j _ _ _ arena _ _ ht =>
    by_cases hj : i = j
    · subst hj
      simp only [put_sites_self, Option.some.injEq, Creation.numbered.injEq] at hs ⊢
      obtain ⟨rfl, -, -⟩ := hs
      exact .inr ⟨ht, trivial⟩
    · simp only [put_sites_of_ne _ hj] at hs
      exact .inl ⟨hs, rfl⟩
  | @fail j =>
    by_cases hj : i = j
    · rw [hj, put_sites_self] at hs
      simp at hs
    · rw [put_sites_of_ne _ hj] at hs
      exact .inl ⟨hs, rfl⟩
  | @finish j _ _ _ _ =>
    by_cases hj : i = j
    · subst hj
      simp at hs
    · simp only [put_sites_of_ne _ hj] at hs
      exact .inl ⟨hs, by simp [log, Ne.symm hj]⟩

theorem returned (h : p.Step q) : q.returned = p.returned
    ∨ ∃ i id parent signature, (p.sites i).pending = some (.numbered id parent signature)
      ∧ q.returned = (i, id) :: p.returned := by
  cases h with
  | finish hpend => exact .inr ⟨_, _, _, _, hpend, rfl⟩
  | stay | enter _ | draw _ _ | fail => exact .inl rfl

theorem drawn (h : p.Step q) {i : ι} {id : ContextId} (hd : q.Drawn i id) :
    p.Drawn i id ∨ (p.sites i).arena.takeId p.counter = .ok (id, (q.sites i).arena, q.counter) := by
  rcases hd with hr | ⟨parent, signature, hs⟩
  · rcases h.returned with heq | ⟨j, x, parent, signature, hs, heq⟩
    · exact .inl (.inl (heq ▸ hr))
    · rw [heq] at hr
      rcases List.mem_cons.1 hr with he | hr
      · obtain ⟨rfl, rfl⟩ := Prod.mk.inj he
        exact .inl (.inr ⟨parent, signature, hs⟩)
      · exact .inl (.inl hr)
  · rcases h.numbered hs with ⟨hs, -⟩ | ⟨ht, -⟩
    · exact .inl (.inr ⟨parent, signature, hs⟩)
    · exact .inr ht

/-- A step draws one id in one arena, or none. -/
theorem ids (h : p.Step q) :
    (q.counter = p.counter ∧ (∀ j, (q.sites j).arena.nextId = (p.sites j).arena.nextId)
      ∧ (∀ j, (q.sites j).arena.blockEnd = (p.sites j).arena.blockEnd)
      ∧ ∀ j x, q.Drawn j x → p.Drawn j x)
    ∨ ∃ i id, (p.sites i).arena.takeId p.counter = .ok (id, (q.sites i).arena, q.counter)
      ∧ (∀ j, j ≠ i → (q.sites j).arena = (p.sites j).arena)
      ∧ ∀ j x, q.Drawn j x → p.Drawn j x ∨ j = i ∧ x = id := by
  rcases h.windows with ⟨hc, hn, hb⟩ | ⟨i, id, ht, hother⟩
  · refine .inl ⟨hc, hn, hb, fun j x hd => (h.drawn hd).resolve_right fun ht => ?_⟩
    rcases Arena.takeId_moves ht with hne | hne
    · exact hne (hn j)
    · exact hne (hb j)
  · refine .inr ⟨i, id, ht, hother, fun j x hd => ?_⟩
    rcases h.drawn hd with hd | ht'
    · exact .inl hd
    by_cases hj : j = i
    · subst hj
      rw [ht, Except.ok.injEq, Prod.mk.injEq] at ht'
      exact .inr ⟨rfl, ht'.1.symm⟩
    · rw [hother j hj] at ht'
      rcases Arena.takeId_moves ht' with hne | hne
      · exact absurd rfl hne
      · exact absurd rfl hne

theorem pendingNew (h : p.Step q) {i : ι} (hp : p.PendingNew i)
    (hnew : ∀ id arena counter, (p.sites i).arena.takeId p.counter = .ok (id, arena, counter) →
      ¬ p.Drawn i id) : q.PendingNew i := by
  intro id parent signature hs
  rcases h.numbered hs with ⟨hs, hlog⟩ | ⟨ht, hreturned⟩
  · rw [hlog]
    exact hp id _ _ hs
  · intro hmem
    rw [mem_log_iff, hreturned] at hmem
    exact hnew _ _ _ ht (.inl hmem)

end Step

/-! ### The contexts of one arena -/

namespace Step

variable {p q : Pool ι}

/-- In each arena a step leaves contexts and log alone, or finishes a call. -/
theorem contexts (h : p.Step q) (i : ι) :
    ((q.sites i).arena.contexts = (p.sites i).arena.contexts ∧ q.log i = p.log i)
    ∨ ∃ id parent signature, (p.sites i).pending = some (.numbered id parent signature)
      ∧ (q.sites i).arena = (p.sites i).arena.insert id (.fresh id parent signature)
      ∧ q.log i = id :: p.log i := by
  cases h with
  | stay => exact .inl ⟨rfl, rfl⟩
  | @enter j _ _ _ =>
    refine .inl ⟨?_, rfl⟩
    by_cases hj : i = j
    · rw [hj, put_sites_self]
    · rw [put_sites_of_ne _ hj]
  | @draw j _ _ _ arena _ _ ht =>
    refine .inl ⟨?_, rfl⟩
    by_cases hj : i = j
    · rw [hj, put_sites_self]
      exact Arena.takeId_contexts ht
    · rw [put_sites_of_ne _ hj]
  | @fail j =>
    refine .inl ⟨?_, rfl⟩
    by_cases hj : i = j
    · rw [hj, put_sites_self]
    · rw [put_sites_of_ne _ hj]
  | @finish j id parent signature hpend =>
    by_cases hj : i = j
    · subst hj
      exact .inr ⟨id, parent, signature, hpend, by rw [put_sites_self], by simp [log]⟩
    · exact .inl ⟨by rw [put_sites_of_ne _ hj], by simp [log, Ne.symm hj]⟩

/-- The parent of the call under way was looked for in this step, or before it. -/
theorem parent (h : p.Step q) {i : ι} {x : Creation} {r : ContextId}
    (hx : (q.sites i).pending = some x) (hr : x.parent = some r) :
    (∃ c, (p.sites i).arena.context r = .ok c)
    ∨ ∃ y, (p.sites i).pending = some y ∧ y.parent = some r := by
  cases h with
  | stay => exact .inr ⟨x, hx, hr⟩
  | @enter j parent signature hpar =>
    by_cases hj : i = j
    · rw [hj, put_sites_self, Option.some.injEq] at hx
      subst hj hx
      exact .inl (hpar r hr)
    · rw [put_sites_of_ne _ hj] at hx
      exact .inr ⟨x, hx, hr⟩
  | @draw j parent signature _ _ _ hpend _ =>
    by_cases hj : i = j
    · simp only [hj, put_sites_self, Option.some.injEq] at hx
      subst hj hx
      exact .inr ⟨_, hpend, hr⟩
    · simp only [put_sites_of_ne _ hj] at hx
      exact .inr ⟨x, hx, hr⟩
  | @fail j =>
    by_cases hj : i = j
    · simp [hj] at hx
    · rw [put_sites_of_ne _ hj] at hx
      exact .inr ⟨x, hx, hr⟩
  | @finish j _ _ _ _ =>
    by_cases hj : i = j
    · simp [hj] at hx
    · simp only [put_sites_of_ne _ hj] at hx
      exact .inr ⟨x, hx, hr⟩

end Step

/-- An arena keeps a context under every id that it has one under. -/
theorem exists_context_run {p : Pool ι} {i : ι} {id : ContextId}
    (h : ∃ c, (p.sites i).arena.context id = .ok c) (actions : List (Action ι)) :
    ∃ c, ((p.run actions).sites i).arena.context id = .ok c := by
  refine run_induction (P := fun p => ∃ c, (p.sites i).arena.context id = .ok c)
    (fun p q hstep hc => ?_) actions p h
  rcases hstep.contexts i with ⟨heq, -⟩ | ⟨new, parent, signature, -, heq, -⟩
  · simpa only [Arena.context_congr heq] using hc
  · rw [heq]
    by_cases hid : new = id
    · subst hid
      exact ⟨_, Arena.context_insert_self ..⟩
    · rwa [Arena.context_insert_of_ne _ hid]

/-- An arena of the pool is grown along the ids that its calls have returned, and the parent of the
call under way is among them. -/
structure Housed (p : Pool ι) (i : ι) : Prop where
  grown : (p.sites i).arena.Grown (p.log i)
  parent_mem : ∀ x q, (p.sites i).pending = some x → x.parent = some q → q ∈ p.log i

theorem Housed.step {p q : Pool ι} {i : ι} (h : p.Housed i) (hnew : p.PendingNew i)
    (hstep : p.Step q) : q.Housed i := by
  have hmem : ∀ r, r ∈ p.log i → r ∈ q.log i := by
    rcases hstep.contexts i with ⟨-, heq⟩ | ⟨_, _, _, -, -, heq⟩ <;> rw [heq]
    · exact fun r hr => hr
    · exact fun r hr => List.mem_cons_of_mem _ hr
  constructor
  · rcases hstep.contexts i with ⟨heq, hlog⟩ | ⟨id, parent, signature, hs, heq, hlog⟩
    · rw [hlog]
      exact h.grown.congr heq
    · rw [hlog, heq]
      exact h.grown.insert rfl (hnew _ _ _ hs) fun r hr => h.parent_mem _ r hs hr
  · intro x r hx hr
    rcases hstep.parent hx hr with hc | ⟨y, hy, hyr⟩
    · exact hmem r ((h.grown.mem_iff r).2 hc)
    · exact hmem r (h.parent_mem y r hy hyr)

/-- A step takes no context away from an arena, and changes none, as long as new ids are new. -/
theorem Housed.context_step {p q : Pool ι} {i : ι} (h : p.Housed i) (hnew : p.PendingNew i)
    (hstep : p.Step q) {id : ContextId} {c : Context} (hc : (p.sites i).arena.context id = .ok c) :
    (q.sites i).arena.context id = .ok c := by
  rcases hstep.contexts i with ⟨heq, -⟩ | ⟨new, parent, signature, hs, heq, -⟩
  · rwa [Arena.context_congr heq]
  · have hne : new ≠ id := by
      rintro rfl
      exact hnew _ _ _ hs ((h.grown.mem_iff new).2 ⟨c, hc⟩)
    rwa [heq, Arena.context_insert_of_ne _ hne]

end Pool

end ScopedInference
