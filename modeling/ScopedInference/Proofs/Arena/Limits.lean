import ScopedInference.Arena.Operations
import ScopedInference.Proofs.Registration.OwnerChain

/-!
# The depth limit

Registrations, replacements and the searches along owners call themselves, and each call counts how
deep it is. What stops them is the count alone: a call that is deeper than the limit fails at once,
so none is ever made that is deeper by more than one, whatever the arena looks like (`counted_eq`,
`Bounded`).

A call that is not stopped does not read the limit. So with a higher limit it does and answers the
same (`register_simulates`, `replaceWithin_limited`, `seekOwner_limited`, `follow_limited`).
-/

namespace ScopedInference

/-! ### Calls that count -/

section

variable {X Y : Type} (body : (X → Y) → X → Y) (stop : X → Y)

/-- Calls nested at most `n` levels: the one after that stops. -/
def nestedWithin : Nat → X → Y
  | 0, x => stop x
  | n + 1, x => body (nestedWithin n) x

/-- Calls that carry their depth and stop where it is above a limit. Nothing is said of the calls
that are nested `n` levels within the first one: they do what `beyond` does. -/
def counted (limit : Nat) (beyond : X → Y) : Nat → Nat → X → Y
  | 0, _, x => beyond x
  | n + 1, depth, x =>
    if limit < depth then stop x else body (counted limit beyond n (depth + 1)) x

/-- No call is more than one level deeper than the limit: what such a call would do does not
matter. -/
theorem counted_eq {limit : Nat} (beyond : X → Y) : ∀ {n depth : Nat}, depth ≤ limit + 1 →
    limit + 1 < n + depth →
    counted body stop limit beyond n depth = nestedWithin body stop (limit + 1 - depth)
  | 0, depth, hdepth, hn => by omega
  | n + 1, depth, hdepth, hn => by
    funext x
    rw [counted]
    split
    · rw [show limit + 1 - depth = 0 by omega, nestedWithin]
    · rw [show limit + 1 - depth = (limit + 1 - (depth + 1)) + 1 by omega, nestedWithin,
        counted_eq beyond (by omega) (by omega)]

end

namespace Arena

/-- The same arena with another limit. -/
def limited (a : Arena) (limit : Nat) : Arena := { a with maxDepth := limit }

/-! ### Stopping -/

/-- One call of a replacement, given the calls that it makes. -/
def replaceStep (operation value : TypeExpr) (recur : ContextId → EStateM InferError Arena Unit)
    (id : ContextId) : EStateM InferError Arena Unit := do
  let c ← MonadExcept.ofExcept ((← get).context id)
  (c.current.boundTo operation).forM fun (name, b) => do
    set (← MonadExcept.ofExcept ((← get).modifyCurrent id (·.bind name (.terminal value id))))
    if b.owner ≠ id then recur b.owner

/-- One owner on the way to the one that an operation belongs to. -/
def seekStep (a : Arena) (operation : TypeExpr) (recur : ContextId → Except InferError ContextId)
    (here : ContextId) : Except InferError ContextId := do
  match (← a.context here).current.boundTo operation with
  | [] => return here
  | (_, b) :: _ => if b.owner = here then return here else recur b.owner

/-- One hop. -/
def followStep {α : Type} [Bindable α] (a : Arena)
    (recur : ContextId × Binding α → Except InferError α) (s : ContextId × Binding α) :
    Except InferError α := do
  match ← a.hop? s.1 s.2 with
  | none => return s.2.value
  | some next => recur (s.2.owner, next)

/-- The call that would be one too many. -/
def followStop {α : Type} [Bindable α] (a : Arena) (_ : ContextId × Binding α) :
    Except InferError α :=
  .error (.depthExceeded a.maxDepth)

theorem register_eq :
    Registration.register = nestedWithin Registration.step (Registration.register 0) := by
  funext n
  induction n with
  | zero => rfl
  | succ n ih =>
    funext q
    rw [Registration.register, nestedWithin, ih]

theorem replaceWithin_eq (operation value : TypeExpr) : replaceWithin operation value
    = nestedWithin (replaceStep operation value) (replaceWithin operation value 0) := by
  funext n
  induction n with
  | zero => rfl
  | succ n ih =>
    funext id
    rw [replaceWithin, nestedWithin, ih]
    rfl

theorem seekOwner_eq (a : Arena) (operation : TypeExpr) : a.seekOwner operation
    = nestedWithin (a.seekStep operation) (a.seekOwner operation 0) := by
  funext n
  induction n with
  | zero => rfl
  | succ n ih =>
    funext id
    rw [seekOwner, nestedWithin, ih]
    rfl

theorem follow_eq_nestedWithin {α : Type} [Bindable α] (a : Arena) (n : Nat) (here : ContextId)
    (b : Binding α) :
    a.follow n here b = nestedWithin a.followStep a.followStop (n + 1) (here, b) := by
  induction n generalizing here b with
  | zero =>
    rw [nestedWithin, followStep, follow]
    rcases a.hop? here b with e | _ | next <;> rfl
  | succ n ih =>
    rw [nestedWithin, followStep, follow]
    rcases a.hop? here b with e | _ | next
    · rfl
    · rfl
    · exact ih b.owner next

/-- Resolution whose hops are counted. -/
def resolveCounted {α : Type} [Bindable α] (a : Arena)
    (beyond : ContextId × Binding α → Except InferError α) (n : Nat) (id : ContextId)
    (name : String) : Except InferError (Option α) := do
  match ← a.binding? id name with
  | none => return none
  | some b => return some (← counted a.followStep a.followStop a.maxDepth beyond n 0 (id, b))

theorem resolveCounted_eq {α : Type} [Bindable α] (a : Arena)
    (beyond : ContextId × Binding α → Except InferError α) {n : Nat} (hn : a.maxDepth + 2 ≤ n) :
    a.resolveCounted beyond n = a.resolveParameter := by
  funext id name
  have hfollow : ∀ b, counted a.followStep a.followStop a.maxDepth beyond n 0 (id, b)
      = a.follow a.maxDepth id b := by
    intro b
    rw [follow_eq_nestedWithin, counted_eq _ _ beyond (Nat.zero_le _) (by omega), Nat.sub_zero]
  unfold resolveCounted resolveParameter
  rcases a.binding? id name with e | _ | b
  · rfl
  · rfl
  · exact congrArg (· >>= fun v => pure (some v)) (hfollow b)

/-- However deep the calls are followed that an operation makes, and whatever the calls beyond would
do: from two levels above the limit on they come to what the operation does. -/
structure Bounded (a : Arena) : Prop where
  register : ∀ beyond k, a.maxDepth + 2 ≤ k → ∀ q,
    counted Registration.step (Registration.register 0) a.maxDepth beyond k 0 q { arena := a }
      = a.register q
  replace : ∀ beyond k, a.maxDepth + 2 ≤ k → ∀ id operation value,
    counted (replaceStep operation value) (replaceWithin operation value 0) a.maxDepth beyond k 0
      id a = Arena.replace id operation value a
  operationOwner : ∀ beyond k, a.maxDepth + 2 ≤ k → ∀ id operation,
    counted (a.seekStep operation) (a.seekOwner operation 0) a.maxDepth beyond k 0 id
      = a.operationOwner id operation
  types : ∀ (beyond : _ → Except InferError TypeExpr) k, a.maxDepth + 2 ≤ k →
    a.resolveCounted beyond k = a.resolveParameter
  muls : ∀ (beyond : _ → Except InferError Multiplicity) k, a.maxDepth + 2 ≤ k →
    a.resolveCounted beyond k = a.resolveParameter

theorem bounded (a : Arena) : a.Bounded where
  register beyond k hk q := by
    rw [counted_eq _ _ beyond (Nat.zero_le _) (by omega), ← register_eq]
    rfl
  replace beyond k hk id operation value := by
    rw [counted_eq _ _ beyond (Nat.zero_le _) (by omega), ← replaceWithin_eq]
    rfl
  operationOwner beyond k hk id operation := by
    rw [counted_eq _ _ beyond (Nat.zero_le _) (by omega), ← seekOwner_eq]
    rfl
  types beyond _ hk := a.resolveCounted_eq beyond hk
  muls beyond _ hk := a.resolveCounted_eq beyond hk

/-! ### Raising the limit -/

/-- A run is like one that differs in the limit. -/
theorem limitedLikeness (limit : Nat) : Registration.Likeness fun r r' =>
    r' = { r with arena := r.arena.limited limit } where
  record e h := by rw [h]; rfl
  context h id := by rw [h]; rfl
  hierarchy h := by rw [h]; rfl
  insert id c h := by rw [h]; rfl

/-- What an action does that succeeds, another one does where the limit is different. -/
def LimitFree (limit : Nat) {α : Type} (act act' : EStateM InferError Arena α) : Prop :=
  ∀ a x b, act a = .ok x b → act' (a.limited limit) = .ok x (b.limited limit)

namespace LimitFree

variable {limit : Nat} {α β : Type}

theorem bind {act act' : EStateM InferError Arena α} {f f' : α → EStateM InferError Arena β}
    (h : LimitFree limit act act') (hf : ∀ x, LimitFree limit (f x) (f' x)) :
    LimitFree limit (act >>= f) (act' >>= f') := by
  intro a y b hok
  obtain ⟨x, a', hact, hfx⟩ := RunM.bind_eq_ok.1 hok
  exact RunM.bind_eq_ok.2 ⟨x, a'.limited limit, h a x a' hact, hf x a' y b hfx⟩

theorem pure (x : α) : LimitFree limit (pure x : EStateM InferError Arena α) (pure x) := by
  intro a y b hok
  cases hok
  rfl

theorem forM {f f' : α → EStateM InferError Arena Unit} (hf : ∀ x, LimitFree limit (f x) (f' x)) :
    ∀ l : List α, LimitFree limit (l.forM f) (l.forM f')
  | [] => pure ()
  | x :: l => bind (hf x) fun _ => forM hf l

theorem ofExcept_eq_ok {e : Except InferError α} {a b : Arena} {x : α} :
    (MonadExcept.ofExcept e : EStateM InferError Arena α) a = .ok x b ↔ e = .ok x ∧ b = a := by
  rcases e with e | y
  · exact ⟨nofun, nofun⟩
  · show EStateM.Result.ok y a = .ok x b ↔ _
    simp [eq_comm]

theorem read_eq_ok {g : Arena → Except InferError α} {f : α → EStateM InferError Arena β}
    {a b : Arena} {y : β} : (do f (← MonadExcept.ofExcept (g (← get)))) a = .ok y b
      ↔ ∃ x, g a = .ok x ∧ f x a = .ok y b := by
  constructor
  · intro hok
    obtain ⟨_, _, hget, hrest⟩ := RunM.bind_eq_ok.1 hok
    cases hget
    obtain ⟨x, _, hread, hfx⟩ := RunM.bind_eq_ok.1 hrest
    obtain ⟨hx, rfl⟩ := ofExcept_eq_ok.1 hread
    exact ⟨x, hx, hfx⟩
  · rintro ⟨x, hx, hfx⟩
    exact RunM.bind_eq_ok.2 ⟨_, _, rfl, RunM.bind_eq_ok.2
      ⟨x, _, ofExcept_eq_ok.2 ⟨hx, rfl⟩, hfx⟩⟩

theorem write_eq_ok {g : Arena → Except InferError Arena} {f : EStateM InferError Arena β}
    {a b : Arena} {y : β} : (do set (← MonadExcept.ofExcept (g (← get))); f) a = .ok y b
      ↔ ∃ c, g a = .ok c ∧ f c = .ok y b :=
  read_eq_ok.trans (exists_congr fun _ => Iff.rfl)

/-- What is read does not depend on the limit. -/
theorem read {g : Arena → Except InferError α} (hg : ∀ a : Arena, g (a.limited limit) = g a)
    {f f' : α → EStateM InferError Arena β} (hf : ∀ x, LimitFree limit (f x) (f' x)) :
    LimitFree limit (do f (← MonadExcept.ofExcept (g (← get))))
      (do f' (← MonadExcept.ofExcept (g (← get)))) := by
  intro a y b hok
  obtain ⟨x, hx, hfx⟩ := read_eq_ok.1 hok
  exact read_eq_ok.2 ⟨x, (hg a).trans hx, hf x a y b hfx⟩

/-- A change that does not touch the limit. -/
theorem write {g : Arena → Except InferError Arena}
    (hg : ∀ a : Arena, g (a.limited limit) = (g a).map (·.limited limit))
    {f f' : EStateM InferError Arena β} (hf : LimitFree limit f f') :
    LimitFree limit (do set (← MonadExcept.ofExcept (g (← get))); f)
      (do set (← MonadExcept.ofExcept (g (← get))); f') := by
  intro a y b hok
  obtain ⟨c, hc, hf'⟩ := write_eq_ok.1 hok
  exact write_eq_ok.2 ⟨c.limited limit, by rw [hg, hc]; rfl, hf c y b hf'⟩

end LimitFree

theorem modify_limited (a : Arena) (limit : Nat) (id : ContextId) (f : Context → Context) :
    (a.limited limit).modify id f = (a.modify id f).map (·.limited limit) := by
  show (do return (a.limited limit).insert id (f (← a.context id)) : Except InferError Arena) = _
  unfold modify
  rcases a.context id with e | c <;> rfl

theorem replaceWithin_limited (operation value : TypeExpr) (limit : Nat) : ∀ {m n : Nat}, m ≤ n →
    ∀ id, LimitFree limit (replaceWithin operation value m id) (replaceWithin operation value n id)
  | 0, _, _, id => by
    intro a x b hok
    cases hok
  | m + 1, n + 1, h, id => by
    refine LimitFree.read (fun _ => rfl) fun c => LimitFree.forM (fun (name, b) => ?_) _
    refine LimitFree.write (fun a => modify_limited a limit id _) ?_
    split
    · exact replaceWithin_limited operation value limit (Nat.le_of_succ_le_succ h) b.owner
    · exact LimitFree.pure ()

theorem seekOwner_limited (a : Arena) (limit : Nat) (operation : TypeExpr) : ∀ {m n : Nat}, m ≤ n →
    ∀ id owner, a.seekOwner operation m id = .ok owner →
      (a.limited limit).seekOwner operation n id = .ok owner
  | 0, _, _, id, owner, hok => by cases hok
  | m + 1, n + 1, h, id, owner, hok => by
    simp only [seekOwner, show (a.limited limit).context id = a.context id from rfl] at hok ⊢
    rcases hc : a.context id with e | c <;> rw [hc] at hok
    · cases hok
    simp only [bind, Except.bind] at hok ⊢
    split <;> rename_i hmatches <;> rw [hmatches] at hok
    · exact hok
    · rename_i b _
      dsimp only at hok
      split <;> rename_i howner
      · rwa [if_pos howner] at hok
      · rw [if_neg howner] at hok
        exact seekOwner_limited a limit operation (Nat.le_of_succ_le_succ h) b.owner owner hok

section

variable {α : Type} [Bindable α]

theorem follow_limited (a : Arena) (limit : Nat) {m n : Nat} (h : m ≤ n) (here : ContextId)
    (b : Binding α) (v : α) (hok : a.follow m here b = .ok v) :
    (a.limited limit).follow n here b = .ok v := by
  have hhop : (a.limited limit).hop? here b = a.hop? here b := rfl
  induction m generalizing n here b with
  | zero =>
    rw [follow] at hok ⊢
    rw [hhop]
    rcases ha : a.hop? here b with e | _ | next <;> rw [ha] at hok
    · cases hok
    · exact hok
    · cases hok
  | succ m ih =>
    obtain ⟨n, rfl⟩ : ∃ k, n = k + 1 := ⟨n - 1, by omega⟩
    rw [follow] at hok ⊢
    rw [hhop]
    rcases ha : a.hop? here b with e | _ | next <;> rw [ha] at hok
    · cases hok
    · exact hok
    · exact ih (Nat.le_of_succ_le_succ h) b.owner next hok rfl

theorem resolveParameter_limited (a : Arena) {m n : Nat} (h : m ≤ n) (id : ContextId)
    (name : String) (v? : Option α) (hok : (a.limited m).resolveParameter id name = .ok v?) :
    (a.limited n).resolveParameter id name = .ok v? := by
  simp only [resolveParameter,
    show ((a.limited m).binding? id name : Except _ (Option (Binding α))) = a.binding? id name
      from rfl,
    show ((a.limited n).binding? id name : Except _ (Option (Binding α))) = a.binding? id name
      from rfl] at hok ⊢
  rcases hb : (a.binding? id name : Except _ (Option (Binding α))) with e | _ | b <;>
    rw [hb] at hok
  · cases hok
  · exact hok
  · simp only [bind, Except.bind] at hok ⊢
    rcases hfollow : (a.limited m).follow (a.limited m).maxDepth id b with e | v <;>
      rw [hfollow] at hok
    · cases hok
    · rw [show (a.limited n).follow (a.limited n).maxDepth id b = .ok v from
        follow_limited (a.limited m) n h id b v hfollow]
      exact hok

end

/-- Whatever an arena answers with one limit, it answers with another one, and comes to the same but
for the limit. -/
structure AnswersAlike (a : Arena) (m n : Nat) : Prop where
  register : ∀ q s, (a.limited m).register q = .ok () s →
    (a.limited n).register q = .ok () { s with arena := s.arena.limited n }
  replace : ∀ id operation value b, Arena.replace id operation value (a.limited m) = .ok () b →
    Arena.replace id operation value (a.limited n) = .ok () (b.limited n)
  operationOwner : ∀ id operation owner, (a.limited m).operationOwner id operation = .ok owner →
    (a.limited n).operationOwner id operation = .ok owner
  types : ∀ id name (v? : Option TypeExpr), (a.limited m).resolveParameter id name = .ok v? →
    (a.limited n).resolveParameter id name = .ok v?
  muls : ∀ id name (v? : Option Multiplicity), (a.limited m).resolveParameter id name = .ok v? →
    (a.limited n).resolveParameter id name = .ok v?

end Arena

/-- A higher limit keeps every answer: what succeeds under the lower one has the same result under
the higher one, with the same events and the same arena but for the limit. And under every limit the
calls that an operation makes stop on their own, at most one level above it. -/
theorem raise_limit {m n : Nat} (h : m ≤ n) (a : Arena) : a.AnswersAlike m n ∧ a.Bounded where
  left := {
    register := fun q s hok => by
      obtain ⟨s', hs', rfl⟩ := Registration.register_simulates (Arena.limitedLikeness n)
        (Nat.succ_le_succ h) q _ { arena := a.limited n } () s rfl hok
      exact hs'
    replace := fun id operation value b hok =>
      Arena.replaceWithin_limited operation value n (Nat.succ_le_succ h) id (a.limited m) () b hok
    operationOwner := fun id operation owner hok =>
      Arena.seekOwner_limited (a.limited m) n operation (Nat.succ_le_succ h) id owner hok
    types := Arena.resolveParameter_limited a h
    muls := Arena.resolveParameter_limited a h }
  right := a.bounded

/-- A fact that one link is followed for. -/
theorem raise_limit_linkedPair :
    ∃ s, (Arena.linkedPair.limited 1).register
        (.type 2 (.param ⟨"T", .covariant⟩) (some (.atom "Date")) 2 false) = .ok () s
      ∧ (Arena.linkedPair.limited 256).register
        (.type 2 (.param ⟨"T", .covariant⟩) (some (.atom "Date")) 2 false)
          = .ok () { s with arena := s.arena.limited 256 } := by
  obtain ⟨s, hs⟩ : ∃ s, (Arena.linkedPair.limited 1).register
      (.type 2 (.param ⟨"T", .covariant⟩) (some (.atom "Date")) 2 false) = .ok () s := ⟨_, rfl⟩
  exact ⟨s, hs, (raise_limit (by decide : 1 ≤ 256) Arena.linkedPair).1.register _ s hs⟩

end ScopedInference
