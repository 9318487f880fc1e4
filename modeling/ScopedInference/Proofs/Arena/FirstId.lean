import Mathlib.Data.List.Induction
import Mathlib.Tactic.TFAE
import ScopedInference.Proofs.Arena.Pool

/-!
# Arenas that choose their first id

The first block of such an arena is not taken from the counter, so a shared block may hold ids of
it. `IdCounter.reach` bounds the ids that shared blocks can still hold. If they do not meet the
first block, no run hands an id of the arena out again, whatever other arenas do (`Unmet`). If they
meet it, calls of the arena alone come to an id a second time (`exists_redrawn`); a context that is
made below that id then becomes its own parent. Both together are `first_block_unmet_tfae`.
-/

namespace ScopedInference

namespace IdCounter

/-- One past the last id that the blocks still to come can hold. -/
def reach (k : IdCounter) : ContextId := k.next + blockSize * ((limit - k.next) / blockSize)

theorem next_add_le_reach {k : IdCounter} (h : k.next + blockSize ≤ limit) :
    k.next + blockSize ≤ k.reach := by
  have hq : 1 ≤ (limit - k.next) / blockSize := by
    rw [Nat.le_div_iff_mul_le (by decide)]
    exact Nat.le_sub_of_add_le (by rwa [Nat.one_mul, Nat.add_comm])
  exact Nat.add_le_add_left (Nat.le_mul_of_pos_right _ hq) _

/-- Taking a block leaves open which ids are within reach. -/
theorem reach_takeBlock {k : IdCounter} (h : k.next + blockSize ≤ limit) :
    reach ⟨k.next + blockSize⟩ = k.reach := by
  have hq : (limit - k.next) / blockSize = (limit - (k.next + blockSize)) / blockSize + 1 := by
    rw [← Nat.sub_sub, ← Nat.add_div_right _ (by decide : 0 < blockSize),
      Nat.sub_add_cancel (Nat.le_sub_of_add_le (by rwa [Nat.add_comm]))]
  unfold reach
  rw [hq, Nat.mul_succ, Nat.add_assoc, Nat.add_comm blockSize]

theorem reach_le {k : IdCounter} (h : k.next ≤ limit) : k.reach ≤ limit := by
  have hm := Nat.mul_div_le (limit - k.next) blockSize
  calc k.reach ≤ k.next + (limit - k.next) := Nat.add_le_add_left hm _
    _ = limit := Nat.add_sub_cancel' h

end IdCounter

namespace Pool

variable {ι : Type} [DecidableEq ι]

/-! ### No shared block meets the first one -/

/-- Neither the rest of the arena's block nor an id that it has drawn is within the counter's reach,
and the rest of the block has not been drawn. -/
structure Unmet (p : Pool ι) (i : ι) : Prop where
  window : ∀ id, (p.sites i).arena.nextId ≤ id → id < (p.sites i).arena.blockEnd →
    id < p.counter.next ∨ p.counter.reach ≤ id
  drawn : ∀ id, p.Drawn i id → id < p.counter.next ∨ p.counter.reach ≤ id
  drawn_outside : ∀ id, p.Drawn i id →
    id < (p.sites i).arena.nextId ∨ (p.sites i).arena.blockEnd ≤ id
  nextId_le : (p.sites i).arena.nextId ≤ (p.sites i).arena.blockEnd
  pendingNew : p.PendingNew i

namespace Unmet

variable {p q : Pool ι} {i : ι}

theorem not_drawn (h : p.Unmet i) {id : ContextId} {arena : Arena} {counter : IdCounter}
    (ht : (p.sites i).arena.takeId p.counter = .ok (id, arena, counter)) : ¬ p.Drawn i id := by
  intro hd
  rcases Arena.takeId_cases ht with ⟨hne, rfl, -, -⟩ | ⟨-, hl, rfl, -, -⟩
  · rcases h.drawn_outside _ hd with hlt | hge
    · exact absurd hlt (Nat.lt_irrefl _)
    · exact hne (Nat.le_antisymm h.nextId_le hge)
  · have hreach := IdCounter.next_add_le_reach hl
    rcases h.drawn _ hd with hlt | hge
    · exact absurd hlt (Nat.lt_irrefl _)
    · exact absurd (Nat.le_trans hreach hge)
        (Nat.not_le_of_lt (Nat.lt_add_of_pos_right (by decide)))

/-- A step in the arena itself that draws an id. -/
theorem draw (h : p.Unmet i) {id : ContextId}
    (ht : (p.sites i).arena.takeId p.counter = .ok (id, (q.sites i).arena, q.counter))
    (hdrawn : ∀ x, q.Drawn i x → p.Drawn i x ∨ x = id) (hpending : q.PendingNew i) :
    q.Unmet i := by
  have hnext := h.nextId_le
  rcases Arena.takeId_cases ht with ⟨hne, hid, harena, hc⟩ | ⟨-, hl, hid, harena, hc⟩
  · have hlt : id < (p.sites i).arena.blockEnd := hid ▸ Nat.lt_of_le_of_ne hnext hne
    constructor
    · intro x hx hxe
      rw [harena] at hx hxe
      rw [hc]
      exact h.window x (Nat.le_of_succ_le hx) hxe
    · intro x hd
      rw [hc]
      rcases hdrawn x hd with hd | rfl
      · exact h.drawn x hd
      · exact h.window x (Nat.le_of_eq hid.symm) hlt
    · intro x hd
      rw [harena]
      rcases hdrawn x hd with hd | rfl
      · exact (h.drawn_outside x hd).imp_left Nat.lt_succ_of_lt
      · exact .inl (hid ▸ Nat.lt_succ_self x)
    · rw [harena, ← hid]
      exact hlt
    · exact hpending
  · have hreach := IdCounter.next_add_le_reach hl
    have hid' : id < id + IdCounter.blockSize := Nat.lt_add_of_pos_right (by decide)
    constructor
    · intro x hx hxe
      rw [harena] at hxe
      rw [hc]
      exact .inl hxe
    · intro x hd
      rw [hc, IdCounter.reach_takeBlock hl]
      rcases hdrawn x hd with hd | rfl
      · exact (h.drawn x hd).imp_left fun hx => Nat.lt_of_lt_of_le hx (Nat.le_add_right _ _)
      · exact .inl (hid ▸ hid')
    · intro x hd
      rw [harena]
      rcases hdrawn x hd with hd | rfl
      · exact (h.drawn x hd).imp Nat.lt_succ_of_lt (Nat.le_trans hreach)
      · exact .inl (hid ▸ Nat.lt_succ_self x)
    · rw [harena, ← hid]
      exact hid'
    · exact hpending

theorem step (h : p.Unmet i) (hstep : p.Step q) : q.Unmet i := by
  have hpending : q.PendingNew i := hstep.pendingNew h.pendingNew fun _ _ _ ht => h.not_drawn ht
  rcases hstep.ids with ⟨hc, hn, hb, hd⟩ | ⟨j, id, ht, hother, hdrawn⟩
  · constructor
    · simpa only [hc, hn, hb] using h.window
    · simpa only [hc] using fun x hx => h.drawn x (hd i x hx)
    · simpa only [hn, hb] using fun x hx => h.drawn_outside x (hd i x hx)
    · simpa only [hn, hb] using h.nextId_le
    · exact hpending
  by_cases hj : i = j
  · subst hj
    exact h.draw ht (fun x hx => (hdrawn i x hx).imp_right And.right) hpending
  -- another arena draws; the counter may go on, within its reach
  have hmono : p.counter.next ≤ q.counter.next ∧ q.counter.reach = p.counter.reach := by
    rcases Arena.takeId_cases ht with ⟨-, -, -, hc⟩ | ⟨-, hl, -, -, hc⟩
    · exact ⟨hc ▸ Nat.le_refl _, hc ▸ rfl⟩
    · exact ⟨hc ▸ Nat.le_add_right _ _, hc ▸ IdCounter.reach_takeBlock hl⟩
  have hd : ∀ x, q.Drawn i x → p.Drawn i x := fun x hx =>
    (hdrawn i x hx).resolve_right fun hx => hj hx.1
  constructor
  · intro x hx hxe
    rw [hother i hj] at hx hxe
    rw [hmono.2]
    exact (h.window x hx hxe).imp_left fun hx => Nat.lt_of_lt_of_le hx hmono.1
  · intro x hx
    rw [hmono.2]
    exact (h.drawn x (hd x hx)).imp_left fun hx => Nat.lt_of_lt_of_le hx hmono.1
  · rw [hother i hj]
    exact fun x hx => h.drawn_outside x (hd x hx)
  · rw [hother i hj]
    exact h.nextId_le
  · exact hpending

end Unmet

/-! ### A shared block meets the first one -/

/-- A call that is not interrupted, below a context that is there. -/
theorem run_call {p : Pool ι} {i : ι} (parent : Option ContextId) (signature : Option Signature)
    {id : ContextId} {arena : Arena} {counter : IdCounter} (hidle : (p.sites i).pending = none)
    (hparent : ∀ q, parent = some q → ∃ c, (p.sites i).arena.context q = .ok c)
    (ht : (p.sites i).arena.takeId p.counter = .ok (id, arena, counter)) :
    p.run (call i parent signature)
      = ⟨(p.put i ⟨arena.insert id (.fresh id parent signature), none⟩).sites, counter,
        (i, id) :: p.returned⟩ := by
  refine run_call_of_ok hidle ?_
  have hcheck : (p.sites i).arena.checkParent parent = .ok () := by
    rcases parent with _ | q
    · rfl
    · obtain ⟨c, hc⟩ := hparent q rfl
      simp only [Arena.checkParent, hc, Except.map]
  simp only [Arena.newContext, hcheck, ht, bind, Except.bind, pure, Except.pure]

/-- What a call for a parentless context leaves to be drawn next. -/
theorem run_call_ids {p : Pool ι} {i : ι} {id : ContextId} {arena : Arena} {counter : IdCounter}
    (hidle : (p.sites i).pending = none)
    (ht : (p.sites i).arena.takeId p.counter = .ok (id, arena, counter)) :
    let q := p.run (call i none none)
    (q.sites i).pending = none ∧ (q.sites i).arena.nextId = arena.nextId
      ∧ (q.sites i).arena.blockEnd = arena.blockEnd ∧ q.counter = counter := by
  intro q
  have hq : q = _ := run_call none none hidle (by simp) ht
  simp [hq, Arena.insert]

/-- Calls can use up the block as far as one likes. -/
theorem exists_run_nextId {i : ι} : ∀ (n : Nat) (p : Pool ι), (p.sites i).pending = none →
    (p.sites i).arena.nextId + n ≤ (p.sites i).arena.blockEnd →
    ∃ actions, ((p.run actions).sites i).pending = none
      ∧ ((p.run actions).sites i).arena.nextId = (p.sites i).arena.nextId + n
      ∧ ((p.run actions).sites i).arena.blockEnd = (p.sites i).arena.blockEnd
      ∧ (p.run actions).counter = p.counter
  | 0, p, hidle, _ => ⟨[], hidle, rfl, rfl, rfl⟩
  | n + 1, p, hidle, hn => by
    have hne : (p.sites i).arena.nextId ≠ (p.sites i).arena.blockEnd :=
      Nat.ne_of_lt (Nat.lt_of_lt_of_le (Nat.lt_add_of_pos_right (Nat.succ_pos n)) hn)
    obtain ⟨hidle', hnext', hend', hcounter'⟩ := run_call_ids hidle (Arena.takeId_own hne p.counter)
    rw [← Nat.succ_add_eq_add_succ] at hn
    obtain ⟨actions, hi, hnext, hend, hcounter⟩ := exists_run_nextId n (p.run (call i none none))
      hidle' (by rwa [hnext', hend'])
    refine ⟨call i none none ++ actions, ?_⟩
    rw [run_append]
    refine ⟨hi, ?_, hend.trans hend', hcounter.trans hcounter'⟩
    rw [hnext, hnext']
    exact Nat.succ_add_eq_add_succ _ _

/-- Calls of one arena can use up its block until a given id of it comes next. -/
theorem exists_run_takeId_own {p : Pool ι} {i : ι} {x : ContextId}
    (hidle : (p.sites i).pending = none) (hle : (p.sites i).arena.nextId ≤ x)
    (hlt : x < (p.sites i).arena.blockEnd) :
    ∃ actions, ((p.run actions).sites i).pending = none
      ∧ ((p.run actions).sites i).arena.blockEnd = (p.sites i).arena.blockEnd
      ∧ (p.run actions).counter = p.counter
      ∧ ((p.run actions).sites i).arena.takeId (p.run actions).counter
        = .ok (x, { ((p.run actions).sites i).arena with nextId := x + 1 }, p.counter) := by
  obtain ⟨n, rfl⟩ := Nat.exists_eq_add_of_le hle
  obtain ⟨actions, hi, hnext, hend, hcounter⟩ := exists_run_nextId n p hidle (Nat.le_of_lt hlt)
  refine ⟨actions, hi, hend, hcounter, ?_⟩
  have hne : ((p.run actions).sites i).arena.nextId ≠ ((p.run actions).sites i).arena.blockEnd := by
    rw [hnext, hend]
    exact Nat.ne_of_lt hlt
  rw [Arena.takeId_own hne, hnext, hcounter]

/-- Calls of one arena can use up shared blocks until a given id of theirs comes next. -/
theorem exists_run_takeId_shared {i : ι} {x : ContextId} : ∀ (n : Nat) (p : Pool ι),
    (p.sites i).pending = none → (p.sites i).arena.nextId = (p.sites i).arena.blockEnd →
    p.counter.next ≤ x → x < p.counter.next + IdCounter.blockSize * n →
    p.counter.next + IdCounter.blockSize * n ≤ IdCounter.limit →
    ∃ actions, ((p.run actions).sites i).pending = none ∧ ∃ arena counter,
      ((p.run actions).sites i).arena.takeId (p.run actions).counter = .ok (x, arena, counter)
  | 0, _, _, _, hle, hlt, _ => absurd hlt (Nat.not_lt_of_le hle)
  | n + 1, p, hidle, hend, hle, hlt, hlimit => by
    rw [Nat.mul_succ, Nat.add_comm _ IdCounter.blockSize, ← Nat.add_assoc] at hlt hlimit
    have hl : p.counter.next + IdCounter.blockSize ≤ IdCounter.limit :=
      Nat.le_trans (Nat.le_add_right _ _) hlimit
    have ht := Arena.takeId_shared hend hl
    obtain ⟨hidle', hnext', hend', hcounter'⟩ := run_call_ids hidle ht
    by_cases hx : x = p.counter.next
    · exact ⟨[], hidle, _, _, hx ▸ ht⟩
    by_cases hblock : x < p.counter.next + IdCounter.blockSize
    · obtain ⟨actions, hi, -, -, htake⟩ := exists_run_takeId_own (x := x) hidle'
        (by rw [hnext']; exact Nat.lt_of_le_of_ne hle (Ne.symm hx)) (by rwa [hend'])
      refine ⟨call i none none ++ actions, ?_⟩
      rw [run_append]
      exact ⟨hi, _, _, htake⟩
    · obtain ⟨actions, hi, hnext, hend, hcounter⟩ :=
        exists_run_nextId (IdCounter.blockSize - 1) _ hidle'
          (by rw [hnext', hend', Nat.add_assoc]; exact Nat.le_refl _)
      have hused : (((p.run (call i none none)).run actions).sites i).arena.nextId
          = (((p.run (call i none none)).run actions).sites i).arena.blockEnd := by
        rw [hnext, hend, hnext', hend', Nat.add_assoc]
        rfl
      have hcounter'' := hcounter.trans hcounter'
      obtain ⟨more, hi', arena, counter, htake⟩ := exists_run_takeId_shared (x := x) n _ hi hused
        (by rw [hcounter'']; exact Nat.le_of_not_lt hblock) (by rw [hcounter'']; exact hlt)
        (by rw [hcounter'']; exact hlimit)
      refine ⟨call i none none ++ actions ++ more, ?_⟩
      rw [run_append, run_append]
      exact ⟨hi', arena, counter, htake⟩

/-- The arena alone comes twice to an id of its block that is within the counter's reach: the first
time for a context below none, the second time for one below any that it has, such as that one. -/
theorem exists_redrawn {p : Pool ι} {i : ι} {x : ContextId} (hidle : (p.sites i).pending = none)
    (hle : (p.sites i).arena.nextId ≤ x) (hlt : x < (p.sites i).arena.blockEnd)
    (hcounter : p.counter.next ≤ x) (hreach : x < p.counter.reach) :
    ∃ before after : List (Action ι), (i, x) ∈ (p.run before).returned
      ∧ ((p.run before).sites i).arena.context x = .ok (.fresh x none none)
      ∧ ((p.run before).run (after ++ call i (some x) none)).log i
        = x :: ((p.run before).run after).log i
      ∧ (((p.run before).run (after ++ call i (some x) none)).sites i).arena.context x
        = .ok (.fresh x (some x) none) := by
  have hlimit : p.counter.next + IdCounter.blockSize
      * ((IdCounter.limit - p.counter.next) / IdCounter.blockSize) ≤ IdCounter.limit := by
    refine IdCounter.reach_le (Nat.le_of_not_lt fun hgt => ?_)
    rw [IdCounter.reach, Nat.sub_eq_zero_of_le (Nat.le_of_lt hgt)] at hreach
    exact absurd hreach (Nat.not_lt_of_le hcounter)
  obtain ⟨first, hi₁, hend₁, hcounter₁, ht₁⟩ := exists_run_takeId_own hidle hle hlt
  have hcall := run_call none none hi₁ (by simp) ht₁
  obtain ⟨hi₂, hnext₂, hend₂, hcounter₂⟩ := run_call_ids hi₁ ht₁
  rw [← run_append] at hcall hi₂ hnext₂ hend₂ hcounter₂
  set p₂ := p.run (first ++ call i none none) with hp₂
  have hcontext : (p₂.sites i).arena.context x = .ok (.fresh x none none) := by
    rw [hcall, put_sites_self]
    exact Arena.context_insert_self ..
  -- the rest of the first block, then shared blocks
  obtain ⟨n, hn⟩ := Nat.exists_eq_add_of_le (Nat.succ_le_of_lt hlt)
  have hend : (p₂.sites i).arena.nextId + n = (p₂.sites i).arena.blockEnd := by
    rw [hnext₂, hend₂, hend₁, hn]
  obtain ⟨rest, hi₃, hnext₃, hend₃, hcounter₃⟩ :=
    exists_run_nextId n p₂ hi₂ (Nat.le_of_eq hend)
  rw [hcounter₂] at hcounter₃
  obtain ⟨shared, hi₄, arena, counter, ht₄⟩ := exists_run_takeId_shared (x := x) _ (p₂.run rest)
    hi₃ (by rw [hnext₃, hend₃, hend]) (by rw [hcounter₃]; exact hcounter)
    (by rw [hcounter₃]; exact hreach) (by rw [hcounter₃]; exact hlimit)
  rw [← run_append] at hi₄ ht₄
  have hthere := exists_context_run ⟨_, hcontext⟩ (rest ++ shared)
  have hcall₄ := run_call (some x) none hi₄
    (fun q hq => Option.some.inj hq ▸ hthere) ht₄
  refine ⟨first ++ call i none none, rest ++ shared, ?_, hcontext, ?_, ?_⟩
  · rw [← hp₂, hcall]
    exact List.mem_cons_self
  · rw [← hp₂, run_append p₂ (rest ++ shared), hcall₄]
    simp [log]
  · rw [← hp₂, run_append p₂ (rest ++ shared), hcall₄, put_sites_self]
    exact Arena.context_insert_self ..

/-- An arena that starts with a block of its own choice, among other arenas. -/
def withFirstId (others : ι → Site) (k : IdCounter) (i : ι) (h : Hierarchy) (first : ContextId) :
    Pool ι :=
  { sites := Function.update others i { arena := .withFirstId h first }, counter := k }

section

variable (others : ι → Site) (k : IdCounter) (i : ι) (h : Hierarchy) (first : ContextId)

theorem withFirstId_sites : (withFirstId others k i h first).sites i
    = { arena := .withFirstId h first } :=
  Function.update_self ..

theorem Housed.withFirstId : (withFirstId others k i h first).Housed i where
  grown := by
    rw [withFirstId_sites]
    exact Arena.Grown.empty rfl
  parent_mem x q hs := by
    rw [withFirstId_sites] at hs
    simp at hs

variable {k first}

theorem Unmet.withFirstId (hfirst : first ≤ IdCounter.limit)
    (hunmet : ∀ id, first ≤ id → id < min (first + IdCounter.blockSize) IdCounter.limit →
      id < k.next ∨ k.reach ≤ id) : (withFirstId others k i h first).Unmet i := by
  have hdrawn : ∀ x, ¬ (Pool.withFirstId others k i h first).Drawn i x := by
    rintro x (hr | ⟨_, _, hs⟩)
    · simp [Pool.withFirstId] at hr
    · rw [withFirstId_sites] at hs
      simp at hs
  constructor
  · rw [withFirstId_sites]
    exact hunmet
  · exact fun x hd => absurd hd (hdrawn x)
  · exact fun x hd => absurd hd (hdrawn x)
  · rw [withFirstId_sites]
    exact Nat.le_min.2 ⟨Nat.le_add_right _ _, hfirst⟩
  · intro x _ _ hs
    rw [withFirstId_sites] at hs
    simp at hs

end

end Pool

theorem Arena.Rooted.parent_ne {a : Arena} (h : a.Rooted) {id : ContextId} {c : Context}
    (hc : a.context id = .ok c) : c.parent ≠ some id := by
  intro hp
  have hloop : ∀ x cs, a.Ascends x cs → x ≠ id := by
    intro x cs hcs
    induction hcs with
    | root hd hnone =>
      rintro rfl
      rw [hc, Except.ok.injEq] at hd
      rw [← hd, hp] at hnone
      exact absurd hnone (by simp)
    | up hd hq _ ih =>
      rintro rfl
      rw [hc, Except.ok.injEq] at hd
      rw [← hd, hp, Option.some.injEq] at hq
      exact ih hq.symm
  obtain ⟨cs, -, hcs, -⟩ := h id c hc
  exact hloop id cs hcs rfl

/-- When an arena with a first block of its own choice is safe, whatever the counter and the other
arenas: no call of any run returns an id that the arena has handed out, or no action changes a
context that is there, or all parents lead to a parentless context. Each of these holds if and only
if no id of the first block is within the reach of the counter. -/
theorem first_block_unmet_tfae {ι : Type} [DecidableEq ι] (others : ι → Site) (k : IdCounter)
    (i : ι) (h : Hierarchy) (first : UInt32) :
    let p := Pool.withFirstId others k i h first.toNat
    List.TFAE [
      ∀ actions, ((p.run actions).log i).Nodup,
      ∀ actions x id c, ((p.run actions).sites i).arena.context id = .ok c →
        (((p.run actions).act x).2.sites i).arena.context id = .ok c,
      ∀ actions, ((p.run actions).sites i).arena.Rooted,
      ∀ id, first.toNat ≤ id → id < min (first.toNat + IdCounter.blockSize) IdCounter.limit →
        id < k.next ∨ k.reach ≤ id] := by
  intro p
  have hfirst : first.toNat ≤ IdCounter.limit := Nat.le_pred_of_lt first.toNat_lt_size
  have hsafe (hunmet : ∀ id, first.toNat ≤ id →
      id < min (first.toNat + IdCounter.blockSize) IdCounter.limit → id < k.next ∨ k.reach ≤ id)
      (actions : List (Pool.Action ι)) :
      (p.run actions).Housed i ∧ (p.run actions).Unmet i := by
    refine Pool.run_induction (P := fun p => p.Housed i ∧ p.Unmet i) (fun p q hstep hp => ?_)
      actions p ⟨.withFirstId others k i h _, .withFirstId others i h hfirst hunmet⟩
    exact ⟨hp.1.step hp.2.pendingNew hstep, hp.2.step hstep⟩
  have hmet : ∀ x, first.toNat ≤ x →
      x < min (first.toNat + IdCounter.blockSize) IdCounter.limit → ¬ (x < k.next ∨ k.reach ≤ x) →
      _ := fun x hle hlt hx =>
    Pool.exists_redrawn (p := p) (i := i) (x := x) (by rw [Pool.withFirstId_sites])
      (by rw [Pool.withFirstId_sites]; exact hle) (by rw [Pool.withFirstId_sites]; exact hlt)
      (Nat.le_of_not_lt fun hx' => hx (.inl hx')) (Nat.lt_of_not_le fun hx' => hx (.inr hx'))
  tfae_have 4 → 1 := fun hunmet actions => (hsafe hunmet actions).1.grown.nodup
  tfae_have 4 → 2 := fun hunmet actions x _ _ hc =>
    (hsafe hunmet actions).1.context_step (hsafe hunmet actions).2.pendingNew
      ((p.run actions).step_act x) hc
  tfae_have 4 → 3 := fun hunmet actions => (hsafe hunmet actions).1.grown.rooted
  tfae_have 1 → 4 := by
    intro hnodup x hle hlt
    by_contra hx
    obtain ⟨before, after, hret, -, hlog, -⟩ := hmet x hle hlt hx
    have hnd := hnodup (before ++ (after ++ Pool.call i (some x) none))
    rw [Pool.run_append, hlog] at hnd
    exact (List.nodup_cons.1 hnd).1 (Pool.mem_log_iff.2 (Pool.mem_returned_run hret after))
  tfae_have 2 → 4 := by
    intro hkept x hle hlt
    by_contra hx
    obtain ⟨before, after, -, hfresh, -, hagain⟩ := hmet x hle hlt hx
    have hall : ∀ actions, ((p.run (before ++ actions)).sites i).arena.context x
        = .ok (.fresh x none none) := by
      intro actions
      induction actions using List.reverseRecOn with
      | nil => rwa [List.append_nil]
      | append_singleton actions y ih =>
        rw [← List.append_assoc, Pool.run_append]
        exact hkept (before ++ actions) y x _ ih
    have hnow := hall (after ++ Pool.call i (some x) none)
    rw [Pool.run_append, hagain, Except.ok.injEq] at hnow
    exact absurd (congrArg Context.parent hnow) (by simp [Context.fresh])
  tfae_have 3 → 4 := by
    intro hrooted x hle hlt
    by_contra hx
    obtain ⟨before, after, -, -, -, hagain⟩ := hmet x hle hlt hx
    have hr := hrooted (before ++ (after ++ Pool.call i (some x) none))
    rw [Pool.run_append] at hr
    exact hr.parent_ne hagain rfl
  tfae_finish

/-- A first block from 1 is met by the first shared block, if that is not taken yet. -/
theorem first_block_from_one_met : ∃ actions : List (Pool.Action Unit),
    let p :=
      (Pool.withFirstId (fun _ => { arena := { hierarchy := .empty } }) {} () .empty 1).run actions
    ¬ (p.log ()).Nodup ∧ ¬ (p.sites ()).arena.Rooted := by
  obtain ⟨before, after, hret, -, hlog, hagain⟩ := Pool.exists_redrawn (i := ()) (x := 1)
    (p := .withFirstId (fun _ => { arena := { hierarchy := .empty } }) {} () .empty 1)
    rfl (by decide) (by decide) (by decide) (by decide)
  refine ⟨before ++ (after ++ Pool.call () (some 1) none), ?_⟩
  rw [Pool.run_append]
  refine ⟨fun hnd => ?_, fun hr => hr.parent_ne hagain rfl⟩
  rw [hlog] at hnd
  exact (List.nodup_cons.1 hnd).1 (Pool.mem_log_iff.2 (Pool.mem_returned_run hret after))

end ScopedInference
