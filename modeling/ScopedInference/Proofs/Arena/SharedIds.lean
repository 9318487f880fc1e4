import ScopedInference.Proofs.Arena.Pool

/-!
# Ids of arenas that only use shared blocks

An arena may hand out the ids from `nextId` up to `blockEnd`. While all arenas get their blocks from
the counter, these windows lie below the counter and do not overlap, and no window reaches an id
that has been drawn (`Apart`). So all ids differ, also between arenas, and every arena keeps growing
along the ids that its calls have returned (`shared_ids`).
-/

namespace ScopedInference

namespace Pool

variable {ι : Type} [DecidableEq ι]

structure Apart (p : Pool ι) : Prop where
  counter_le : p.counter.next ≤ IdCounter.limit
  nextId_le : ∀ i, (p.sites i).arena.nextId ≤ (p.sites i).arena.blockEnd
  blockEnd_le : ∀ i, (p.sites i).arena.blockEnd ≤ p.counter.next
  windows : ∀ i j, i ≠ j → (p.sites i).arena.blockEnd ≤ (p.sites j).arena.nextId
    ∨ (p.sites j).arena.blockEnd ≤ (p.sites i).arena.nextId
  drawn_lt : ∀ i id, p.Drawn i id → id < p.counter.next
  drawn_outside : ∀ i id, p.Drawn i id →
    ∀ j, id < (p.sites j).arena.nextId ∨ (p.sites j).arena.blockEnd ≤ id
  drawn_inj : ∀ i j id, p.Drawn i id → p.Drawn j id → i = j
  pendingNew : ∀ i, p.PendingNew i
  nodup : (p.returned.map (·.2)).Nodup

namespace Apart

variable {p q : Pool ι}

/-- A drawn id is new, also where it is the first of a new block. -/
theorem not_drawn (h : p.Apart) {i : ι} {id : ContextId} {arena : Arena} {counter : IdCounter}
    (ht : (p.sites i).arena.takeId p.counter = .ok (id, arena, counter)) (j : ι) :
    ¬ p.Drawn j id := by
  intro hd
  rcases Arena.takeId_cases ht with ⟨hne, rfl, -, -⟩ | ⟨-, -, rfl, -, -⟩
  · have hle := h.nextId_le i
    rcases h.drawn_outside j _ hd i with hlt | hge
    · exact absurd hlt (Nat.lt_irrefl _)
    · exact hne (Nat.le_antisymm hle hge)
  · exact absurd (h.drawn_lt j _ hd) (Nat.lt_irrefl _)

/-- Where the new id lies: the arena goes on right after it, below the counter. -/
theorem takeId_window (h : p.Apart) {i : ι} {id : ContextId} {arena : Arena} {counter : IdCounter}
    (ht : (p.sites i).arena.takeId p.counter = .ok (id, arena, counter)) :
    arena.nextId = id + 1 ∧ arena.nextId ≤ arena.blockEnd ∧ arena.blockEnd ≤ counter.next
      ∧ p.counter.next ≤ counter.next ∧ counter.next ≤ IdCounter.limit := by
  rcases Arena.takeId_cases ht with ⟨hne, rfl, rfl, rfl⟩ | ⟨-, hl, rfl, rfl, rfl⟩
  · exact ⟨rfl, Nat.lt_of_le_of_ne (h.nextId_le i) hne, h.blockEnd_le i, Nat.le_refl _,
      h.counter_le⟩
  · exact ⟨rfl, Nat.add_le_add_left (by decide) _, Nat.le_refl _, Nat.le_add_right _ _, hl⟩

/-- The windows of the other arenas stay on their side of the new id and of what follows it. -/
theorem takeId_apart (h : p.Apart) {i j : ι} (hij : j ≠ i) {id : ContextId} {arena : Arena}
    {counter : IdCounter} (ht : (p.sites i).arena.takeId p.counter = .ok (id, arena, counter)) :
    arena.blockEnd ≤ (p.sites j).arena.nextId ∨ (p.sites j).arena.blockEnd ≤ id := by
  rcases Arena.takeId_cases ht with ⟨-, rfl, rfl, -⟩ | ⟨-, -, rfl, -, -⟩
  · exact h.windows i j hij.symm
  · exact .inr (h.blockEnd_le j)

theorem takeId_outside (h : p.Apart) {i j : ι} {id x : ContextId} {arena : Arena}
    {counter : IdCounter} (ht : (p.sites i).arena.takeId p.counter = .ok (id, arena, counter))
    (hd : p.Drawn j x) : x < arena.nextId ∨ arena.blockEnd ≤ x := by
  have hlt := h.drawn_lt j x hd
  rcases Arena.takeId_cases ht with ⟨-, -, rfl, -⟩ | ⟨-, -, -, rfl, -⟩
  · exact (h.drawn_outside j x hd i).imp Nat.lt_succ_of_lt fun hx => hx
  · exact .inl (Nat.lt_succ_of_lt hlt)

/-- A step that draws an id. -/
theorem draw (h : p.Apart) {i : ι} {id : ContextId}
    (ht : (p.sites i).arena.takeId p.counter = .ok (id, (q.sites i).arena, q.counter))
    (hother : ∀ j, j ≠ i → (q.sites j).arena = (p.sites j).arena)
    (hdrawn : ∀ j x, q.Drawn j x → p.Drawn j x ∨ j = i ∧ x = id)
    (hpending : ∀ j, q.PendingNew j) (hnodup : (q.returned.map (·.2)).Nodup) : q.Apart := by
  obtain ⟨hid, hle, hend, hmono, hlimit⟩ := h.takeId_window ht
  have hlt : id < (q.sites i).arena.blockEnd := by
    rw [hid] at hle
    exact hle
  constructor
  · exact hlimit
  · intro j
    by_cases hj : j = i
    · rwa [hj]
    · rw [hother j hj]
      exact h.nextId_le j
  · intro j
    by_cases hj : j = i
    · rwa [hj]
    · rw [hother j hj]
      exact Nat.le_trans (h.blockEnd_le j) hmono
  · intro j l hjl
    by_cases hj : j = i
    · rw [hj, hother l (hj ▸ hjl.symm), hid]
      exact (h.takeId_apart (hj ▸ hjl.symm) ht).imp_right fun hl => Nat.le_succ_of_le hl
    · rw [hother j hj]
      by_cases hl : l = i
      · rw [hl, hid, or_comm]
        exact (h.takeId_apart hj ht).imp_right fun hl => Nat.le_succ_of_le hl
      · rw [hother l hl]
        exact h.windows j l hjl
  · intro j x hd
    rcases hdrawn j x hd with hd | ⟨-, rfl⟩
    · exact Nat.lt_of_lt_of_le (h.drawn_lt j x hd) hmono
    · exact Nat.lt_of_lt_of_le hlt hend
  · intro j x hd l
    by_cases hl : l = i
    · rw [hl]
      rcases hdrawn j x hd with hd | ⟨-, rfl⟩
      · exact h.takeId_outside ht hd
      · exact .inl (hid ▸ Nat.lt_succ_self _)
    · rw [hother l hl]
      rcases hdrawn j x hd with hd | ⟨-, rfl⟩
      · exact h.drawn_outside j x hd l
      · refine (h.takeId_apart hl ht).imp_left fun hx => ?_
        exact Nat.lt_of_lt_of_le hlt hx
  · intro j l x hj hl
    rcases hdrawn j x hj with hj' | ⟨rfl, rfl⟩
    · rcases hdrawn l x hl with hl' | ⟨rfl, rfl⟩
      · exact h.drawn_inj j l x hj' hl'
      · exact absurd hj' (h.not_drawn ht j)
    · rcases hdrawn l _ hl with hl' | ⟨rfl, -⟩
      · exact absurd hl' (h.not_drawn ht l)
      · rfl
  · exact hpending
  · exact hnodup

/-- What is returned was drawn in the same arena, so no arena has returned it yet. -/
theorem returned_nodup (h : p.Apart) (hstep : p.Step q) : (q.returned.map (·.2)).Nodup := by
  rcases hstep.returned with heq | ⟨i, id, parent, signature, hs, heq⟩
  · rw [heq]
    exact h.nodup
  · rw [heq]
    refine List.nodup_cons.2 ⟨fun hmem => ?_, h.nodup⟩
    obtain ⟨⟨j, x⟩, hr, rfl⟩ := List.mem_map.1 hmem
    obtain rfl := h.drawn_inj j i x (.inl hr) (.inr ⟨parent, signature, hs⟩)
    exact h.pendingNew j x _ _ hs (mem_log_iff.2 hr)

theorem step (h : p.Apart) (hstep : p.Step q) : q.Apart := by
  have hpending : ∀ j, q.PendingNew j := fun j =>
    hstep.pendingNew (h.pendingNew j) fun _ _ _ ht => h.not_drawn ht j
  have hnodup := h.returned_nodup hstep
  rcases hstep.ids with ⟨hc, hn, hb, hd⟩ | ⟨i, id, ht, hother, hdrawn⟩
  · constructor
    · simpa only [hc] using h.counter_le
    · simpa only [hn, hb] using h.nextId_le
    · simpa only [hc, hb] using h.blockEnd_le
    · simpa only [hn, hb] using h.windows
    · simpa only [hc] using fun j x hx => h.drawn_lt j x (hd j x hx)
    · simpa only [hn, hb] using fun j x hx => h.drawn_outside j x (hd j x hx)
    · exact fun j l x hj hl => h.drawn_inj j l x (hd j x hj) (hd l x hl)
    · exact hpending
    · exact hnodup
  · exact h.draw ht hother hdrawn hpending hnodup

end Apart

/-- Empty arenas over given hierarchies, before any of them has a block. -/
def empty (h : ι → Hierarchy) (start : ContextId) : Pool ι :=
  { sites := fun i => { arena := { hierarchy := h i } }, counter := ⟨start⟩ }

omit [DecidableEq ι] in
theorem not_drawn_empty [DecidableEq ι] (h : ι → Hierarchy) (start : ContextId) (i : ι)
    (id : ContextId) : ¬ (empty h start).Drawn i id := by
  rintro (hr | ⟨_, _, hs⟩)
  · simp [empty] at hr
  · simp [empty] at hs

theorem Apart.empty (h : ι → Hierarchy) {start : ContextId} (hs : start ≤ IdCounter.limit) :
    (empty h start).Apart where
  counter_le := hs
  nextId_le _ := Nat.le_refl _
  blockEnd_le _ := Nat.zero_le _
  windows _ _ _ := .inl (Nat.le_refl _)
  drawn_lt i id hd := absurd hd (not_drawn_empty h start i id)
  drawn_outside i id hd := absurd hd (not_drawn_empty h start i id)
  drawn_inj i _ id hd _ := absurd hd (not_drawn_empty h start i id)
  pendingNew i id _ _ hs := by simp [Pool.empty] at hs
  nodup := by simp [Pool.empty]

theorem Housed.empty (h : ι → Hierarchy) (start : ContextId) (i : ι) :
    (empty h start).Housed i where
  grown := Arena.Grown.empty rfl
  parent_mem _ _ hs := by simp [Pool.empty] at hs

end Pool

/-- What holds after every run of arenas that share a counter from their beginning: all returned ids
differ, ids stay within 32 bits, neither looking for the parent nor failing changes an arena or the
counter, and parents come before their children. A run may stop anywhere, so it holds throughout. -/
theorem shared_ids {ι : Type} [DecidableEq ι] (h : ι → Hierarchy) (start : UInt32)
    (actions : List (Pool.Action ι)) :
    let p := (Pool.empty h start.toNat).run actions
    (p.returned.map (·.2)).Nodup
    ∧ (p.counter.next < UInt32.size ∧ ∀ i, (p.sites i).arena.nextId < UInt32.size
      ∧ (p.sites i).arena.blockEnd < UInt32.size)
    ∧ (∀ x, (p.act x).1 ≠ none ∨ (∃ i parent signature, x = .enter i parent signature) →
      (∀ i, ((p.act x).2.sites i).arena = (p.sites i).arena)
        ∧ (p.act x).2.counter = p.counter ∧ (p.act x).2.returned = p.returned)
    ∧ (∀ x e, (p.act x).1 = some e →
      (∃ i q signature, x = .enter i (some q) signature ∧ e = .unknownContext q
        ∧ ∀ c, (p.sites i).arena.context q ≠ .ok c) ∨ e = .idsExhausted)
    ∧ (∀ i id c q, (p.sites i).arena.context id = .ok c → c.parent = some q →
      ∃ later earlier, p.log i = later ++ id :: earlier ∧ q ∈ earlier)
    ∧ ∀ i, (p.sites i).arena.Rooted := by
  intro p
  have hstart : start.toNat ≤ IdCounter.limit := Nat.le_pred_of_lt start.toNat_lt_size
  obtain ⟨hapart, hhoused⟩ : p.Apart ∧ ∀ i, p.Housed i := by
    refine Pool.run_induction (P := fun p => p.Apart ∧ ∀ i, p.Housed i) (fun p q hstep hp => ?_)
      actions _ ⟨.empty h hstart, .empty h start.toNat⟩
    exact ⟨hp.1.step hstep, fun i => (hp.2 i).step (hp.1.pendingNew i) hstep⟩
  have hlimit : IdCounter.limit < UInt32.size := by decide
  refine ⟨hapart.nodup, ⟨Nat.lt_of_le_of_lt hapart.counter_le hlimit, fun i => ?_⟩, ?_, ?_,
    fun i id c q hc hq => (hhoused i).grown.parent_earlier hc hq, fun i => (hhoused i).grown.rooted⟩
  · have hb := Nat.le_trans (hapart.blockEnd_le i) hapart.counter_le
    have hn := Nat.le_trans (hapart.nextId_le i) hb
    exact ⟨Nat.lt_of_le_of_lt hn hlimit, Nat.lt_of_le_of_lt hb hlimit⟩
  · rintro x (hx | ⟨i, parent, signature, rfl⟩)
    · obtain ⟨e, he⟩ := Option.ne_none_iff_exists'.1 hx
      obtain ⟨harena, hcounter, hreturned, -⟩ := Pool.act_fails he
      exact ⟨harena, hcounter, hreturned⟩
    · exact p.act_enter i parent signature
  · intro x e he
    obtain ⟨-, -, -, hpar | ⟨i, -, he, -⟩⟩ := Pool.act_fails he
    · exact .inl hpar
    · exact .inr he

end ScopedInference
