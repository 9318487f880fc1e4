import ScopedInference.Proofs.Arena.Hops
import ScopedInference.Proofs.Arena.Limits
import ScopedInference.Proofs.Arena.Replacement
import ScopedInference.Proofs.Registration.Trials

/-!
# Owners of an operation

A context leads to the owner of everything that it has bound to an operation (`OwnedBy`). Owners may
lead back to each other, and a replacement changes what it searches: it goes through the bindings of
a context as they were when it came there, while owners further on may lead there once more. So what
it does is told by the slots that it has rebound so far (`rebound`). Where one of them has another
owner, all slots of that owner have been rebound too, or the search is still busy with them
(`Sweep`). In the end it is busy with none, hence it has gone through all contexts that are led to
(`replace_eq_ok`).

The search for the one owner goes by the first binding of each context only (`OwnerHops`).
-/

namespace ScopedInference

namespace BindingState

/-- Rebinds for good all that a context has bound to a type. -/
def replaceType (t value : TypeExpr) (id : ContextId) (s : BindingState) : BindingState :=
  { s with types := s.types.map fun _ b => if b.value = t then .terminal value id else b }

/-- Bindings are gone through by name. -/
theorem head?_boundTo {s : BindingState} {t : TypeExpr} {name : String} {b : Binding TypeExpr} :
    (s.boundTo t).head? = some (name, b) ↔ s.binding? name = some b ∧ b.value = t
      ∧ ∀ other (b' : Binding TypeExpr), s.binding? other = some b' → b'.value = t →
        name ≤ other := by
  have hkeys : s.types.toList.Pairwise fun x y => compare x.1 y.1 = .lt :=
    Std.ExtTreeMap.ordered_keys_toList
  have hordered : (s.boundTo t).Pairwise fun x y => x.1 < y.1 :=
    (hkeys.imp fun h => compareOfLessAndEq_eq_lt.1 h).filter _
  constructor
  · intro h
    obtain ⟨rest, hrest⟩ := List.head?_eq_some_iff.1 h
    obtain ⟨hb, hvalue⟩ := mem_boundTo.1 (hrest ▸ List.mem_cons_self)
    refine ⟨hb, hvalue, fun other b' hb' hvalue' => ?_⟩
    have hmem := mem_boundTo.2 ⟨hb', hvalue'⟩
    rw [hrest] at hmem hordered
    rcases List.mem_cons.1 hmem with heq | hmem
    · cases heq
      exact String.le_refl _
    · exact Std.le_of_lt (List.rel_of_pairwise_cons hordered hmem)
  · rintro ⟨hb, hvalue, hfirst⟩
    have hmem := mem_boundTo.2 ⟨hb, hvalue⟩
    rcases hbound : s.boundTo t with _ | ⟨⟨other, b'⟩, rest⟩
    · rw [hbound] at hmem
      cases hmem
    obtain ⟨hb', hvalue'⟩ := mem_boundTo.1 (hbound ▸ List.mem_cons_self)
    rw [hbound] at hmem hordered
    rcases List.mem_cons.1 hmem with heq | hmem
    · rw [heq, List.head?_cons]
    · exact absurd (List.rel_of_pairwise_cons hordered hmem)
        (String.not_lt.2 (hfirst other b' hb' hvalue'))

end BindingState

namespace Arena

section

variable (a : Arena) (operation : TypeExpr)

/-- The first context has bound something to the operation that the second one owns. -/
def OwnedBy (d o : ContextId) : Prop :=
  ∃ name b, a.binding? d name = .ok (some b) ∧ b.value = operation ∧ b.owner = o

/-- The contexts that a context leads to, itself among them. -/
def Owners : ContextId → ContextId → Prop := Relation.ReflTransGen (a.OwnedBy operation)

/-- The first of a context's bindings to the operation, by name, belongs to another context. -/
def OwnerHop (d o : ContextId) : Prop :=
  ∃ name b, a.binding? d name = .ok (some b) ∧ b.value = operation
    ∧ (∀ other (b' : Binding TypeExpr), a.binding? d other = .ok (some b') →
      b'.value = operation → name ≤ other)
    ∧ b.owner = o ∧ o ≠ d

/-- So many hops, one after the other. -/
inductive OwnerHops : Nat → ContextId → ContextId → Prop where
  | here (d) : OwnerHops 0 d d
  | hop {n d o p} : a.OwnerHop operation d o → OwnerHops n o p → OwnerHops (n + 1) d p

end

/-! ### The one owner -/

section

variable {a : Arena} {operation : TypeExpr} {d o p : ContextId}

theorem OwnerHop.ownedBy (h : a.OwnerHop operation d o) : a.OwnedBy operation d o := by
  obtain ⟨name, b, hb, hvalue, -, howner, -⟩ := h
  exact ⟨name, b, hb, hvalue, howner⟩

theorem OwnerHop.unique (h : a.OwnerHop operation d o) (h' : a.OwnerHop operation d p) :
    o = p := by
  obtain ⟨name, b, hb, hvalue, hfirst, rfl, -⟩ := h
  obtain ⟨name', b', hb', hvalue', hfirst', rfl, -⟩ := h'
  obtain rfl : name = name' :=
    String.le_antisymm (hfirst name' b' hb' hvalue') (hfirst' name b hb hvalue)
  cases hb.symm.trans hb'
  rfl

theorem ownerHop_iff {c : Context} (hc : a.context d = .ok c) :
    a.OwnerHop operation d o
      ↔ ∃ x, (c.current.boundTo operation).head? = some x ∧ x.2.owner = o ∧ o ≠ d := by
  simp only [OwnerHop, binding?_of_context hc, Prod.exists, BindingState.head?_boundTo, and_assoc]

/-- One step of the search: it fails at a context that is missing, stops where no hop leads on, or
goes on after one hop. -/
theorem seekOwner_succ (n : Nat) (here : ContextId) :
    ((a.seekOwner operation (n + 1) here = .error (.unknownContext here)
        ∨ a.seekOwner operation (n + 1) here = .ok here)
      ∧ ∀ o, ¬ a.OwnerHop operation here o)
    ∨ ∃ o, a.OwnerHop operation here o
      ∧ a.seekOwner operation (n + 1) here = a.seekOwner operation n o := by
  rw [seekOwner]
  by_cases hhas : a.Has here
  · obtain ⟨c, hc⟩ := hhas
    simp only [ownerHop_iff hc]
    rw [hc]
    dsimp only [bind, Except.bind]
    rcases hbound : c.current.boundTo operation with _ | ⟨⟨name, b⟩, rest⟩
    · refine .inl ⟨.inr rfl, ?_⟩
      rintro o ⟨x, hx, -⟩
      cases hx
    dsimp only
    split
    · rename_i howner
      refine .inl ⟨.inr rfl, ?_⟩
      rintro o ⟨x, hx, rfl, hne⟩
      cases hx
      exact hne howner
    · rename_i hne
      exact .inr ⟨b.owner, ⟨_, rfl, rfl, hne⟩, rfl⟩
  · refine .inl ⟨.inl ?_, ?_⟩
    · rw [context_missing hhas]
      rfl
    · rintro o ⟨name, b, hb, -⟩
      obtain ⟨c, hc, -⟩ := binding?_eq_ok.1 hb
      exact hhas ⟨c, hc⟩

/-- The owner that is found is one that the context leads to. -/
theorem owners_of_seekOwner : ∀ (n : Nat) (here : ContextId),
    a.seekOwner operation n here = .ok o → a.Owners operation here o
  | 0, _, h => nomatch h
  | n + 1, here, h => by
    rcases @seekOwner_succ a operation n here with
      ⟨heq | heq, -⟩ | ⟨next, hhop, heq⟩ <;> rw [heq] at h
    · cases h
    · cases h
      exact .refl
    · exact .head hhop.ownedBy (owners_of_seekOwner n next h)

/-- The search uses up its limit just if as many hops lead on. -/
theorem seekOwner_eq_depthExceeded : ∀ (n : Nat) (here : ContextId),
    (∃ limit, a.seekOwner operation n here = .error (.depthExceeded limit))
      ↔ ∃ there, a.OwnerHops operation n here there
  | 0, here => ⟨fun _ => ⟨here, .here here⟩, fun _ => ⟨a.maxDepth, rfl⟩⟩
  | n + 1, here => by
    rcases @seekOwner_succ a operation n here with ⟨heq, hnone⟩ | ⟨next, hhop, heq⟩
    · constructor
      · rintro ⟨limit, h⟩
        rcases heq with heq | heq <;> cases heq.symm.trans h
      · rintro ⟨there, hhops⟩
        cases hhops with
        | hop hhop _ => exact absurd hhop (hnone _)
    · rw [heq, seekOwner_eq_depthExceeded n next]
      refine ⟨fun ⟨there, hhops⟩ => ⟨there, .hop hhop hhops⟩, ?_⟩
      rintro ⟨there, hhops⟩
      cases hhops with
      | hop hhop' hhops => exact ⟨there, hhop.unique hhop' ▸ hhops⟩

end

/-! ### Rebound slots -/

section

variable (value : TypeExpr)

/-- The state of a context after some slots have been rebound for good. -/
def reboundState (slots : Finset Slot) (id : ContextId) (s : BindingState) : BindingState :=
  { s with types := s.types.map fun name b => if (id, name) ∈ slots then .terminal value id else b }

/-- The arena after some slots have been rebound for good. -/
def rebound (a : Arena) (slots : Finset Slot) : Arena :=
  { a with contexts := a.contexts.map fun id c => c.mapCurrent (reboundState value slots id) }

variable {value} {a : Arena} {slots : Finset Slot} {id : ContextId} {s : BindingState}
  {name : String} {b : Binding TypeExpr}

theorem context_rebound (id : ContextId) : (a.rebound value slots).context id
    = (a.context id).map (·.mapCurrent (reboundState value slots id)) := by
  simp only [context, rebound, Std.ExtTreeMap.getElem?_map]
  cases a.contexts[id]? <;> rfl

theorem binding?_reboundState (name : String) : (reboundState value slots id s).binding? name
    = (s.binding? name).map fun b => if (id, name) ∈ slots then .terminal value id else b :=
  Std.ExtTreeMap.getElem?_map

/-- What is found after slots have been rebound was there before, or has been rebound and is to be
rebound again. -/
theorem mem_boundTo_reboundState {t : TypeExpr}
    (h : (name, b) ∈ (reboundState value slots id s).boundTo t) :
    ∃ b₀, s.binding? name = some b₀
      ∧ (b = b₀ ∨ (id, name) ∈ slots ∧ b = .terminal value id) := by
  obtain ⟨hb, -⟩ := BindingState.mem_boundTo.1 h
  rw [binding?_reboundState] at hb
  obtain ⟨b₀, hb₀, rfl⟩ := Option.map_eq_some_iff.1 hb
  refine ⟨b₀, hb₀, ?_⟩
  split
  · exact .inr ⟨‹_›, rfl⟩
  · exact .inl rfl

theorem rebound_empty : a.rebound value ∅ = a := by
  refine eq_of_context rfl rfl rfl rfl fun id => ?_
  have hstate : reboundState value ∅ id = fun s => s := by
    funext s
    simp only [reboundState, Finset.notMem_empty, if_false, Std.ExtTreeMap.map_id]
  rw [context_rebound, hstate]
  rcases a.context id <;> rfl

theorem mem_union_slot {other : ContextId} {name' : String} :
    (other, name') ∈ slots ∪ {(id, name)} ↔ (other, name') ∈ slots ∨ other = id ∧ name' = name := by
  rw [Finset.mem_union, Finset.mem_singleton, Prod.mk.injEq]

theorem reboundState_bind (hb : s.binding? name = some b) :
    (reboundState value slots id s).bind name (.terminal value id)
      = reboundState value (slots ∪ {(id, name)}) id s := by
  refine congrArg (BindingState.mk · s.muls s.lookahead)
    (Std.ExtTreeMap.ext_getElem? fun other => ?_)
  show ((reboundState value slots id s).bind name (.terminal value id)).binding? other
    = (reboundState value (slots ∪ {(id, name)}) id s).binding? other
  by_cases heq : name = other
  · subst heq
    rw [BindingState.binding?_bind_self, binding?_reboundState, hb, Option.map_some,
      if_pos (mem_union_slot.2 (.inr ⟨rfl, rfl⟩))]
  · have hmem : (id, other) ∈ slots ∪ {(id, name)} ↔ (id, other) ∈ slots := by
      simp [Ne.symm heq]
    simp only [BindingState.binding?_bind_of_ne _ heq, binding?_reboundState, hmem]

/-- One more slot is rebound. -/
theorem rebound_bind {c : Context} (hc : a.context id = .ok c)
    (hb : c.current.binding? name = some b) :
    (a.rebound value slots).modifyCurrent id (·.bind name (.terminal value id))
      = .ok (a.rebound value (slots ∪ {(id, name)})) := by
  have hrebound : (a.rebound value slots).context id
      = .ok (c.mapCurrent (reboundState value slots id)) := by
    rw [context_rebound, hc]
    rfl
  refine modify_eq_ok.2 ⟨_, hrebound, eq_of_context rfl rfl rfl rfl fun other => ?_⟩
  by_cases heq : id = other
  · subst heq
    rw [context_insert_self, context_rebound, hc]
    exact congrArg (fun s => Except.ok { c with current := s }) (reboundState_bind hb).symm
  · have hstate : reboundState value (slots ∪ {(id, name)}) other
        = reboundState value slots other := by
      funext s
      simp only [reboundState, mem_union_slot, Ne.symm heq, false_and, or_false]
    rw [context_insert_of_ne _ heq, context_rebound, context_rebound, hstate]

end

/-! ### The sweep -/

section

/-- All that a context has bound to the operation has been rebound. -/
def Swept (a : Arena) (operation : TypeExpr) (slots : Finset Slot) (d : ContextId) : Prop :=
  ∃ c, a.context d = .ok c
    ∧ ∀ name b, c.current.binding? name = some b → b.value = operation → (d, name) ∈ slots

/-- What has been rebound so far was bound to the operation in contexts that one leads to. Other
owners have been swept as well, or else are still pending. -/
structure Sweep (a : Arena) (operation : TypeExpr) (start : ContextId) (slots : Finset Slot)
    (pending : List ContextId) : Prop where
  led : ∀ d name, (d, name) ∈ slots → a.Owners operation start d
  found : ∀ d name, (d, name) ∈ slots → ∃ b : Binding TypeExpr,
    a.binding? d name = .ok (some b) ∧ b.value = operation
      ∧ (b.owner ≠ d → Swept a operation slots b.owner ∨ b.owner ∈ pending)

variable {a : Arena} {operation value : TypeExpr} {start d : ContextId}
  {slots slots' : Finset Slot} {pending pending' : List ContextId} {name : String}
  {b : Binding TypeExpr}

theorem Swept.mono (h : Swept a operation slots d) (hslots : slots ⊆ slots') :
    Swept a operation slots' d := by
  obtain ⟨c, hc, hall⟩ := h
  exact ⟨c, hc, fun name b hb hvalue => hslots (hall name b hb hvalue)⟩

namespace Sweep

theorem empty (pending : List ContextId) : Sweep a operation start ∅ pending :=
  ⟨fun _ _ h => absurd h (Finset.notMem_empty _), fun _ _ h => absurd h (Finset.notMem_empty _)⟩

theorem mono (h : Sweep a operation start slots pending) (hpending : pending ⊆ pending') :
    Sweep a operation start slots pending' where
  led := h.led
  found d name hmem := by
    obtain ⟨b, hb, hvalue, howner⟩ := h.found d name hmem
    exact ⟨b, hb, hvalue, fun hne => (howner hne).imp_right fun hmem => hpending hmem⟩

/-- A context is pending no longer once it has been swept. -/
theorem done (h : Sweep a operation start slots (d :: pending))
    (hd : Swept a operation slots d) : Sweep a operation start slots pending where
  led := h.led
  found e name hmem := by
    obtain ⟨b, hb, hvalue, howner⟩ := h.found e name hmem
    refine ⟨b, hb, hvalue, fun hne => ?_⟩
    rcases howner hne with hswept | hpending
    · exact .inl hswept
    · rcases List.mem_cons.1 hpending with heq | hpending
      · exact .inl (heq ▸ hd)
      · exact .inr hpending

theorem bind (h : Sweep a operation start slots pending) (hd : a.Owners operation start d)
    (hb : a.binding? d name = .ok (some b)) (hvalue : b.value = operation)
    (howner : b.owner ≠ d → b.owner ∈ pending) :
    Sweep a operation start (slots ∪ {(d, name)}) pending where
  led e other hmem := by
    rcases mem_union_slot.1 hmem with hmem | ⟨rfl, rfl⟩
    · exact h.led e other hmem
    · exact hd
  found e other hmem := by
    rcases mem_union_slot.1 hmem with hmem | ⟨rfl, rfl⟩
    · obtain ⟨b', hb', hvalue', howner'⟩ := h.found e other hmem
      exact ⟨b', hb', hvalue',
        fun hne => (howner' hne).imp_left fun hswept => hswept.mono Finset.subset_union_left⟩
    · exact ⟨b, hb, hvalue, fun hne => .inr (howner hne)⟩

end Sweep

/-- What a search that succeeds comes to: some more slots have been rebound, and the context has
been swept. -/
def Sweeps (a : Arena) (operation value : TypeExpr) (start : ContextId)
    (act : ContextId → EStateM InferError Arena Unit) : Prop :=
  ∀ d slots pending r, a.Owners operation start d → Sweep a operation start slots (d :: pending) →
    act d (a.rebound value slots) = .ok () r →
    ∃ slots', slots ⊆ slots' ∧ r = a.rebound value slots'
      ∧ Sweep a operation start slots' pending ∧ Swept a operation slots' d

variable {act : ContextId → EStateM InferError Arena Unit} {r : Arena} {c : Context}

/-- One binding that was found is dealt with. It may be one that has been rebound since, which has
no other owner. -/
theorem sweep_binding (hact : Sweeps a operation value start act)
    (hd : a.Owners operation start d) (hc : a.context d = .ok c) {b₀ : Binding TypeExpr}
    (hb₀ : c.current.binding? name = some b₀) (hvalue : b₀.value = operation)
    (hb : b = b₀ ∨ (d, name) ∈ slots ∧ b = .terminal value d)
    (hsweep : Sweep a operation start slots (d :: pending))
    (hok : (do
      set (← MonadExcept.ofExcept
        ((← get : Arena).modifyCurrent d (·.bind name (.terminal value d))))
      if b.owner ≠ d then act b.owner : EStateM InferError Arena Unit) (a.rebound value slots)
        = .ok () r) :
    ∃ slots', slots ∪ {(d, name)} ⊆ slots' ∧ r = a.rebound value slots'
      ∧ Sweep a operation start slots' (d :: pending) := by
  have hbinding : a.binding? d name = .ok (some b₀) := binding?_eq_ok.2 ⟨c, hc, hb₀⟩
  obtain ⟨r', hr', hgo⟩ := LimitFree.write_eq_ok.1 hok
  cases (rebound_bind hc hb₀).symm.trans hr'
  split at hgo
  · rename_i hne
    rcases hb with rfl | ⟨-, rfl⟩
    · have hpending : Sweep a operation start (slots ∪ {(d, name)}) (b.owner :: d :: pending) :=
        (hsweep.mono (List.subset_cons_self _ _)).bind hd hbinding hvalue
          fun _ => List.mem_cons_self
      obtain ⟨slots', hslots', hr, hsweep', -⟩ :=
        hact b.owner _ _ r (hd.tail ⟨name, b, hbinding, hvalue, rfl⟩) hpending hgo
      exact ⟨slots', hslots', hr, hsweep'⟩
    · exact absurd rfl hne
  · rename_i howner
    cases hgo
    refine ⟨_, Finset.Subset.refl _, rfl, ?_⟩
    rcases hb with rfl | ⟨hmem, -⟩
    · exact hsweep.bind hd hbinding hvalue fun hne => absurd hne howner
    · rwa [Finset.union_eq_left.2 (Finset.singleton_subset_iff.2 hmem)]

/-- The bindings of a context are gone through as they were when the search came there. -/
theorem sweep_bindings (hact : Sweeps a operation value start act)
    (hd : a.Owners operation start d) (hc : a.context d = .ok c) :
    ∀ (found : List (String × Binding TypeExpr)) (slots : Finset Slot),
      (∀ name b, (name, b) ∈ found → ∃ b₀, c.current.binding? name = some b₀
        ∧ b₀.value = operation ∧ (b = b₀ ∨ (d, name) ∈ slots ∧ b = .terminal value d)) →
      Sweep a operation start slots (d :: pending) →
      (found.forM fun (name, b) => do
        set (← MonadExcept.ofExcept
          ((← get : Arena).modifyCurrent d (·.bind name (.terminal value d))))
        if b.owner ≠ d then act b.owner : EStateM InferError Arena Unit) (a.rebound value slots)
          = .ok () r →
      ∃ slots', slots ⊆ slots' ∧ r = a.rebound value slots'
        ∧ Sweep a operation start slots' (d :: pending)
        ∧ ∀ name b, (name, b) ∈ found → (d, name) ∈ slots'
  | [], slots, _, hsweep, hok => by
    cases hok
    exact ⟨slots, Finset.Subset.refl _, rfl, hsweep, fun _ _ h => nomatch h⟩
  | (name, b) :: found, slots, hfound, hsweep, hok => by
    obtain ⟨b₀, hb₀, hvalue, hb⟩ := hfound name b List.mem_cons_self
    obtain ⟨_, r', hone, hrest⟩ := RunM.bind_eq_ok.1 hok
    obtain ⟨slots', hslots', rfl, hsweep'⟩ :=
      sweep_binding hact hd hc hb₀ hvalue hb hsweep hone
    have hsubset : slots ⊆ slots' := Finset.subset_union_left.trans hslots'
    obtain ⟨slots'', hslots'', hr, hsweep'', hall⟩ := sweep_bindings hact hd hc found slots'
      (fun name b hmem => by
        obtain ⟨b₀, hb₀, hvalue, hb⟩ := hfound name b (List.mem_cons_of_mem _ hmem)
        exact ⟨b₀, hb₀, hvalue, hb.imp_right fun h => ⟨hsubset h.1, h.2⟩⟩) hsweep' hrest
    refine ⟨slots'', hsubset.trans hslots'', hr, hsweep'', fun other b' hmem => ?_⟩
    rcases List.mem_cons.1 hmem with heq | hmem
    · cases heq
      exact hslots'' (hslots' (mem_union_slot.2 (.inr ⟨rfl, rfl⟩)))
    · exact hall other b' hmem

theorem replaceStep_sweeps (hact : Sweeps a operation value start act) :
    Sweeps a operation value start (replaceStep operation value act) := by
  intro d slots pending r hd hsweep hok
  obtain ⟨c', hc', hok⟩ := LimitFree.read_eq_ok.1 hok
  rw [context_rebound] at hc'
  obtain ⟨c, hc, rfl⟩ : ∃ c, a.context d = .ok c
      ∧ c.mapCurrent (reboundState value slots d) = c' := by
    rcases hc : a.context d with e | c <;> rw [hc] at hc' <;> cases hc'
    exact ⟨c, rfl, rfl⟩
  obtain ⟨slots', hslots', hr, hsweep', hall⟩ := sweep_bindings hact hd hc _ slots
    (fun name b hmem => by
      obtain ⟨b₀, hb₀, hb⟩ := mem_boundTo_reboundState hmem
      refine ⟨b₀, hb₀, ?_, hb⟩
      rcases hb with rfl | ⟨hslot, -⟩
      · exact (BindingState.mem_boundTo.1 hmem).2
      · obtain ⟨b', hb', hvalue, -⟩ := hsweep.found d name hslot
        cases (binding?_eq_ok.2 ⟨c, hc, hb₀⟩).symm.trans hb'
        exact hvalue) hsweep hok
  have hswept : Swept a operation slots' d := by
    refine ⟨c, hc, fun name b hb hvalue => ?_⟩
    by_cases hslot : (d, name) ∈ slots
    · exact hslots' hslot
    · refine hall name b (BindingState.mem_boundTo.2 ⟨?_, hvalue⟩)
      rw [Context.mapCurrent, binding?_reboundState, hb, Option.map_some, if_neg hslot]
  exact ⟨slots', hslots', hr, hsweep'.done hswept, hswept⟩

theorem replaceWithin_sweeps : ∀ n, Sweeps a operation value start (replaceWithin operation value n)
  | 0 => fun _ _ _ _ _ _ hok => nomatch hok
  | n + 1 => replaceStep_sweeps (replaceWithin_sweeps n)

/-- When nothing is pending, all contexts that are led to have been swept. -/
theorem Sweep.swept (h : Sweep a operation start slots []) (hstart : Swept a operation slots start)
    (hd : a.Owners operation start d) : Swept a operation slots d := by
  induction hd with
  | refl => exact hstart
  | @tail here _ _ hstep ih =>
    obtain ⟨name, b, hb, hvalue, rfl⟩ := hstep
    obtain ⟨c, hc, hall⟩ := ih
    have hb' := (binding?_of_context hc).1 hb
    obtain ⟨b', hbinding, -, howner⟩ := h.found _ name (hall name b hb' hvalue)
    cases hb.symm.trans hbinding
    by_cases heq : b.owner = here
    · rw [heq]
      exact ⟨c, hc, hall⟩
    · exact (howner heq).resolve_right List.not_mem_nil

/-- Swept is a state whose slots that held the operation have been rebound, and no others. -/
theorem reboundState_eq_replaceType {s : BindingState}
    (hfound : ∀ name, (d, name) ∈ slots → ∃ b : Binding TypeExpr, s.binding? name = some b
      ∧ b.value = operation)
    (hall : ∀ name b, s.binding? name = some b → b.value = operation → (d, name) ∈ slots) :
    reboundState value slots d s = s.replaceType operation value d := by
  refine congrArg (BindingState.mk · s.muls s.lookahead)
    (Std.ExtTreeMap.ext_getElem? fun name => ?_)
  rw [Std.ExtTreeMap.getElem?_map, Std.ExtTreeMap.getElem?_map]
  rcases hb : s.types[name]? with _ | b
  · rfl
  · have hslot : (d, name) ∈ slots ↔ b.value = operation := by
      refine ⟨fun hmem => ?_, hall name b hb⟩
      obtain ⟨b', hb', hvalue⟩ := hfound name hmem
      cases hb.symm.trans hb'
      exact hvalue
    simp only [Option.map_some, hslot]

theorem replace_eq_ok {b : Arena} (hok : Arena.replace start operation value a = .ok () b) :
    (∀ d, a.Owners operation start d → ∃ c, a.context d = .ok c
        ∧ b.context d = .ok (c.mapCurrent (·.replaceType operation value d)))
      ∧ (∀ d, ¬ a.Owners operation start d → b.context d = a.context d)
      ∧ b = { a with contexts := b.contexts } := by
  obtain ⟨slots, -, rfl, hsweep, hswept⟩ := replaceWithin_sweeps (a.maxDepth + 1) start ∅ [] b .refl
    (.empty _) ((congrArg _ rebound_empty).trans hok)
  refine ⟨fun d hd => ?_, fun d hd => ?_, rfl⟩
  · obtain ⟨c, hc, hall⟩ := hsweep.swept hswept hd
    refine ⟨c, hc, ?_⟩
    rw [context_rebound, hc]
    refine congrArg (fun s => Except.ok { c with current := s })
      (reboundState_eq_replaceType (fun name hmem => ?_) hall)
    obtain ⟨b, hb, hvalue, -⟩ := hsweep.found d name hmem
    exact ⟨b, (binding?_of_context hc).1 hb, hvalue⟩
  · have hnone : ∀ name, (d, name) ∉ slots := fun name hmem => hd (hsweep.led d name hmem)
    have hstate : reboundState value slots d = fun s => s := by
      funext s
      simp only [reboundState, hnone, if_false, Std.ExtTreeMap.map_id]
    rw [context_rebound, hstate]
    rcases a.context d <;> rfl

end

end Arena

/-- A replacement that succeeds rebinds for good, in each context that it leads to along the owners
of the operation, all that was bound to the operation there, with that context as the owner. It
changes nothing else. The search for the one owner comes to a context among these, or else uses up
the depth limit, which it does just if more hops than that lead on by the first bindings. -/
theorem operation_owners (a : Arena) (id : ContextId) (operation value : TypeExpr) :
    (∀ b, Arena.replace id operation value a = .ok () b →
      (∀ d, a.Owners operation id d → ∃ c, a.context d = .ok c
        ∧ b.context d = .ok (c.mapCurrent (·.replaceType operation value d)))
      ∧ (∀ d, ¬ a.Owners operation id d → b.context d = a.context d)
      ∧ b = { a with contexts := b.contexts })
    ∧ (∀ owner, a.operationOwner id operation = .ok owner → a.Owners operation id owner)
    ∧ ((∃ limit, a.operationOwner id operation = .error (.depthExceeded limit))
      ↔ ∃ there, a.OwnerHops operation (a.maxDepth + 1) id there) :=
  ⟨fun _ => Arena.replace_eq_ok, fun _ => Arena.owners_of_seekOwner _ id,
    Arena.seekOwner_eq_depthExceeded _ id⟩

/-- Two contexts that each own what the other one has bound to a union. What the context above them
has bound to it belongs to one of them, but neither leads there. -/
def Arena.unionCircle : Arena :=
  let union : TypeExpr := .operation .union (.atom "A") (.atom "B")
  ({ hierarchy := .empty, maxDepth := 2 } : Arena)
    |>.insert 1 { Context.fresh 1 none none with
      current := ({} : BindingState).bind "V" (.bound union 2) }
    |>.insert 2 { Context.fresh 2 (some 1) none with
      current := ({} : BindingState).bind "T" (.bound union 3) }
    |>.insert 3 { Context.fresh 3 (some 1) none with
      current := ({} : BindingState).bind "S" (.bound union 3) |>.bind "U" (.bound union 2) }

/-- All that the two contexts have bound is rebound, though the first binding leads no further than
to the second one. -/
theorem operation_owners_circle :
    let union : TypeExpr := .operation .union (.atom "A") (.atom "B")
    Arena.unionCircle.operationOwner 2 union = .ok 3
      ∧ Arena.unionCircle.Owners union 2 3
      ∧ ∃ b, Arena.replace 2 union (.atom "A") Arena.unionCircle = .ok () b
        ∧ b.binding? 2 "T" = .ok (some (.terminal (TypeExpr.atom "A") 2))
        ∧ b.binding? 3 "U" = .ok (some (.terminal (TypeExpr.atom "A") 3))
        ∧ b.context 1 = Arena.unionCircle.context 1 := by
  intro union
  have howner : Arena.unionCircle.operationOwner 2 union = .ok 3 := by with_unfolding_all rfl
  obtain ⟨b, hb⟩ : ∃ b, Arena.replace 2 union (.atom "A") Arena.unionCircle = .ok () b :=
    ⟨_, by with_unfolding_all rfl⟩
  obtain ⟨hreplace, hseek, -⟩ := operation_owners Arena.unionCircle 2 union (.atom "A")
  obtain ⟨hled, hothers, -⟩ := hreplace b hb
  have hclosed : ∀ d, Arena.unionCircle.Owners union 2 d → d = 2 ∨ d = 3 := by
    intro d hd
    induction hd with
    | refl => exact .inl rfl
    | tail _ hstep ih =>
      obtain ⟨name, b, hb, -, rfl⟩ := hstep
      obtain ⟨c, hc, hb⟩ := Arena.binding?_eq_ok.1 hb
      have hmem := BindingState.mem_bindings.2 hb
      rcases ih with rfl | rfl
      · cases (show Arena.unionCircle.context 2 = .ok _ from rfl).symm.trans hc
        have hall : ∀ x ∈ [("T", Binding.bound union 3)], x.2.owner = 2 ∨ x.2.owner = 3 := by decide
        exact hall _ hmem
      · cases (show Arena.unionCircle.context 3 = .ok _ from rfl).symm.trans hc
        have hall : ∀ x ∈ [("S", Binding.bound union 3), ("U", .bound union 2)],
            x.2.owner = 2 ∨ x.2.owner = 3 := by decide
        exact hall _ hmem
  refine ⟨howner, hseek 3 howner, b, hb, ?_, ?_, hothers 1 ?_⟩
  · obtain ⟨c, hc, hc'⟩ := hled 2 .refl
    cases (show Arena.unionCircle.context 2 = .ok _ from rfl).symm.trans hc
    exact Arena.binding?_eq_ok.2 ⟨_, hc', by with_unfolding_all rfl⟩
  · obtain ⟨c, hc, hc'⟩ := hled 3 (hseek 3 howner)
    cases (show Arena.unionCircle.context 3 = .ok _ from rfl).symm.trans hc
    exact Arena.binding?_eq_ok.2 ⟨_, hc', by with_unfolding_all rfl⟩
  · intro h
    rcases hclosed 1 h with h | h <;> cases h

end ScopedInference
