import ScopedInference.Proofs.Arena.Hops

/-!
# Rebinding a slot

What one new binding does to resolution (`Rebound`). A slot that no hop leads on from can be bound
to something else without breaking a path: the paths that pointed to it go on, and all others end
where they ended. So a new value for a bound slot is seen through all of them alike, and a value for
an unbound one is seen by those that pointed there (`PointsTo`). If its context owns it, they see
the value one hop later; if it is itself to be read at another slot, they go on from there, and
for ever if that one points back.
-/

namespace ScopedInference

namespace Arena

section

variable {α : Type} [Bindable α]

/-- Two arenas that show the same but at one slot, which the second one has bound. -/
structure Rebound (a b : Arena) (t : Slot) (x : Binding α) : Prop where
  maxDepth : b.maxDepth = a.maxDepth
  has : ∀ id, b.Has id ↔ a.Has id
  self : b.binding? t.1 t.2 = .ok (some x)
  other : ∀ s : Slot, s ≠ t →
    b.binding? s.1 s.2 = (a.binding? s.1 s.2 : Except _ (Option (Binding α)))

/-- So many hops lead from a slot to where it has its value. -/
def ResolvesIn (a : Arena) (m : Nat) (s : Slot) (v : α) : Prop :=
  ∃ (u : Slot) (e : Binding α), a.Hops α m s u ∧ a.binding? u.1 u.2 = .ok (some e)
    ∧ a.hop? u.1 e = .ok none ∧ e.value = v

/-- After so many hops from a slot there is a parameter, to be read at another slot. -/
def PointsTo (a : Arena) (m : Nat) (s t : Slot) (v : α) : Prop :=
  ∃ (u : Slot) (e : Binding α), a.Hops α m s u ∧ a.binding? u.1 u.2 = .ok (some e) ∧ e.value = v
    ∧ Bindable.parameterName? v = some t.2 ∧ e.owner = t.1 ∧ t.1 ≠ u.1

variable (α) in
/-- Each name of each context resolves, be it to nothing. -/
def Resolves (a : Arena) : Prop :=
  ∀ id, a.Has id → ∀ name, ∃ v? : Option α, a.resolveParameter id name = .ok v?

variable (α) in
/-- All names resolve in the second arena, and those that had a value in the first one to that
value. -/
structure KeepsValues (a b : Arena) : Prop where
  resolves : b.Resolves α
  value : ∀ id name (v : α), a.resolveParameter id name = .ok (some v) →
    b.resolveParameter id name = .ok (some v)

/-! ### Resolution by hops -/

variable {a b : Arena} {s t r u : Slot} {v w : α} {e x : Binding α} {m n : Nat}

theorem hop?_eq_some {next : Binding α} (h : a.hop? s.1 e = .ok (some next)) :
    ∃ t : Slot, Bindable.parameterName? e.value = some t.2 ∧ e.owner = t.1 ∧ t.1 ≠ s.1
      ∧ a.binding? t.1 t.2 = .ok (some next) := by
  unfold hop? at h
  split at h
  · cases h
  rename_i name hname
  split at h
  · cases h
  · rename_i howner
    exact ⟨(e.owner, name), hname, rfl, howner, h⟩

/-- Nothing is to be read elsewhere, or nothing is bound there. -/
theorem hop?_eq_none : a.hop? s.1 e = .ok none ↔
    ∀ t : Slot, Bindable.parameterName? e.value = some t.2 → e.owner = t.1 → t.1 ≠ s.1 →
      a.binding? t.1 t.2 = .ok (none : Option (Binding α)) := by
  unfold hop?
  rcases hname : Bindable.parameterName? e.value with _ | name
  · simp
  by_cases howner : e.owner = s.1
  · simp only [if_pos howner, true_iff]
    exact fun t _ ht hne => absurd (ht.symm.trans howner) hne
  · simp only [if_neg howner]
    constructor
    · rintro h ⟨id, name'⟩ hname' rfl -
      cases hname'
      exact h
    · exact fun h => h (e.owner, name) rfl rfl howner

theorem hop?_of_not_parameter (hnone : Bindable.parameterName? e.value = none) (id : ContextId) :
    a.hop? id e = .ok none := by
  simp only [hop?, hnone]

theorem Hops.has (h : a.Hops α m s t) (he : a.binding? t.1 t.2 = .ok (some e)) : a.Has s.1 := by
  obtain ⟨b, hb⟩ := h.exists_binding he
  obtain ⟨c, hc, -⟩ := binding?_eq_ok.1 hb
  exact ⟨c, hc⟩

theorem resolvesIn_of_follow : ∀ {n : Nat} {s : Slot} {e : Binding α},
    a.binding? s.1 s.2 = .ok (some e) → a.follow n s.1 e = .ok v →
    ∃ m ≤ n, a.ResolvesIn m s v := by
  intro n
  induction n with
  | zero =>
    intro s e he h
    rcases hhop : a.hop? s.1 e with err | _ | next <;> rw [follow, hhop] at h <;> cases h
    exact ⟨0, Nat.le_refl 0, s, e, .here s, he, hhop, rfl⟩
  | succ n ih =>
    intro s e he h
    rcases hhop : a.hop? s.1 e with err | _ | next
    · rw [follow, hhop] at h
      cases h
    · rw [follow, hhop] at h
      cases h
      exact ⟨0, Nat.zero_le _, s, e, .here s, he, hhop, rfl⟩
    · obtain ⟨t, hname, howner, hne, hnext⟩ := hop?_eq_some hhop
      rw [follow_of_hop_some hhop, howner] at h
      obtain ⟨m, hm, u, e', hu, he', hend, rfl⟩ := ih hnext h
      exact ⟨m + 1, Nat.succ_le_succ hm, u, e', .hop ⟨e, next, he, hname, howner, hne, hnext⟩ hu,
        he', hend, rfl⟩

theorem Hops.resolvesIn (h : a.Hops α m s t) (he : a.binding? t.1 t.2 = .ok (some e))
    (hnone : Bindable.parameterName? e.value = none) : a.ResolvesIn m s e.value :=
  ⟨t, e, h, he, hop?_of_not_parameter hnone t.1, rfl⟩

theorem ResolvesIn.has (h : a.ResolvesIn m s v) : a.Has s.1 := by
  obtain ⟨u, e, hu, he, -⟩ := h
  exact hu.has he

theorem ResolvesIn.resolveParameter (h : a.ResolvesIn m s v) (hm : m ≤ a.maxDepth) :
    a.resolveParameter s.1 s.2 = .ok (some v) := by
  obtain ⟨u, e, hu, he, hend, rfl⟩ := h
  obtain ⟨b, hb⟩ := hu.exists_binding he
  rw [resolveParameter_of_bound hb, hu.follow_eq_ok he hend hm hb]
  rfl

theorem resolvesIn_of_resolveParameter (h : a.resolveParameter s.1 s.2 = .ok (some v)) :
    ∃ m ≤ a.maxDepth, a.ResolvesIn m s v := by
  rcases hb : (a.binding? s.1 s.2 : Except _ (Option (Binding α))) with err | _ | e
  · simp only [Arena.resolveParameter, hb, bind, Except.bind, reduceCtorEq] at h
  · rw [resolveParameter_eq_none.2 hb] at h
    cases h
  · rw [resolveParameter_of_bound hb] at h
    rcases hfollow : a.follow a.maxDepth s.1 e with err | v' <;> rw [hfollow] at h <;> cases h
    exact resolvesIn_of_follow hb hfollow

/-- There is one value, as many hops away as it is. -/
theorem ResolvesIn.unique (h : a.ResolvesIn m s v) (h' : a.ResolvesIn n s w) :
    m = n ∧ v = w := by
  obtain ⟨u, e, hu, he, hend, rfl⟩ := h
  obtain ⟨u', e', hu', he', hend', rfl⟩ := h'
  obtain ⟨rfl, rfl⟩ := (hu'.of_ends (ends_of_hop?_none he' hend') hu).2 (ends_of_hop?_none he hend)
  cases he.symm.trans he'
  exact ⟨rfl, rfl⟩

theorem Resolves.resolvesIn (ha : a.Resolves α) (h : a.ResolvesIn m s v) :
    m ≤ a.maxDepth ∧ a.resolveParameter s.1 s.2 = .ok (some v) := by
  obtain ⟨_ | w, hw⟩ := ha s.1 h.has s.2
  · obtain ⟨u, e, hu, he, -⟩ := h
    obtain ⟨b, hb⟩ := hu.exists_binding he
    cases (resolveParameter_eq_none.1 hw).symm.trans hb
  · obtain ⟨n, hn, hin⟩ := resolvesIn_of_resolveParameter hw
    obtain ⟨rfl, rfl⟩ := h.unique hin
    exact ⟨hn, hw⟩

theorem Resolves.exists_resolvesIn (ha : a.Resolves α) (hb : a.binding? s.1 s.2 = .ok (some e)) :
    ∃ m v, m ≤ a.maxDepth ∧ a.ResolvesIn m s (v : α) := by
  obtain ⟨_ | v, hv⟩ := ha s.1 ((Hops.here s).has hb) s.2
  · cases (resolveParameter_eq_none.1 hv).symm.trans hb
  · obtain ⟨m, hm, hin⟩ := resolvesIn_of_resolveParameter hv
    exact ⟨m, v, hm, hin⟩

/-- No path from a slot is longer than resolution allows. -/
theorem Resolves.hops_le (ha : a.Resolves α) (h : a.Hops α m s t)
    (he : a.binding? t.1 t.2 = .ok (some e)) : m ≤ a.maxDepth := by
  obtain ⟨b, hb⟩ := h.exists_binding he
  obtain ⟨n, v, hn, u, e', hu, he', hend, -⟩ := ha.exists_resolvesIn hb
  exact (hu.of_ends (ends_of_hop?_none he' hend) h).1.trans hn

theorem Resolves.not_circle (ha : a.Resolves α) : ¬ a.Hops α (m + 1) t t := by
  intro h
  obtain ⟨k, hk, hround⟩ := h.circle (a.maxDepth + 1)
  obtain ⟨e, he⟩ : ∃ e : Binding α, a.binding? t.1 t.2 = .ok (some e) := by
    cases h with
    | hop hs _ =>
      obtain ⟨e, -, he, -⟩ := hs
      exact ⟨e, he⟩
  exact absurd (ha.hops_le hround he) (by omega)

/-- A slot that points to an unbound one shows what it points with. -/
theorem PointsTo.resolvesIn (h : a.PointsTo m s t v)
    (ht : a.binding? t.1 t.2 = .ok (none : Option (Binding α))) : a.ResolvesIn m s v := by
  obtain ⟨u, e, hu, he, rfl, hname, howner, -⟩ := h
  refine ⟨u, e, hu, he, hop?_eq_none.2 fun t' hname' howner' _ => ?_, rfl⟩
  obtain rfl : t = t' :=
    Prod.ext (howner.symm.trans howner') (Option.some.inj (hname.symm.trans hname'))
  exact ht

theorem ends_of_unbound (ht : a.binding? t.1 t.2 = .ok (none : Option (Binding α))) :
    a.Ends α t := by
  rintro u ⟨e, -, he, -⟩
  cases he.symm.trans ht

/-! ### The new binding -/

namespace Rebound

theorem trans {y : Binding α} {c : Arena} (h : a.Rebound b t x) (h' : b.Rebound c t y) :
    a.Rebound c t y where
  maxDepth := h'.maxDepth.trans h.maxDepth
  has id := (h'.has id).trans (h.has id)
  self := h'.self
  other s hs := (h'.other s hs).trans (h.other s hs)

variable (h : a.Rebound b t x)

include h

theorem hop (hs : a.Hop α s u) (hne : s ≠ t) : b.Hop α s u := by
  obtain ⟨e, next, he, hname, howner, hother, hnext⟩ := hs
  by_cases hu : u = t
  · subst hu
    exact ⟨e, x, (h.other s hne).trans he, hname, howner, hother, h.self⟩
  · exact ⟨e, next, (h.other s hne).trans he, hname, howner, hother, (h.other u hu).trans hnext⟩

/-- The slot is not left on any path, so all of them stay. -/
theorem hops (ht : a.Ends α t) (hs : a.Hops α m s u) : b.Hops α m s u := by
  induction hs with
  | here s => exact .here s
  | @hop n s s' u hs _ ih =>
    refine .hop (h.hop hs ?_) ih
    rintro rfl
    exact ht _ hs

/-- A slot that is bound to a value that is no parameter. -/
theorem resolvesIn_of_value (he : a.binding? t.1 t.2 = .ok (some e)) (hvalue : x.value = e.value)
    (hnone : Bindable.parameterName? e.value = none) (hs : a.ResolvesIn m s v) :
    b.ResolvesIn m s v := by
  have ht : a.Ends α t := ends_of_hop?_none he (hop?_of_not_parameter hnone t.1)
  obtain ⟨u, e', hu, he', hend, rfl⟩ := hs
  by_cases heq : u = t
  · subst heq
    cases he.symm.trans he'
    exact hvalue ▸ (h.hops ht hu).resolvesIn h.self (hvalue ▸ hnone)
  · refine ⟨u, e', h.hops ht hu, (h.other u heq).trans he',
      hop?_eq_none.2 fun r hname howner hne => ?_, rfl⟩
    have hr := hop?_eq_none.1 hend r hname howner hne
    rwa [h.other r fun heq => by subst heq; cases he.symm.trans hr]

section

variable (ht : a.binding? t.1 t.2 = .ok (none : Option (Binding α)))

include ht

/-- A path ends where it ended, unless it pointed to the slot. -/
theorem resolvesIn_of_unbound (hs : a.ResolvesIn m s v) :
    a.PointsTo m s t v ∨ b.ResolvesIn m s v := by
  obtain ⟨u, e, hu, he, hend, rfl⟩ := hs
  have hne : u ≠ t := by
    rintro rfl
    cases he.symm.trans ht
  by_cases hpoints : Bindable.parameterName? e.value = some t.2 ∧ e.owner = t.1 ∧ t.1 ≠ u.1
  · exact .inl ⟨u, e, hu, he, rfl, hpoints⟩
  · refine .inr ⟨u, e, h.hops (ends_of_unbound ht) hu, (h.other u hne).trans he,
      hop?_eq_none.2 fun r hname howner hother => ?_, rfl⟩
    rw [h.other r fun heq => hpoints (heq ▸ ⟨hname, howner, hother⟩)]
    exact hop?_eq_none.1 hend r hname howner hother

/-- What pointed to the slot goes there. -/
theorem hops_of_pointsTo (hs : a.PointsTo m s t v) : b.Hops α (m + 1) s t := by
  obtain ⟨u, e, hu, he, rfl, hname, howner, hother⟩ := hs
  have hne : u ≠ t := by
    rintro rfl
    exact hother rfl
  exact (h.hops (ends_of_unbound ht) hu).trans
    (.hop ⟨e, x, (h.other u hne).trans he, hname, howner, hother, h.self⟩ (.here t))

end

/-- Unbound slots stay so but for the one. -/
theorem keepsValues_of (ha : a.Resolves α)
    (hself : ∃ v? : Option α, b.resolveParameter t.1 t.2 = .ok v?)
    (hvalue : ∀ m s (v : α), a.ResolvesIn m s v → b.resolveParameter s.1 s.2 = .ok (some v)) :
    a.KeepsValues α b := by
  have hkept : ∀ (s : Slot) (v : α), a.resolveParameter s.1 s.2 = .ok (some v) →
      b.resolveParameter s.1 s.2 = .ok (some v) := fun s v hv => by
    obtain ⟨m, -, hin⟩ := resolvesIn_of_resolveParameter hv
    exact hvalue m s v hin
  refine ⟨fun id hid name => ?_, fun id name v => hkept (id, name) v⟩
  obtain ⟨_ | v, hv⟩ := ha id ((h.has id).1 hid) name
  · by_cases heq : (id, name) = t
    · subst heq
      exact hself
    · exact ⟨none, resolveParameter_eq_none.2
        ((h.other (id, name) heq).trans (resolveParameter_eq_none.1 hv))⟩
  · exact ⟨some v, hkept (id, name) v hv⟩

/-- The same value with another owner. -/
theorem keepsValues_of_value (ha : a.Resolves α) (he : a.binding? t.1 t.2 = .ok (some e))
    (hvalue : x.value = e.value) (hnone : Bindable.parameterName? e.value = none) :
    a.KeepsValues α b := by
  have hkept : ∀ m s (v : α), a.ResolvesIn m s v → b.resolveParameter s.1 s.2 = .ok (some v) :=
    fun m s v hs => (h.resolvesIn_of_value he hvalue hnone hs).resolveParameter
      (h.maxDepth ▸ (ha.resolvesIn hs).1)
  exact h.keepsValues_of ha ⟨_, hkept 0 t e.value ((Hops.here t).resolvesIn he hnone)⟩ hkept

/-- A value that the slot's own context owns is seen by all that pointed to the slot. -/
theorem keepsValues_iff_own (ha : a.Resolves α)
    (ht : a.binding? t.1 t.2 = .ok (none : Option (Binding α))) (hx : x.owner = t.1) :
    a.KeepsValues α b ↔ ∀ m s v, a.PointsTo m s t v → v = x.value ∧ m < a.maxDepth := by
  have hend : b.hop? t.1 x = .ok none :=
    hop?_eq_none.2 fun r _ howner hne => absurd (howner.symm.trans hx) hne
  have hsees : ∀ {m s} {v : α}, a.PointsTo m s t v → b.ResolvesIn (m + 1) s x.value := fun hs =>
    ⟨t, x, h.hops_of_pointsTo ht hs, h.self, hend, rfl⟩
  constructor
  · intro hkept m s v hs
    have hv := hkept.value _ _ _ (ha.resolvesIn (hs.resolvesIn ht)).2
    obtain ⟨hm, hx⟩ := hkept.resolves.resolvesIn (hsees hs)
    cases hv.symm.trans hx
    exact ⟨rfl, h.maxDepth ▸ hm⟩
  · intro hall
    refine h.keepsValues_of ha ⟨_, ResolvesIn.resolveParameter
      ⟨t, x, .here t, h.self, hend, rfl⟩ (Nat.zero_le _)⟩ fun m s v hs => ?_
    rcases h.resolvesIn_of_unbound ht hs with hpoints | hb
    · obtain ⟨rfl, hm⟩ := hall m s v hpoints
      exact (hsees hpoints).resolveParameter (h.maxDepth ▸ hm)
    · exact hb.resolveParameter (h.maxDepth ▸ (ha.resolvesIn hs).1)

/-- A value that is to be read at another slot: what pointed to the rebound slot is led on there, and
round in a circle if that other slot pointed here itself. -/
theorem keepsValues_iff_foreign (ha : a.Resolves α)
    (ht : a.binding? t.1 t.2 = .ok (none : Option (Binding α)))
    (hname : Bindable.parameterName? x.value = some r.2) (howner : x.owner = r.1) (hne : r.1 ≠ t.1)
    (hr : a.binding? r.1 r.2 = .ok (some e))
    (hvalue : (∃ m v, a.PointsTo m r t (v : α))
      ∨ ∃ m v, a.ResolvesIn m r v ∧ Bindable.parameterName? (v : α) = none) :
    a.KeepsValues α b ↔ (∀ m s v, ¬ a.PointsTo m s t (v : α))
      ∧ ∃ m < a.maxDepth, ∃ v : α, a.ResolvesIn m r v := by
  have hleads : b.Hop α t r :=
    ⟨x, e, h.self, hname, howner, hne, (h.other r (by rintro rfl; exact hne rfl)).trans hr⟩
  constructor
  · intro hkept
    -- If the other slot points back, there is a circle.
    have hback : ∀ m (v : α), ¬ a.PointsTo m r t v := fun m v hm =>
      hkept.resolves.not_circle (.hop hleads (h.hops_of_pointsTo ht hm))
    obtain ⟨m, v, hin, hnone⟩ := hvalue.resolve_left fun ⟨m, v, hm⟩ => hback m v hm
    have hinb := (h.resolvesIn_of_unbound ht hin).resolve_left (hback m v)
    obtain ⟨u, e', hu, he', hend, rfl⟩ := hinb
    refine ⟨fun n s w hs => ?_, m, ?_, e'.value, hin⟩
    · have hw := hkept.value _ _ _ (ha.resolvesIn (hs.resolvesIn ht)).2
      have hv := (hkept.resolves.resolvesIn
        ⟨u, e', (h.hops_of_pointsTo ht hs).trans (.hop hleads hu), he', hend, rfl⟩).2
      cases hw.symm.trans hv
      obtain ⟨-, -, -, -, -, hparam, -⟩ := hs
      simp [hnone] at hparam
    · have := hkept.resolves.hops_le (.hop hleads hu) he'
      rw [h.maxDepth] at this
      exact this
  · rintro ⟨hall, m, hm, v, hin⟩
    have hkept : ∀ m s (v : α), a.ResolvesIn m s v → b.ResolvesIn m s v := fun m s v hs =>
      (h.resolvesIn_of_unbound ht hs).resolve_left (hall m s v)
    refine h.keepsValues_of ha ?_ fun m s v hs =>
      (hkept m s v hs).resolveParameter (h.maxDepth ▸ (ha.resolvesIn hs).1)
    obtain ⟨u, e', hu, he', hend, rfl⟩ := hkept m r v hin
    exact ⟨_, ResolvesIn.resolveParameter ⟨u, e', .hop hleads hu, he', hend, rfl⟩
      (h.maxDepth ▸ hm)⟩

end Rebound

end

end Arena

end ScopedInference
