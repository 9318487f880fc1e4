import Mathlib.Data.List.Nodup
import Mathlib.Data.List.Perm.Subperm
import ScopedInference.Arena.Creation
import ScopedInference.Arena.Display
import ScopedInference.Arena.Resolution

/-!
# Chains of parents

`Ascends` is the way up from a context to one without a parent. `root` and the printed chain are
bounded by the number of contexts, which is enough for any way up on which no context comes twice
(`Ascends.root_eq`, `Ascends.upward_eq`).

An arena is grown along a log if its contexts are those of the log, each below one that the log has
earlier (`Grown`). Every context of such an arena has a way up, which follows the log back
(`Grown.exists_ascends`); a new context keeps the arena grown as long as its id is not in the log
(`Grown.insert`).
-/

namespace ScopedInference

namespace Arena

theorem context_eq_ok_iff {a : Arena} {id : ContextId} {c : Context} :
    a.context id = .ok c ↔ a.contexts[id]? = some c := by
  unfold context
  split <;> simp_all

theorem context_congr {a b : Arena} (h : b.contexts = a.contexts) (id : ContextId) :
    b.context id = a.context id := by
  unfold context
  rw [h]

/-- The contexts on the way up from a context to one without a parent, in order. -/
inductive Ascends (a : Arena) : ContextId → List Context → Prop where
  | root {id c} : a.context id = .ok c → c.parent = none → Ascends a id [c]
  | up {id c p cs} : a.context id = .ok c → c.parent = some p → Ascends a p cs →
      Ascends a id (c :: cs)

namespace Ascends

variable {a : Arena}

theorem ne_nil {id : ContextId} {cs : List Context} (h : a.Ascends id cs) : cs ≠ [] := by
  cases h <;> simp

/-- The way up ends at a context without a parent. -/
theorem exists_top {id : ContextId} {cs : List Context} (h : a.Ascends id cs) :
    ∃ top, cs.getLast? = some top ∧ top.parent = none := by
  induction h with
  | root _ hp => exact ⟨_, rfl, hp⟩
  | up _ _ hcs ih =>
    obtain ⟨top, htop, hp⟩ := ih
    refine ⟨top, ?_, hp⟩
    rw [List.getLast?_cons_of_ne_nil hcs.ne_nil, htop]

variable (hkey : ∀ id c, a.context id = .ok c → c.id = id)

include hkey

theorem rootWithin_eq {id : ContextId} {cs : List Context} {top : Context}
    (h : a.Ascends id cs) (htop : cs.getLast? = some top) :
    ∀ n, cs.length ≤ n → a.rootWithin n id = .ok top.id := by
  induction h with
  | root hc hp =>
    intro n hn
    obtain ⟨n, rfl⟩ : ∃ m, n = m + 1 := ⟨n - 1, by simp at hn; omega⟩
    simp only [List.getLast?_singleton, Option.some.injEq] at htop
    subst htop
    simp only [rootWithin, hc, bind, Except.bind, hp, pure, Except.pure, hkey _ _ hc]
  | up hc hp hcs ih =>
    intro n hn
    simp only [List.length_cons] at hn
    obtain ⟨n, rfl⟩ : ∃ m, n = m + 1 := ⟨n - 1, by omega⟩
    rw [List.getLast?_cons_of_ne_nil hcs.ne_nil] at htop
    simp only [rootWithin, hc, bind, Except.bind, hp]
    exact ih htop n (by omega)

omit hkey in
theorem upwardWithin_eq {id : ContextId} {cs : List Context} (h : a.Ascends id cs) :
    ∀ n, cs.length ≤ n → a.upward n (some id) = cs := by
  induction h with
  | root hc hp =>
    intro n hn
    obtain ⟨n, rfl⟩ : ∃ m, n = m + 1 := ⟨n - 1, by simp at hn; omega⟩
    simp only [upward, context_eq_ok_iff.1 hc, hp]
  | up hc hp _ ih =>
    intro n hn
    simp only [List.length_cons] at hn
    obtain ⟨n, rfl⟩ : ∃ m, n = m + 1 := ⟨n - 1, by omega⟩
    simp only [upward, context_eq_ok_iff.1 hc, hp, ih n (by omega)]

theorem ids_subset_keys {id : ContextId} {cs : List Context} (h : a.Ascends id cs) :
    cs.map (·.id) ⊆ a.contexts.keys := by
  induction h with
  | root hc _ =>
    simp [hkey _ _ hc, Std.ExtTreeMap.mem_iff_isSome_getElem?, context_eq_ok_iff.1 hc]
  | up hc _ _ ih =>
    rw [List.map_cons, List.cons_subset]
    refine ⟨?_, ih⟩
    simp [hkey _ _ hc, Std.ExtTreeMap.mem_iff_isSome_getElem?, context_eq_ok_iff.1 hc]

/-- A way up that meets no context twice is no longer than the arena is large. -/
theorem length_le {id : ContextId} {cs : List Context} (h : a.Ascends id cs)
    (hnd : (cs.map (·.id)).Nodup) : cs.length ≤ a.contexts.size := by
  have := (hnd.subperm (h.ids_subset_keys hkey)).length_le
  rwa [List.length_map, Std.ExtTreeMap.length_keys] at this

theorem root_eq {id : ContextId} {cs : List Context} {top : Context} (h : a.Ascends id cs)
    (hnd : (cs.map (·.id)).Nodup) (htop : cs.getLast? = some top) :
    a.root id = .ok top.id :=
  h.rootWithin_eq hkey htop _ (Nat.le_succ_of_le (h.length_le hkey hnd))

/-- The printed chain is the whole way up. -/
theorem upward_eq {id : ContextId} {cs : List Context} (h : a.Ascends id cs)
    (hnd : (cs.map (·.id)).Nodup) : a.upward a.contexts.size (some id) = cs :=
  h.upwardWithin_eq _ (h.length_le hkey hnd)

theorem context_top {id : ContextId} {cs : List Context} {top : Context} (h : a.Ascends id cs)
    (htop : cs.getLast? = some top) : a.context top.id = .ok top := by
  induction h with
  | root hc _ =>
    simp only [List.getLast?_singleton, Option.some.injEq] at htop
    subst htop
    rwa [hkey _ _ hc]
  | up _ _ hcs ih => exact ih (by rwa [List.getLast?_cons_of_ne_nil hcs.ne_nil] at htop)

theorem isDeclaredAtRoot_eq {id : ContextId} {cs : List Context} {top : Context}
    (h : a.Ascends id cs) (hnd : (cs.map (·.id)).Nodup) (htop : cs.getLast? = some top)
    (name : String) : a.isDeclaredAtRoot id name = .ok (decide (name ∈ top.declared)) := by
  simp only [isDeclaredAtRoot, h.root_eq hkey hnd htop, bind, Except.bind,
    h.context_top hkey htop, pure, Except.pure]

end Ascends

/-- The contexts are those of a log, latest first, each below one that the log has earlier. -/
structure Grown (log : List ContextId) (a : Arena) : Prop where
  nodup : log.Nodup
  mem_iff : ∀ id, id ∈ log ↔ ∃ c, a.context id = .ok c
  key : ∀ id c, a.context id = .ok c → c.id = id
  parent_mem : ∀ id c p, a.context id = .ok c → c.parent = some p →
    ∀ later earlier, log = later ++ id :: earlier → p ∈ earlier

namespace Grown

variable {log : List ContextId} {a : Arena}

theorem empty (h : a.contexts = ∅) : Grown [] a where
  nodup := .nil
  mem_iff := by simp [context_eq_ok_iff, h]
  key := by simp [context_eq_ok_iff, h]
  parent_mem := by simp [context_eq_ok_iff, h]

theorem congr (g : Grown log a) {b : Arena} (h : b.contexts = a.contexts) : Grown log b := by
  have hc := context_congr h
  constructor
  · exact g.nodup
  · simpa only [hc] using g.mem_iff
  · simpa only [hc] using g.key
  · simpa only [hc] using g.parent_mem

/-- A new context below one of the log. -/
theorem insert (g : Grown log a) {new : ContextId} {c : Context} (hkey : c.id = new)
    (hfresh : new ∉ log) (hparent : ∀ p, c.parent = some p → p ∈ log) :
    Grown (new :: log) (a.insert new c) where
  nodup := g.nodup.cons hfresh
  mem_iff id := by
    rw [List.mem_cons, g.mem_iff]
    by_cases h : new = id
    · subst h
      simp
    · simp only [context_insert_of_ne _ h]
      exact or_iff_right fun e => h e.symm
  key id d hd := by
    by_cases h : new = id
    · subst h
      rw [context_insert_self, Except.ok.injEq] at hd
      rw [← hd, hkey]
    · rw [context_insert_of_ne _ h] at hd
      exact g.key id d hd
  parent_mem id d p hd hp later earlier heq := by
    by_cases h : new = id
    · subst h
      rw [context_insert_self, Except.ok.injEq] at hd
      subst hd
      rcases later with _ | ⟨x, later⟩
      · simp only [List.nil_append, List.cons.injEq] at heq
        exact heq.2 ▸ hparent p hp
      · simp only [List.cons_append, List.cons.injEq] at heq
        exact absurd (heq.2 ▸ by simp) hfresh
    · rw [context_insert_of_ne _ h] at hd
      rcases later with _ | ⟨x, later⟩
      · simp only [List.nil_append, List.cons.injEq] at heq
        exact absurd heq.1 h
      · simp only [List.cons_append, List.cons.injEq] at heq
        exact g.parent_mem id d p hd hp later earlier heq.2

/-- The parent of a context comes before it in the log. -/
theorem parent_earlier (g : Grown log a) {id p : ContextId} {c : Context}
    (hc : a.context id = .ok c) (hp : c.parent = some p) :
    ∃ later earlier, log = later ++ id :: earlier ∧ p ∈ earlier := by
  obtain ⟨later, earlier, heq⟩ := List.append_of_mem ((g.mem_iff id).2 ⟨c, hc⟩)
  exact ⟨later, earlier, heq, g.parent_mem id c p hc hp later earlier heq⟩

/-- The way up follows the log back, from any context of its earlier part. -/
theorem exists_ascends_of_suffix (g : Grown log a) :
    ∀ earlier later : List ContextId, log = later ++ earlier → ∀ id ∈ earlier,
      ∃ cs, a.Ascends id cs ∧ (cs.map (·.id)).Sublist earlier
  | [], _, _, id, hid => by simp at hid
  | x :: earlier, later, heq, id, hid => by
    have ih := g.exists_ascends_of_suffix earlier (later ++ [x])
      (by rw [heq, List.append_assoc, List.singleton_append])
    rcases List.mem_cons.1 hid with rfl | hid
    · obtain ⟨c, hc⟩ := (g.mem_iff id).1 (by rw [heq]; simp)
      have hcid := g.key id c hc
      rcases hp : c.parent with _ | p
      · exact ⟨[c], .root hc hp, by simp [hcid]⟩
      · obtain ⟨cs, hcs, hsub⟩ := ih p (g.parent_mem id c p hc hp later earlier heq)
        refine ⟨c :: cs, .up hc hp hcs, ?_⟩
        rw [List.map_cons, hcid]
        exact hsub.cons_cons id
    · obtain ⟨cs, hcs, hsub⟩ := ih id hid
      exact ⟨cs, hcs, hsub.cons x⟩

/-- Every context has a way up on which no context comes twice. -/
theorem exists_ascends (g : Grown log a) {id : ContextId} {c : Context}
    (hc : a.context id = .ok c) : ∃ cs, a.Ascends id cs ∧ (cs.map (·.id)).Nodup := by
  obtain ⟨cs, hcs, hsub⟩ :=
    g.exists_ascends_of_suffix log [] rfl id ((g.mem_iff id).2 ⟨c, hc⟩)
  exact ⟨cs, hcs, g.nodup.sublist hsub⟩

end Grown

/-- From every context parents lead, without meeting a context twice, to the parentless context that
`root` finds; `display` prints all of that way. -/
def Rooted (a : Arena) : Prop :=
  ∀ id c, a.context id = .ok c → ∃ cs top, a.Ascends id cs ∧ (cs.map (·.id)).Nodup
    ∧ cs.getLast? = some top ∧ top.parent = none ∧ a.root id = .ok top.id
    ∧ (∀ name, a.isDeclaredAtRoot id name = .ok (decide (name ∈ top.declared)))
    ∧ a.upward a.contexts.size (some id) = cs

theorem Grown.rooted {log : List ContextId} {a : Arena} (g : Grown log a) : a.Rooted := by
  intro id c hc
  obtain ⟨cs, hcs, hnd⟩ := g.exists_ascends hc
  obtain ⟨top, htop, hp⟩ := hcs.exists_top
  exact ⟨cs, top, hcs, hnd, htop, hp, hcs.root_eq g.key hnd htop,
    hcs.isDeclaredAtRoot_eq g.key hnd htop, hcs.upward_eq g.key hnd⟩

end Arena

end ScopedInference
