import ScopedInference.Hierarchy.View

/-!
# Walks up a hierarchy

A walk goes from class to class along declared generalizations. A view follows one, with each
class's parameters standing for the arguments that the walk has brought there (`viewWithin_along`).
The search for it is depth first and knows no class again, so it may come back to a class, and may
find another walk than a given one; but it finds one if any is short enough
(`Walk.viewWithin_isSome`).
-/

namespace ScopedInference

/-- A class type's arguments, carried along generalizations with their declarations. -/
def ClassType.along (c : ClassType) (walk : List (ClassDecl × ClassType)) : ClassType :=
  walk.foldl (fun c (d, g) => g.substitute (d.bindings c)) c

namespace Hierarchy

/-- Generalizations that lead from one class to another one. Each is declared by the class that the
ones before it lead to, and stands beside that declaration. -/
inductive Walk (h : Hierarchy) : ClassName → List (ClassDecl × ClassType) → ClassName → Prop where
  | nil (x) : Walk h x [] x
  | cons {x d g walk y} : h.find? x = some d → g ∈ d.generalizations → Walk h g.head walk y →
      Walk h x ((d, g) :: walk) y

variable {h : Hierarchy} {x y : ClassName} {walk : List (ClassDecl × ClassType)}

/-- Views are found along walks. -/
theorem viewWithin_along {ancestor : ClassName} : ∀ (n : Nat) {c v : ClassType},
    h.viewWithin ancestor n c = some v →
      ∃ walk, h.Walk c.head walk ancestor ∧ walk.length ≤ n ∧ v = c.along walk
  | n, c, v, hv => by
    unfold viewWithin at hv
    split at hv
    · rename_i heq
      cases hv
      exact ⟨[], heq ▸ .nil _, Nat.zero_le n, rfl⟩
    cases n with
    | zero => simp at hv
    | succ n =>
      obtain ⟨d, hd, hv⟩ := Option.bind_eq_some_iff.1 hv
      obtain ⟨g, hg, hv⟩ := List.exists_of_findSome?_eq_some hv
      obtain ⟨walk, hwalk, hlength, rfl⟩ := viewWithin_along n hv
      exact ⟨(d, g) :: walk, .cons hd hg hwalk, Nat.succ_le_succ hlength, rfl⟩

/-- There is a view if a walk is short enough, be it along another walk. -/
theorem Walk.viewWithin_isSome (hwalk : h.Walk x walk y) : ∀ {n : Nat} {c : ClassType},
    c.head = x → walk.length ≤ n → (h.viewWithin y n c).isSome := by
  induction hwalk with
  | nil x =>
    intro n c hc _
    unfold viewWithin
    rw [if_pos hc]
    rfl
  | @cons x d g walk y hd hg _ ih =>
    intro n c hc hn
    obtain ⟨n, rfl⟩ : ∃ k, n = k + 1 := ⟨n - 1, by simp at hn; omega⟩
    unfold viewWithin
    split
    · rfl
    · dsimp only
      rw [hc, hd, Option.bind_some, List.findSome?_isSome_iff]
      exact ⟨g, hg, ih rfl (Nat.le_of_succ_le_succ hn)⟩

theorem Walk.head_along (hwalk : h.Walk x walk y) : ∀ {c : ClassType}, c.head = x →
    (c.along walk).head = y := by
  induction hwalk with
  | nil x => exact id
  | cons _ _ _ ih => exact fun _ => ih rfl

/-- What one generalization keeps, a walk keeps. -/
theorem Walk.along_induct {P : ClassType → Prop}
    (hstep : ∀ c d g, h.find? c.head = some d → g ∈ d.generalizations → P c →
      P (g.substitute (d.bindings c)))
    (hwalk : h.Walk x walk y) : ∀ {c : ClassType}, c.head = x → P c → P (c.along walk) := by
  induction hwalk with
  | nil x => exact fun _ hc => hc
  | cons hd hg _ ih =>
    intro c hc hP
    exact ih rfl (hstep c _ _ (hc ▸ hd) hg hP)

theorem view?_isSome_iff {c : ClassType} :
    (h.view? c y).isSome ↔ ∃ walk, h.Walk c.head walk y ∧ walk.length ≤ maxSteps := by
  constructor
  · intro hv
    obtain ⟨v, hv⟩ := Option.isSome_iff_exists.1 hv
    obtain ⟨walk, hwalk, hlength, -⟩ := viewWithin_along maxSteps hv
    exact ⟨walk, hwalk, hlength⟩
  · rintro ⟨walk, hwalk, hlength⟩
    exact hwalk.viewWithin_isSome rfl hlength

end Hierarchy

end ScopedInference
