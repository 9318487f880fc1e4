import Mathlib.Data.List.Pairwise
import Mathlib.Order.Lattice.Nat
import ScopedInference.Proofs.Hierarchy.Ancestors

/-!
# The search for ancestors

Ancestors are found layer by layer. The layers are those of the distance from the class that the
search starts at (`Layered`), so nearer classes come first, in circular hierarchies too. It comes to
the same as a search with a queue, which takes one class at a time and may meet a class again
(`queueSearch_iff`).
-/

namespace ScopedInference

namespace Hierarchy

/-- So many direct supertypes lead from one class to the other. -/
inductive Steps (h : Hierarchy) (start : ClassName) : Nat → ClassName → Prop where
  | refl : Steps h start 0 start
  | tail {n y x} : Steps h start n y → x ∈ h.directSupertypes y → Steps h start (n + 1) x

/-- The length of a shortest way up. -/
noncomputable def distance (h : Hierarchy) (start x : ClassName) : Nat :=
  sInf {n | h.Steps start n x}

/-- A search with a queue, of which the third list comes out. A class that has been seen is passed
over; any other is seen now, and those directly above it join the queue, in it already or not. -/
inductive QueueSearch (h : Hierarchy) :
    List ClassName → List ClassName → List ClassName → Prop where
  | done (seen) : QueueSearch h seen [] seen
  | again {x seen queue found} : x ∈ seen → QueueSearch h seen queue found →
      QueueSearch h seen (x :: queue) found
  | new {x seen queue found} : x ∉ seen →
      QueueSearch h (seen ++ [x]) (queue ++ h.directSupertypes x) found →
      QueueSearch h seen (x :: queue) found

variable {h : Hierarchy} {start x y : ClassName} {n : Nat} {seen layer queue found : List ClassName}

/-! ### Distances -/

theorem Steps.reaches (hsteps : h.Steps start n x) : h.Reaches start x := by
  induction hsteps with
  | refl => exact .refl
  | tail _ hx ih => exact .tail ih hx

theorem Steps.distance_le (hsteps : h.Steps start n x) : h.distance start x ≤ n :=
  Nat.sInf_le hsteps

theorem steps_distance (hx : h.Reaches start x) : h.Steps start (h.distance start x) x := by
  have hsome : ∃ n, h.Steps start n x := by
    induction hx with
    | refl => exact ⟨0, .refl⟩
    | tail _ hx ih =>
      obtain ⟨n, hn⟩ := ih
      exact ⟨n + 1, .tail hn hx⟩
  exact Nat.sInf_mem hsome

theorem distance_start (h : Hierarchy) (start : ClassName) : h.distance start start = 0 :=
  Nat.eq_zero_of_le_zero Steps.refl.distance_le

theorem eq_start_of_distance (hx : h.Reaches start x) (hzero : h.distance start x = 0) :
    x = start := by
  have hsteps := steps_distance hx
  rw [hzero] at hsteps
  cases hsteps
  rfl

theorem distance_le_succ (hy : h.Reaches start y) (hx : x ∈ h.directSupertypes y) :
    h.distance start x ≤ h.distance start y + 1 :=
  ((steps_distance hy).tail hx).distance_le

/-- A shortest way passes a class that is one step nearer. -/
theorem exists_nearer (hx : h.Reaches start x) (hn : h.distance start x = n + 1) :
    ∃ y, h.Reaches start y ∧ h.distance start y = n ∧ x ∈ h.directSupertypes y := by
  have hsteps := steps_distance hx
  rw [hn] at hsteps
  obtain _ | ⟨hy, hup⟩ := hsteps
  refine ⟨_, hy.reaches, Nat.le_antisymm hy.distance_le ?_, hup⟩
  have := distance_le_succ hy.reaches hup
  omega

/-! ### Layers -/

/-- The classes seen are those up to a distance, nearest first, and the layer those right at it. -/
structure Layered (h : Hierarchy) (start : ClassName) (n : Nat) (seen layer : List ClassName) :
    Prop where
  mem_seen : ∀ {x}, x ∈ seen ↔ h.Reaches start x ∧ h.distance start x ≤ n
  mem_layer : ∀ {x}, x ∈ layer ↔ h.Reaches start x ∧ h.distance start x = n
  sorted : seen.Pairwise fun x y => h.distance start x ≤ h.distance start y

theorem layered_start (h : Hierarchy) (start : ClassName) : h.Layered start 0 [start] [start] := by
  have hmem : ∀ {x}, x ∈ [start] ↔ h.Reaches start x ∧ h.distance start x = 0 := by
    intro x
    rw [List.mem_singleton]
    constructor
    · rintro rfl
      exact ⟨.refl, h.distance_start x⟩
    · rintro ⟨hx, hzero⟩
      exact eq_start_of_distance hx hzero
  constructor
  · intro x
    rw [hmem, Nat.le_zero]
  · exact hmem
  · exact List.pairwise_singleton _ _

/-- What is new directly above a layer is one step further away. -/
theorem Layered.mem_nextLayer (hl : h.Layered start n seen layer) :
    x ∈ h.nextLayer seen layer ↔ h.Reaches start x ∧ h.distance start x = n + 1 := by
  simp only [Hierarchy.mem_nextLayer, hl.mem_layer, hl.mem_seen]
  constructor
  · rintro ⟨⟨y, ⟨hy, hyn⟩, hyx⟩, hnew⟩
    have hx : h.Reaches start x := hy.tail hyx
    have hle := distance_le_succ hy hyx
    have hlt : ¬ h.distance start x ≤ n := fun hle => hnew ⟨hx, hle⟩
    exact ⟨hx, by omega⟩
  · rintro ⟨hx, hn⟩
    obtain ⟨y, hy, hyn, hyx⟩ := exists_nearer hx hn
    exact ⟨⟨y, ⟨hy, hyn⟩, hyx⟩, fun hold => by omega⟩

theorem Layered.next (hl : h.Layered start n seen layer) :
    h.Layered start (n + 1) (seen ++ h.nextLayer seen layer) (h.nextLayer seen layer) where
  mem_seen := by
    intro x
    rw [List.mem_append, hl.mem_seen, hl.mem_nextLayer, ← and_or_left]
    exact and_congr_right fun _ => Nat.le_succ_iff.symm
  mem_layer := hl.mem_nextLayer
  sorted := by
    refine List.pairwise_append.2 ⟨hl.sorted, List.pairwise_of_forall_mem_list ?_, ?_⟩
    · intro x hx y hy
      rw [(hl.mem_nextLayer.1 hx).2, (hl.mem_nextLayer.1 hy).2]
    · intro x hx y hy
      have hx := (hl.mem_seen.1 hx).2
      have hy := (hl.mem_nextLayer.1 hy).2
      omega

/-- However far the search goes, nearer classes come first. -/
theorem Layered.climb_sorted : ∀ (k : Nat) {n : Nat} {seen layer : List ClassName},
    h.Layered start n seen layer →
      (h.climb k seen layer).Pairwise fun x y => h.distance start x ≤ h.distance start y
  | 0, _, _, _, hl => hl.sorted
  | k + 1, _, _, _, hl => hl.next.climb_sorted k

/-! ### Searching with a queue -/

/-- A search has one outcome. -/
theorem QueueSearch.unique {found' : List ClassName} (hf : h.QueueSearch seen queue found)
    (hf' : h.QueueSearch seen queue found') : found = found' := by
  induction hf with
  | done seen =>
    cases hf'
    rfl
  | again hx _ ih =>
    cases hf' with
    | again _ hf' => exact ih hf'
    | new hnew _ => exact absurd hx hnew
  | new hnew _ ih =>
    cases hf' with
    | again hx _ => exact absurd hx hnew
    | new _ hf' => exact ih hf'

/-- The classes of a list that have not been seen, in order of first mention. -/
def unseen (seen l : List ClassName) : List ClassName := l.eraseDups.filter (· ∉ seen)

theorem mem_unseen {l : List ClassName} : x ∈ unseen seen l ↔ x ∈ l ∧ x ∉ seen := by
  rw [unseen, List.mem_filter, List.mem_eraseDups, decide_eq_true_eq]

theorem unseen_snoc (seen l : List ClassName) (x : ClassName) :
    unseen seen (l ++ [x]) = unseen seen l ++ if x ∈ seen ++ unseen seen l then [] else [x] := by
  have hmem : x ∈ seen ++ unseen seen l ↔ x ∈ l ∨ x ∈ seen := by
    rw [List.mem_append, mem_unseen]
    tauto
  have hone : [x].eraseDups = [x] := by simp [List.eraseDups_cons]
  rw [if_congr hmem rfl rfl]
  simp only [unseen, List.eraseDups_append, List.filter_append]
  by_cases hl : x ∈ l
  · simp [List.removeAll, hl]
  · by_cases hseen : x ∈ seen <;> simp [List.removeAll, hl, hseen, hone]

/-- A queue's first classes are taken in turn. Those that have not been seen are seen now, each
once, and the classes directly above them wait behind the rest of the queue. -/
theorem QueueSearch.append {l : List ClassName} : ∀ {queue : List ClassName},
    h.QueueSearch (seen ++ unseen seen l)
        (queue ++ (unseen seen l).flatMap h.directSupertypes) found →
      h.QueueSearch seen (l ++ queue) found := by
  -- From the end, as what has been seen before a class decides about it
  induction l using List.reverseRecOn with
  | nil => simp [unseen]
  | append_singleton l x ih =>
    intro queue hf
    rw [List.append_assoc, List.singleton_append]
    apply ih
    rw [unseen_snoc] at hf
    rw [List.cons_append]
    split at hf
    · rename_i hx
      rw [List.append_nil] at hf
      exact .again hx hf
    · rename_i hnew
      rw [List.flatMap_append, List.flatMap_singleton] at hf
      exact .new hnew (by simpa only [List.append_assoc] using hf)

/-- Once nothing new is above the classes seen, all that waits is passed over. -/
theorem QueueSearch.of_subset {seen : List ClassName} :
    ∀ {queue : List ClassName}, queue ⊆ seen → h.QueueSearch seen queue seen
  | [], _ => .done seen
  | _ :: _, hsub =>
    .again (hsub List.mem_cons_self) (.of_subset fun _ hx => hsub (List.mem_cons_of_mem _ hx))

/-- With the classes directly above a layer in the queue, the search takes one layer at a time. -/
theorem queueSearch_climb : ∀ (k : Nat) {seen layer : List ClassName}, layer ⊆ seen →
    h.Closed (h.climb k seen layer) →
      h.QueueSearch seen (layer.flatMap h.directSupertypes) (h.climb k seen layer)
  | 0, seen, layer, hsub, hclosed => by
    refine .of_subset fun x hx => ?_
    obtain ⟨y, hy, hx⟩ := List.mem_flatMap.1 hx
    exact hclosed y (hsub hy) x hx
  | k + 1, seen, layer, _, hclosed => by
    have hnext := queueSearch_climb k (List.subset_append_right seen _) hclosed
    have hlayer : h.QueueSearch seen (layer.flatMap h.directSupertypes ++ [])
        (h.climb (k + 1) seen layer) := .append hnext
    rwa [List.append_nil] at hlayer

theorem closed_ancestors (h : Hierarchy) (name : ClassName) : h.Closed (h.ancestors name) :=
  fun _ hy _ hx => mem_ancestors.2 ((mem_ancestors.1 hy).tail hx)

/-- A search with a queue ends, with the ancestors. -/
theorem queueSearch_iff {name : ClassName} :
    h.QueueSearch [] [name] found ↔ found = h.ancestors name := by
  have hsearch : h.QueueSearch [] [name] (h.ancestors name) := by
    refine .new List.not_mem_nil ?_
    have := queueSearch_climb _ (List.Subset.refl [name]) (h.closed_ancestors name)
    rwa [List.flatMap_singleton] at this
  exact ⟨fun hfound => hfound.unique hsearch, fun heq => heq ▸ hsearch⟩

/-! ### Ancestors -/

/-- Ancestors are what a search with a queue ends with: the class itself, then all classes that it
reaches, each once, nearer ones first. -/
theorem ancestors_breadthFirst (h : Hierarchy) (name : ClassName) :
    (∀ found, h.QueueSearch [] [name] found ↔ found = h.ancestors name)
      ∧ (h.ancestors name).head? = some name
      ∧ (h.ancestors name).Nodup
      ∧ (∀ x, x ∈ h.ancestors name ↔ h.Reaches name x)
      ∧ (h.ancestors name).Pairwise fun x y => h.distance name x ≤ h.distance name y := by
  refine ⟨fun _ => queueSearch_iff, ?_, h.nodup_ancestors name, fun _ => mem_ancestors, ?_⟩
  · obtain ⟨rest, hrest⟩ : [name] <+: h.ancestors name := prefix_climb _
    rw [← hrest]
    rfl
  · exact (h.layered_start name).climb_sorted _

end Hierarchy

end ScopedInference
