import Mathlib.Data.List.Perm.Basic
import Mathlib.Data.Set.Basic
import ScopedInference.Multiplicity

/-!
# The order of multiplicities

Subsumption orders multiplicities; between ranges that accept some count it is inclusion of the
counts that they accept (`range_subsumes_iff`). The smallest multiplicity above a list is found in
one sweep, which comes to the same as joining its elements one after the other
(`leastSubsuming_cons`). Joins are associative, commutative and idempotent, so a list may be taken
apart (`leastSubsuming_append`) and reordered (`leastSubsuming_perm`). What ranges come to is their
least upper bound (`subsumes_leastSubsuming_iff`).
-/

namespace ScopedInference

namespace Multiplicity

/-! ### Subsumption -/

theorem subsumes_refl (m : Multiplicity) : m.subsumes m := by
  rcases m with ⟨lower, _ | upper⟩ | name <;> simp [subsumes, upperCovers]

theorem subsumes_antisymm {m n : Multiplicity} (h : m.subsumes n) (h' : n.subsumes m) : m = n := by
  rcases m with ⟨l, _ | u⟩ | a <;> rcases n with ⟨l', _ | u'⟩ | b <;>
    simp_all [subsumes, upperCovers] <;> omega

theorem subsumes_trans {k m n : Multiplicity} (h : k.subsumes m) (h' : m.subsumes n) :
    k.subsumes n := by
  rcases k with ⟨l, _ | u⟩ | a <;> rcases m with ⟨l', _ | u'⟩ | b <;>
    rcases n with ⟨l'', _ | u''⟩ | c <;> simp_all [subsumes, upperCovers] <;> omega

/-- The counts within bounds. -/
def counts (lower : Nat) (upper : Option Nat) : Set Nat := {n | lower ≤ n ∧ ∀ u ∈ upper, n ≤ u}

/-- A range that accepts some count is subsumed where its counts are accepted. -/
theorem range_subsumes_iff {lower lower' : Nat} {upper upper' : Option Nat}
    (h : ∀ u ∈ upper', lower' ≤ u) : (range lower upper).subsumes (range lower' upper')
      ↔ counts lower' upper' ⊆ counts lower upper := by
  constructor
  · intro hsub n hn
    rcases upper with _ | u <;> rcases upper' with _ | u' <;>
      simp_all [subsumes, upperCovers, counts] <;> omega
  · intro hsub
    have hlower : lower ≤ lower' := (hsub ⟨Nat.le_refl _, h⟩).1
    rcases upper with _ | u
    · simp [subsumes, upperCovers, hlower]
    rcases upper' with _ | u'
    · -- Without an upper bound, some count is above `u`.
      have hmem : max lower' (u + 1) ∈ counts lower' none := ⟨Nat.le_max_left .., by simp⟩
      have := (hsub hmem).2 u rfl
      omega
    · have hmem : u' ∈ counts lower' (some u') := ⟨h u' rfl, by simp⟩
      have := (hsub hmem).2 u rfl
      simp [subsumes, upperCovers, hlower, this]

/-! ### Joins -/

theorem join_comm (m n : Multiplicity) : m.join n = n.join m := by
  rcases m with ⟨l, _ | u⟩ | a <;> rcases n with ⟨l', _ | u'⟩ | b <;>
    simp [join, Nat.min_comm, Nat.max_comm]
  split <;> simp_all [eq_comm]

theorem join_self (m : Multiplicity) : m.join m = m := by
  rcases m with ⟨l, _ | u⟩ | a <;> simp [join]

/-- Nothing is known beyond every count. -/
theorem many_join (m : Multiplicity) : many.join m = many := by
  rcases m with ⟨l, _ | u⟩ | a <;> simp [join, many]

theorem join_assoc (k m n : Multiplicity) : (k.join m).join n = k.join (m.join n) := by
  rcases k with ⟨l, u⟩ | a <;> rcases m with ⟨l', u'⟩ | b <;> rcases n with ⟨l'', u''⟩ | c
  case range.range.range =>
    rcases u with _ | u <;> rcases u' with _ | u' <;> rcases u'' with _ | u'' <;>
      simp [join, Nat.min_assoc, Nat.max_assoc]
  -- Where a parameter is among them, both sides are that parameter or accept every count.
  all_goals
    simp only [join]
    split_ifs <;> simp_all [many]

instance : Std.Commutative join := ⟨join_comm⟩

instance : Std.Associative join := ⟨join_assoc⟩

theorem join_absorb (m n : Multiplicity) : (m.join n).join n = m.join n := by
  rw [join_assoc, join_self]

/-- What is above two ranges is above their join. -/
theorem subsumes_join_iff {k m n : Multiplicity} (hm : m.isConcrete) (hn : n.isConcrete) :
    k.subsumes (m.join n) ↔ k.subsumes m ∧ k.subsumes n := by
  rcases m with ⟨l, _ | u⟩ | a <;> rcases n with ⟨l', _ | u'⟩ | b <;>
    rcases k with ⟨l'', _ | u''⟩ | c <;>
    simp_all [subsumes, upperCovers, join, isConcrete]
  omega

theorem join_isConcrete {m n : Multiplicity} (hm : m.isConcrete) (hn : n.isConcrete) :
    (m.join n).isConcrete := by
  rcases m with ⟨l, u⟩ | a
  · rcases n with ⟨l', u'⟩ | b
    · rfl
    · cases hn
  · cases hm

/-! ### Sweeps -/

theorem foldl_join_many (ms : List Multiplicity) : ms.foldl join many = many := by
  induction ms with
  | nil => rfl
  | cons m ms ih => rw [List.foldl_cons, many_join, ih]

/-- From a range on, a sweep joins: no parameter is then the whole list. -/
theorem widen_range {all : List Multiplicity} (hall : ∀ name, ∃ m ∈ all, m ≠ .param name) :
    ∀ (ms : List Multiplicity) (lower : Nat) (upper : Option Nat),
      widen all (some lower) upper ms = ms.foldl join (.range lower upper)
  | [], _, _ => rfl
  | .range lower' upper' :: ms, lower, upper => by
    rw [widen, widen_range hall ms, List.foldl_cons]
    rfl
  | .param name :: ms, lower, upper => by
    obtain ⟨m, hm, hne⟩ := hall name
    have hmixed : ¬ all.all (· = .param name) = true := by
      simpa using ⟨m, hm, hne⟩
    rw [widen, if_neg hmixed, List.foldl_cons]
    exact (foldl_join_many ms).symm

theorem foldl_join_param (name : String) (ms : List Multiplicity) :
    ms.foldl join (.param name) = if ms.all (· = .param name) then .param name else many := by
  induction ms with
  | nil => rfl
  | cons m ms ih =>
    by_cases hm : m = .param name
    · subst hm
      rw [List.foldl_cons, join_self, ih]
      simp
    · have hjoin : (param name).join m = many := by
        rw [join_comm]
        rcases m with ⟨l, u⟩ | other
        · rfl
        · exact if_neg hm
      rw [List.foldl_cons, hjoin, foldl_join_many]
      simp [hm]

/-- The sweep joins the elements one after the other. -/
theorem leastSubsuming_cons (m : Multiplicity) (ms : List Multiplicity) :
    leastSubsuming (m :: ms) = ms.foldl join m := by
  unfold leastSubsuming
  rcases m with ⟨lower, upper⟩ | name
  · have hupper : (some 0).bind (fun u => upper.map (max u)) = upper := by
      rcases upper with _ | u <;> simp
    rw [widen, hupper]
    exact widen_range (fun name => ⟨_, List.mem_cons_self, by simp⟩) ms lower upper
  · rw [widen, foldl_join_param]
    simp

theorem leastSubsuming_pair (m n : Multiplicity) : leastSubsuming [m, n] = m.join n :=
  leastSubsuming_cons m [n]

theorem leastSubsuming_append {ms ns : List Multiplicity} (hms : ms ≠ []) (hns : ns ≠ []) :
    leastSubsuming (ms ++ ns) = leastSubsuming [leastSubsuming ms, leastSubsuming ns] := by
  obtain ⟨m, ms, rfl⟩ := List.exists_cons_of_ne_nil hms
  obtain ⟨n, ns, rfl⟩ := List.exists_cons_of_ne_nil hns
  rw [leastSubsuming_pair, List.cons_append, leastSubsuming_cons, leastSubsuming_cons,
    leastSubsuming_cons, List.foldl_append, List.foldl_cons, List.foldl_assoc]

theorem leastSubsuming_perm {ms ns : List Multiplicity} (h : ms.Perm ns) :
    leastSubsuming ms = leastSubsuming ns := by
  induction h with
  | nil => rfl
  | cons m h _ => rw [leastSubsuming_cons, leastSubsuming_cons, h.foldl_op_eq]
  | swap m n ms =>
    rw [leastSubsuming_cons, leastSubsuming_cons, List.foldl_cons, List.foldl_cons, join_comm]
  | trans _ _ ih ih' => rw [ih, ih']

/-- What is above all of some ranges is above the smallest multiplicity above them, which is then
itself above them all. -/
theorem subsumes_leastSubsuming_iff {k : Multiplicity} {ms : List Multiplicity} (hne : ms ≠ [])
    (hms : ∀ m ∈ ms, m.isConcrete) :
    k.subsumes (leastSubsuming ms) ↔ ∀ m ∈ ms, k.subsumes m := by
  have hfold : ∀ (ms : List Multiplicity) (m : Multiplicity), m.isConcrete →
      (∀ n ∈ ms, n.isConcrete) →
        (k.subsumes (ms.foldl join m) ↔ k.subsumes m ∧ ∀ n ∈ ms, k.subsumes n) := by
    intro ms
    induction ms with
    | nil => simp
    | cons n ms ih =>
      intro m hm hms
      have hn := hms n List.mem_cons_self
      rw [List.foldl_cons, ih _ (join_isConcrete hm hn) fun x hx => hms x (List.mem_cons_of_mem n hx),
        subsumes_join_iff hm hn, List.forall_mem_cons, and_assoc]
  obtain ⟨m, ms, rfl⟩ := List.exists_cons_of_ne_nil hne
  rw [leastSubsuming_cons, hfold ms m (hms m List.mem_cons_self) fun x hx =>
    hms x (List.mem_cons_of_mem m hx), List.forall_mem_cons]

end Multiplicity

end ScopedInference
