import Mathlib.Data.List.Induction
import Mathlib.Data.List.Nodup
import Mathlib.Tactic.TFAE
import ScopedInference.Relation

/-!
# Concatenating relations

Two relations agree if columns of one name have one type. Between relations that agree with
themselves, this is when they concatenate (`canConcat_iff_agree`), whichever comes first; a relation
that does not agree with itself does not concatenate with itself either (`agree_self_tfae`).
Concatenation takes what is new of the second relation: doing it again changes nothing
(`concat_concat`), and where names are distinct, the other way round it gives the same columns in
another order (`perm_concat`). Relations that are concatenated one after the other come to their
union, unless two of them clash (`concatAll?_cases`).
-/

namespace ScopedInference

namespace Relation

variable {l r : Relation TypeExpr} {c : Column TypeExpr}

theorem mem_of_column? {name : String} (hc : r.column? name = some c) : c ∈ r.columns :=
  List.mem_of_find?_eq_some hc

theorem name_of_column? {name : String} (hc : r.column? name = some c) : c.name = name := by
  simpa using List.find?_some hc

theorem has_of_mem (hc : c ∈ r.columns) : r.has c.name := by
  unfold has column?
  rw [List.find?_isSome]
  exact ⟨c, hc, by simp⟩

theorem has_iff {name : String} : r.has name ↔ ∃ c ∈ r.columns, c.name = name := by
  constructor
  · intro hhas
    obtain ⟨c, hc⟩ := Option.isSome_iff_exists.1 hhas
    exact ⟨c, mem_of_column? hc, name_of_column? hc⟩
  · rintro ⟨c, hc, rfl⟩
    exact has_of_mem hc

theorem mem_concat : c ∈ (l.concat r).columns ↔ c ∈ l.columns ∨ c ∈ r.columns ∧ ¬ l.has c.name := by
  simp [concat]

theorem concat_eq_left (h : ∀ c ∈ r.columns, l.has c.name) : l.concat r = l := by
  have hnone : r.columns.filter (fun c => !l.has c.name) = [] := by
    refine List.filter_eq_nil_iff.2 fun c hc => ?_
    rw [h c hc]
    simp
  unfold concat
  rw [hnone, List.append_nil]

theorem concat_self (r : Relation TypeExpr) : r.concat r = r :=
  concat_eq_left fun _ => has_of_mem

/-- The first relation has no more to give. -/
theorem concat_concat_left (l r : Relation TypeExpr) : (l.concat r).concat l = l.concat r :=
  concat_eq_left fun _ hc => has_of_mem (mem_concat.2 (.inl hc))

/-- Nor has the second one. -/
theorem concat_concat_right (l r : Relation TypeExpr) : (l.concat r).concat r = l.concat r := by
  refine concat_eq_left fun c hc => ?_
  by_cases hhas : l.has c.name
  · obtain ⟨d, hd, hname⟩ := has_iff.1 hhas
    rw [← hname]
    exact has_of_mem (mem_concat.2 (.inl hd))
  · exact has_of_mem (mem_concat.2 (.inr ⟨hc, hhas⟩))

theorem canConcat_iff : l.canConcat r
    ↔ ∀ c ∈ l.columns, ∀ d, r.column? c.name = some d → d.type = c.type := by
  simp only [canConcat, List.all_eq_true, Option.all_eq_true, decide_eq_true_eq]

/-! ### Agreement -/

/-- Columns of one name have one type. -/
def Agree (l r : Relation TypeExpr) : Prop :=
  ∀ c ∈ l.columns, ∀ d ∈ r.columns, c.name = d.name → c.type = d.type

theorem Agree.symm (h : l.Agree r) : r.Agree l :=
  fun c hc d hd hname => (h d hd c hc hname.symm).symm

theorem Agree.canConcat (h : l.Agree r) : l.canConcat r :=
  canConcat_iff.2 fun c hc d hd => (h c hc d (mem_of_column? hd) (name_of_column? hd).symm).symm

/-- The column that is found stands for all of its name. -/
theorem canConcat_iff_agree (hr : r.Agree r) : l.canConcat r ↔ l.Agree r := by
  refine ⟨fun h c hc d hd hname => ?_, Agree.canConcat⟩
  obtain ⟨e, he⟩ := Option.isSome_iff_exists.1 (has_of_mem hd)
  rw [← canConcat_iff.1 h c hc e (by rwa [hname])]
  exact hr e (mem_of_column? he) d hd (name_of_column? he)

theorem canConcat_self_iff : r.canConcat r ↔ r.Agree r := by
  refine ⟨fun h => ?_, Agree.canConcat⟩
  have hfound := canConcat_iff.1 h
  intro c hc d hd hname
  obtain ⟨e, he⟩ := Option.isSome_iff_exists.1 (has_of_mem hd)
  rw [← hfound d hd e he, hfound c hc e (by rwa [hname])]

/-- Columns of one name agree, whichever relation is searched. -/
theorem canConcat_comm (hl : l.Agree l) (hr : r.Agree r) : l.canConcat r = r.canConcat l := by
  rw [Bool.eq_iff_iff, canConcat_iff_agree hr, canConcat_iff_agree hl]
  exact ⟨Agree.symm, Agree.symm⟩

/-- What is concatenated goes with the first relation if that one goes with itself. -/
theorem canConcat_concat_left : (l.concat r).canConcat l ↔ l.canConcat l := by
  simp only [canConcat_iff, mem_concat]
  refine ⟨fun h c hc => h c (.inl hc), fun h c hc d hd => ?_⟩
  rcases hc with hc | ⟨-, hnew⟩
  · exact h c hc d hd
  · exact absurd (has_iff.2 ⟨d, mem_of_column? hd, name_of_column? hd⟩) hnew

/-- What has been concatenated is not concatenated again. -/
theorem concat_concat (hr : r.Agree r) (h : l.canConcat r) :
    (l.concat r).canConcat r ∧ (l.concat r).concat r = l.concat r := by
  refine ⟨canConcat_iff.2 fun c hc => ?_, concat_concat_right l r⟩
  rcases mem_concat.1 hc with hc | ⟨hc, -⟩
  · exact canConcat_iff.1 h c hc
  · exact canConcat_iff.1 hr.canConcat c hc

/-- Concatenation treats a relation as a set of columns with one type for each name exactly if it is
one: otherwise the relation clashes with itself, and with its own first column only one way round. -/
theorem agree_self_tfae (l : Relation TypeExpr) : List.TFAE [l.Agree l, l.canConcat l = true,
    ∀ r, r.Agree r → l.canConcat r = r.canConcat l,
    ∀ r, l.canConcat r → (l.concat r).canConcat l ∧ (l.concat r).concat l = l.concat r] := by
  tfae_have 1 ↔ 2 := canConcat_self_iff.symm
  tfae_have 1 → 3 := fun h r hr => canConcat_comm h hr
  tfae_have 3 → 1 := by
    intro h c hc d hd hname
    -- Each column is compared with the first of its name, which is alone in a relation.
    have hfirst : ∀ e ∈ l.columns, ∀ f, l.column? e.name = some f → f.type = e.type := by
      intro e he f hf
      have hone : Relation.Agree ⟨[f]⟩ ⟨[f]⟩ := by
        simp [Agree]
      have hswap : Relation.canConcat ⟨[f]⟩ l := by
        refine canConcat_iff.2 fun g hg k hk => ?_
        obtain rfl : g = f := by simpa using hg
        rw [name_of_column? hf, hf] at hk
        cases hk
        rfl
      rw [← h _ hone] at hswap
      exact canConcat_iff.1 hswap e he f (by simp [column?, name_of_column? hf])
    exact canConcat_self_iff.1 (canConcat_iff.2 hfirst) c hc d hd hname
  tfae_have 2 → 4 := fun h r _ => ⟨canConcat_concat_left.2 h, concat_concat_left l r⟩
  tfae_have 4 → 2 := by
    intro h
    have hnone : l.canConcat ⟨[]⟩ := canConcat_iff.2 fun _ _ _ hd => by simp [column?] at hd
    exact canConcat_concat_left.1 (h _ hnone).1
  tfae_finish

/-! ### Distinct names -/

def Distinct (r : Relation TypeExpr) : Prop := (r.columns.map (·.name)).Nodup

theorem Distinct.agree (hr : r.Distinct) : r.Agree r := by
  intro c hc d hd hname
  rw [List.inj_on_of_nodup_map hr hc hd hname]

theorem Distinct.nodup (hr : r.Distinct) : r.columns.Nodup := .of_map _ hr

theorem Distinct.concat (hl : l.Distinct) (hr : r.Distinct) : (l.concat r).Distinct := by
  unfold Distinct Relation.concat
  rw [List.map_append]
  refine List.nodup_append.2 ⟨hl, hr.sublist (List.filter_sublist.map _), fun x hx y hy => ?_⟩
  rintro rfl
  obtain ⟨c, hc, rfl⟩ := List.mem_map.1 hx
  obtain ⟨d, hd, hname⟩ := List.mem_map.1 hy
  have hnew := (List.mem_filter.1 hd).2
  rw [hname, has_of_mem hc] at hnew
  cases hnew

theorem Agree.mem_of_has (h : l.Agree r) (hc : c ∈ r.columns) : l.has c.name ↔ c ∈ l.columns := by
  refine ⟨fun hhas => ?_, has_of_mem⟩
  obtain ⟨d, hd, hname⟩ := has_iff.1 hhas
  have htype := h d hd c hc hname
  obtain rfl : d = c := by
    cases c
    cases d
    simp_all
  exact hd

/-- Concatenated, relations that agree have the columns of both. -/
theorem Agree.mem_concat (h : l.Agree r) :
    c ∈ (l.concat r).columns ↔ c ∈ l.columns ∨ c ∈ r.columns := by
  rw [Relation.mem_concat]
  refine ⟨Or.imp_right And.left, fun hc => ?_⟩
  rcases hc with hc | hc
  · exact .inl hc
  · rw [h.mem_of_has hc]
    by_cases hl : c ∈ l.columns
    · exact .inl hl
    · exact .inr ⟨hc, hl⟩

/-- Which relation comes first decides no more than the order of the columns. -/
theorem perm_concat (hl : l.Distinct) (hr : r.Distinct) (h : l.canConcat r) :
    (l.concat r).columns.Perm (r.concat l).columns := by
  have hagree : l.Agree r := (canConcat_iff_agree hr.agree).1 h
  refine (List.perm_ext_iff_of_nodup (hl.concat hr).nodup (hr.concat hl).nodup).2 fun c => ?_
  rw [hagree.mem_concat, hagree.symm.mem_concat, or_comm]

/-! ### Several relations -/

/-- The columns of several relations, each where it occurs first. -/
def union (rs : List (Relation TypeExpr)) : Relation TypeExpr :=
  ⟨(rs.flatMap (·.columns)).eraseDups⟩

/-- Two of several relations give some name different types. -/
def Clash (rs : List (Relation TypeExpr)) : Prop := ∃ l ∈ rs, ∃ r ∈ rs, ¬ l.Agree r

/-- The concatenation, if there is one. -/
def concat? (l r : Relation TypeExpr) : Option (Relation TypeExpr) :=
  if l.canConcat r then some (l.concat r) else none

/-- Concatenates relations one after the other, as long as each goes with what it comes after. -/
def concatAll? (r : Relation TypeExpr) (rs : List (Relation TypeExpr)) :
    Option (Relation TypeExpr) :=
  rs.foldl (fun l? s => l?.bind (concat? · s)) (some r)

variable {rs ss : List (Relation TypeExpr)}

theorem concatAll?_append : concatAll? r (rs ++ ss)
    = ss.foldl (fun l? s => l?.bind (concat? · s)) (concatAll? r rs) :=
  List.foldl_append

theorem concatAll?_append_eq_none (h : concatAll? r rs = none) :
    ∀ ss, concatAll? r (rs ++ ss) = none := by
  intro ss
  rw [concatAll?_append, h]
  induction ss with
  | nil => rfl
  | cons s ss ih => rwa [List.foldl_cons, Option.bind_none]

theorem Clash.mono (h : rs ⊆ ss) (hclash : Clash rs) : Clash ss := by
  obtain ⟨l, hl, r, hr, hnot⟩ := hclash
  exact ⟨l, h hl, r, h hr, hnot⟩

theorem mem_union : c ∈ (union rs).columns ↔ ∃ r ∈ rs, c ∈ r.columns := by
  rw [union, List.mem_eraseDups, List.mem_flatMap]

theorem union_agree : (union rs).Agree r ↔ ∀ l ∈ rs, l.Agree r := by
  constructor
  · intro h l hl c hc
    exact h c (mem_union.2 ⟨l, hl, hc⟩)
  · intro h c hc
    obtain ⟨l, hl, hc⟩ := mem_union.1 hc
    exact h l hl c hc

theorem eraseDups_eq_self {α : Type} [DecidableEq α] :
    ∀ {l : List α}, l.Nodup → l.eraseDups = l
  | [], _ => rfl
  | x :: l, h => by
    obtain ⟨hx, hl⟩ := List.nodup_cons.1 h
    have hkept : l.filter (fun y => !y == x) = l := by
      refine List.filter_eq_self.2 fun y hy => ?_
      have hne : y ≠ x := fun heq => hx (heq ▸ hy)
      simpa using hne
    rw [List.eraseDups_cons, hkept, eraseDups_eq_self hl]

theorem union_singleton (hr : r.Distinct) : union [r] = r := by
  unfold union
  rw [List.flatMap_singleton, eraseDups_eq_self hr.nodup]

/-- One more relation that agrees with the others is concatenated to their union. -/
theorem union_snoc (hr : r.Distinct) (h : ∀ l ∈ rs, l.Agree r) :
    union (rs ++ [r]) = (union rs).concat r := by
  have hnew : r.columns.removeAll (rs.flatMap (·.columns))
      = r.columns.filter fun c => !(union rs).has c.name := by
    refine List.filter_congr fun c hc => ?_
    rw [Bool.eq_iff_iff]
    simp only [Bool.not_eq_true', ← Bool.not_eq_true, List.elem_iff]
    rw [(union_agree.2 h).mem_of_has hc, union, List.mem_eraseDups]
  show Relation.mk _ = Relation.mk _
  rw [List.flatMap_append, List.flatMap_singleton, List.eraseDups_append, hnew,
    eraseDups_eq_self (hr.nodup.filter _)]
  rfl

theorem not_clash_snoc (hr : r.Distinct) :
    ¬ Clash (rs ++ [r]) ↔ ¬ Clash rs ∧ ∀ l ∈ rs, l.Agree r := by
  constructor
  · intro h
    refine ⟨fun hrs => h (hrs.mono (List.subset_append_left ..)), fun l hl => ?_⟩
    by_contra hnot
    exact h ⟨l, List.mem_append_left _ hl, r, List.mem_concat_self, hnot⟩
  · rintro ⟨hrs, hall⟩ ⟨l, hl, s, hs, hnot⟩
    rw [List.mem_append, List.mem_singleton] at hl hs
    rcases hl with hl | rfl <;> rcases hs with hs | rfl
    · exact hrs ⟨l, hl, s, hs, hnot⟩
    · exact hnot (hall l hl)
    · exact hnot (hall s hs).symm
    · exact hnot hr.agree

/-- Concatenated one after the other, relations come to their union if no two of them clash. -/
theorem concatAll?_cases (hrs : ∀ s ∈ r :: rs, s.Distinct) :
    Clash (r :: rs) ∧ concatAll? r rs = none
      ∨ ¬ Clash (r :: rs) ∧ (union (r :: rs)).Distinct
        ∧ concatAll? r rs = some (union (r :: rs)) := by
  induction rs using List.reverseRecOn with
  | nil =>
    have hr := hrs r List.mem_cons_self
    have hclash : ¬ Clash [r] := by
      rintro ⟨l, hl, s, hs, hnot⟩
      rw [List.mem_singleton] at hl hs
      subst hl hs
      exact hnot hr.agree
    rw [union_singleton hr]
    exact .inr ⟨hclash, hr, rfl⟩
  | append_singleton rs s ih =>
    rw [← List.cons_append] at hrs
    have hs : s.Distinct := hrs s List.mem_concat_self
    rcases ih fun t ht => hrs t (List.mem_append_left _ ht) with
      ⟨hclash, hnone⟩ | ⟨hclash, hdistinct, hsome⟩
    · exact .inl ⟨hclash.mono (List.subset_append_left ..), concatAll?_append_eq_none hnone [s]⟩
    have hlast : concatAll? r (rs ++ [s]) = concat? (union (r :: rs)) s := by
      rw [concatAll?_append, hsome]
      rfl
    have hiff : (union (r :: rs)).canConcat s ↔ ∀ l ∈ r :: rs, l.Agree s :=
      (canConcat_iff_agree hs.agree).trans union_agree
    rw [hlast, concat?, ← List.cons_append]
    by_cases hall : ∀ l ∈ r :: rs, l.Agree s
    · rw [if_pos (hiff.2 hall), union_snoc hs hall]
      exact .inr ⟨(not_clash_snoc hs).2 ⟨hclash, hall⟩, hdistinct.concat hs, rfl⟩
    · rw [if_neg (hiff.not.2 hall)]
      exact .inl ⟨not_not.1 fun hnot => hall ((not_clash_snoc hs).1 hnot).2, rfl⟩

/-- The union of a permuted list has the same columns. -/
theorem union_perm (hperm : rs.Perm ss) (hrs : (union rs).columns.Nodup)
    (hss : (union ss).columns.Nodup) : (union rs).columns.Perm (union ss).columns := by
  refine (List.perm_ext_iff_of_nodup hrs hss).2 fun c => ?_
  simp only [mem_union, hperm.mem_iff]

end Relation

end ScopedInference
