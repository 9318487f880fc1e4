import ScopedInference.Proofs.Hierarchy.WellFormed
import ScopedInference.Proofs.Registration.Progress
import ScopedInference.Proofs.Relation

/-!
# Registering ground types

Where neither the template nor the actual type has parameters, a registration that succeeds leaves
the arena as it was: there is nothing to learn (`ground_meets`). The hierarchy may be circular. That
a coherent type matches itself is sure, with two levels for each level of nesting.
-/

namespace ScopedInference

namespace TypeExpr

structure Ground (h : Hierarchy) (t : TypeExpr) : Prop where
  fits : t.Fits h
  parameters : t.parameters = []

/-- Fully concrete, and in each relation the columns of one name have one type. -/
inductive Coherent : TypeExpr → Prop where
  | classType {c} : (∀ m ∈ c.muls, m.isConcrete) → (∀ t ∈ c.types, Coherent t) →
      Coherent (.classType c)
  | function {f} : (∀ p ∈ f.params ++ [f.result], p.mul.isConcrete) →
      (∀ p ∈ f.params ++ [f.result], Coherent p.type) → Coherent (.function f)
  | relation {r} : r.canConcat r → (∀ c ∈ r.columns, Coherent c.type) → Coherent (.relation r)

theorem Coherent.ne_operation {v : TypeExpr} (hv : v.Coherent) {kind : OperationKind}
    (left right : TypeExpr) : v ≠ .operation kind left right := by
  rintro rfl
  nomatch hv

namespace Ground

variable {h : Hierarchy} {t : TypeExpr}

theorem iff_groundOver : t.Ground h ↔ t.GroundOver h.Applies :=
  ⟨fun ht => ⟨fits_iff.1 ht.fits, ht.parameters⟩, fun ht => ⟨fits_iff.2 ht.classes, ht.parameters⟩⟩

theorem settled (ht : t.Ground h) : t.Settled h where
  classes := (fits_iff.1 ht.fits).mono fun _ hc _ => hc.1
  parameters := ht.parameters

theorem of_classType {c : ClassType} (hg : (classType c).Ground h) :
    (∀ m ∈ c.muls, m.parameters = []) ∧ ∀ t ∈ c.types, t.Ground h := by
  obtain ⟨-, hmuls, htypes⟩ := (iff_groundOver.1 hg).of_classType
  exact ⟨hmuls, fun t ht => iff_groundOver.2 (htypes t ht)⟩

theorem of_function {f : Arrow TypeExpr} (hg : (function f).Ground h) :
    ∀ p ∈ f.params ++ [f.result], p.type.Ground h ∧ p.mul.parameters = [] := by
  intro p hp
  obtain ⟨htype, hmul⟩ := (iff_groundOver.1 hg).of_function p hp
  exact ⟨iff_groundOver.2 htype, hmul⟩

theorem of_relation {r : Relation TypeExpr} (hg : (relation r).Ground h) :
    ∀ c ∈ r.columns, c.type.Ground h :=
  fun c hc => iff_groundOver.2 ((iff_groundOver.1 hg).of_relation c hc)

end Ground

end TypeExpr

open Registration

theorem isExtremum_classType {c : ClassType} :
    isExtremum (.classType c) ↔ c.head = .any ∨ c.head = .nil := by
  simp [isExtremum, TypeExpr.isTop, TypeExpr.isBottom, TypeExpr.head?]

/-! ### Pairing -/

section

variable {h : Hierarchy} {c d : ClassType}

theorem pairArguments_of_isSubtype (hs : h.isSubtype c.head d.head = true) :
    pairArguments h c d = some (viewedAs h c d, d) := by
  simp only [pairArguments, hs, if_true]

theorem pairArguments_of_not_isSubtype (hs : h.isSubtype c.head d.head = false) :
    pairArguments h c d
      = if (TypeExpr.classType c).isFullyConcrete && (TypeExpr.classType d).isFullyConcrete
        then none else some (c, viewedAs h d c) := by
  simp only [pairArguments, hs, Bool.false_eq_true, if_false]

/-- One side of what is paired is as it is, and the other one is viewed as a type of its class, or
as it is too. -/
theorem of_pairArguments {templates values : ClassType}
    (hpair : pairArguments h c d = some (templates, values)) :
    templates = viewedAs h c d ∧ values = d ∨ templates = c ∧ values = viewedAs h d c := by
  rcases hs : h.isSubtype c.head d.head with _ | _
  · rw [pairArguments_of_not_isSubtype hs] at hpair
    split at hpair
    · simp at hpair
    · obtain ⟨rfl, rfl⟩ := Prod.mk.inj (Option.some.inj hpair)
      exact .inr ⟨rfl, rfl⟩
  · rw [pairArguments_of_isSubtype hs] at hpair
    obtain ⟨rfl, rfl⟩ := Prod.mk.inj (Option.some.inj hpair)
    exact .inl ⟨rfl, rfl⟩

/-- What a class type and its views have in common is kept where it is viewed. -/
theorem viewedAs_induct {P : ClassType → Prop} (hc : P c)
    (hview : ∀ v, h.view? c d.head = some v → P v) : P (viewedAs h c d) := by
  unfold viewedAs
  rcases hv : h.view? c d.head with _ | v
  · exact hc
  · exact hview v hv

/-- Both sides of what is paired are settled if the two class types are, and neither is the top
class. -/
theorem settled_pairArguments (hr : h.Regular) {templates values : ClassType}
    (hc : (TypeExpr.classType c).Settled h) (hd : (TypeExpr.classType d).Settled h)
    (hany : c.head ≠ .any ∧ d.head ≠ .any)
    (hpair : pairArguments h c d = some (templates, values)) :
    (TypeExpr.classType templates).Settled h ∧ (TypeExpr.classType values).Settled h := by
  rcases of_pairArguments hpair with ⟨rfl, rfl⟩ | ⟨rfl, rfl⟩
  · exact ⟨viewedAs_induct hc fun v hv => hr.view_settled hv hc hany.1, hd⟩
  · exact ⟨hc, viewedAs_induct hd fun v hv => hr.view_settled hv hd hany.2⟩

/-- A class type is paired with itself as it is. -/
theorem pairArguments_self (h : Hierarchy) (c : ClassType) :
    pairArguments h c c = some (c, c) := by
  rw [pairArguments_of_isSubtype (by simp [Hierarchy.isSubtype]), viewedAs, Hierarchy.view?_self]
  rfl

end

/-- In a coherent relation, a column is aligned with one of the same type. -/
theorem align_self {r : Relation TypeExpr} (hr : r.canConcat r)
    {q : Column TypeExpr × Column TypeExpr} (hq : q ∈ r.align r) : q.1.type = q.2.type := by
  unfold Relation.align at hq
  obtain ⟨t, ht, hq⟩ := List.mem_filterMap.1 hq
  obtain ⟨v, hv, rfl⟩ := Option.map_eq_some_iff.1 hq
  have := List.all_eq_true.1 hr t ht
  simpa [hv] using this

theorem mem_align {r s : Relation TypeExpr} {q : Column TypeExpr × Column TypeExpr}
    (hq : q ∈ s.align r) : q.2 ∈ r.columns ∧ s.column? q.2.name = some q.1 := by
  unfold Relation.align at hq
  obtain ⟨t, ht, hq⟩ := List.mem_filterMap.1 hq
  obtain ⟨v, hv, rfl⟩ := Option.map_eq_some_iff.1 hq
  exact ⟨ht, hv⟩

theorem eq_of_mem_zip_self {α : Type} : ∀ {l : List α} {q : α × α}, q ∈ l.zip l → q.1 = q.2
  | _ :: _, q, hq => by
    rw [List.zip_cons_cons] at hq
    rcases List.mem_cons.1 hq with rfl | hq
    · rfl
    · exact eq_of_mem_zip_self hq

/-- The positions of two function types, their results last. -/
theorem zip_positions {f g : Arrow TypeExpr} (hlength : f.params.length = g.params.length) :
    f.params.zip g.params ++ [(f.result, g.result)]
      = (f.params ++ [f.result]).zip (g.params ++ [g.result]) := by
  rw [List.zip_append hlength]
  rfl

theorem of_mem_positions {f g : Arrow TypeExpr} {q : Position TypeExpr × Position TypeExpr}
    (hq : q ∈ f.params.zip g.params ++ [(f.result, g.result)]) :
    q.1 ∈ f.params ++ [f.result] ∧ q.2 ∈ g.params ++ [g.result] := by
  rcases List.mem_append.1 hq with hq | hq
  · obtain ⟨hf, hg⟩ := List.of_mem_zip hq
    exact ⟨List.mem_append_left _ hf, List.mem_append_left _ hg⟩
  · rw [List.mem_singleton.1 hq]
    exact ⟨List.mem_concat_self, List.mem_concat_self⟩

/-- The arena is `b` throughout. -/
def still (b : Arena) (sure : Prop) : Progress where
  hierarchy := b.hierarchy
  holds _ a := a = b
  sure _ := sure
  hierarchy_eq h := by rw [h]
  sure_left h := h

/-- When registering a ground type against another one is sure to succeed. -/
structure Certain (b : Arena) (n : Nat) (id target : ContextId) (t v : TypeExpr) : Prop where
  same : t = v
  coherent : v.Coherent
  levels : 2 * v.nesting ≤ n
  here : ∃ c, b.context id = .ok c
  there : ∃ c, b.context target = .ok c

theorem flatMap_const_nil {α β : Type} (l : List α) : l.flatMap (fun _ => ([] : List β)) = [] :=
  List.flatMap_eq_nil_iff.2 fun _ _ => rfl

section

variable {b : Arena} {sure : Prop}

theorem still_has {id : ContextId} (h : sure → ∃ c, b.context id = .ok c) : (still b sure).Has id :=
  fun _ _ hs hb => hb ▸ h hs

theorem meets_forM_nil {α : Type} {f : α → RunM Unit} {l : List α}
    (h : ∀ x ∈ l, (still b sure).Meets (f x) []) : (still b sure).Meets (l.forM f) [] := by
  have := Progress.Meets.forM h
  rwa [flatMap_const_nil] at this

theorem meets_arguments_nil {recur : Request → RunM Unit} {id target : ContextId} {merge : Bool}
    {c d templates values : ClassType}
    (hpair : pairArguments b.hierarchy c d = some (templates, values))
    (hm : ∀ q ∈ templates.muls.zip values.muls,
      (still b sure).Meets (recur (.mul id q.1 q.2 target)) [])
    (ht : ∀ q ∈ templates.types.zip values.types,
      (still b sure).Meets (Progress.Meets.argument recur id target merge q) []) :
    (still b sure).Meets (stepArguments recur id c d target merge) [] := by
  have := Progress.Meets.arguments hpair hm ht
  rwa [flatMap_const_nil, flatMap_const_nil] at this

theorem ground_mul {id target : ContextId} {m v : Multiplicity} (hm : m.parameters = []) :
    ∀ n, (sure → 1 ≤ n ∧ (∃ c, b.context id = .ok c) ∧ ∃ c, b.context target = .ok c) →
      (still b sure).Meets (register n (.mul id m v target)) []
  | 0, hs => .register_zero fun _ h => absurd (hs h).1 (by simp)
  | n + 1, hs => by
    cases m with
    | range lower upper =>
      exact .register_mul_range (still_has fun h => (hs h).2.1) (still_has fun h => (hs h).2.2)
    | param _ => simp [Multiplicity.parameters] at hm

/-- What holds of registering ground types with `n` levels. -/
def GroundAt (b : Arena) (sure : Prop) (n : Nat) : Prop :=
  (∀ id target merge t v, t.Settled b.hierarchy → v.Settled b.hierarchy →
    (sure → Certain b n id target t v) →
    (still b sure).Meets (register n (.type id t (some v) target merge)) [])
  ∧ ∀ id target merge f g, (TypeExpr.function f).Settled b.hierarchy →
    (TypeExpr.function g).Settled b.hierarchy →
    (sure → Certain b (n + 1) id target (.function f) (.function g)) →
    (still b sure).Meets (register n (.function id f g target merge)) []

variable {n : Nat} (hreg : b.hierarchy.Regular) (ih : GroundAt b sure n)
  {id target : ContextId} {merge : Bool}

include ih

theorem ground_equality {v : TypeExpr} (hv : v.Settled b.hierarchy)
    (hs : sure → ∀ left right, v ≠ .operation .equal left right) (here there : Context) :
    (still b sure).Meets (stepEquality (register n) here there v merge) [] := by
  unfold stepEquality
  split
  · obtain ⟨hl, hr⟩ := hv.of_operation
    exact .nested (ih.1 _ _ _ _ _ hl hr fun h => absurd rfl (hs h _ _))
  · exact .pure

theorem ground_operation {kind : OperationKind} {left right v : TypeExpr}
    (ht : (TypeExpr.operation kind left right).Settled b.hierarchy) (hv : v.Settled b.hierarchy)
    (hs : ¬ sure) :
    (still b sure).Meets (stepOperation (register n) id kind left right v target merge) [] := by
  obtain ⟨hl, hr⟩ := ht.of_operation
  have hsides : ∀ kind' left' right', v = .operation kind' left' right' → (still b sure).Meets
      (if kind' = kind then RunM.nested do
        register n (.type id left (some left') target merge)
        register n (.type id right (some right') target merge)
      else Pure.pure ()) [] := by
    rintro kind' left' right' rfl
    obtain ⟨hl', hr'⟩ := hv.of_operation
    split
    · exact .nested (.bind_nil (ih.1 _ _ _ _ _ hl hl' fun h => absurd h hs)
        (ih.1 _ _ _ _ _ hr hr' fun h => absurd h hs))
    · exact .pure
  unfold stepOperation
  dsimp only
  split
  · refine .bind_nil (.nested (ih.1 _ _ _ _ _ hl hv fun h => absurd h hs)) ?_
    cases v with
    | operation kind' left' right' => exact hsides kind' left' right' rfl
    | _ => exact .pure
  · cases v with
    | operation kind' left' right' => exact hsides kind' left' right' rfl
    | _ => exact .pure

theorem ground_relation {r s : Relation TypeExpr} (hr : (TypeExpr.relation r).Settled b.hierarchy)
    (hs : (TypeExpr.relation s).Settled b.hierarchy)
    (hsure : sure → Certain b (n + 1) id target (.relation r) (.relation s)) :
    (still b sure).Meets
      (stepConcrete (register n) id (.relation r) (.relation s) target merge) [] := by
  refine .nested (meets_forM_nil fun q hq => ?_)
  obtain ⟨hq₂, hcolumn⟩ := mem_align hq
  have hq₁ := Relation.mem_of_column? hcolumn
  refine ih.1 _ _ _ _ _ (hr.of_relation q.2 hq₂) (hs.of_relation q.1 hq₁) fun h => ?_
  obtain ⟨hsame, hcoherent, hlevels, hhere, hthere⟩ := hsure h
  obtain rfl := TypeExpr.relation.inj hsame
  rcases hcoherent with _ | _ | ⟨hconcat, hcols⟩
  have hlt := TypeExpr.nesting_lt_relation hq₁
  exact ⟨(align_self hconcat hq).symm, hcols _ hq₁, by omega, hhere, hthere⟩

theorem ground_function {f g : Arrow TypeExpr} (hf : (TypeExpr.function f).Settled b.hierarchy)
    (hg : (TypeExpr.function g).Settled b.hierarchy)
    (hsure : sure → Certain b (n + 2) id target (.function f) (.function g)) :
    (still b sure).Meets (stepFunction (register n) id f g target merge) [] := by
  by_cases hlength : f.params.length = g.params.length
  case neg => exact .function_of_ne hlength
  have hpositions : ∀ q ∈ f.params.zip g.params ++ [(f.result, g.result)],
      (still b sure).Meets (do
        register n (.type id q.1.type (some q.2.type) target merge)
        register n (.mul id q.1.mul q.2.mul target)) [] := by
    intro q hq
    rw [zip_positions hlength] at hq
    obtain ⟨hq₁, hq₂⟩ := List.of_mem_zip hq
    obtain ⟨hground, hmul⟩ := hf.of_function _ hq₁
    have hcertain : sure → Certain b n id target q.1.type q.2.type := by
      intro h
      obtain ⟨hsame, hcoherent, hlevels, hhere, hthere⟩ := hsure h
      obtain rfl := TypeExpr.function.inj hsame
      rcases hcoherent with _ | ⟨-, hparts⟩
      have := TypeExpr.nesting_lt_function hq₂
      exact ⟨by rw [eq_of_mem_zip_self hq], hparts _ hq₂, by omega, hhere, hthere⟩
    refine .bind_nil (ih.1 _ _ _ _ _ hground (hg.of_function _ hq₂).1 hcertain)
      (ground_mul hmul n fun h => ?_)
    obtain ⟨-, -, hlevels, hhere, hthere⟩ := hcertain h
    have := TypeExpr.one_le_nesting q.2.type
    exact ⟨by omega, hhere, hthere⟩
  have := Progress.Meets.function hlength hpositions
  rwa [flatMap_const_nil] at this

theorem ground_argument {t v : TypeExpr} (ht : t.Settled b.hierarchy) (hv : v.Settled b.hierarchy)
    (hsure : sure → Certain b n id target t v) :
    (still b sure).Meets (Progress.Meets.argument (register n) id target merge (t, v)) [] := by
  unfold Progress.Meets.argument
  dsimp only
  split
  · refine ih.2 _ _ _ _ _ ht hv fun h => ?_
    obtain ⟨hsame, hcoherent, hlevels, hhere, hthere⟩ := hsure h
    exact ⟨hsame, hcoherent, Nat.le_succ_of_le hlevels, hhere, hthere⟩
  · exact .nested (ih.1 _ _ _ _ _ ht hv hsure)

include hreg

theorem ground_arguments {c d : ClassType} (hc : (TypeExpr.classType c).Settled b.hierarchy)
    (hd : (TypeExpr.classType d).Settled b.hierarchy)
    (hany : c.head ≠ .any ∧ d.head ≠ .any)
    (hsure : sure → Certain b (n + 1) id target (.classType c) (.classType d)) :
    (still b sure).Meets (stepArguments (register n) id c d target merge) [] := by
  rcases hpair : pairArguments b.hierarchy c d with _ | ⟨templates, values⟩
  · exact .arguments_of_none hpair
  obtain ⟨ht, hv⟩ := settled_pairArguments hreg hc hd hany hpair
  obtain ⟨-, hmuls, htypes⟩ := ht.of_classType
  obtain ⟨-, -, hvalues⟩ := hv.of_classType
  have hsame : sure → templates = values ∧ values = d := by
    intro h
    obtain rfl := TypeExpr.classType.inj (hsure h).same
    rw [pairArguments_self] at hpair
    obtain ⟨rfl, rfl⟩ := Prod.mk.inj (Option.some.inj hpair)
    exact ⟨rfl, rfl⟩
  refine meets_arguments_nil hpair (fun q hq => ?_) fun q hq => ?_
  · refine ground_mul (hmuls _ (List.of_mem_zip hq).1) n fun h => ?_
    obtain ⟨-, -, hlevels, hhere, hthere⟩ := hsure h
    have := TypeExpr.one_le_nesting (.classType d)
    exact ⟨by omega, hhere, hthere⟩
  · obtain ⟨hq₁, hq₂⟩ := List.of_mem_zip hq
    have hcertain : sure → Certain b n id target q.1 q.2 := by
      intro h
      obtain ⟨rfl, rfl⟩ := hsame h
      obtain ⟨-, hcoherent, hlevels, hhere, hthere⟩ := hsure h
      rcases hcoherent with ⟨-, hargs⟩
      have := TypeExpr.nesting_lt_classType hq₂
      exact ⟨eq_of_mem_zip_self hq, hargs _ hq₂, by omega, hhere, hthere⟩
    exact ground_argument ih (htypes _ hq₁) (hvalues _ hq₂) hcertain

theorem ground_template {t v : TypeExpr} (ht : t.Settled b.hierarchy) (hv : v.Settled b.hierarchy)
    (hsure : sure → Certain b (n + 1) id target t v) :
    (still b sure).Meets (stepTemplate (register n) id t v target merge) [] := by
  have hconcrete : (!isExtremum t && !isExtremum v) = true →
      (still b sure).Meets (stepConcrete (register n) id t v target merge) [] := by
    intro hextreme
    unfold stepConcrete
    split
    · exact ground_relation ih ht hv hsure
    · exact ih.2 _ _ _ _ _ ht hv hsure
    · refine ground_arguments hreg ih ht hv ?_ hsure
      rw [Bool.and_eq_true, Bool.not_eq_true', Bool.not_eq_true', ← Bool.not_eq_true,
        ← Bool.not_eq_true, isExtremum_classType, isExtremum_classType] at hextreme
      exact ⟨fun hany => hextreme.1 (.inl hany), fun hany => hextreme.2 (.inl hany)⟩
    · exact .pure
  unfold stepTemplate
  split
  · refine ground_operation ih ht hv fun h => ?_
    obtain ⟨rfl, hcoherent, -⟩ := hsure h
    nomatch hcoherent
  · exact absurd ht.parameters (by simp [TypeExpr.parameters])
  · split
    · rename_i hextreme
      rw [Bool.and_assoc, Bool.and_eq_true] at hextreme
      exact hconcrete hextreme.2
    · exact .pure

/-- One level more. -/
theorem ground_succ : GroundAt b sure (n + 1) := by
  constructor
  · intro id target merge t v ht hv hsure
    refine .register_type (still_has fun h => (hsure h).here) (still_has fun h => (hsure h).there)
      (ground_equality ih hv fun h => (hsure h).coherent.ne_operation) ?_
    exact ground_template hreg ih ht hv hsure
  · exact fun id target merge f g hf hg hsure => ground_function ih hf hg hsure

end

/-- Ground types teach nothing. -/
theorem ground_meets {b : Arena} (hreg : b.hierarchy.Regular) (sure : Prop) :
    ∀ n, GroundAt b sure n
  | 0 => by
    refine ⟨fun _ _ _ _ v _ _ hsure => ?_, fun _ _ _ _ g _ _ hsure => ?_⟩
    · refine .register_zero fun _ h => ?_
      have := (hsure h).levels
      have := TypeExpr.one_le_nesting v
      omega
    · refine .register_zero fun _ h => ?_
      have := (hsure h).levels
      have := TypeExpr.one_le_nesting (.function g)
      omega
  | n + 1 => ground_succ hreg (ground_meets hreg sure n)

end ScopedInference
