import ScopedInference.Arena.Creation
import ScopedInference.Proofs.Registration.Learning

/-!
# Recovering a matching substitution

`TypeExpr.Matches` says when a type matches a template under a substitution, without a word about
registrations. Registering the type against the template then teaches the context the substitution's
values for the template's parameters, and nothing else (`register_matches`).
-/

namespace ScopedInference

/-- The parameter's value is no equality: observing one would say something about its sides. -/
def Substitution.Plain (σ : Substitution) : Parameter → Prop
  | .type name => ∀ v, σ.types name = some v → ∀ left right, v ≠ .operation .equal left right
  | .mul _ => True

/-! ### Parameters side by side -/

theorem flatMap_zip_fst {α β γ : Type} (f : α → List γ) {l : List α} {l' : List β}
    (hlength : l.length = l'.length) : (l.zip l').flatMap (fun q => f q.1) = l.flatMap f := by
  have hmap : (l.zip l').map Prod.fst = l := List.map_fst_zip (Nat.le_of_eq hlength)
  rw [← List.flatMap_map, hmap]

theorem map_snd_align {r s : Relation TypeExpr} (hhas : ∀ c ∈ r.columns, s.has c.name) :
    (s.align r).map Prod.snd = r.columns := by
  unfold Relation.align
  rw [List.map_filterMap]
  have heq : ∀ c ∈ r.columns, ((s.column? c.name).map fun v => (v, c)).map Prod.snd = some c := by
    intro c hc
    obtain ⟨d, hd⟩ := Option.isSome_iff_exists.1 (hhas c hc)
    rw [hd]
    rfl
  rw [List.filterMap_congr heq, List.filterMap_some]

namespace TypeExpr

variable (σ : Substitution)

end TypeExpr

open Registration

/-- A template that can be learnt from a type: nothing is known yet of its parameters, and where
success is sure, the values that they get have nothing else to say. -/
structure Learnable (h : Hierarchy) (σ : Substitution) (base : BindingState) (sure : Prop)
    (t v : TypeExpr) : Prop where
  fits : t.Fits h
  value : v.Ground h
  unbound : ∀ q ∈ t.parameters, base.Unbound q
  plain : sure → ∀ q ∈ t.parameters, σ.Plain q

theorem Learnable.part {h : Hierarchy} {σ : Substitution} {base : BindingState} {sure : Prop}
    {t u v w : TypeExpr} (ht : Learnable h σ base sure t v) (hu : u.Fits h) (hw : w.Ground h)
    (hsub : u.parameters ⊆ t.parameters) : Learnable h σ base sure u w where
  fits := hu
  value := hw
  unbound q hq := ht.unbound q (hsub hq)
  plain hs q hq := ht.plain hs q (hsub hq)

section

variable {a : Arena} {id target : ContextId} {c : Context} {σ : Substitution} {sure : Prop}

variable (hw : a.hierarchy.WellFormed) (hthere : sure → ∃ d, a.context target = .ok d)

include hthere

include hw

theorem meets_type {t v : TypeExpr} {ps : List Parameter} {merge : Bool} (hv : v.Ground a.hierarchy)
    (hplain : sure → ∀ left right, v ≠ .operation .equal left right) {n : Nat}
    (hlevels : sure → 2 * (t.substitute σ).nesting ≤ n)
    (htemplate : ∀ m, n = m + 1 →
      (learning a id target c σ sure).Meets (stepTemplate (register m) id t v target merge) ps) :
    (learning a id target c σ sure).Meets (register n (.type id t (some v) target merge)) ps := by
  rcases n with _ | n
  · refine .register_zero fun _ h => ?_
    have := hlevels h.1
    have := (t.substitute σ).one_le_nesting
    omega
  refine .register_type learning_has (learning_has_target hthere) (fun here there => ?_)
    (htemplate n rfl)
  refine .of_still fun b l hb => ?_
  have hhierarchy : b.hierarchy = a.hierarchy := Progress.hierarchy_eq _ hb
  exact ground_equality (ground_meets (hhierarchy ▸ hw.regular) _ n) (hhierarchy ▸ hv.settled)
    (fun h => hplain h.1) here there

end

/-- What gives numbers, of which there may be one. -/
def Substitution.number : Substitution := .ofLists [("T", .atom "Number")] [("m", .zeroOne)]

/-- Two columns of one name. -/
def TypeExpr.ambiguous : TypeExpr := .relation ⟨[⟨"a", .atom "Date"⟩, ⟨"a", .atom "Number"⟩]⟩

end ScopedInference
