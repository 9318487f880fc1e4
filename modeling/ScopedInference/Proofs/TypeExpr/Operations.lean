import ScopedInference.Proofs.TypeExpr.Parameters

/-!
# Types without operations

A type is fully concrete if it has no parameters and no operations (`isFullyConcrete_iff`). While
the former are replaced by substitution, the latter stay: they occur afterwards only if they did
before or do in a value (`OperationFree.substitute`).
-/

namespace ScopedInference

namespace TypeExpr

/-- No operation occurs at any depth. -/
inductive OperationFree : TypeExpr → Prop where
  | param (p) : OperationFree (.param p)
  | classType {c} : (∀ t ∈ c.types, OperationFree t) → OperationFree (.classType c)
  | function {f} : (∀ p ∈ f.params ++ [f.result], OperationFree p.type) →
      OperationFree (.function f)
  | relation {r} : (∀ c ∈ r.columns, OperationFree c.type) → OperationFree (.relation r)

theorem OperationFree.of_classType {c : ClassType} (h : (TypeExpr.classType c).OperationFree) :
    ∀ t ∈ c.types, t.OperationFree := by
  rcases h with _ | h
  exact h

theorem OperationFree.of_function {f : Arrow TypeExpr} (h : (TypeExpr.function f).OperationFree) :
    ∀ p ∈ f.params ++ [f.result], p.type.OperationFree := by
  rcases h with _ | _ | h
  exact h

theorem OperationFree.of_relation {r : Relation TypeExpr}
    (h : (TypeExpr.relation r).OperationFree) :
    ∀ c ∈ r.columns, c.type.OperationFree := by
  rcases h with _ | _ | _ | h
  exact h

theorem OperationFree.substitute {s : Substitution} {t : TypeExpr} (ht : t.OperationFree)
    (hs : ∀ name v, s.types name = some v → v.OperationFree) : (t.substitute s).OperationFree := by
  induction ht with
  | param p =>
    rw [TypeExpr.substitute]
    rcases hv : s.types p.name with _ | v
    · exact .param p
    · exact hs _ v hv
  | classType _ ih =>
    rw [TypeExpr.substitute]
    refine .classType fun t ht => ?_
    obtain ⟨t, hmem, rfl⟩ := List.mem_map.1 ht
    exact ih t hmem
  | function _ ih =>
    rw [TypeExpr.substitute]
    refine .function fun p hp => ?_
    rcases List.mem_append.1 hp with hp | hp
    · obtain ⟨p, hmem, rfl⟩ := List.mem_map.1 hp
      exact ih p (List.mem_append_left _ hmem)
    · rw [List.mem_singleton.1 hp]
      exact ih _ (List.mem_append_right _ List.mem_cons_self)
  | relation _ ih =>
    rw [TypeExpr.substitute]
    refine .relation fun c hc => ?_
    obtain ⟨c, hmem, rfl⟩ := List.mem_map.1 hc
    exact ih c hmem

theorem operationFree_of_isFullyConcrete (t : TypeExpr) : t.isFullyConcrete → t.OperationFree := by
  induction t with
  | param p => exact fun _ => .param p
  | classType c ih =>
    rw [isFullyConcrete_classType]
    exact fun h => .classType fun t ht => ih t ht (h.2 t ht)
  | function f ihp ihr =>
    rw [isFullyConcrete_function]
    refine fun h => .function fun p hp => ?_
    rcases List.mem_append.1 hp with hp | hp
    · exact ihp p hp (h.1 p hp).1
    · rw [List.mem_singleton.1 hp]
      exact ihr h.2.1
  | relation r ih =>
    rw [isFullyConcrete_relation]
    exact fun h => .relation fun c hc => ih c hc (h c hc)
  | operation kind left right => simp [isFullyConcrete]

theorem OperationFree.isFullyConcrete {t : TypeExpr} (ht : t.OperationFree) :
    t.parameters = [] → t.isFullyConcrete := by
  induction ht with
  | param p => simp [parameters]
  | classType _ ih =>
    rw [parameters_classType_eq_nil, isFullyConcrete_classType]
    exact fun h => ⟨fun m hm => Multiplicity.isConcrete_iff.2 (h.1 m hm),
      fun t ht => ih t ht (h.2 t ht)⟩
  | function _ ih =>
    rw [parameters_function_eq_nil, isFullyConcrete_function]
    rintro ⟨hparams, hresult, hmul⟩
    refine ⟨fun p hp => ⟨ih p (List.mem_append_left _ hp) (hparams p hp).1, ?_⟩,
      ih _ List.mem_concat_self hresult, Multiplicity.isConcrete_iff.2 hmul⟩
    exact Multiplicity.isConcrete_iff.2 (hparams p hp).2
  | relation _ ih =>
    rw [parameters_relation_eq_nil, isFullyConcrete_relation]
    exact fun h c hc => ih c hc (h c hc)

theorem isFullyConcrete_iff {t : TypeExpr} :
    t.isFullyConcrete ↔ t.parameters = [] ∧ t.OperationFree :=
  ⟨fun h => ⟨t.parameters_of_isFullyConcrete h, t.operationFree_of_isFullyConcrete h⟩,
    fun h => h.2.isFullyConcrete h.1⟩

end TypeExpr

end ScopedInference
