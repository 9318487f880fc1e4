import ScopedInference.Proofs.Hierarchy.Merge

/-!
# Conflicts as errors and as the top type

Merging under the two policies goes the same way until two types are in conflict. There it ends, or
it goes on with the top type; nothing else can fail (`Degrades`). In a merge of two types, the top
type then stays where the conflict was (`mergeWithin_degrades`).
-/

namespace ScopedInference

/-- The top type, or a class type with it among the arguments, however deep. -/
inductive TypeExpr.ContainsTop : TypeExpr → Prop where
  | top : ContainsTop .top
  | argument {c : ClassType} {t} : t ∈ c.types → ContainsTop t → ContainsTop (.classType c)

/-- The first outcome is what becomes of the second one if conflicts are errors. What a conflict has
left behind in a result is told by `P`. -/
inductive Degrades {α : Type} (P : α → Prop) :
    Except TypeConflict α → Except TypeConflict α → Prop where
  | agree (a) : Degrades P (.ok a) (.ok a)
  | conflict (e) {a} : P a → Degrades P (.error e) (.ok a)

namespace Degrades

variable {α β : Type} {P Q : α → Prop} {R : β → Prop} {x y : Except TypeConflict α}

theorem mono (hPQ : ∀ a, P a → Q a) (hxy : Degrades P x y) : Degrades Q x y := by
  cases hxy with
  | agree a => exact .agree a
  | conflict e ha => exact .conflict e (hPQ _ ha)

theorem exists_ok (hxy : Degrades P x y) : ∃ a, y = .ok a := by
  cases hxy with
  | agree a => exact ⟨a, rfl⟩
  | conflict _ _ => exact ⟨_, rfl⟩

theorem eq_ok {a : α} (hxy : Degrades P x y) (hx : x = .ok a) : y = .ok a := by
  subst hx
  cases hxy
  rfl

theorem of_error {e : TypeConflict} (hxy : Degrades P x y) (hx : x = .error e) :
    ∃ a, y = .ok a ∧ P a := by
  subst hx
  cases hxy with
  | conflict _ ha => exact ⟨_, rfl, ha⟩

/-- What comes after a conflict keeps what the conflict has left behind. -/
theorem bind {f g : α → Except TypeConflict β} (hxy : Degrades P x y)
    (hfg : ∀ a, Degrades R (f a) (g a)) (hkept : ∀ a b, P a → g a = .ok b → R b) :
    Degrades R (x >>= f) (y >>= g) := by
  cases hxy with
  | agree a => exact hfg a
  | @conflict e a ha =>
    obtain ⟨b, hb⟩ := (hfg a).exists_ok
    show Degrades R (.error e) (g a)
    rw [hb]
    exact .conflict e (hkept a b ha hb)

theorem foldlM {f g : β → α → Except TypeConflict β}
    (hfg : ∀ b a, Degrades (fun _ => True) (f b a) (g b a)) :
    ∀ (l : List α) (b : β), Degrades (fun _ => True) (l.foldlM f b) (l.foldlM g b)
  | [], b => .agree b
  | a :: l, b => by
    rw [List.foldlM_cons, List.foldlM_cons]
    exact (hfg b a).bind (foldlM hfg l) fun _ _ _ _ => trivial

end Degrades

theorem mergeArguments_degrades
    {f g : Variance → TypeExpr → TypeExpr → Except TypeConflict TypeExpr}
    (hfg : ∀ variance t u, Degrades TypeExpr.ContainsTop (f variance t u) (g variance t u)) :
    ∀ (variances : List Variance) (ts us : List TypeExpr),
      Degrades (fun ms => ∃ m ∈ ms, m.ContainsTop) (mergeArguments f variances ts us)
        (mergeArguments g variances ts us)
  | _, [], _ | _, _ :: _, [] => .agree []
  | variances, t :: ts, u :: us => by
    have hrest := mergeArguments_degrades hfg variances.tail ts us
    unfold mergeArguments
    refine (hfg _ t u).bind (fun m => hrest.bind (fun ms => .agree _) ?_) ?_
    · rintro ms _ ⟨x, hx, htop⟩ hms
      cases hms
      exact ⟨x, List.mem_cons_of_mem m hx, htop⟩
    · intro m _ htop hms
      obtain ⟨ms, hrest⟩ := hrest.exists_ok
      rw [hrest] at hms
      cases hms
      exact ⟨m, List.mem_cons_self, htop⟩

namespace Hierarchy

theorem mergeWithin_degrades (h : Hierarchy) :
    ∀ (n : Nat) (variance : Variance) (l r : TypeExpr),
      Degrades TypeExpr.ContainsTop (h.mergeWithin .error n variance l r)
        (h.mergeWithin .degrade n variance l r)
  | n, variance, l, r => by
    rcases h.mergeWithin_outcome n variance l r with
      ⟨hl, -⟩ | ⟨hr, -⟩ | hconflict | ⟨k, c, d, v, w, rfl, -, -, -, -, -, -, hmerge⟩
    · rw [hl, hl]
      exact .agree l
    · rw [hr, hr]
      exact .agree r
    · rw [hconflict, hconflict]
      exact .conflict _ .top
    · rw [hmerge, hmerge]
      have hargs := mergeArguments_degrades (h.mergeWithin_degrades k) (h.variances v.head)
        v.types w.types
      refine hargs.bind (fun types => .agree _) ?_
      rintro types _ ⟨t, ht, htop⟩ hmerged
      cases hmerged
      exact .argument ht htop

theorem commonSupertype_degrades (h : Hierarchy) (variance : Variance) :
    ∀ types, Degrades (fun _ => True) (h.commonSupertype variance .error types)
      (h.commonSupertype variance .degrade types)
  | [] => .agree _
  | t :: ts =>
    have hmerge := h.mergeWithin_degrades maxMergeDepth variance
    .foldlM (fun l r => (hmerge l r).mono fun _ _ => trivial) ts t

/-- With conflicts degrading there always is a common supertype. It is the one without conflicts, if
there are none; a conflict of two types leaves the top type in it. -/
theorem commonSupertype_policies (h : Hierarchy) (variance : Variance) :
    (∀ types, ∃ t, h.commonSupertype variance .degrade types = .ok t)
      ∧ (∀ types t, h.commonSupertype variance .error types = .ok t →
        h.commonSupertype variance .degrade types = .ok t)
      ∧ ∀ l r e, h.commonSupertype variance .error [l, r] = .error e →
        ∃ t, h.commonSupertype variance .degrade [l, r] = .ok t ∧ t.ContainsTop := by
  refine ⟨fun types => (h.commonSupertype_degrades variance types).exists_ok,
    fun types t ht => (h.commonSupertype_degrades variance types).eq_ok ht, fun l r e he => ?_⟩
  rw [commonSupertype_pair] at he ⊢
  exact (h.mergeWithin_degrades _ variance l r).of_error he

end Hierarchy

end ScopedInference
