import ScopedInference.Proofs.Registration.Commute
import ScopedInference.Proofs.Registration.Series
import ScopedInference.Proofs.Relation

/-!
# Learning a relation from several

Registered in turn, relations are concatenated into the parameter that they are registered for, as
long as they go together; from then on it is the top type (`registerInTurn_relations`). If names are
distinct in each of them, what the parameter comes to is the union of all, or the top type if two of
them clash (`register_relations`). A relation that does not agree with itself clashes with itself,
so it is lost when it is registered again (`register_relation_twice`).
-/

namespace ScopedInference

/-- A parameter's value where relations may have clashed. -/
def Relation.orTop (r? : Option (Relation TypeExpr)) : TypeExpr := r?.elim .top .relation

/-- Facts that a parameter is each of several relations. -/
def Relation.facts (id target : ContextId) (p : TypeParam) (merge : Bool)
    (rs : List (Relation TypeExpr)) : List Request :=
  rs.map fun r => .type id (.param p) (some (.relation r)) target merge

section

variable (h : Hierarchy) (p : TypeParam) (owner : ContextId)

theorem mergeDecision_relations (l r : Relation TypeExpr) :
    ∃ d, mergeDecision h p owner (.relation l) (.relation r) = .ok d
      ∧ d.value? = some (Relation.orTop (l.concat? r)) ∧ d.forwards = [] := by
  unfold mergeDecision Relation.concat?
  by_cases hconcat : l.canConcat r
  · exact ⟨_, if_pos hconcat, by rw [if_pos hconcat]; rfl, rfl⟩
  · exact ⟨_, if_neg hconcat, by rw [if_neg hconcat]; rfl, rfl⟩

/-- Relations that have clashed are not learnt any more. -/
theorem mergeDecision_top_relation (r : Relation TypeExpr) :
    ∃ d, mergeDecision h p owner .top (.relation r) = .ok d ∧ d.value? = some .top
      ∧ d.forwards = [] :=
  mergeDecision_of_merge owner (fun _ _ htop => nomatch htop)
    (Hierarchy.mergeWithin_top h _ p.variance (.relation r))

end

namespace Arena

variable {a : Arena} {id target : ContextId} {c there : Context} {p : TypeParam}

/-- Relations that are registered in turn for a parameter that is unbound bind it to their
concatenation, or to the top type, and change nothing else. -/
theorem registerInTurn_relations (hc : a.context id = .ok c) (hthere : a.context target = .ok there)
    (hfresh : c.current.binding? p.name = (none : Option (Binding TypeExpr))) (merge : Bool)
    (r : Relation TypeExpr) (rs : List (Relation TypeExpr)) :
    a.registerInTurn (Relation.facts id target p merge (r :: rs))
      = .ok (a.withBound id target c p.name (Relation.orTop (r.concatAll? rs))) := by
  refine registerInTurn_foldl (w := Relation.orTop) (P := fun _ => True) (Q := fun _ => True)
    (register_unbound hc hthere hfresh rfl merge) trivial (fun _ _ => trivial) ?_
  intro l? s _ _
  refine ⟨trivial, ?_⟩
  cases l? with
  | none =>
    obtain ⟨d, hd, hvalue, hnone⟩ := mergeDecision_top_relation a.hierarchy p target s
    exact register_bound hthere rfl rfl hd hvalue hnone merge
  | some l =>
    obtain ⟨d, hd, hvalue, hnone⟩ := mergeDecision_relations a.hierarchy p target l s
    exact register_bound hthere rfl rfl hd hvalue hnone merge

/-- What a parameter has been bound to is found again. -/
theorem withBound_inj {name : String} {v w : TypeExpr} (h : a.withBound id target c name v
    = a.withBound id target c name w) : v = w := by
  have hv := binding?_withBound a id target c name v
  rw [h, binding?_withBound] at hv
  cases hv
  rfl

end Arena

/-! ### Distinct names -/

section

variable {a : Arena} {id target : ContextId} {c there : Context} {p : TypeParam}
  {rs : List (Relation TypeExpr)}

/-- What relations with distinct names come to, and what they have come to when more follow. -/
theorem Arena.registerInTurn_relations_cases (hc : a.context id = .ok c)
    (hthere : a.context target = .ok there)
    (hfresh : c.current.binding? p.name = (none : Option (Binding TypeExpr))) (merge : Bool)
    (hne : rs ≠ []) (hrs : ∀ r ∈ rs, r.Distinct) :
    (Relation.Clash rs ∧ ∀ ts, a.registerInTurn (Relation.facts id target p merge (rs ++ ts))
        = .ok (a.withBound id target c p.name TypeExpr.top))
      ∨ (¬ Relation.Clash rs ∧ (Relation.union rs).Distinct
        ∧ a.registerInTurn (Relation.facts id target p merge rs)
          = .ok (a.withBound id target c p.name (TypeExpr.relation (.union rs)))) := by
  obtain ⟨r, rs, rfl⟩ := List.exists_cons_of_ne_nil hne
  rcases Relation.concatAll?_cases hrs with ⟨hclash, hnone⟩ | ⟨hclash, hdistinct, hsome⟩
  · refine .inl ⟨hclash, fun ts => ?_⟩
    rw [List.cons_append, registerInTurn_relations hc hthere hfresh,
      Relation.concatAll?_append_eq_none hnone]
    rfl
  · refine .inr ⟨hclash, hdistinct, ?_⟩
    rw [registerInTurn_relations hc hthere hfresh, hsome]
    rfl

/-- Relations with distinct names that are registered in turn for an unbound parameter bind it to the
top type if and only if two of them clash, and whatever relations follow, it stays there. Otherwise
they bind it to their union, whose columns are permuted as the relations are. Nothing else
changes. -/
theorem register_relations (hc : a.context id = .ok c) (hthere : a.context target = .ok there)
    (hfresh : c.current.binding? p.name = (none : Option (Binding TypeExpr))) (merge : Bool)
    (hne : rs ≠ []) (hrs : ∀ r ∈ rs, r.Distinct) :
    (a.registerInTurn (Relation.facts id target p merge rs)
        = .ok (a.withBound id target c p.name TypeExpr.top) ↔ Relation.Clash rs)
      ∧ (Relation.Clash rs → ∀ ss ts, ss.Perm rs →
        a.registerInTurn (Relation.facts id target p merge (ss ++ ts))
          = .ok (a.withBound id target c p.name TypeExpr.top))
      ∧ (¬ Relation.Clash rs → ∀ ss, ss.Perm rs →
        a.registerInTurn (Relation.facts id target p merge ss)
            = .ok (a.withBound id target c p.name (TypeExpr.relation (.union ss)))
          ∧ (Relation.union ss).Distinct
          ∧ (Relation.union ss).columns.Perm (Relation.union rs).columns) := by
  have hcases := fun (ss : List (Relation TypeExpr)) (hperm : ss.Perm rs) =>
    Arena.registerInTurn_relations_cases hc hthere hfresh merge
      (fun hnil : ss = [] => hne (List.perm_nil.1 (hnil ▸ hperm.symm)))
      (fun s hs => hrs s (hperm.mem_iff.1 hs))
  rcases hcases rs (.refl rs) with ⟨hclash, htop⟩ | ⟨hclash, hdistinct, hunion⟩
  · have hrun := htop []
    rw [List.append_nil] at hrun
    refine ⟨iff_of_true hrun hclash, fun _ ss ts hperm => ?_, absurd hclash⟩
    rcases hcases ss hperm with ⟨-, htop'⟩ | ⟨hnot, -⟩
    · exact htop' ts
    · exact absurd (hclash.mono hperm.symm.subset) hnot
  · refine ⟨iff_of_false (fun htop => ?_) hclash, fun h => absurd h hclash, fun _ ss hperm => ?_⟩
    · rw [hunion, Except.ok.injEq] at htop
      cases Arena.withBound_inj htop
    · rcases hcases ss hperm with ⟨hclash', -⟩ | ⟨-, hdistinct', hunion'⟩
      · exact absurd (hclash'.mono hperm.subset) hclash
      · exact ⟨hunion', hdistinct', Relation.union_perm hperm hdistinct'.nodup hdistinct.nodup⟩

end

/-- A column of dates. -/
def Relation.dates : Relation TypeExpr := ⟨[⟨"a", .atom "Date"⟩]⟩

/-- Dates again, after an open column. -/
def Relation.openDates : Relation TypeExpr :=
  ⟨[⟨"b", .param ⟨"X", .covariant⟩⟩, ⟨"a", .atom "Date"⟩]⟩

/-- The open column comes second if it is learnt second. -/
theorem register_relations_dates :
    Arena.freshScope.registerInTurn
        (Relation.facts 1 1 ⟨"T", .covariant⟩ false [.dates, .openDates])
      = .ok (Arena.freshScope.withBound 1 1 (.fresh 1 none none) "T"
        (TypeExpr.relation
          ⟨[⟨"a", .atom "Date"⟩, ⟨"b", .param ⟨"X", .covariant⟩⟩]⟩)) := by
  have hrs : ∀ r ∈ [Relation.openDates, .dates], r.Distinct := by
    unfold Relation.Distinct
    decide
  have hclash : ¬ Relation.Clash [.openDates, .dates] := by
    simp [Relation.Clash, Relation.Agree, Relation.openDates, Relation.dates]
  have hcolumns : Relation.union [.dates, .openDates]
      = ⟨[⟨"a", .atom "Date"⟩, ⟨"b", .param ⟨"X", .covariant⟩⟩]⟩ := by
    simp [Relation.union, Relation.dates, Relation.openDates, List.eraseDups_cons]
  have hperm : [Relation.dates, .openDates].Perm [.openDates, .dates] := .swap ..
  obtain ⟨-, -, hunion⟩ := @register_relations Arena.freshScope 1 1 _ _ ⟨"T", .covariant⟩ _
    rfl rfl rfl false (List.cons_ne_nil _ _) hrs
  rw [(hunion hclash _ hperm).1, hcolumns]

/-! ### Repeated names -/

section

variable {a : Arena} {id target : ContextId} {c there : Context} {p : TypeParam}

theorem Arena.registerInTurn_relation_twice (hc : a.context id = .ok c)
    (hthere : a.context target = .ok there)
    (hfresh : c.current.binding? p.name = (none : Option (Binding TypeExpr))) (merge : Bool)
    (r : Relation TypeExpr) :
    a.registerInTurn (Relation.facts id target p merge [r, r])
      = .ok (a.withBound id target c p.name
        (if r.canConcat r then TypeExpr.relation r else .top)) := by
  have hagain : r.concatAll? [r] = r.concat? r := rfl
  rw [registerInTurn_relations hc hthere hfresh, hagain, Relation.concat?, Relation.concat_self]
  split <;> rfl

end

/-- Registering a relation twice leaves it only if it agrees with itself: its columns of one name
have one type. Otherwise it does not concatenate with itself, concatenation is not symmetric for it
and not stable, and the parameter comes to the top type. -/
theorem register_relation_twice (r : Relation TypeExpr) :
    List.TFAE [r.Agree r, r.canConcat r = true,
      ∀ s, s.Agree s → r.canConcat s = s.canConcat r,
      ∀ s, r.canConcat s → (r.concat s).canConcat r ∧ (r.concat s).concat r = r.concat s,
      ∀ (a : Arena) (id target : ContextId) (c there : Context) (p : TypeParam) (merge : Bool),
        a.context id = .ok c → a.context target = .ok there →
        c.current.binding? p.name = (none : Option (Binding TypeExpr)) →
        a.registerInTurn (Relation.facts id target p merge [r, r])
          = .ok (a.withBound id target c p.name (TypeExpr.relation r))]
    ∧ (¬ r.Agree r → ∀ (a : Arena) (id target : ContextId) (c there : Context) (p : TypeParam)
      (merge : Bool), a.context id = .ok c → a.context target = .ok there →
      c.current.binding? p.name = (none : Option (Binding TypeExpr)) →
      a.registerInTurn (Relation.facts id target p merge [r, r])
        = .ok (a.withBound id target c p.name TypeExpr.top)) := by
  have htfae := Relation.agree_self_tfae r
  refine ⟨?_, fun hnot a id target c there p merge hc hthere hfresh => ?_⟩
  · tfae_have 1 ↔ 2 := htfae.out 0 1
    tfae_have 2 ↔ 3 := htfae.out 1 2
    tfae_have 3 ↔ 4 := htfae.out 2 3
    tfae_have 2 → 5 := by
      intro hself a id target c there p merge hc hthere hfresh
      rw [Arena.registerInTurn_relation_twice hc hthere hfresh, if_pos hself]
    tfae_have 5 → 2 := by
      intro hkept
      have hrun := hkept Arena.freshScope 1 1 _ _ ⟨"T", .covariant⟩ false rfl rfl rfl
      rw [Arena.registerInTurn_relation_twice rfl rfl rfl, Except.ok.injEq] at hrun
      by_contra hself
      rw [if_neg hself] at hrun
      cases Arena.withBound_inj hrun
    tfae_finish
  · rw [Arena.registerInTurn_relation_twice hc hthere hfresh, if_neg]
    exact (htfae.out 0 1).not.1 hnot

/-- A column of dates can be registered any number of times. -/
theorem register_relation_twice_dates :
    Relation.dates.canConcat .dates = true
    ∧ Arena.freshScope.registerInTurn
        (Relation.facts 1 1 ⟨"T", .covariant⟩ false [.dates, .dates])
      = .ok (Arena.freshScope.withBound 1 1 (.fresh 1 none none) "T"
        (TypeExpr.relation .dates)) := by
  have hself : Relation.dates.Agree .dates := by
    simp [Relation.Agree, Relation.dates]
  have htfae := (register_relation_twice .dates).1
  have hkept := (htfae.out 0 4 rfl rfl).1 hself
  exact ⟨(htfae.out 0 1 rfl rfl).1 hself, hkept _ _ _ _ _ _ _ rfl rfl rfl⟩

/-- Dates and numbers under one name. -/
def Relation.ambiguous : Relation TypeExpr :=
  ⟨[⟨"a", .atom "Date"⟩, ⟨"a", .atom "Number"⟩]⟩

/-- They do not go together, and with dates alone only the other way round. -/
theorem register_relation_twice_ambiguous :
    ¬ Relation.ambiguous.canConcat .ambiguous
    ∧ Relation.dates.canConcat .ambiguous ∧ ¬ Relation.ambiguous.canConcat .dates
    ∧ Relation.dates.concat .ambiguous = .dates
    ∧ Arena.freshScope.registerInTurn
        (Relation.facts 1 1 ⟨"T", .covariant⟩ false [.ambiguous, .ambiguous])
      = .ok (Arena.freshScope.withBound 1 1 (.fresh 1 none none) "T" TypeExpr.top) := by
  have hself : ¬ Relation.ambiguous.canConcat .ambiguous := by
    simp [Relation.canConcat, Relation.column?, Relation.ambiguous, TypeExpr.atom]
  refine ⟨hself, ?_, ?_, ?_, ?_⟩
  · simp [Relation.canConcat, Relation.column?, Relation.ambiguous, Relation.dates]
  · simp [Relation.canConcat, Relation.column?, Relation.ambiguous, Relation.dates, TypeExpr.atom]
  · simp [Relation.concat, Relation.has, Relation.column?, Relation.ambiguous, Relation.dates]
  · rw [Arena.registerInTurn_relation_twice rfl rfl rfl, if_neg hself]

end ScopedInference
