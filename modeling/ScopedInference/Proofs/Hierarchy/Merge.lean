import ScopedInference.Hierarchy.Merge
import ScopedInference.Proofs.Hierarchy.Ancestors
import ScopedInference.Proofs.Multiplicity

/-!
# Merging again, and the other way round

Under both policies, one of two types gives way to the other one, or they are in conflict, or they
are class types, whose arguments merge (`mergeWithin_outcome`). Where conflicts degrade, there
always is a result (`exists_mergeWithin`): one of the two types (`mergeWithin_givesWay`), the top
type, or a class type over merged arguments (`mergeWithin_cases`). So a result merges with the
second type to itself (`mergeWithin_absorb`), in circular hierarchies too, unless two classes meet
at the bottom class, which gives way to everything. Where the bottom class has no arguments, the
order of the two types does not matter (`Regular.mergeWithin_comm`). Settled types merge to settled
ones (`Regular.mergeWithin_settled`).
-/

namespace ScopedInference

theorem Multiplicity.parameters_join {m n : Multiplicity} (hm : m.parameters = [])
    (hn : n.parameters = []) : (m.join n).parameters = [] :=
  isConcrete_iff.1 (join_isConcrete (isConcrete_iff.2 hm) (isConcrete_iff.2 hn))

theorem zipWith_join_comm (ms ns : List Multiplicity) :
    ms.zipWith Multiplicity.join ns = ns.zipWith Multiplicity.join ms :=
  List.zipWith_comm_of_comm Multiplicity.join_comm

theorem zipWith_join_absorb : ∀ ms ns : List Multiplicity,
    (ms.zipWith Multiplicity.join ns).zipWith Multiplicity.join ns = ms.zipWith Multiplicity.join ns
  | [], _ | _ :: _, [] => by simp
  | m :: ms, n :: ns => by
    simp only [List.zipWith_cons_cons, Multiplicity.join_absorb, zipWith_join_absorb]

theorem subsumes_zipWith_join : ∀ {ms ns : List Multiplicity}, (∀ m ∈ ms, m.isConcrete) →
    (∀ n ∈ ns, n.isConcrete) →
      (∀ p ∈ (ms.zipWith Multiplicity.join ns).zip ms, p.1.subsumes p.2)
        ∧ ∀ p ∈ (ms.zipWith Multiplicity.join ns).zip ns, p.1.subsumes p.2
  | [], _, _, _ => by simp
  | _ :: _, [], _, _ => by simp
  | m :: ms, n :: ns, hms, hns => by
    rw [List.forall_mem_cons] at hms hns
    obtain ⟨hm, hn⟩ := (Multiplicity.subsumes_join_iff hms.1 hns.1).1 (Multiplicity.subsumes_refl _)
    obtain ⟨hms', hns'⟩ := subsumes_zipWith_join hms.2 hns.2
    rw [List.zipWith_cons_cons, List.zip_cons_cons, List.zip_cons_cons, List.forall_mem_cons,
      List.forall_mem_cons]
    exact ⟨⟨hm, hms'⟩, hn, hns'⟩

/-! ### Arguments -/

section

variable {merge : Variance → TypeExpr → TypeExpr → Except TypeConflict TypeExpr}

theorem mergeArguments_cons_eq_ok {variances : List Variance} {t u : TypeExpr}
    {ts us ms : List TypeExpr} : mergeArguments merge variances (t :: ts) (u :: us) = .ok ms
      ↔ ∃ m ms', merge (variances.headD .covariant) t u = .ok m
        ∧ mergeArguments merge variances.tail ts us = .ok ms' ∧ ms = m :: ms' := by
  rw [mergeArguments]
  rcases merge (variances.headD .covariant) t u with e | m
  · simp [bind, Except.bind]
  rcases hms : mergeArguments merge variances.tail ts us with e | ms'
  · simp [bind, Except.bind]
  · simp [bind, Except.bind, pure, Except.pure, eq_comm]

theorem exists_mergeArguments (hmerge : ∀ variance t u, ∃ m, merge variance t u = .ok m) :
    ∀ variances ts us, ∃ ms, mergeArguments merge variances ts us = .ok ms
  | _, [], _ | _, _ :: _, [] => ⟨[], rfl⟩
  | variances, t :: ts, u :: us => by
    obtain ⟨m, hm⟩ := hmerge (variances.headD .covariant) t u
    obtain ⟨ms, hms⟩ := exists_mergeArguments hmerge variances.tail ts us
    exact ⟨m :: ms, mergeArguments_cons_eq_ok.2 ⟨m, ms, hm, hms, rfl⟩⟩

theorem mergeArguments_absorb
    (hmerge : ∀ v t u m, merge v t u = .ok m → merge v m u = .ok m) :
    ∀ {variances : List Variance} {ts us ms : List TypeExpr},
      mergeArguments merge variances ts us = .ok ms →
        mergeArguments merge variances ms us = .ok ms
  | _, [], _, _, h => by
    cases h
    rfl
  | _, _ :: _, [], _, h => by
    cases h
    rfl
  | _, _ :: _, _ :: _, _, h => by
    obtain ⟨m, ms', hm, hms, rfl⟩ := mergeArguments_cons_eq_ok.1 h
    exact mergeArguments_cons_eq_ok.2
      ⟨m, ms', hmerge _ _ _ _ hm, mergeArguments_absorb hmerge hms, rfl⟩

theorem mergeArguments_comm : ∀ {variances : List Variance} {ts us : List TypeExpr},
    (∀ v, ∀ t ∈ ts, ∀ u ∈ us, merge v t u = merge v u t) →
      mergeArguments merge variances ts us = mergeArguments merge variances us ts
  | _, [], [], _ | _, [], _ :: _, _ | _, _ :: _, [], _ => by simp only [mergeArguments]
  | variances, t :: ts, u :: us, h => by
    have hhead := h (variances.headD .covariant) t List.mem_cons_self u List.mem_cons_self
    have htail : mergeArguments merge variances.tail ts us
        = mergeArguments merge variances.tail us ts :=
      mergeArguments_comm fun v t ht u hu =>
        h v t (List.mem_cons_of_mem _ ht) u (List.mem_cons_of_mem _ hu)
    rw [mergeArguments, mergeArguments, hhead, htail]

/-- Each merged argument comes from one of each list, as far as both go. -/
theorem of_mergeArguments : ∀ {variances : List Variance} {ts us ms : List TypeExpr},
    mergeArguments merge variances ts us = .ok ms → ms.length = min ts.length us.length
      ∧ ∀ m ∈ ms, ∃ v, ∃ t ∈ ts, ∃ u ∈ us, merge v t u = .ok m
  | _, [], _, _, h => by
    cases h
    simp
  | _, _ :: _, [], _, h => by
    cases h
    simp
  | _, t :: ts, u :: us, _, h => by
    obtain ⟨m, ms', hm, hms, rfl⟩ := mergeArguments_cons_eq_ok.1 h
    obtain ⟨hlength, hmem⟩ := of_mergeArguments hms
    refine ⟨by simp [hlength], fun x hx => ?_⟩
    rcases List.mem_cons.1 hx with rfl | hx
    · exact ⟨_, t, List.mem_cons_self, u, List.mem_cons_self, hm⟩
    · obtain ⟨v, t', ht', u', hu', hm'⟩ := hmem x hx
      exact ⟨v, t', List.mem_cons_of_mem _ ht', u', List.mem_cons_of_mem _ hu', hm'⟩

/-- What each merged argument has to do with the two that it comes from. -/
theorem mergeArguments_zip {R : TypeExpr → TypeExpr → Prop} :
    ∀ {variances : List Variance} {ts us ms : List TypeExpr},
      (∀ v, ∀ t ∈ ts, ∀ u ∈ us, ∀ m, merge v t u = .ok m → R m t ∧ R m u) →
      mergeArguments merge variances ts us = .ok ms →
        (∀ p ∈ ms.zip ts, R p.1 p.2) ∧ ∀ p ∈ ms.zip us, R p.1 p.2
  | _, [], _, _, _, h => by
    cases h
    simp
  | _, _ :: _, [], _, _, h => by
    cases h
    simp
  | _, t :: ts, u :: us, _, hR, h => by
    obtain ⟨m, ms', hm, hms, rfl⟩ := mergeArguments_cons_eq_ok.1 h
    obtain ⟨ht, hu⟩ := hR _ t List.mem_cons_self u List.mem_cons_self m hm
    obtain ⟨hts, hus⟩ := mergeArguments_zip (fun v t ht u hu =>
      hR v t (List.mem_cons_of_mem _ ht) u (List.mem_cons_of_mem _ hu)) hms
    rw [List.zip_cons_cons, List.zip_cons_cons, List.forall_mem_cons, List.forall_mem_cons]
    exact ⟨⟨ht, hts⟩, hu, hus⟩

end

/-- One type takes another one's place if that one is not fully concrete, or is of the bottom
class. -/
def TypeExpr.GivesWay (t : TypeExpr) : Prop := t.isFullyConcrete = false ∨ t.isBottom = true

theorem TypeExpr.givesWay_of_open {t : TypeExpr} (ht : t.isConcrete = false) : t.GivesWay := by
  refine .inl (Bool.eq_false_iff.2 fun hclosed => ?_)
  rw [isConcrete_of_isFullyConcrete hclosed] at ht
  cases ht

namespace Hierarchy

variable {h : Hierarchy}

/-! ### Common views -/

theorem commonViews?_eq_some {c d v w : ClassType} : h.commonViews? c d = some (v, w)
    ↔ ∃ a, h.leastCommonAncestor? c.head d.head = some a ∧ a ≠ .any
      ∧ h.view? c a = some v ∧ h.view? d a = some w := by
  unfold commonViews?
  simp only [Option.bind_eq_bind, Option.bind_eq_some_iff, Option.guard_eq_some', exists_const,
    Option.pure_def, Option.some.injEq, Prod.mk.injEq]
  constructor
  · rintro ⟨a, ha, hne, v', hv, w', hw, rfl, rfl⟩
    exact ⟨a, ha, hne, hv, hw⟩
  · rintro ⟨a, ha, hne, hv, hw⟩
    exact ⟨a, ha, hne, v, hv, w, hw, rfl, rfl⟩

theorem commonViews?_comm (h : Hierarchy) (c d : ClassType) :
    h.commonViews? d c = (h.commonViews? c d).map Prod.swap := by
  refine Option.ext fun p => ?_
  obtain ⟨v, w⟩ := p
  rw [Option.map_eq_some_iff, commonViews?_eq_some, leastCommonAncestor?_comm]
  constructor
  · rintro ⟨a, ha, hne, hv, hw⟩
    exact ⟨(w, v), commonViews?_eq_some.2 ⟨a, ha, hne, hw, hv⟩, rfl⟩
  · rintro ⟨⟨w', v'⟩, hviews, heq⟩
    obtain ⟨rfl, rfl⟩ := Prod.mk.inj heq
    obtain ⟨a, ha, hne, hw, hv⟩ := commonViews?_eq_some.1 hviews
    exact ⟨a, ha, hne, hv, hw⟩

/-- Both are viewed as types of one class, and neither is the top class. -/
theorem of_commonViews? {c d v w : ClassType} (hviews : h.commonViews? c d = some (v, w)) :
    v.head = w.head ∧ v.head ≠ .any ∧ c.head ≠ .any ∧ d.head ≠ .any := by
  obtain ⟨a, ha, hne, hv, hw⟩ := commonViews?_eq_some.1 hviews
  obtain ⟨⟨⟨hc, hd⟩, -⟩, -⟩ := leastCommonAncestor?_eq_some_iff.1 ha
  obtain ⟨rfl, -⟩ := view_head hv
  refine ⟨(view_head hw).1.symm, hne, fun hany => ?_, fun hany => ?_⟩
  · rw [hany] at hc
    exact hne hc.eq_any
  · rw [hany] at hd
    exact hne hd.eq_any

/-! ### What types merge to -/

theorem mergeWithin_self (h : Hierarchy) (policy : ConflictPolicy) (n : Nat) (variance : Variance)
    (t : TypeExpr) : h.mergeWithin policy n variance t t = .ok t := by
  unfold mergeWithin
  rw [if_pos rfl]

theorem isBottom_classType {c : ClassType} : (TypeExpr.classType c).isBottom ↔ c.head = .nil := by
  simp [TypeExpr.isBottom, TypeExpr.head?]

theorem mergeWithin_classType (policy : ConflictPolicy) (n : Nat) {c d : ClassType}
    (hne : TypeExpr.classType c ≠ .classType d) (hc : c.head ≠ .nil) (hd : d.head ≠ .nil) :
    h.mergeWithin policy (n + 1) .covariant (.classType c) (.classType d)
      = match h.commonViews? c d with
        | none => policy.resolve (.classType c) (.classType d)
        | some (v, w) => do
          let types ← mergeArguments (h.mergeWithin policy n) (h.variances v.head) v.types w.types
          return .classType ⟨v.head, types, v.muls.zipWith .join w.muls⟩ := by
  rw [mergeWithin, if_neg hne]
  simp only [TypeExpr.isConcrete]
  exact (if_neg (by rwa [isBottom_classType])).trans (if_neg (by rwa [isBottom_classType]))

/-- The bottom class gives way, with any arguments. -/
theorem mergeWithin_bottom (policy : ConflictPolicy) (n : Nat) {c : ClassType} (hc : c.head = .nil)
    {t : TypeExpr} (ht : t.isConcrete) :
    h.mergeWithin policy (n + 1) .covariant (.classType c) t = .ok t := by
  by_cases heq : TypeExpr.classType c = t
  · rw [heq, mergeWithin_self]
  unfold mergeWithin
  rw [if_neg heq, ht]
  exact if_pos (isBottom_classType.2 hc)

/-- What becomes of two types, whatever the policy: one takes the other one's place, they are in
conflict, or both are viewed as types of one class, where their arguments merge. -/
theorem mergeWithin_outcome (h : Hierarchy) (n : Nat) (variance : Variance) (l r : TypeExpr) :
    (∀ policy, h.mergeWithin policy n variance l r = .ok l) ∧ (l = r ∨ r.GivesWay)
      ∨ (∀ policy, h.mergeWithin policy n variance l r = .ok r) ∧ (l = r ∨ l.GivesWay)
      ∨ (∀ policy, h.mergeWithin policy n variance l r = policy.resolve l r)
      ∨ ∃ k c d v w, n = k + 1 ∧ variance = .covariant ∧ l = .classType c ∧ r = .classType d
        ∧ c.head ≠ .nil ∧ d.head ≠ .nil ∧ h.commonViews? c d = some (v, w)
        ∧ ∀ policy, h.mergeWithin policy n variance l r = (do
          let types ← mergeArguments (h.mergeWithin policy k) (h.variances v.head) v.types w.types
          return .classType ⟨v.head, types, v.muls.zipWith .join w.muls⟩) := by
  by_cases heq : l = r
  · exact .inl ⟨fun policy => heq ▸ mergeWithin_self .., .inl heq⟩
  unfold mergeWithin
  simp only [if_neg heq]
  rcases hl : l.isConcrete with _ | _ <;> rcases hr : r.isConcrete with _ | _
  · exact .inr (.inr (.inl fun _ => rfl))
  · exact .inr (.inl ⟨fun _ => rfl, .inr (TypeExpr.givesWay_of_open hl)⟩)
  · exact .inl ⟨fun _ => rfl, .inr (TypeExpr.givesWay_of_open hr)⟩
  rcases n with _ | n
  · exact .inr (.inr (.inl fun _ => rfl))
  rcases variance with _ | _
  case invariant => exact .inr (.inr (.inl fun _ => rfl))
  dsimp only
  by_cases hlb : l.isBottom
  · exact .inr (.inl ⟨fun _ => if_pos hlb, .inr (.inr hlb)⟩)
  by_cases hrb : r.isBottom
  · exact .inl ⟨fun _ => (if_neg hlb).trans (if_pos hrb), .inr (.inr hrb)⟩
  simp only [if_neg hlb, if_neg hrb]
  split
  · rename_i c d
    rw [isBottom_classType] at hlb hrb
    rcases hviews : h.commonViews? c d with _ | ⟨v, w⟩
    · exact .inr (.inr (.inl fun _ => rfl))
    · exact .inr (.inr (.inr
        ⟨n, c, d, v, w, rfl, trivial, rfl, rfl, hlb, hrb, hviews, fun _ => rfl⟩))
  · rcases hl : l.isFullyConcrete with _ | _ <;> rcases hr : r.isFullyConcrete with _ | _
    · exact .inr (.inr (.inl fun _ => rfl))
    · exact .inr (.inl ⟨fun _ => rfl, .inr (.inl hl)⟩)
    · exact .inl ⟨fun _ => rfl, .inr (.inl hr)⟩
    · exact .inr (.inr (.inl fun _ => rfl))

/-- Where conflicts degrade. -/
theorem mergeWithin_givesWay {n : Nat} {variance : Variance} {l r m : TypeExpr}
    (hm : h.mergeWithin .degrade n variance l r = .ok m) :
    m = l ∧ (l = r ∨ r.GivesWay) ∨ m = r ∧ (l = r ∨ l.GivesWay) ∨ m = .top
      ∨ ∃ k c d v w types, n = k + 1 ∧ variance = .covariant ∧ l = .classType c ∧ r = .classType d
        ∧ c.head ≠ .nil ∧ d.head ≠ .nil ∧ h.commonViews? c d = some (v, w)
        ∧ mergeArguments (h.mergeWithin .degrade k) (h.variances v.head) v.types w.types = .ok types
        ∧ m = .classType ⟨v.head, types, v.muls.zipWith .join w.muls⟩ := by
  rcases h.mergeWithin_outcome n variance l r with
    ⟨hl, hway⟩ | ⟨hr, hway⟩ | hconflict
      | ⟨k, c, d, v, w, hn, hvariance, hlc, hrd, hc, hd, hviews, hmerge⟩
  · exact .inl ⟨Except.ok.inj (hm.symm.trans (hl _)), hway⟩
  · exact .inr (.inl ⟨Except.ok.inj (hm.symm.trans (hr _)), hway⟩)
  · exact .inr (.inr (.inl (Except.ok.inj (hm.symm.trans (hconflict _)))))
  · rw [hmerge] at hm
    rcases htypes : mergeArguments (h.mergeWithin .degrade k) (h.variances v.head) v.types w.types
      with e | types
    · simp [htypes, bind, Except.bind] at hm
    · simp only [htypes, bind, Except.bind, pure, Except.pure, Except.ok.injEq] at hm
      exact .inr (.inr (.inr ⟨k, c, d, v, w, types, hn, hvariance, hlc, hrd, hc, hd, hviews,
        htypes, hm.symm⟩))

/-- What becomes of two types. -/
theorem mergeWithin_cases {n : Nat} {variance : Variance} {l r m : TypeExpr}
    (hm : h.mergeWithin .degrade n variance l r = .ok m) : m = l ∨ m = r ∨ m = .top
      ∨ ∃ k c d v w types, n = k + 1 ∧ variance = .covariant ∧ l = .classType c ∧ r = .classType d
        ∧ c.head ≠ .nil ∧ d.head ≠ .nil ∧ h.commonViews? c d = some (v, w)
        ∧ mergeArguments (h.mergeWithin .degrade k) (h.variances v.head) v.types w.types = .ok types
        ∧ m = .classType ⟨v.head, types, v.muls.zipWith .join w.muls⟩ := by
  rcases mergeWithin_givesWay hm with ⟨hl, -⟩ | ⟨hr, -⟩ | hrest
  · exact .inl hl
  · exact .inr (.inl hr)
  · exact .inr (.inr hrest)

/-- Only the arguments of class types are merged on the way. -/
theorem exists_mergeWithin (h : Hierarchy) :
    ∀ (n : Nat) (variance : Variance) (l r : TypeExpr),
      ∃ m, h.mergeWithin .degrade n variance l r = .ok m
  | n, variance, l, r => by
    rcases h.mergeWithin_outcome n variance l r with
      ⟨hl, -⟩ | ⟨hr, -⟩ | hconflict | ⟨k, c, d, v, w, rfl, -, -, -, -, -, -, hmerge⟩
    · exact ⟨l, hl _⟩
    · exact ⟨r, hr _⟩
    · exact ⟨.top, hconflict _⟩
    · obtain ⟨types, htypes⟩ :=
        exists_mergeArguments (h.exists_mergeWithin k) (h.variances v.head) v.types w.types
      rw [hmerge, htypes]
      exact ⟨_, rfl⟩

/-- The top type stays, whatever it is merged with. -/
theorem mergeWithin_top (h : Hierarchy) (n : Nat) (variance : Variance) (t : TypeExpr) :
    h.mergeWithin .degrade n variance .top t = .ok .top := by
  by_cases heq : TypeExpr.top = t
  · rw [← heq, mergeWithin_self]
  have hclosed : TypeExpr.top.isFullyConcrete = true := by
    simp [TypeExpr.top, TypeExpr.atom, TypeExpr.isFullyConcrete]
  unfold mergeWithin
  rw [if_neg heq, show TypeExpr.top.isConcrete = true from rfl]
  rcases t.isConcrete with _ | _
  · rfl
  rcases n with _ | n
  · rfl
  rcases variance with _ | _
  case invariant => rfl
  dsimp only
  rw [if_neg (show ¬ TypeExpr.top.isBottom = true by decide), hclosed]
  split
  · rfl
  cases t with
  | classType d =>
    dsimp only [TypeExpr.top, TypeExpr.atom]
    rcases hviews : h.commonViews? ⟨.any, [], []⟩ d with _ | ⟨v, w⟩
    · rfl
    · exact absurd rfl (of_commonViews? hviews).2.2.1
  | _ => rcases TypeExpr.isFullyConcrete _ with _ | _ <;> rfl

/-- Where no two classes meet at the bottom class, a result merges with the second type to
itself. -/
theorem mergeWithin_absorb
    (hnil : ∀ a b, h.leastCommonAncestor? a b = some .nil → a = .nil ∨ b = .nil) :
    ∀ (n : Nat) {variance : Variance} {l r m : TypeExpr},
      h.mergeWithin .degrade n variance l r = .ok m → h.mergeWithin .degrade n variance m r = .ok m
  | n, variance, l, r, m, hm => by
    rcases mergeWithin_cases hm with
      rfl | rfl | rfl | ⟨k, c, d, v, w, types, rfl, rfl, rfl, rfl, hc, hd, hviews, htypes, rfl⟩
    · exact hm
    · exact mergeWithin_self ..
    · exact mergeWithin_top ..
    obtain ⟨a, ha, hne, hv, hw⟩ := commonViews?_eq_some.1 hviews
    obtain ⟨rfl, -⟩ := view_head hv
    by_cases hsame : TypeExpr.classType ⟨v.head, types, v.muls.zipWith .join w.muls⟩ = .classType d
    · rw [hsame, mergeWithin_self]
    have hbottom : v.head ≠ .nil := fun hbottom => by
      rw [hbottom] at ha
      exact (hnil _ _ ha).elim hc hd
    have hagain : h.commonViews? ⟨v.head, types, v.muls.zipWith .join w.muls⟩ d
        = some (⟨v.head, types, v.muls.zipWith .join w.muls⟩, w) :=
      commonViews?_eq_some.2 ⟨v.head, leastCommonAncestor?_absorb ha, hne, view?_self _, hw⟩
    rw [mergeWithin_classType _ _ hsame hbottom hd, hagain]
    have hargument : ∀ v t u m, h.mergeWithin .degrade k v t u = .ok m →
        h.mergeWithin .degrade k v m u = .ok m := fun _ _ _ _ => mergeWithin_absorb hnil k
    simp only [mergeArguments_absorb hargument htypes, bind, Except.bind, zipWith_join_absorb]
    rfl

/-- Where the bottom class has no arguments, only the bottom type is of it. -/
theorem eq_bottom {t : TypeExpr}
    (hnil : ∀ c, h.Arity c → c.head = .nil → c.types = [] ∧ c.muls = [])
    (ht : t.AllClasses h.Arity) (hbottom : t.isBottom) : t = .bottom := by
  cases ht with
  | @classType c harity _ =>
    rw [isBottom_classType] at hbottom
    obtain ⟨htypes, hmuls⟩ := hnil c harity hbottom
    obtain ⟨head, types, muls⟩ := c
    subst hbottom htypes hmuls
    rfl
  | _ => simp [TypeExpr.isBottom, TypeExpr.head?] at hbottom

/-- The order of the types does not matter then. -/
theorem Regular.mergeWithin_comm (hreg : h.Regular)
    (hnil : ∀ c, h.Arity c → c.head = .nil → c.types = [] ∧ c.muls = []) :
    ∀ (n : Nat) (variance : Variance) {l r : TypeExpr}, l.AllClasses h.Arity →
      r.AllClasses h.Arity →
      h.mergeWithin .degrade n variance l r = h.mergeWithin .degrade n variance r l := by
  intro n
  induction n with
  | zero =>
    intro variance l r _ _
    by_cases heq : l = r
    · rw [heq]
    unfold mergeWithin
    rw [if_neg heq, if_neg (Ne.symm heq)]
    rcases l.isConcrete with _ | _ <;> rcases r.isConcrete with _ | _ <;> rfl
  | succ n ih =>
    intro variance l r hl hr
    by_cases heq : l = r
    · rw [heq]
    unfold mergeWithin
    rw [if_neg heq, if_neg (Ne.symm heq)]
    rcases l.isConcrete with _ | _ <;> rcases r.isConcrete with _ | _
    · rfl
    · rfl
    · rfl
    rcases variance with _ | _
    case invariant => rfl
    dsimp only
    by_cases hlb : l.isBottom <;> by_cases hrb : r.isBottom
    · exact absurd ((eq_bottom hnil hl hlb).trans (eq_bottom hnil hr hrb).symm) heq
    · rw [if_pos hlb, if_neg hrb, if_pos hlb]
    · rw [if_neg hlb, if_pos hrb, if_pos hrb]
    rw [if_neg hlb, if_neg hrb, if_neg hrb, if_neg hlb]
    rcases l with _ | c | _ | _ | _ <;> rcases r with _ | d | _ | _ | _
    case classType.classType =>
      dsimp only
      rw [commonViews?_comm h c d]
      rcases hviews : h.commonViews? c d with _ | ⟨v, w⟩
      · rfl
      have hhead := (of_commonViews? hviews).1
      obtain ⟨a, -, -, hv, hw⟩ := commonViews?_eq_some.1 hviews
      have hkept : ∀ {c v : ClassType}, h.view? c a = some v →
          (TypeExpr.classType c).AllClasses h.Arity → ∀ t ∈ v.types, t.AllClasses h.Arity := by
        intro c v hv hc
        rcases view_allClasses h.structural_arity hreg.arities hv hc with _ | ⟨-, hargs⟩
        exact hargs
      have htypes : mergeArguments (h.mergeWithin .degrade n) (h.variances v.head) v.types w.types
          = mergeArguments (h.mergeWithin .degrade n) (h.variances v.head) w.types v.types :=
        mergeArguments_comm fun x t ht u hu => ih x (hkept hv hl t ht) (hkept hw hr u hu)
      simp only [Option.map_some, Prod.swap_prod_mk]
      rw [htypes, ← hhead, zipWith_join_comm v.muls]
    all_goals
      rcases TypeExpr.isFullyConcrete _ with _ | _ <;>
        rcases TypeExpr.isFullyConcrete _ with _ | _ <;> rfl

theorem settled_top : TypeExpr.top.Settled h :=
  .classType (fun hany => absurd rfl hany) (by simp) (by simp)

/-- Settled types merge to settled ones. -/
theorem Regular.mergeWithin_settled (hreg : h.Regular) :
    ∀ (n : Nat) {variance : Variance} {l r m : TypeExpr},
      h.mergeWithin .degrade n variance l r = .ok m → l.Settled h → r.Settled h → m.Settled h
  | n, variance, l, r, m, hm, hl, hr => by
    rcases mergeWithin_cases hm with
      rfl | rfl | rfl | ⟨k, c, d, v, w, types, rfl, rfl, rfl, rfl, -, -, hviews, htypes, rfl⟩
    · exact hl
    · exact hr
    · exact settled_top
    obtain ⟨hhead, hany, hc, hd⟩ := of_commonViews? hviews
    obtain ⟨a, -, -, hv, hw⟩ := commonViews?_eq_some.1 hviews
    obtain ⟨hvsize, hvmuls, hvtypes⟩ := (hreg.view_settled hv hl hc).of_classType
    obtain ⟨hwsize, hwmuls, hwtypes⟩ := (hreg.view_settled hw hr hd).of_classType
    obtain ⟨hlength, hmem⟩ := of_mergeArguments htypes
    refine .classType (fun _ e he => ?_) (fun x hx => ?_) fun x hx => ?_
    · obtain ⟨hvt, hvm⟩ := hvsize hany e he
      obtain ⟨hwt, hwm⟩ := hwsize (hhead ▸ hany) e (hhead ▸ he)
      rw [hlength, hvt, hwt, List.length_zipWith, hvm, hwm]
      exact ⟨Nat.min_self _, Nat.min_self _⟩
    · obtain ⟨i, hi, rfl⟩ := List.getElem_of_mem hx
      rw [List.getElem_zipWith]
      exact Multiplicity.parameters_join (hvmuls _ (List.getElem_mem _))
        (hwmuls _ (List.getElem_mem _))
    · obtain ⟨x', t, ht, u, hu, hx⟩ := hmem x hx
      exact hreg.mergeWithin_settled k hx (hvtypes t ht) (hwtypes u hu)

/-- Only classes that generalize the bottom class can meet there. -/
theorem eq_nil_of_leastCommonAncestor? (hnil : ∀ name, ¬ h.Extends name .nil) {a b : ClassName}
    (hab : h.leastCommonAncestor? a b = some .nil) : a = .nil ∨ b = .nil := by
  obtain ⟨⟨⟨ha, -⟩, -⟩, -⟩ := leastCommonAncestor?_eq_some_iff.1 hab
  rcases Relation.ReflTransGen.cases_tail ha with heq | ⟨y, -, hy⟩
  · exact .inl heq.symm
  · rcases (mem_directSupertypes hy).2 with hany | hext
    · exact absurd hany (by decide)
    · exact absurd hext (hnil y)

/-! ### Two types -/

theorem commonSupertype_pair (h : Hierarchy) (variance : Variance) (policy : ConflictPolicy)
    (l r : TypeExpr) : h.commonSupertype variance policy [l, r] = h.merge variance policy l r := by
  show (h.merge variance policy l r >>= fun t => List.foldlM _ t []) = _
  rcases h.merge variance policy l r with e | m <;> rfl

end Hierarchy

end ScopedInference
