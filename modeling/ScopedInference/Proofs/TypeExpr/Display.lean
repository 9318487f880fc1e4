import ScopedInference.Proofs.TypeExpr.Parameters
import ScopedInference.TypeExpr.Display

/-!
# Reading a type off its text

Two closed types have different texts, as long as names hold none of the notation's own characters.
What may come behind a part of a text never goes on with the part, so whatever comes there, the text
shows where the part ends and what it is (`Legible`). Parts may then stand side by side between
commas (`Legible.commaSeparated`).
-/

namespace ScopedInference

/-- What the notation is written with. Letters, digits and underscores are not among it. -/
def punctuation : List Char :=
  ['<', '>', '|', ',', ' ', '\x7b', '\x7d', '(', ')', '[', ']', ':', '-']

/-- Any string that is not mistaken for something else in the notation can be a name. -/
structure IsName (name : String) : Prop where
  ne_empty : name ≠ ""
  plain : ∀ c ∈ name.toList, c ∉ punctuation

theorem isName_of_isAlphanum {name : String} (hne : name ≠ "")
    (hchars : ∀ c ∈ name.toList, c.isAlphanum ∨ c = '_') : IsName name := by
  have hapart : ∀ c ∈ punctuation, ¬ (c.isAlphanum ∨ c = '_') := by simp [punctuation]
  exact ⟨hne, fun c hc hmem => hapart c hmem (hchars c hc)⟩

/-- All classes and columns within a type have names. -/
inductive TypeExpr.Named : TypeExpr → Prop where
  | param (p) : Named (.param p)
  | classType {c} : IsName c.head → (∀ t ∈ c.types, Named t) → Named (.classType c)
  | function {f} : (∀ p ∈ f.params, Named p.type) → Named f.result.type → Named (.function f)
  | relation {r} : (∀ c ∈ r.columns, IsName c.name) → (∀ c ∈ r.columns, Named c.type) →
      Named (.relation r)
  | operation {kind left right} : Named left → Named right → Named (.operation kind left right)

/-! ### Parts of a text -/

/-- What a part of a text may be followed by, in a list or in brackets. -/
def closers : List Char := [',', '|', '>', ')', '\x7d', '[', ']', '-']

theorem closers_subset : closers ⊆ punctuation := by decide

def Follows (l : List Char) : Prop := ∀ c ∈ l.head?, c ∈ closers

/-- A part does not look like what may follow one. -/
def Starts (l : List Char) : Prop := ∃ c ∈ l.head?, c ∉ closers

theorem Starts.not_follows {l : List Char} (h : Starts l) : ¬ Follows l := by
  obtain ⟨c, hc, hstart⟩ := h
  exact fun hfollows => hstart (hfollows c hc)

theorem Starts.append {l : List Char} (h : Starts l) (a : List Char) : Starts (l ++ a) := by
  obtain ⟨c, hc, hstart⟩ := h
  exact ⟨c, by rw [List.head?_append, Option.mem_def.1 hc]; rfl, hstart⟩

theorem follows_cons {c : Char} (hc : c ∈ closers) (l : List Char) : Follows (c :: l) := by
  intro d hd
  cases hd
  exact hc

/-- A text that goes on with characters of its own kind ends where there is another one. -/
theorem append_cancel {p : Char → Prop} : ∀ {x y a b : List Char}, (∀ c ∈ x, p c) →
    (∀ c ∈ y, p c) → (∀ c ∈ a.head?, ¬ p c) → (∀ c ∈ b.head?, ¬ p c) → x ++ a = y ++ b →
      x = y ∧ a = b
  | [], [], _, _, _, _, _, _, heq => ⟨rfl, heq⟩
  | [], c :: _, _, _, _, hy, ha, _, heq => by
    subst heq
    exact absurd (hy c List.mem_cons_self) (ha c rfl)
  | c :: _, [], _, _, hx, _, _, hb, heq => by
    subst heq
    exact absurd (hx c List.mem_cons_self) (hb c rfl)
  | c :: x, d :: y, _, _, hx, hy, ha, hb, heq => by
    obtain ⟨rfl, htail⟩ := List.cons.inj heq
    obtain ⟨rfl, hab⟩ := append_cancel (fun e he => hx e (List.mem_cons_of_mem _ he))
      (fun e he => hy e (List.mem_cons_of_mem _ he)) ha hb htail
    exact ⟨rfl, hab⟩

/-- A part that can be told from every other one by its text, whatever follows. -/
structure Legible {α : Type} (P : α → Prop) (text : α → List Char) (x : α) : Prop where
  starts : Starts (text x)
  cancel : ∀ {y : α} {a b : List Char}, P y → Follows a → Follows b →
    text x ++ a = text y ++ b → x = y ∧ a = b

/-! ### Lists of parts -/

section

variable {α : Type} {P : α → Prop} {text : α → List Char} {xs ys : List α} {a b : List Char}

def commaSeparated (texts : List (List Char)) : List Char := [',', ' '].intercalate texts

theorem commaSeparated_cons (t : List Char) (ts : List (List Char)) :
    commaSeparated (t :: ts) = t ++ ts.flatMap (',' :: ' ' :: ·) := by
  unfold commaSeparated
  induction ts generalizing t with
  | nil => rw [List.intercalate_singleton, List.flatMap_nil, List.append_nil]
  | cons u ts ih =>
    rw [List.intercalate_cons_cons, ih, List.flatMap_cons, List.append_assoc]
    rfl

/-- What may follow a list of parts. -/
def Ends (l : List Char) : Prop := ∀ c ∈ l.head?, c ∈ closers ∧ c ≠ ','

theorem Ends.follows (ha : Ends a) : Follows a := fun c hc => (ha c hc).1

theorem ends_cons {c : Char} (hc : c ∈ closers ∧ c ≠ ',') (l : List Char) : Ends (c :: l) := by
  intro d hd
  cases hd
  exact hc

theorem Ends.follows_flatMap (ha : Ends a) (ts : List (List Char)) :
    Follows (ts.flatMap (',' :: ' ' :: ·) ++ a) := by
  cases ts with
  | nil => exact ha.follows
  | cons t ts => exact follows_cons (by decide) _

theorem Legible.flatMap : ∀ {xs ys : List α}, (∀ x ∈ xs, Legible P text x) → (∀ y ∈ ys, P y) →
    Ends a → Ends b →
      (xs.map text).flatMap (',' :: ' ' :: ·) ++ a = (ys.map text).flatMap (',' :: ' ' :: ·) ++ b →
      xs = ys ∧ a = b
  | [], [], _, _, _, _, heq => ⟨rfl, heq⟩
  | [], _ :: _, _, _, ha, _, heq => by
    subst heq
    exact absurd rfl (ha ',' rfl).2
  | _ :: _, [], _, _, _, hb, heq => by
    subst heq
    exact absurd rfl (hb ',' rfl).2
  | x :: xs, y :: ys, hxs, hys, ha, hb, heq => by
    rw [List.forall_mem_cons] at hxs hys
    simp only [List.map_cons, List.flatMap_cons, List.cons_append, List.append_assoc,
      List.cons.injEq, true_and] at heq
    obtain ⟨rfl, hrest⟩ := hxs.1.cancel hys.1 (ha.follows_flatMap _) (hb.follows_flatMap _) heq
    obtain ⟨rfl, hab⟩ := Legible.flatMap hxs.2 hys.2 ha hb hrest
    exact ⟨rfl, hab⟩

/-- Legible parts are legible side by side. -/
theorem Legible.commaSeparated (hxs : ∀ x ∈ xs, Legible P text x)
    (hys : ∀ y ∈ ys, P y ∧ Starts (text y)) (ha : Ends a) (hb : Ends b)
    (heq : commaSeparated (xs.map text) ++ a = commaSeparated (ys.map text) ++ b) :
    xs = ys ∧ a = b := by
  -- With one of the lists empty, a part would have to look like what follows the list
  rcases xs with _ | ⟨x, xs⟩ <;> rcases ys with _ | ⟨y, ys⟩
  · exact ⟨rfl, heq⟩
  · rw [List.map_cons, commaSeparated_cons, List.append_assoc] at heq
    have ha := ha.follows
    rw [show a = _ from heq] at ha
    exact absurd ha ((hys y List.mem_cons_self).2.append _).not_follows
  · rw [List.map_cons, commaSeparated_cons, List.append_assoc] at heq
    have hb := hb.follows
    rw [← show _ = b from heq] at hb
    exact absurd hb ((hxs x List.mem_cons_self).starts.append _).not_follows
  · rw [List.forall_mem_cons] at hxs hys
    rw [List.map_cons, List.map_cons, commaSeparated_cons, commaSeparated_cons, List.append_assoc,
      List.append_assoc] at heq
    obtain ⟨rfl, hrest⟩ := hxs.1.cancel hys.1.1 (ha.follows_flatMap _) (hb.follows_flatMap _) heq
    obtain ⟨rfl, hab⟩ := Legible.flatMap hxs.2 (fun y hy => (hys.2 y hy).1) ha hb hrest
    exact ⟨rfl, hab⟩

end

/-! ### Names -/

theorem IsName.exists_cons {name : String} (hname : IsName name) :
    ∃ c l, name.toList = c :: l ∧ c ∉ punctuation := by
  rcases hl : name.toList with _ | ⟨c, l⟩
  · exact absurd (String.toList_eq_nil_iff.1 hl) hname.ne_empty
  · exact ⟨c, l, rfl, hname.plain c (hl ▸ List.mem_cons_self)⟩

theorem IsName.starts {name : String} (hname : IsName name) : Starts name.toList := by
  obtain ⟨c, l, hl, hc⟩ := hname.exists_cons
  exact ⟨c, by rw [hl]; rfl, fun hclose => hc (closers_subset hclose)⟩

theorem IsName.ne_bracket {name : String} (hname : IsName name) {c : Char} (hc : c ∈ punctuation)
    (a b : List Char) : name.toList ++ a ≠ c :: b := by
  obtain ⟨d, l, hl, hd⟩ := hname.exists_cons
  rw [hl]
  rintro heq
  exact hd ((List.cons.inj heq).1 ▸ hc)

/-- A name goes on up to the notation's next character. -/
theorem IsName.cancel {m n : String} (hm : IsName m) (hn : IsName n) {a b : List Char}
    (ha : ∀ c ∈ a.head?, c ∈ punctuation) (hb : ∀ c ∈ b.head?, c ∈ punctuation)
    (heq : m.toList ++ a = n.toList ++ b) : m = n ∧ a = b := by
  obtain ⟨hmn, hab⟩ := append_cancel hm.plain hn.plain (fun c hc hnot => hnot (ha c hc))
    (fun c hc hnot => hnot (hb c hc)) heq
  exact ⟨String.toList_inj.1 hmn, hab⟩

/-! ### Multiplicities -/

namespace Multiplicity

/-- A count, or the star where counts are not bounded. -/
def countText : Option Nat → List Char
  | none => ['*']
  | some n => Nat.toDigits 10 n

def IsCountChar (c : Char) : Prop := c.isDigit ∨ c = '*'

theorem isCountChar_countText (n : Option Nat) : ∀ c ∈ countText n, IsCountChar c := by
  intro c hc
  cases n with
  | none => exact .inr (List.mem_singleton.1 hc)
  | some n => exact .inl (Nat.isDigit_of_mem_toDigits (by decide) (by decide) hc)

theorem not_isCountChar_of_mem_closers : ∀ c ∈ closers, ¬ IsCountChar c := by
  simp [closers, IsCountChar]

theorem starts_countText (n : Option Nat) : Starts (countText n) := by
  have hne : countText n ≠ [] := by
    cases n with
    | none => exact List.cons_ne_nil _ _
    | some n => exact Nat.toDigits_ne_nil
  obtain ⟨c, l, hl⟩ := List.exists_cons_of_ne_nil hne
  have hc := isCountChar_countText n c (hl ▸ List.mem_cons_self)
  exact ⟨c, by rw [hl]; rfl, fun hclose => not_isCountChar_of_mem_closers c hclose hc⟩

theorem countText_injective {m n : Option Nat} (heq : countText m = countText n) : m = n := by
  have hstar : ∀ {n}, Nat.toDigits 10 n ≠ ['*'] := by
    intro n hn
    have hdigit : ('*').isDigit = true :=
      Nat.isDigit_of_mem_toDigits (b := 10) (n := n) (by decide) (by decide)
        (hn ▸ List.mem_singleton.2 rfl)
    exact absurd hdigit (by decide)
  rcases m with _ | m <;> rcases n with _ | n
  · rfl
  · exact absurd heq.symm hstar
  · exact absurd heq hstar
  · have hvalue := congrArg (Nat.ofDigitChars 10 · 0) heq
    simp only [countText, Nat.ofDigitChars_ten_toDigits] at hvalue
    rw [hvalue]

theorem countText_cancel {m n : Option Nat} {a b : List Char}
    (ha : ∀ c ∈ a.head?, ¬ IsCountChar c) (hb : ∀ c ∈ b.head?, ¬ IsCountChar c)
    (heq : countText m ++ a = countText n ++ b) : m = n ∧ a = b := by
  obtain ⟨hmn, hab⟩ :=
    append_cancel (isCountChar_countText m) (isCountChar_countText n) ha hb heq
  exact ⟨countText_injective hmn, hab⟩

/-- The counts that the text of a range shows: one where it says as much as both. -/
def shown (lower : Nat) (upper : Option Nat) : Option Nat × Option (Option Nat) :=
  if lower = 0 ∧ upper = none then (none, none)
  else if upper = some lower then (some lower, none)
  else (some lower, some upper)

theorem shown_injective {lower lower' : Nat} {upper upper' : Option Nat}
    (heq : shown lower upper = shown lower' upper') : lower = lower' ∧ upper = upper' := by
  unfold shown at heq
  split_ifs at heq <;> simp_all

/-- The second count that is shown, if there is one. -/
def secondText : Option (Option Nat) → List Char
  | none => []
  | some upper => '.' :: '.' :: countText upper

theorem not_isCountChar_secondText (second : Option (Option Nat)) {a : List Char} (ha : Follows a) :
    ∀ c ∈ (secondText second ++ a).head?, ¬ IsCountChar c := by
  cases second with
  | none => exact fun c hc => not_isCountChar_of_mem_closers c (ha c hc)
  | some upper =>
    intro c hc
    cases hc
    unfold IsCountChar
    decide

theorem secondText_cancel {second second' : Option (Option Nat)} {a b : List Char}
    (ha : Follows a) (hb : Follows b) (heq : secondText second ++ a = secondText second' ++ b) :
    second = second' ∧ a = b := by
  rcases second with _ | m <;> rcases second' with _ | n
  · exact ⟨rfl, heq⟩
  · obtain rfl : a = _ := heq
    exact absurd (ha '.' rfl) (by decide)
  · obtain rfl : _ = b := heq
    exact absurd (hb '.' rfl) (by decide)
  · simp only [secondText, List.cons_append, List.cons.injEq, true_and] at heq
    obtain ⟨rfl, hab⟩ := countText_cancel
      (fun c hc => not_isCountChar_of_mem_closers c (ha c hc))
      (fun c hc => not_isCountChar_of_mem_closers c (hb c hc)) heq
    exact ⟨rfl, hab⟩

/-- The text of a multiplicity in an argument list or between brackets. -/
def text (m : Multiplicity) : List Char := m.bare.toList

theorem text_range (lower : Nat) (upper : Option Nat) : (range lower upper).text
    = countText (shown lower upper).1 ++ secondText (shown lower upper).2 := by
  have hdigits : ∀ n : Nat, (toString n).toList = Nat.toDigits 10 n := by
    intro n
    rw [Nat.toString_eq_ofList_toDigits, String.toList_ofList]
  unfold text shown
  rcases upper with _ | upper
  · rcases lower with _ | lower
    · rfl
    · rw [if_neg (by simp), if_neg (by simp), bare, String.toList_append, hdigits]
      · rfl
      · simp
  · rw [if_neg (by simp), bare]
    by_cases heq : lower = upper
    · rw [if_pos heq, if_pos (by rw [heq]), hdigits]
      exact (List.append_nil _).symm
    · rw [if_neg heq, if_neg (by simpa using Ne.symm heq), String.toList_append,
        String.toList_append, hdigits, hdigits, List.append_assoc]
      rfl

theorem exists_range {m : Multiplicity} (hm : m.isConcrete) :
    ∃ lower upper, m = range lower upper := by
  cases m with
  | range lower upper => exact ⟨lower, upper, rfl⟩
  | param name => cases hm

theorem legible_text {m : Multiplicity} (hm : m.isConcrete) : Legible (·.isConcrete) text m where
  starts := by
    obtain ⟨lower, upper, rfl⟩ := exists_range hm
    rw [text_range]
    exact (starts_countText _).append _
  cancel := by
    intro n a b hn ha hb heq
    obtain ⟨lower, upper, rfl⟩ := exists_range hm
    obtain ⟨lower', upper', rfl⟩ := exists_range hn
    rw [text_range, text_range, List.append_assoc, List.append_assoc] at heq
    obtain ⟨hfirst, hrest⟩ := countText_cancel (not_isCountChar_secondText _ ha)
      (not_isCountChar_secondText _ hb) heq
    obtain ⟨hsecond, hab⟩ := secondText_cancel ha hb hrest
    obtain ⟨rfl, rfl⟩ := shown_injective (Prod.ext hfirst hsecond)
    exact ⟨rfl, hab⟩

end Multiplicity

/-! ### Types -/

namespace TypeExpr

/-- Fully concrete, and with names that can be read. -/
structure Closed (t : TypeExpr) : Prop where
  concrete : t.isFullyConcrete
  named : t.Named

def text (t : TypeExpr) : List Char := t.display.toList

/-- The multiplicity arguments of a class type, and the end of its arguments. -/
def mulsText : List Multiplicity → List Char
  | [] => ['>']
  | m :: ms => '|' :: (commaSeparated ((m :: ms).map (·.text)) ++ ['>'])

/-- The arguments of a class type between angle brackets, if there are any. -/
def angleText (types : List TypeExpr) (muls : List Multiplicity) : List Char :=
  if types = [] ∧ muls = [] then [] else '<' :: (commaSeparated (types.map text) ++ mulsText muls)

def positionText (p : Position TypeExpr) : List Char :=
  p.type.text ++ '[' :: (p.mul.text ++ [']'])

def columnText (c : Column TypeExpr) : List Char := c.name.toList ++ ':' :: c.type.text

/-- What is asked of a parameter or the result of a closed function type. -/
def ClosedPosition (p : Position TypeExpr) : Prop := p.type.Closed ∧ p.mul.isConcrete

/-- What is asked of a column of a closed relation type. -/
def ClosedColumn (c : Column TypeExpr) : Prop := IsName c.name ∧ c.type.Closed

theorem toList_intercalate {α : Type} (f : α → String) (l : List α) :
    (", ".intercalate (l.map f)).toList = commaSeparated (l.map fun x => (f x).toList) := by
  rw [String.toList_intercalate, List.map_map]
  rfl

theorem toList_argumentsText (types : List TypeExpr) (muls : List Multiplicity) :
    (argumentsText (types.map (·.display)) muls).toList = angleText types muls := by
  have hmuls : ∀ m ms, argumentsText (types.map (·.display)) (m :: ms)
      = "<" ++ ", ".intercalate (types.map (·.display)) ++ "|"
        ++ ", ".intercalate ((m :: ms).map (·.bare)) ++ ">" := by
    cases types <;> exact fun _ _ => rfl
  rcases muls with _ | ⟨m, ms⟩
  · rcases types with _ | ⟨t, ts⟩
    · rfl
    · show ("<" ++ ", ".intercalate ((t :: ts).map (·.display)) ++ ">").toList = _
      rw [angleText, if_neg (by simp)]
      simp only [String.toList_append, toList_intercalate, List.append_assoc]
      rfl
  · rw [hmuls, angleText, if_neg (by simp)]
    simp only [String.toList_append, toList_intercalate, List.append_assoc]
    rfl

theorem text_classType (c : ClassType) :
    (classType c).text = c.head.toList ++ angleText c.types c.muls := by
  rw [text, display, String.toList_append, toList_argumentsText]

theorem text_function (f : Arrow TypeExpr) : (function f).text
    = '\x7b' :: (commaSeparated (f.params.map positionText)
      ++ '-' :: '>' :: (positionText f.result ++ ['\x7d'])) := by
  rw [text, display]
  simp only [String.toList_append, toList_intercalate, Multiplicity.display, positionText,
    List.append_assoc, List.cons_append]
  rfl

theorem text_relation (r : Relation TypeExpr) : (relation r).text
    = '(' :: (commaSeparated (r.columns.map columnText) ++ [')']) := by
  rw [text, display]
  simp only [String.toList_append, toList_intercalate, List.append_assoc]
  rfl

theorem not_closed_param (p : TypeParam) : ¬ (param p).Closed := by
  rintro ⟨hconcrete, -⟩
  simp [isFullyConcrete] at hconcrete

theorem not_closed_operation (kind : OperationKind) (left right : TypeExpr) :
    ¬ (operation kind left right).Closed := by
  rintro ⟨hconcrete, -⟩
  simp [isFullyConcrete] at hconcrete

theorem Closed.of_classType {c : ClassType} (hc : (classType c).Closed) :
    IsName c.head ∧ (∀ t ∈ c.types, t.Closed) ∧ ∀ m ∈ c.muls, m.isConcrete := by
  obtain ⟨hconcrete, hnamed⟩ := hc
  obtain ⟨hmuls, htypes⟩ := isFullyConcrete_classType.1 hconcrete
  cases hnamed with
  | classType hhead hparts => exact ⟨hhead, fun t ht => ⟨htypes t ht, hparts t ht⟩, hmuls⟩

theorem Closed.of_function {f : Arrow TypeExpr} (hf : (function f).Closed) :
    (∀ p ∈ f.params, ClosedPosition p) ∧ ClosedPosition f.result := by
  obtain ⟨hconcrete, hnamed⟩ := hf
  obtain ⟨hparams, hresult, hmul⟩ := isFullyConcrete_function.1 hconcrete
  cases hnamed with
  | function hnames hname =>
    exact ⟨fun p hp => ⟨⟨(hparams p hp).1, hnames p hp⟩, (hparams p hp).2⟩,
      ⟨hresult, hname⟩, hmul⟩

theorem Closed.of_relation {r : Relation TypeExpr} (hr : (relation r).Closed) :
    ∀ c ∈ r.columns, ClosedColumn c := by
  obtain ⟨hconcrete, hnamed⟩ := hr
  cases hnamed with
  | relation hnames hparts =>
    exact fun c hc => ⟨hnames c hc, isFullyConcrete_relation.1 hconcrete c hc, hparts c hc⟩

theorem Closed.starts {t : TypeExpr} (ht : t.Closed) : Starts t.text := by
  cases t with
  | param p => exact absurd ht (not_closed_param p)
  | classType c =>
    rw [text_classType]
    exact ht.of_classType.1.starts.append _
  | function f =>
    rw [text_function]
    exact ⟨'\x7b', rfl, by decide⟩
  | relation r =>
    rw [text_relation]
    exact ⟨'(', rfl, by decide⟩
  | operation kind left right => exact absurd ht (not_closed_operation kind left right)

/-! ### Arguments -/

theorem ends_mulsText (muls : List Multiplicity) (a : List Char) : Ends (mulsText muls ++ a) := by
  cases muls with
  | nil => exact ends_cons (by decide) _
  | cons m ms => exact ends_cons (by decide) _

theorem mulsText_cancel {ms ns : List Multiplicity} {a b : List Char}
    (hms : ∀ m ∈ ms, m.isConcrete) (hns : ∀ n ∈ ns, n.isConcrete)
    (heq : mulsText ms ++ a = mulsText ns ++ b) : ms = ns ∧ a = b := by
  have hends : ∀ l, Ends ('>' :: l) := ends_cons (by decide)
  rcases ms with _ | ⟨m, ms⟩ <;> rcases ns with _ | ⟨n, ns⟩
  · exact ⟨rfl, (List.cons.inj heq).2⟩
  · exact absurd (List.cons.inj heq).1 (by decide)
  · exact absurd (List.cons.inj heq).1 (by decide)
  · simp only [mulsText, List.cons_append, List.append_assoc, List.cons.injEq, true_and,
      List.nil_append] at heq
    obtain ⟨hmuls, hrest⟩ :=
      Legible.commaSeparated (fun m hm => Multiplicity.legible_text (hms m hm))
        (fun n hn => ⟨hns n hn, (Multiplicity.legible_text (hns n hn)).starts⟩)
        (hends _) (hends _) heq
    exact ⟨hmuls, (List.cons.inj hrest).2⟩

theorem angleText_cancel {types types' : List TypeExpr} {muls muls' : List Multiplicity}
    {a b : List Char} (htypes : ∀ t ∈ types, Legible Closed text t)
    (htypes' : ∀ t ∈ types', t.Closed) (hmuls : ∀ m ∈ muls, m.isConcrete)
    (hmuls' : ∀ m ∈ muls', m.isConcrete) (ha : Follows a) (hb : Follows b)
    (heq : angleText types muls ++ a = angleText types' muls' ++ b) :
    types = types' ∧ muls = muls' ∧ a = b := by
  have hopen : ∀ l, ¬ Follows ('<' :: l) := fun l hl => absurd (hl '<' rfl) (by decide)
  unfold angleText at heq
  split_ifs at heq with hnone hnone' hnone'
  · exact ⟨hnone.1.trans hnone'.1.symm, hnone.2.trans hnone'.2.symm, heq⟩
  · obtain rfl : a = _ := heq
    exact absurd ha (hopen _)
  · obtain rfl : _ = b := heq
    exact absurd hb (hopen _)
  · simp only [List.cons_append, List.append_assoc, List.cons.injEq, true_and] at heq
    obtain ⟨htypes, hrest⟩ := Legible.commaSeparated htypes
      (fun t ht => ⟨htypes' t ht, (htypes' t ht).starts⟩)
      (ends_mulsText _ _) (ends_mulsText _ _) heq
    exact ⟨htypes, mulsText_cancel hmuls hmuls' hrest⟩

/-! ### Positions and columns -/

theorem legible_positionText {p : Position TypeExpr} (htype : Legible Closed text p.type)
    (hmul : p.mul.isConcrete) : Legible ClosedPosition positionText p where
  starts := htype.starts.append _
  cancel := by
    intro q a b hq _ _ heq
    have hopen : ∀ l, Follows ('[' :: l) := follows_cons (by decide)
    have hclose : ∀ l, Follows (']' :: l) := follows_cons (by decide)
    simp only [positionText, List.append_assoc, List.cons_append, List.nil_append] at heq
    obtain ⟨htype, hmuls⟩ := htype.cancel hq.1 (hopen _) (hopen _) heq
    obtain ⟨hmul, hrest⟩ := (Multiplicity.legible_text hmul).cancel hq.2 (hclose _) (hclose _)
      (List.cons.inj hmuls).2
    have hab := (List.cons.inj hrest).2
    cases p
    cases q
    cases htype
    cases hmul
    exact ⟨rfl, hab⟩

theorem legible_columnText {c : Column TypeExpr} (hname : IsName c.name)
    (htype : Legible Closed text c.type) : Legible ClosedColumn columnText c where
  starts := hname.starts.append _
  cancel := by
    intro d a b hd ha hb heq
    have hcolon : ∀ l, ∀ c ∈ (':' :: l : List Char).head?, c ∈ punctuation := by
      rintro l c hc
      cases hc
      decide
    simp only [columnText, List.append_assoc, List.cons_append] at heq
    obtain ⟨hname, hrest⟩ := hname.cancel hd.1 (hcolon _) (hcolon _) heq
    obtain ⟨htype, hab⟩ := htype.cancel hd.2 ha hb (List.cons.inj hrest).2
    cases c
    cases d
    cases hname
    cases htype
    exact ⟨rfl, hab⟩

/-! ### Types from their texts -/

theorem mem_punctuation_angleText (types : List TypeExpr) (muls : List Multiplicity)
    {a : List Char} (ha : Follows a) :
    ∀ c ∈ (angleText types muls ++ a).head?, c ∈ punctuation := by
  unfold angleText
  split_ifs
  · exact fun c hc => closers_subset (ha c hc)
  · intro c hc
    cases hc
    decide

theorem classType_cancel {c d : ClassType} {a b : List Char} (hc : (classType c).Closed)
    (hd : (classType d).Closed) (ih : ∀ t ∈ c.types, Legible Closed text t) (ha : Follows a)
    (hb : Follows b) (heq : (classType c).text ++ a = (classType d).text ++ b) :
    c = d ∧ a = b := by
  obtain ⟨hhead, -, hmuls⟩ := hc.of_classType
  obtain ⟨hhead', htypes', hmuls'⟩ := hd.of_classType
  rw [text_classType, text_classType, List.append_assoc, List.append_assoc] at heq
  obtain ⟨hheads, hrest⟩ := hhead.cancel hhead' (mem_punctuation_angleText _ _ ha)
    (mem_punctuation_angleText _ _ hb) heq
  obtain ⟨htypes, hmuls, hab⟩ := angleText_cancel ih htypes' hmuls hmuls' ha hb hrest
  cases c
  cases d
  cases hheads
  cases htypes
  cases hmuls
  exact ⟨rfl, hab⟩

theorem function_cancel {f g : Arrow TypeExpr} {a b : List Char}
    (hparams : ∀ p ∈ f.params, Legible ClosedPosition positionText p)
    (hresult : Legible ClosedPosition positionText f.result) (hg : (function g).Closed)
    (heq : (function f).text ++ a = (function g).text ++ b) : f = g ∧ a = b := by
  obtain ⟨hparams', hresult'⟩ := hg.of_function
  have harrow : ∀ l, Ends ('-' :: l) := ends_cons (by decide)
  have hclose : ∀ l, Follows ('\x7d' :: l) := follows_cons (by decide)
  simp only [text_function, List.cons_append, List.append_assoc, List.nil_append, List.cons.injEq,
    true_and] at heq
  obtain ⟨hps, hrest⟩ := Legible.commaSeparated hparams
    (fun q hq => ⟨hparams' q hq, (hparams' q hq).1.starts.append _⟩) (harrow _) (harrow _) heq
  simp only [List.cons.injEq, true_and] at hrest
  obtain ⟨hresults, hbrace⟩ := hresult.cancel hresult' (hclose _) (hclose _) hrest
  have hab := (List.cons.inj hbrace).2
  cases f
  cases g
  cases hps
  cases hresults
  exact ⟨rfl, hab⟩

theorem relation_cancel {r s : Relation TypeExpr} {a b : List Char}
    (hcolumns : ∀ c ∈ r.columns, Legible ClosedColumn columnText c) (hs : (relation s).Closed)
    (heq : (relation r).text ++ a = (relation s).text ++ b) : r = s ∧ a = b := by
  have hcolumns' := hs.of_relation
  have hclose : ∀ l, Ends (')' :: l) := ends_cons (by decide)
  simp only [text_relation, List.cons_append, List.append_assoc, List.nil_append, List.cons.injEq,
    true_and] at heq
  obtain ⟨hcs, hparen⟩ := Legible.commaSeparated hcolumns
    (fun d hd => ⟨hcolumns' d hd, (hcolumns' d hd).1.starts.append _⟩) (hclose _) (hclose _) heq
  have hab := (List.cons.inj hparen).2
  cases r
  cases s
  cases hcs
  exact ⟨rfl, hab⟩

/-- A class type begins with its name, which is not mistaken for a bracket. -/
theorem Closed.ne_bracket {c : ClassType} (hc : (classType c).Closed) {d : Char}
    (hd : d ∈ punctuation) (a b : List Char) : (classType c).text ++ a ≠ d :: b := by
  rw [text_classType, List.append_assoc]
  exact hc.of_classType.1.ne_bracket hd _ _

/-- By induction on the type: a type of another kind begins differently, and in one of the same kind
the texts of the parts are cancelled one after the other. -/
theorem legible_text (t : TypeExpr) : t.Closed → Legible Closed text t := by
  induction t with
  | param p => exact fun hp => absurd hp (not_closed_param p)
  | classType c ih =>
    refine fun hc => ⟨hc.starts, fun {u a b} hu ha hb heq => ?_⟩
    have htypes := fun t ht => ih t ht (hc.of_classType.2.1 t ht)
    cases u with
    | param p => exact absurd hu (not_closed_param p)
    | classType d =>
      obtain ⟨rfl, hab⟩ := classType_cancel hc hu htypes ha hb heq
      exact ⟨rfl, hab⟩
    | function f =>
      rw [text_function] at heq
      exact absurd heq (hc.ne_bracket (by decide) _ _)
    | relation r =>
      rw [text_relation] at heq
      exact absurd heq (hc.ne_bracket (by decide) _ _)
    | operation kind left right => exact absurd hu (not_closed_operation kind left right)
  | function f ihp ihr =>
    refine fun hf => ⟨hf.starts, fun {u a b} hu ha hb heq => ?_⟩
    obtain ⟨hparams, hresult⟩ := hf.of_function
    cases u with
    | param p => exact absurd hu (not_closed_param p)
    | classType d =>
      rw [text_function] at heq
      exact absurd heq.symm (hu.ne_bracket (by decide) _ _)
    | function g =>
      obtain ⟨rfl, hab⟩ := function_cancel
        (fun p hp => legible_positionText (ihp p hp (hparams p hp).1) (hparams p hp).2)
        (legible_positionText (ihr hresult.1) hresult.2) hu heq
      exact ⟨rfl, hab⟩
    | relation r =>
      rw [text_function, text_relation] at heq
      exact absurd (List.cons.inj heq).1 (by decide)
    | operation kind left right => exact absurd hu (not_closed_operation kind left right)
  | relation r ih =>
    refine fun hr => ⟨hr.starts, fun {u a b} hu ha hb heq => ?_⟩
    have hcolumns := hr.of_relation
    cases u with
    | param p => exact absurd hu (not_closed_param p)
    | classType d =>
      rw [text_relation] at heq
      exact absurd heq.symm (hu.ne_bracket (by decide) _ _)
    | function g =>
      rw [text_function, text_relation] at heq
      exact absurd (List.cons.inj heq).1 (by decide)
    | relation s =>
      obtain ⟨rfl, hab⟩ := relation_cancel
        (fun c hc => legible_columnText (hcolumns c hc).1 (ih c hc (hcolumns c hc).2)) hu heq
      exact ⟨rfl, hab⟩
    | operation kind left right => exact absurd hu (not_closed_operation kind left right)
  | operation kind left right => exact fun h => absurd h (not_closed_operation kind left right)

/-- Types without anything open are the same when their texts are. -/
theorem display_inj {t u : TypeExpr} (ht : t.isFullyConcrete) (hu : u.isFullyConcrete)
    (hname : t.Named) (hname' : u.Named) : t.display = u.display ↔ t = u := by
  refine ⟨fun heq => ?_, congrArg display⟩
  have hend : Follows [] := fun c hc => nomatch hc
  have htext : t.text ++ [] = u.text ++ [] := by rw [text, text, heq]
  exact ((legible_text t ⟨ht, hname⟩).cancel ⟨hu, hname'⟩ hend hend htext).1

/-- A type that shows two multiplicities, one among arguments and one in brackets. -/
def readings (m n : Multiplicity) : TypeExpr :=
  function ⟨[], classType ⟨"List", [atom "Date"], [m]⟩, n⟩

theorem isFullyConcrete_readings {m n : Multiplicity} (hm : m.isConcrete) (hn : n.isConcrete) :
    (readings m n).isFullyConcrete := by
  simp [readings, isFullyConcrete, atom, hm, hn]

theorem named_readings (m n : Multiplicity) : (readings m n).Named := by
  have hlist : IsName "List" := isName_of_isAlphanum (by decide) (by simp)
  have hdate : IsName "Date" := isName_of_isAlphanum (by decide) (by simp)
  refine .function (List.forall_mem_nil _) (.classType hlist fun t ht => ?_)
  obtain rfl := List.mem_singleton.1 ht
  exact .classType hdate (List.forall_mem_nil _)

theorem display_inj_readings :
    (readings .one .many).isFullyConcrete ∧ (readings .many .one).isFullyConcrete
      ∧ (readings .one .many).Named ∧ (readings .many .one).Named
      ∧ (readings .one .many).display ≠ (readings .many .one).display := by
  have hone := isFullyConcrete_readings (m := .one) (n := .many) rfl rfl
  have hmany := isFullyConcrete_readings (m := .many) (n := .one) rfl rfl
  have hdiffer : readings .one .many ≠ readings .many .one := by
    simp [readings, Multiplicity.one, Multiplicity.many]
  exact ⟨hone, hmany, named_readings _ _, named_readings _ _, fun heq => hdiffer
    ((display_inj hone hmany (named_readings _ _) (named_readings _ _)).1 heq)⟩

end TypeExpr

end ScopedInference
