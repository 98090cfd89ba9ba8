import ApplyLang.Evaluation.Builtin
import ApplyLang.Proofs.Memory.Equality
import ApplyLang.Proofs.Text.Order

/-!
# Comparison

`<`, `==` and `>` are three functions, and two of them only take two numbers or two texts. Where
they answer they agree on one order: numbers by their places, texts by the code points at their first
difference.

* `Before`, `Stands` — the order on numbers and on texts, and how two values stand in it.
* `Comparable` — the pairs of values that `<` and `>` take.
* `Answers`, `Blames` — what a function of two values returns, and the value whose type it faults.
* `compareValues_of_comparable` — the outcome of a comparison is how the values stand.
* `answers_iff` — each of the three functions asks for one way to stand.
* `blames_of_not_comparable` — who is at fault when two values cannot be compared.
* `comparisons_agree` — what follows for the functions.
-/

namespace ApplyLang

namespace Value

/-- The first value comes before the second one in the order of their kind. -/
inductive Before : Value → Value → Prop
  | numbers {x y : Float} (h : x < y) : Before (number x) (number y)
  | texts {s t : String} (h : s < t) : Before (text s) (text t)

/-- How two values stand. -/
def Stands (a b : Value) : Ordering → Prop
  | .lt => Before a b
  | .eq => a.same b = true
  | .gt => Before b a

/-- Both are numbers, or both are texts. -/
def Comparable (a b : Value) : Prop :=
  a.kind = .number ∧ b.kind = .number ∨ a.kind = .text ∧ b.kind = .text

variable {a b c : Value} {x y : Float} {s t : String}

instance : Decidable (Comparable a b) :=
  inferInstanceAs (Decidable (_ ∨ _))

theorem comparable_comm : Comparable a b ↔ Comparable b a :=
  or_congr and_comm and_comm

/-- The pairs that are taken are pairs of numbers and pairs of texts. -/
theorem Comparable.cases (h : Comparable a b) :
    (∃ x y, a = number x ∧ b = number y) ∨ ∃ s t, a = text s ∧ b = text t := by
  rcases h with ⟨ha, hb⟩ | ⟨ha, hb⟩
  · cases a <;> cases ha
    cases b <;> cases hb
    exact .inl ⟨_, _, rfl, rfl⟩
  · cases a <;> cases ha
    cases b <;> cases hb
    exact .inr ⟨_, _, rfl, rfl⟩

theorem before_numbers_iff : Before (number x) (number y) ↔ x < y :=
  ⟨fun | .numbers h => h, .numbers⟩

theorem before_texts_iff : Before (text s) (text t) ↔ s < t :=
  ⟨fun | .texts h => h, .texts⟩

theorem Before.comparable (h : Before a b) : Comparable a b := by
  cases h with
  | numbers => exact .inl ⟨rfl, rfl⟩
  | texts => exact .inr ⟨rfl, rfl⟩

theorem Before.trans (h : Before a b) (h' : Before b c) : Before a c := by
  cases h with
  | numbers h =>
    cases h' with
    | numbers h' =>
      obtain ⟨p, q, hx, hy, hpq⟩ := Number.lt_iff.1 h
      obtain ⟨q', r, hy', hz, hqr⟩ := Number.lt_iff.1 h'
      rw [hy, Option.some.injEq] at hy'
      exact .numbers (Number.lt_iff.2 ⟨p, r, hx, hz, hpq.trans (hy' ▸ hqr)⟩)
  | texts h =>
    cases h' with
    | texts h' => exact .texts (lt_trans h h')

end Value

namespace Builtin

open Value (Before Comparable Stands)

variable {f : Builtin} {o : Ordering} {a b c : Value} {x y : Float} {s t : String}
  {answer : Bool}

/-! ## The outcome of a comparison -/

/-- Two numbers compare as their places do, and without a place there is no outcome. -/
theorem compareNumbers_eq (x y : Float) : compareNumbers x y =
    (Number.place? x).bind fun p => (Number.place? y).map (compare p) := by
  unfold compareNumbers
  split_ifs with hlt heq hgt
  · obtain ⟨p, q, hx, hy, h⟩ := Number.lt_iff.1 hlt
    simp [hx, hy, compare_lt_iff_lt.2 h]
  · obtain ⟨p, hx, hy⟩ := Number.beq_iff.1 heq
    simp [hx, hy]
  · obtain ⟨q, p, hy, hx, h⟩ := Number.lt_iff.1 hgt
    simp [hx, hy, compare_gt_iff_gt.2 h]
  · rw [Number.lt_iff] at hlt hgt
    rw [Number.beq_iff] at heq
    cases hx : Number.place? x with
    | none => rfl
    | some p =>
      cases hy : Number.place? y with
      | none => rfl
      | some q =>
        rcases lt_trichotomy p q with h | rfl | h
        · exact absurd ⟨p, q, hx, hy, h⟩ hlt
        · exact absurd ⟨p, hx, hy⟩ heq
        · exact absurd ⟨q, p, hy, hx, h⟩ hgt

theorem compareNumbers_eq_some_iff :
    compareNumbers x y = some o ↔ Stands (.number x) (.number y) o := by
  have hsome : compareNumbers x y = some o ↔
      ∃ p q, Number.place? x = some p ∧ Number.place? y = some q ∧ compare p q = o := by
    rw [compareNumbers_eq]
    simp [Option.bind_eq_some_iff]
  rw [hsome]
  cases o with
  | lt =>
    rw [Stands, Value.before_numbers_iff, Number.lt_iff]
    simp only [compare_lt_iff_lt]
  | eq =>
    rw [Stands, Value.same, Number.beq_iff]
    simp only [compare_eq_iff_eq]
    exact ⟨fun ⟨p, q, hx, hy, h⟩ => ⟨p, hx, h ▸ hy⟩, fun ⟨p, hx, hy⟩ => ⟨p, p, hx, hy, rfl⟩⟩
  | gt =>
    rw [Stands, Value.before_numbers_iff, Number.lt_iff]
    simp only [compare_gt_iff_gt]
    exact ⟨fun ⟨p, q, hx, hy, h⟩ => ⟨q, p, hy, hx, h⟩, fun ⟨q, p, hy, hx, h⟩ => ⟨p, q, hx, hy, h⟩⟩

theorem compareTexts_eq_iff : compareTexts s t = o ↔ Stands (.text s) (.text t) o := by
  have hsame : (Value.text s).same (.text t) = true ↔ s = t := beq_iff_eq
  have hcases : Stands (.text s) (.text t) o ↔
      (o = .lt ∧ s < t) ∨ (o = .eq ∧ s = t) ∨ (o = .gt ∧ t < s) := by
    cases o <;> simp [Stands, Value.before_texts_iff, hsame]
  rw [hcases, compareTexts]
  rcases lt_trichotomy s t with h | rfl | h
  · simp [h, h.ne, h.not_gt, eq_comm]
  · simp [eq_comm]
  · simp [h, h.ne', h.not_gt, eq_comm]

/-- The outcome is how the values stand. -/
theorem compareValues_of_comparable (hc : Comparable a b) :
    ∃ outcome, (∀ call, compareValues call a b = .ok outcome) ∧
      ∀ o, outcome = some o ↔ Stands a b o := by
  rcases hc.cases with ⟨x, y, rfl, rfl⟩ | ⟨s, t, rfl, rfl⟩
  · exact ⟨compareNumbers x y, fun _ => rfl, fun _ => compareNumbers_eq_some_iff⟩
  · exact ⟨some (compareTexts s t), fun _ => rfl,
      fun o => (Option.some.injEq _ _).to_iff.trans compareTexts_eq_iff⟩

/-- The first of two values is at fault if nothing can be compared with it, and else the second. -/
theorem compareValues_of_not_comparable (hc : ¬ Comparable a b) (call : Span) :
    (a.kind ≠ .number → a.kind ≠ .text →
      compareValues call a b = .error (mismatch call a ["Number", "String"])) ∧
    (a.kind = .number → compareValues call a b = .error (mismatch call b ["Number"])) ∧
    (a.kind = .text → compareValues call a b = .error (mismatch call b ["String"])) := by
  cases a with
  | number x =>
    cases b with
    | number y => exact absurd (.inl ⟨rfl, rfl⟩) hc
    | _ => exact ⟨fun h => absurd rfl h, fun _ => rfl, Value.Kind.noConfusion⟩
  | text s =>
    cases b with
    | text t => exact absurd (.inr ⟨rfl, rfl⟩) hc
    | _ => exact ⟨fun _ h => absurd rfl h, Value.Kind.noConfusion, fun _ => rfl⟩
  | _ => exact ⟨fun _ _ => rfl, Value.Kind.noConfusion, Value.Kind.noConfusion⟩

/-- Two values stand in one way at most, and numbers and texts do in one if no NaN is involved. -/
theorem existsUnique_stands (hc : Comparable a b) (ha : ∀ x, a = .number x → x.isNaN = false)
    (hb : ∀ x, b = .number x → x.isNaN = false) : ∃! o, Stands a b o := by
  rcases hc.cases with ⟨x, y, rfl, rfl⟩ | ⟨s, t, rfl, rfl⟩
  · have hplace {x : Float} (hx : x.isNaN = false) : ∃ p, Number.place? x = some p :=
      Option.ne_none_iff_exists'.1 fun hnone => by simp_all [Number.place?_eq_none_iff]
    obtain ⟨p, hp⟩ := hplace (ha x rfl)
    obtain ⟨q, hq⟩ := hplace (hb y rfl)
    have hsome : compareNumbers x y = some (compare p q) := by
      rw [compareNumbers_eq, hp, hq]
      rfl
    refine ⟨compare p q, compareNumbers_eq_some_iff.1 hsome, fun o ho => ?_⟩
    exact Option.some.inj ((compareNumbers_eq_some_iff.2 ho).symm.trans hsome)
  · exact ⟨compareTexts s t, compareTexts_eq_iff.1 rfl, fun o ho => (compareTexts_eq_iff.2 ho).symm⟩

/-- A NaN stands nowhere. -/
theorem not_stands_of_isNaN (h : x.isNaN = true ∨ y.isNaN = true) (o : Ordering) :
    ¬ Stands (.number x) (.number y) o := by
  rw [← compareNumbers_eq_some_iff, compareNumbers_eq]
  rcases h with h | h <;> simp [Number.place?_eq_none_iff.2 h]

/-! ## The three functions -/

/-- The function answers the two values with this truth value, and does nothing else. -/
def Answers (f : Builtin) (a b : Value) (answer : Bool) : Prop :=
  ∀ call h out, f.apply call [a, b] h out = (h, out, .ok (.bool answer))

/-- The function faults one of the two values for not being of any of these types. -/
def Blames (f : Builtin) (a b culprit : Value) (valid : List String) : Prop :=
  ∀ call h out, f.apply call [a, b] h out = (h, out, .error (mismatch call culprit valid))

/-- The function that asks whether two values stand like this. -/
def asking : Ordering → Builtin
  | .lt => less
  | .eq => equal
  | .gt => greater

theorem mem_asking_iff : f ∈ [less, equal, greater] ↔ ∃ o, f = asking o := by
  constructor
  · intro hf
    simp only [List.mem_cons, List.not_mem_nil, or_false] at hf
    rcases hf with rfl | rfl | rfl
    exacts [⟨.lt, rfl⟩, ⟨.eq, rfl⟩, ⟨.gt, rfl⟩]
  · rintro ⟨o, rfl⟩
    cases o <;> decide

theorem Answers.unique {other : Bool} (h : Answers f a b answer) (h' : Answers f a b other) :
    answer = other := by
  have heq := (h ⟨0, 0⟩ .empty .unlimited).symm.trans (h' ⟨0, 0⟩ .empty .unlimited)
  simpa using heq

theorem Answers.not_blames {culprit : Value} {valid : List String} (h : Answers f a b answer) :
    ¬ Blames f a b culprit valid := fun h' => by
  have heq := (h ⟨0, 0⟩ .empty .unlimited).symm.trans (h' ⟨0, 0⟩ .empty .unlimited)
  simp at heq

theorem apply_asking (ho : o ≠ .eq) (call : Span) (h : Heap) (out : Sink) :
    (asking o).apply call [a, b] h out = match compareValues call a b with
      | .ok outcome => (h, out, .ok (.bool (outcome == some o)))
      | .error fault => (h, out, .error fault) := by
  have hcompute : (asking o).compute call [a, b] = ordered call o a b := by
    cases o with
    | eq => exact absurd rfl ho
    | lt | gt => rfl
  rw [apply_eq_of_ne (by cases o <;> decide) (by cases o <;> decide), hcompute, ordered]
  cases compareValues call a b with
  | error fault => rfl
  | ok outcome => rfl

/-- Whoever cannot be compared is blamed. -/
theorem blames_of_not_comparable (ho : o ≠ .eq) (hc : ¬ Comparable a b) :
    (a.kind ≠ .number → a.kind ≠ .text → Blames (asking o) a b a ["Number", "String"]) ∧
    (a.kind = .number → Blames (asking o) a b b ["Number"]) ∧
    (a.kind = .text → Blames (asking o) a b b ["String"]) := by
  have hfault (call : Span) := compareValues_of_not_comparable hc call
  refine ⟨fun hn ht call h out => ?_, fun hn call h out => ?_, fun ht call h out => ?_⟩
  · rw [apply_asking ho, (hfault call).1 hn ht]
  · rw [apply_asking ho, (hfault call).2.1 hn]
  · rw [apply_asking ho, (hfault call).2.2 ht]

theorem Answers.comparable (ho : o ≠ .eq) (h : Answers (asking o) a b answer) :
    Comparable a b := by
  by_contra hc
  obtain ⟨hother, hnumber, htext⟩ := blames_of_not_comparable ho hc
  by_cases hn : a.kind = .number
  · exact h.not_blames (hnumber hn)
  · by_cases ht : a.kind = .text
    · exact h.not_blames (htext ht)
    · exact h.not_blames (hother hn ht)

/-- Each of the three functions has an answer, which says whether the values stand as it asks. -/
theorem exists_answers (hc : Comparable a b) (o : Ordering) :
    ∃ answer, Answers (asking o) a b answer ∧ (answer = true ↔ Stands a b o) := by
  by_cases ho : o = .eq
  · subst ho
    exact ⟨a.same b, fun _ _ _ => rfl, Iff.rfl⟩
  · obtain ⟨outcome, hcompare, hstands⟩ := compareValues_of_comparable hc
    refine ⟨outcome == some o, fun call h out => ?_, beq_iff_eq.trans (hstands o)⟩
    rw [apply_asking ho, hcompare]

theorem answers_iff (hc : Comparable a b) (o : Ordering) :
    Answers (asking o) a b answer ↔ (answer = true ↔ Stands a b o) := by
  obtain ⟨r, hr, hiff⟩ := exists_answers hc o
  constructor
  · intro h
    exact h.unique hr ▸ hiff
  · intro h
    rwa [Bool.eq_iff_iff.2 (h.trans hiff.symm)]

/-- An answer of the other function to the values the other way round. -/
theorem answers_less_iff_greater : Answers less a b answer ↔ Answers greater b a answer := by
  constructor
  · intro h
    have hc : Comparable a b := h.comparable (o := .lt) (by decide)
    exact (answers_iff (Value.comparable_comm.1 hc) .gt).2 ((answers_iff hc .lt).1 h)
  · intro h
    have hc : Comparable b a := h.comparable (o := .gt) (by decide)
    exact (answers_iff (Value.comparable_comm.1 hc) .lt).2 ((answers_iff hc .gt).1 h)

theorem answers_less_true_iff : Answers less a b true ↔ Before a b := by
  constructor
  · intro h
    have hc : Comparable a b := h.comparable (o := .lt) (by decide)
    exact ((answers_iff hc .lt).1 h).1 rfl
  · intro h
    exact (answers_iff h.comparable .lt).2 (iff_of_true rfl h)

/-- Just one of the three functions says yes. -/
theorem existsUnique_answers (hc : Comparable a b) (ha : ∀ x, a = .number x → x.isNaN = false)
    (hb : ∀ x, b = .number x → x.isNaN = false) :
    ∃! f, f ∈ [less, equal, greater] ∧ Answers f a b true := by
  obtain ⟨o, ho, hunique⟩ := existsUnique_stands hc ha hb
  refine ⟨asking o, ⟨mem_asking_iff.2 ⟨o, rfl⟩, (answers_iff hc o).2 (iff_of_true rfl ho)⟩, ?_⟩
  rintro f ⟨hf, hanswer⟩
  obtain ⟨o', rfl⟩ := mem_asking_iff.1 hf
  exact congrArg asking (hunique o' (((answers_iff hc o').1 hanswer).1 rfl))

/-- The three functions agree on one order. `<` and `>` take two numbers or two texts and are each
    other's converse; just one of the three says yes, unless one of the numbers is NaN, and then all
    say no. `<` is transitive, and on texts it is the order by code points, which is that of their
    bytes. Otherwise the first value that is neither a number nor a text of the kind of the one
    before it is at fault. -/
theorem comparisons_agree :
    (∀ a b answer, Answers less a b answer ↔ Answers greater b a answer) ∧
    (∀ a b, (∃ answer, Answers less a b answer) ↔ Comparable a b) ∧
    (∀ a b, Comparable a b → (∀ x, a = .number x → x.isNaN = false) →
      (∀ x, b = .number x → x.isNaN = false) →
      ∃! f, f ∈ [less, equal, greater] ∧ Answers f a b true) ∧
    (∀ x y, x.isNaN = true ∨ y.isNaN = true → ∀ f ∈ [less, equal, greater],
      Answers f (.number x) (.number y) false) ∧
    (∀ a b c, Answers less a b true → Answers less b c true → Answers less a c true) ∧
    (∀ s t, (Answers less (.text s) (.text t) true ↔
        List.Lex (fun c d => c.toNat < d.toNat) s.toList t.toList) ∧
      (Answers less (.text s) (.text t) true ↔ Text.bytes s.toList < Text.bytes t.toList)) ∧
    ∀ a b, ¬ Comparable a b → ∀ f ∈ [less, greater],
      (a.kind ≠ .number → a.kind ≠ .text → Blames f a b a ["Number", "String"]) ∧
      (a.kind = .number → Blames f a b b ["Number"]) ∧
      (a.kind = .text → Blames f a b b ["String"]) := by
  refine ⟨fun a b answer => answers_less_iff_greater, fun a b => ?_,
    fun a b => existsUnique_answers, fun x y hnan f hf => ?_, fun a b c => ?_, fun s t => ?_,
    fun a b hc f hf => ?_⟩
  · exact ⟨fun ⟨_, h⟩ => h.comparable (o := .lt) (by decide), fun hc =>
      (exists_answers hc .lt).imp fun _ h => h.1⟩
  · obtain ⟨o, rfl⟩ := mem_asking_iff.1 hf
    exact (answers_iff (.inl ⟨rfl, rfl⟩) o).2
      (iff_of_false Bool.false_ne_true (not_stands_of_isNaN hnan o))
  · simp only [answers_less_true_iff]
    exact Before.trans
  · rw [answers_less_true_iff, Value.before_texts_iff, Text.bytes_lt_iff, String.lt_iff_toList_lt]
    exact ⟨Iff.rfl, Iff.rfl⟩
  · simp only [List.mem_cons, List.not_mem_nil, or_false] at hf
    rcases hf with rfl | rfl
    · exact blames_of_not_comparable (o := .lt) (by decide) hc
    · exact blames_of_not_comparable (o := .gt) (by decide) hc

/-- Both zeros, a NaN, texts of which one begins another, and a number beside a text. -/
theorem comparisons_agree_mixed :
    (∃! f, f ∈ [less, equal, greater] ∧ Answers f (.number (-0)) (.number 0) true) ∧
    (∀ f ∈ [less, equal, greater], Answers f (.number (0 / 0)) (.number 1) false) ∧
    Answers less (.text "a") (.text "é") true ∧
    Blames greater (.number 1) (.text "a") (.text "a") ["Number"] := by
  obtain ⟨-, -, hone, hnan, htrans, htexts, hblames⟩ := comparisons_agree
  refine ⟨hone _ _ (.inl ⟨rfl, rfl⟩) ?_ ?_, hnan _ _ (.inl (by decide +kernel)), ?_, ?_⟩
  · rintro x ⟨⟩
    decide +kernel
  · rintro x ⟨⟩
    decide +kernel
  · exact htrans _ (.text "az") _ ((htexts _ _).1.2 (by decide)) ((htexts _ _).1.2 (by decide))
  · exact (hblames _ _ (by decide) _ (by decide)).2.1 rfl

end Builtin

end ApplyLang
