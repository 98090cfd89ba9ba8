import ApplyLang.Memory.Value
import ApplyLang.Proofs.Number.Order

/-!
# Equality of values

Equality goes into arrays, compares numbers as doubles, functions by identity and built-in functions
by name. It is an equivalence on the values that have no NaN anywhere in them, and what a program can
see of a value without taking it apart does not change when the value is exchanged for an equal one.

* `Kind`, `Occurs`, `enclose` — kinds of values, the numbers in a value, and a value deep in arrays.
* `same_comm`, `same_trans`, `same_self_iff` — a partial equivalence, and where it is reflexive.
* `display_eq_of_same` — equal values are printed alike; both zeros are printed as `0`.
* `displayItems_eq` — inside an array texts stand between quotes and other values as on their own.
-/

namespace ApplyLang

namespace Value

/-- The kinds of values. -/
inductive Kind
  | bool
  | number
  | text
  | array
  | closure
  | builtin
  deriving DecidableEq, Repr

/-- The kind of a value. -/
def kind : Value → Kind
  | bool _ => .bool
  | number _ => .number
  | text _ => .text
  | array _ _ => .array
  | closure _ => .closure
  | builtin _ => .builtin

/-- The double is the value, or it is in an item of the array that the value is, at any depth. -/
inductive Occurs (x : Float) : Value → Prop
  | number : Occurs x (number x)
  | item {storage : Ref} {items : List Value} {v : Value} (hv : v ∈ items) (h : Occurs x v) :
    Occurs x (array storage items)

/-- A value as an item of an array, that array as an item of another one, and so on outwards. Each
    layer is the storage of an array with the items before and after. -/
def enclose (layers : List (Ref × List Value × List Value)) (v : Value) : Value :=
  layers.foldr (fun (storage, before, after) v => array storage (before ++ v :: after)) v

variable {u v w : Value} {p : Ref → List String}

/-! ## A partial equivalence -/

/-- Equal values are of one kind. -/
theorem kind_eq_of_same (h : v.same w = true) : v.kind = w.kind := by
  cases v <;> cases w <;> first | rfl | cases h

mutual

theorem same_symm : ∀ {v w : Value}, v.same w = true → w.same v = true
  | array .., array .., h => sameAll_symm h
  | number _, number _, h => BEq.symm h
  | bool _, bool _, h | text _, text _, h | closure _, closure _, h | builtin _, builtin _, h =>
    BEq.symm h

theorem sameAll_symm : ∀ {xs ys : List Value}, sameAll xs ys = true → sameAll ys xs = true
  | [], [], _ => rfl
  | x :: xs, y :: ys, h => by
    rw [sameAll, Bool.and_eq_true] at h ⊢
    exact ⟨same_symm h.1, sameAll_symm h.2⟩

end

theorem same_comm (v w : Value) : v.same w = w.same v :=
  Bool.eq_iff_iff.2 ⟨same_symm, same_symm⟩

mutual

theorem same_trans : ∀ {u v w : Value}, u.same v = true → v.same w = true → u.same w = true
  | array .., array .., array .., h, h' => sameAll_trans h h'
  | number _, number _, number _, h, h' => BEq.trans h h'
  | bool _, bool _, bool _, h, h' | text _, text _, text _, h, h'
  | closure _, closure _, closure _, h, h' | builtin _, builtin _, builtin _, h, h' =>
    BEq.trans h h'

theorem sameAll_trans : ∀ {us vs ws : List Value}, sameAll us vs = true → sameAll vs ws = true →
    sameAll us ws = true
  | [], [], [], _, _ => rfl
  | u :: us, v :: vs, w :: ws, h, h' => by
    rw [sameAll, Bool.and_eq_true] at h h' ⊢
    exact ⟨same_trans h.1 h'.1, sameAll_trans h.2 h'.2⟩

end

/-! ## Where it is reflexive -/

theorem occurs_number_iff {x y : Float} : Occurs x (number y) ↔ x = y := by
  constructor
  · rintro ⟨⟩
    rfl
  · rintro rfl
    exact .number

theorem occurs_array_iff {x : Float} {storage : Ref} {items : List Value} :
    Occurs x (array storage items) ↔ ∃ v ∈ items, Occurs x v := by
  constructor
  · rintro (_ | ⟨hv, h⟩)
    exact ⟨_, hv, h⟩
  · rintro ⟨v, hv, h⟩
    exact .item hv h

mutual

/-- Only what is not a number differs from itself. -/
theorem same_self_iff : ∀ v : Value, v.same v = true ↔ ∀ x, Occurs x v → x.isNaN = false
  | number y => by simp [same, occurs_number_iff]
  | array storage items => by
    rw [same, sameAll_self_iff items]
    simp only [occurs_array_iff]
    exact ⟨fun h x ⟨v, hv, hx⟩ => h v hv x hx, fun h v hv x hx => h x ⟨v, hv, hx⟩⟩
  | bool _ | text _ | closure _ | builtin _ => by
    refine ⟨fun _ _ hx => (nomatch hx), fun _ => ?_⟩
    rw [same]
    exact BEq.refl _

theorem sameAll_self_iff : ∀ items : List Value,
    sameAll items items = true ↔ ∀ v ∈ items, ∀ x, Occurs x v → x.isNaN = false
  | [] => by simp [sameAll]
  | v :: rest => by
    rw [sameAll, Bool.and_eq_true, same_self_iff v, sameAll_self_iff rest, List.forall_mem_cons]

end

/-! ## What is printed -/

/-- A value as it is printed inside an array. -/
def displayNested (p : Ref → List String) : Value → String
  | text x => "\"" ++ x ++ "\""
  | v => display p v

/-- The items of an array are printed one after the other, with a comma and a space in between. -/
theorem displayItems_eq (items : List Value) :
    displayItems p items = ", ".intercalate (items.map (displayNested p)) := by
  induction items with
  | nil => rfl
  | cons v rest ih =>
    cases rest with
    | nil => cases v <;> rfl
    | cons w rest =>
      have hstep : displayItems p (v :: w :: rest) =
          displayNested p v ++ ", " ++ displayItems p (w :: rest) := by
        cases v <;> rfl
      rw [hstep, ih, List.map_cons, List.map_cons, List.map_cons, String.intercalate_cons_cons]

/-- A text and another value are never equal, so quotes do not tell equal values apart. -/
theorem displayNested_congr (hk : v.kind = w.kind) (h : v.display p = w.display p) :
    v.displayNested p = w.displayNested p := by
  cases v with
  | text x =>
    cases w with
    | text y => exact congrArg (fun s => "\"" ++ s ++ "\"") h
    | _ => cases hk
  | _ =>
    cases w with
    | text y => cases hk
    | _ => exact h

mutual

/-- Equal values are printed alike. -/
theorem display_eq_of_same : ∀ {v w : Value}, v.same w = true → v.display p = w.display p
  | array .., array .., h => by
    rw [display, display, displayItems_eq, displayItems_eq, map_displayNested_of_sameAll h]
  | number _, number _, h => Number.text_eq_of_beq h
  | bool _, bool _, h | text _, text _, h | closure _, closure _, h | builtin _, builtin _, h => by
    rw [eq_of_beq h]

theorem map_displayNested_of_sameAll : ∀ {xs ys : List Value}, sameAll xs ys = true →
    xs.map (displayNested p) = ys.map (displayNested p)
  | [], [], _ => rfl
  | x :: xs, y :: ys, h => by
    rw [sameAll, Bool.and_eq_true] at h
    rw [List.map_cons, List.map_cons, displayNested_congr (kind_eq_of_same h.1)
      (display_eq_of_same h.1), map_displayNested_of_sameAll h.2]

end

/-- The same at any depth: what surrounds a value does not tell equal values apart either. -/
theorem display_enclose (hk : v.kind = w.kind) (h : v.display p = w.display p)
    (layers : List (Ref × List Value × List Value)) :
    (enclose layers v).kind = (enclose layers w).kind ∧
      (enclose layers v).display p = (enclose layers w).display p := by
  induction layers with
  | nil => exact ⟨hk, h⟩
  | cons layer layers ih =>
    obtain ⟨storage, before, after⟩ := layer
    refine ⟨rfl, ?_⟩
    show (array storage (before ++ enclose layers v :: after)).display p =
      (array storage (before ++ enclose layers w :: after)).display p
    rw [display, display, displayItems_eq, displayItems_eq, List.map_append, List.map_append,
      List.map_cons, List.map_cons, displayNested_congr ih.1 ih.2]

theorem typeName_eq_of_kind_eq (h : v.kind = w.kind) : v.typeName = w.typeName := by
  cases v <;> cases w <;> first | rfl | cases h

theorem truthy_eq_of_same (h : v.same w = true) : v.truthy = w.truthy := by
  have hk := kind_eq_of_same h
  cases v with
  | bool x =>
    cases w with
    | bool y => rw [eq_of_beq (a := x) h]
    | _ => cases hk
  | _ =>
    cases w with
    | bool y => cases hk
    | _ => rfl

/-- Equality is symmetric and transitive, and whatever has no NaN anywhere in it equals itself.
    Equal values have one type, count as true or not alike, and are printed alike wherever they
    stand. -/
theorem same_coherent :
    (∀ v w : Value, v.same w = w.same v) ∧
    (∀ u v w : Value, u.same v = true → v.same w = true → u.same w = true) ∧
    (∀ v : Value, v.same v = true ↔ ¬ ∃ x, Occurs x v ∧ x.isNaN = true) ∧
    (∀ v w : Value, v.kind ≠ w.kind → v.same w = false) ∧
    ∀ v w : Value, v.same w = true → v.typeName = w.typeName ∧ v.truthy = w.truthy ∧
      ∀ p, v.display p = w.display p ∧
        ∀ layers, (enclose layers v).display p = (enclose layers w).display p := by
  refine ⟨same_comm, fun u v w => same_trans, fun v => ?_, fun v w hk => ?_, fun v w h => ?_⟩
  · rw [same_self_iff]
    simp only [not_exists, not_and, Bool.not_eq_true]
  · exact Bool.eq_false_iff.2 fun h => hk (kind_eq_of_same h)
  · have hk := kind_eq_of_same h
    exact ⟨typeName_eq_of_kind_eq hk, truthy_eq_of_same h, fun p => ⟨display_eq_of_same h,
      fun layers => (display_enclose hk (display_eq_of_same h) layers).2⟩⟩

/-- Arrays of their own with the two zeros in them, which cannot be told apart around another text
    either, and an array with a NaN in it. -/
theorem same_coherent_zeros :
    let v := array 0 [number 0, array 1 [text "a"]]
    let w := array 2 [number (-0), array 3 [text "a"]]
    v.same w = true ∧ w.same w = true ∧
      (array 0 [number (0 / 0)]).same (array 0 [number (0 / 0)]) = false ∧
      ∀ p, (array 4 [text "b", v]).display p = (array 4 [text "b", w]).display p := by
  obtain ⟨hcomm, htrans, hself, -, halike⟩ := same_coherent
  have h : (array 0 [number 0, array 1 [text "a"]]).same
      (array 2 [number (-0), array 3 [text "a"]]) = true := by decide +kernel
  refine ⟨h, htrans _ _ _ ((hcomm _ _).trans h) h, ?_, fun p =>
    ((halike _ _ h).2.2 p).2 [(4, [text "b"], [])]⟩
  rw [Bool.eq_false_iff, Ne, hself, not_not]
  exact ⟨0 / 0, .item List.mem_cons_self .number, by decide +kernel⟩

end Value

end ApplyLang
