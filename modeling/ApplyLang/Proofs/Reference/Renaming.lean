import ApplyLang.Proofs.Reference.Reading
import ApplyLang.Proofs.Evaluation.Soundness

/-!
# References by other names

Which references memory gives out depends on what has been in it before. Nothing else does: memory
that has the same objects under other references gives the same answers, with the references in them
renamed.

* `Value.rename`, `Object.rename` — the same with other references.
* `Heap.Renames` — memory that has all objects of another memory, under other references.
* `Renames.find?_eq`, `Renames.display_eq` — what a name means, and what a value looks like.
* `Builtin.compute_rename` — what a built-in function computes.
-/

namespace ApplyLang

/-! ## Values -/

namespace Value

mutual

/-- The value with other references. -/
def rename (ρ : Ref → Ref) : Value → Value
  | array storage items => array (ρ storage) (renameAll ρ items)
  | closure r => closure (ρ r)
  | bool x => bool x
  | number x => number x
  | text x => text x
  | builtin f => builtin f

/-- The values with other references. -/
def renameAll (ρ : Ref → Ref) : List Value → List Value
  | [] => []
  | item :: rest => rename ρ item :: renameAll ρ rest

end

variable {ρ : Ref → Ref}

theorem renameAll_eq_map (items : List Value) : renameAll ρ items = items.map (rename ρ) := by
  induction items with
  | nil => rfl
  | cons item rest ih => rw [renameAll, ih, List.map_cons]

@[simp] theorem rename_array (storage : Ref) (items : List Value) :
    rename ρ (array storage items) = array (ρ storage) (items.map (rename ρ)) := by
  rw [rename, renameAll_eq_map]

@[simp] theorem typeName_rename (v : Value) : (v.rename ρ).typeName = v.typeName := by
  cases v <;> rfl

@[simp] theorem truthy_rename (v : Value) : (v.rename ρ).truthy = v.truthy := by
  cases v <;> rfl

@[simp] theorem callable_rename (v : Value) : (v.rename ρ).callable = v.callable := by
  cases v <;> rfl

mutual

theorem same_rename (hρ : Function.Injective ρ) :
    ∀ v w : Value, (v.rename ρ).same (w.rename ρ) = v.same w
  | array _ xs, array _ ys => by
    rw [rename, rename, same, same, sameAll_rename hρ xs ys]
  | closure r, closure s => by
    rw [rename, rename, same, same]
    exact decide_eq_decide.mpr hρ.eq_iff
  | bool _, w | number _, w | text _, w | builtin _, w => by cases w <;> rfl
  | array _ _, bool _ | array _ _, number _ | array _ _, text _ | array _ _, closure _
  | array _ _, builtin _ => rfl
  | closure _, bool _ | closure _, number _ | closure _, text _ | closure _, array _ _
  | closure _, builtin _ => rfl

theorem sameAll_rename (hρ : Function.Injective ρ) :
    ∀ xs ys : List Value, sameAll (renameAll ρ xs) (renameAll ρ ys) = sameAll xs ys
  | [], [] => rfl
  | x :: xs, y :: ys => by
    rw [renameAll, renameAll, sameAll, sameAll, same_rename hρ x y, sameAll_rename hρ xs ys]
  | [], _ :: _ | _ :: _, [] => rfl

end

mutual

/-- The printed form does not show references. -/
theorem display_rename {p q : Ref → List String} :
    ∀ {v : Value}, (∀ r ∈ v.closures, p (ρ r) = q r) → (v.rename ρ).display p = v.display q
  | closure r, hv => by
    rw [rename, display, display, hv r (by simp [closures])]
  | array _ items, hv => by
    rw [rename, display, display, displayItems_rename hv]
  | bool _, _ | number _, _ | text _, _ | builtin _, _ => rfl

theorem displayItems_rename {p q : Ref → List String} :
    ∀ {items : List Value}, (∀ r ∈ closuresIn items, p (ρ r) = q r) →
      displayItems p (renameAll ρ items) = displayItems q items
  | [], _ => rfl
  | item :: rest, hv => by
    have hitem : (item.rename ρ).display p = item.display q :=
      display_rename fun r hr => hv r (List.mem_append_left _ hr)
    have hrest : displayItems p (renameAll ρ rest) = displayItems q rest :=
      displayItems_rename fun r hr => hv r (List.mem_append_right _ hr)
    unfold renameAll displayItems
    cases rest with
    | nil =>
      cases item with
      | text x => rfl
      | bool | number | array | closure | builtin => exact hitem
    | cons next rest =>
      cases item with
      | text x => exact congrArg ("\"" ++ x ++ "\"" ++ ", " ++ ·) hrest
      | bool | number | array | closure | builtin =>
        exact congrArg₂ (· ++ ", " ++ ·) hitem hrest

end

end Value

namespace Builtin

variable {ρ : Ref → Ref} {call : Span}

theorem numbers_rename (x y : Value) : numbers call (x.rename ρ) (y.rename ρ) = numbers call x y := by
  cases x <;> cases y <;> rfl

theorem compareValues_rename (x y : Value) :
    compareValues call (x.rename ρ) (y.rename ρ) = compareValues call x y := by
  cases x <;> cases y <;> rfl

theorem arithmetic_rename (operation : Float → Float → Float) (x y : Value) :
    arithmetic call operation (x.rename ρ) (y.rename ρ) =
      (arithmetic call operation x y).map (Value.rename ρ) := by
  rw [arithmetic, numbers_rename, arithmetic]
  cases numbers call x y <;> rfl

theorem ordered_rename (wanted : Ordering) (x y : Value) :
    ordered call wanted (x.rename ρ) (y.rename ρ) =
      (ordered call wanted x y).map (Value.rename ρ) := by
  rw [ordered, compareValues_rename, ordered]
  cases compareValues call x y <;> rfl

theorem itemsOf_rename (v : Value) :
    itemsOf call (v.rename ρ) = (itemsOf call v).map (List.map (Value.rename ρ)) := by
  cases v with
  | array storage items =>
    rw [Value.rename_array]
    rfl
  | text x =>
    simp only [Value.rename, itemsOf, Except.map, List.map_map]
    rfl
  | bool | number | closure | builtin => rfl

theorem itemAt_rename (sequence index : Value) :
    itemAt call (sequence.rename ρ) (index.rename ρ) =
      (itemAt call sequence index).map (Value.rename ρ) := by
  cases index with
  | number x =>
    simp only [Value.rename, itemAt, itemsOf_rename]
    cases itemsOf call sequence with
    | error f => rfl
    | ok items =>
      simp only [Except.map, bind, Except.bind, List.length_map]
      cases Number.index? x items.length with
      | none => rfl
      | some k =>
        simp only [Option.bind_some, List.getElem?_map]
        cases items[k]? <;> rfl
  | bool | text | array | closure | builtin => simp only [Value.rename, itemAt]; rfl

/-- A built-in function cannot tell references apart but by whether they are the same. -/
theorem compute_rename (hρ : Function.Injective ρ) (f : Builtin) (arguments : List Value) :
    f.compute call (arguments.map (Value.rename ρ)) =
      (f.compute call arguments).map (Value.rename ρ) := by
  rcases arguments with _ | ⟨x, _ | ⟨y, _ | ⟨z, rest⟩⟩⟩
  · cases f <;> rfl
  · cases f with
    | length =>
      simp only [List.map_cons, List.map_nil, compute, itemsOf_rename]
      cases itemsOf call x with
      | error fault => rfl
      | ok items => simp [Except.map, bind, Except.bind, pure, Except.pure, Value.rename]
    | _ => rfl
  · cases f with
    | add | subtract | multiply | divide => exact arithmetic_rename _ x y
    | less | greater => exact ordered_rename _ x y
    | element => exact itemAt_rename x y
    | equal => exact congrArg (fun b => Except.ok (Value.bool b)) (Value.same_rename hρ x y)
    | print | array | length => rfl
  · cases f <;> simp [compute, Except.map]

end Builtin

/-! ## Objects -/

/-- The frame with other references. -/
def Frame.rename (ρ : Ref → Ref) (f : Frame) : Frame :=
  ⟨f.bindings.map fun b => (b.1, b.2.rename ρ), f.parent.map ρ, f.isSealed⟩

/-- The function with another reference to the frame it was made in. -/
def Closure.rename (ρ : Ref → Ref) (c : Closure) : Closure :=
  { c with scope := ρ c.scope }

/-- The object with other references. -/
def Object.rename (ρ : Ref → Ref) : Object → Object
  | .frame f => .frame (f.rename ρ)
  | .closure c => .closure (c.rename ρ)
  | .array items => .array (items.map (Value.rename ρ))

namespace Frame

variable {ρ : Ref → Ref}

theorem get?_rename (f : Frame) (name : String) :
    (f.rename ρ).get? name = (f.get? name).map (Value.rename ρ) := by
  obtain ⟨bindings, parent, isSealed⟩ := f
  unfold rename get?
  dsimp only
  induction bindings with
  | nil => rfl
  | cons b rest ih =>
    rw [List.map_cons, List.lookup_cons, List.lookup_cons, ih]
    split <;> rfl

theorem owns_rename (f : Frame) (name : String) : (f.rename ρ).owns name = f.owns name := by
  rw [owns, get?_rename, Option.isSome_map, owns]

theorem insert_rename (f : Frame) (name : String) (v : Value) :
    (f.rename ρ).insert name (v.rename ρ) = (f.insert name v).rename ρ := by
  obtain ⟨bindings, parent, isSealed⟩ := f
  have hbindings : insertInto name (v.rename ρ) (bindings.map fun b => (b.1, b.2.rename ρ)) =
      (insertInto name v bindings).map fun b => (b.1, b.2.rename ρ) := by
    induction bindings with
    | nil => rfl
    | cons b rest ih =>
      obtain ⟨key, old⟩ := b
      rw [List.map_cons, insertInto, insertInto]
      split
      · rfl
      · rw [ih, List.map_cons]
  simp only [insert, rename, hbindings]

end Frame

/-! ## Memory -/

namespace Heap

/-- The first memory has every object of the second under another reference, and goes on to give out
    references accordingly. It may well have other objects besides. -/
structure Renames (ρ : Ref → Ref) (k h : Heap) : Prop where
  size_le : h.cells.size ≤ k.cells.size
  next : ∀ i, ρ (h.cells.size + i) = k.cells.size + i
  object : ∀ r o, h.object? r = some o → k.object? (ρ r) = some (o.rename ρ)

variable {ρ : Ref → Ref} {h k : Heap} {outer : List Ref}

theorem Renames.shrink (hk : k.Renames ρ h) {h' : Heap} (hs : h.Shrinks h') : k.Renames ρ h' where
  size_le := hs.size_eq ▸ hk.size_le
  next := hs.size_eq ▸ hk.next
  object r o ho := hk.object r o (hs.object r o ho)

theorem Renames.frame (hk : k.Renames ρ h) {r : Ref} {f : Frame}
    (hf : h.object? r = some (.frame f)) : k.frame? (ρ r) = some (f.rename ρ) :=
  frame?_eq_some_iff.mpr (hk.object r _ hf)

theorem Renames.closure (hk : k.Renames ρ h) {r : Ref} {c : Closure}
    (hc : h.object? r = some (.closure c)) : k.closure? (ρ r) = some (c.rename ρ) :=
  closure?_eq_some_iff.mpr (hk.object r _ hc)

theorem Renames.isSealed_eq (hk : k.Renames ρ h) {r : Ref} {f : Frame}
    (hf : h.object? r = some (.frame f)) : k.isSealed (ρ r) = h.isSealed r := by
  rw [isSealed, hk.frame hf, isSealed, frame?_eq_some_iff.mpr hf]
  rfl

theorem Renames.owns_eq (hk : k.Renames ρ h) {r : Ref} {f : Frame}
    (hf : h.object? r = some (.frame f)) (name : String) : k.owns (ρ r) name = h.owns r name := by
  rw [owns, hk.frame hf, owns, frame?_eq_some_iff.mpr hf]
  exact f.owns_rename name

/-- Parents are older than their children, so that neither fuel runs out. -/
theorem Renames.chainFrom_eq (hk : k.Renames ρ h) (hb : h.Balanced outer) {fuel fuel' : ℕ}
    (scope : Option Ref) (hs : ∀ r, scope = some r → ∃ f, h.object? r = some (.frame f))
    (hfuel : ∀ r, scope = some r → r < fuel) (hfuel' : ∀ r, scope = some r → r < fuel') :
    k.chainFrom fuel' (scope.map ρ) = (h.chainFrom fuel scope).map ρ := by
  induction fuel generalizing fuel' scope with
  | zero =>
    cases scope with
    | none => cases fuel' <;> rfl
    | some r => exact absurd (hfuel r rfl) (Nat.not_lt_zero r)
  | succ fuel ih =>
    cases scope with
    | none => cases fuel' <;> rfl
    | some r =>
      cases fuel' with
      | zero => exact absurd (hfuel' r rfl) (Nat.not_lt_zero r)
      | succ fuel' =>
        obtain ⟨f, hf⟩ := hs r rfl
        have hparent := (hb.valid r _ hf).1
        have hr := Nat.lt_succ_iff.mp (hfuel r rfl)
        have hr' := Nat.lt_succ_iff.mp (hfuel' r rfl)
        have hrest := ih f.parent (fun p hp => (hparent p hp).2)
          (fun p hp => (hparent p hp).1.trans_le hr) fun p hp => (hparent p hp).1.trans_le hr'
        rw [Option.map_some]
        unfold chainFrom
        rw [hk.frame hf, frame?_eq_some_iff.mpr hf, List.map_cons, ← hrest]
        rfl

theorem Renames.chain_eq (hk : k.Renames ρ h) (hb : h.Balanced outer) {scope : Ref} {f : Frame}
    (hf : h.object? scope = some (.frame f)) : k.chain (ρ scope) = (h.chain scope).map ρ := by
  have hlt := lt_size_of_object? hf
  refine hk.chainFrom_eq hb (some scope) (fun r hr => ?_) (fun r hr => ?_) fun r hr => ?_
  · cases hr
    exact ⟨f, hf⟩
  · cases hr
    exact hlt
  · cases hr
    exact hlt.trans_le hk.size_le

theorem Renames.owner?_eq (hk : k.Renames ρ h) (hb : h.Balanced outer) {scope : Ref} {f : Frame}
    (hf : h.object? scope = some (.frame f)) (name : String) :
    k.owner? (ρ scope) name = (h.owner? scope name).map ρ := by
  unfold owner?
  rw [hk.chain_eq hb hf, List.find?_map]
  congr 1
  refine List.find?_congr fun r hr => ?_
  obtain ⟨g, hg⟩ := frame_of_mem_chainFrom hr
  exact hk.owns_eq hg name

/-- What a name means. -/
theorem Renames.find?_eq (hk : k.Renames ρ h) (hb : h.Balanced outer) {scope : Ref} {f : Frame}
    (hf : h.object? scope = some (.frame f)) (name : String) :
    k.find? (ρ scope) name = (h.find? scope name).map (Value.rename ρ) := by
  unfold find?
  rw [hk.owner?_eq hb hf]
  cases ho : h.owner? scope name with
  | none => rfl
  | some r =>
    obtain ⟨g, hg⟩ := exists_frame_of_owns (owns_of_owner? ho)
    rw [Option.map_some, Option.bind_some, Option.bind_some, bound?, hk.frame hg, bound?,
      frame?_eq_some_iff.mpr hg]
    exact g.get?_rename name

theorem Renames.display_eq (hk : k.Renames ρ h) (hb : h.Balanced outer) {v : Value}
    (hv : v.ValidIn h) : k.display (v.rename ρ) = h.display v := by
  refine Value.display_rename fun r hr => ?_
  obtain ⟨c, hc⟩ := hv.closure hb.valid r hr
  rw [parameterNames, hk.closure hc, parameterNames, closure?_eq_some_iff.mpr hc]
  rfl

end Heap

end ApplyLang
