import ApplyLang.Memory.Description
import ApplyLang.Proofs.Memory.Roots
import ApplyLang.Proofs.Memory.Survey
import Mathlib.Data.List.Find

/-!
# Reading from memory that has shrunk

If memory `h` is memory `k` with some objects gone, both give the same answers to every question
about what is still alive in `h`: frames are never cut off from the frames around them, nor values
from what is in them.

* `Shrinks.find?_eq` — a name means the same.
* `Shrinks.display_eq`, `Shrinks.described_eq` — a value looks the same.
-/

namespace ApplyLang

namespace Heap

variable {h k : Heap} {outer : List Ref}

theorem Shrinks.frame?_eq (hk : k.Shrinks h) {r : Ref} {f : Frame}
    (hf : h.object? r = some (.frame f)) : k.frame? r = h.frame? r := by
  rw [frame?_eq_some_iff.mpr hf, frame?_eq_some_iff.mpr (hk.object r _ hf)]

theorem Shrinks.closure?_eq (hk : k.Shrinks h) {r : Ref} {c : Closure}
    (hc : h.object? r = some (.closure c)) : k.closure? r = h.closure? r := by
  rw [closure?_eq_some_iff.mpr hc, closure?_eq_some_iff.mpr (hk.object r _ hc)]

theorem Shrinks.parent?_eq (hk : k.Shrinks h) {r : Ref} {f : Frame}
    (hf : h.object? r = some (.frame f)) : k.parent? r = h.parent? r := by
  rw [parent?, hk.frame?_eq hf, parent?]

theorem Shrinks.owns_eq (hk : k.Shrinks h) {r : Ref} {f : Frame}
    (hf : h.object? r = some (.frame f)) (name : String) : k.owns r name = h.owns r name := by
  rw [owns, hk.frame?_eq hf, owns]

theorem Shrinks.bound?_eq (hk : k.Shrinks h) {r : Ref} {f : Frame}
    (hf : h.object? r = some (.frame f)) (name : String) : k.bound? r name = h.bound? r name := by
  rw [bound?, hk.frame?_eq hf, bound?]

theorem Shrinks.isSealed_eq (hk : k.Shrinks h) {r : Ref} {f : Frame}
    (hf : h.object? r = some (.frame f)) : k.isSealed r = h.isSealed r := by
  rw [isSealed, hk.frame?_eq hf, isSealed]

/-! ## Scopes -/

theorem frame_of_mem_chainFrom {fuel : ℕ} {scope : Option Ref} {r : Ref}
    (hr : r ∈ h.chainFrom fuel scope) : ∃ f, h.object? r = some (.frame f) := by
  induction fuel generalizing scope with
  | zero => cases hr
  | succ fuel ih =>
    cases scope with
    | none => cases hr
    | some s =>
      unfold chainFrom at hr
      cases hf : h.frame? s with
      | none => rw [hf] at hr; cases hr
      | some f =>
        rw [hf] at hr
        rcases List.mem_cons.mp hr with rfl | hr
        · exact ⟨f, frame?_eq_some_iff.mp hf⟩
        · exact ih hr

theorem Shrinks.chainFrom_eq (hk : k.Shrinks h) (hb : h.Balanced outer) (fuel : ℕ)
    {scope : Option Ref} (hs : ∀ r, scope = some r → ∃ f, h.object? r = some (.frame f)) :
    k.chainFrom fuel scope = h.chainFrom fuel scope := by
  induction fuel generalizing scope with
  | zero => rfl
  | succ fuel ih =>
    cases scope with
    | none => rfl
    | some r =>
      obtain ⟨f, hf⟩ := hs r rfl
      have hparent : ∀ p, f.parent = some p → ∃ g, h.object? p = some (.frame g) := fun p hp =>
        ((hb.valid r _ hf).1 p hp).2
      unfold chainFrom
      rw [hk.frame?_eq hf, frame?_eq_some_iff.mpr hf]
      exact congrArg (r :: ·) (ih hparent)

theorem Shrinks.chain_eq (hk : k.Shrinks h) (hb : h.Balanced outer) {scope : Ref} {f : Frame}
    (hf : h.object? scope = some (.frame f)) : k.chain scope = h.chain scope := by
  unfold chain
  rw [← hk.size_eq]
  refine hk.chainFrom_eq hb _ fun r hr => ?_
  cases hr
  exact ⟨f, hf⟩

theorem Shrinks.owner?_eq (hk : k.Shrinks h) (hb : h.Balanced outer) {scope : Ref} {f : Frame}
    (hf : h.object? scope = some (.frame f)) (name : String) :
    k.owner? scope name = h.owner? scope name := by
  unfold owner?
  rw [hk.chain_eq hb hf]
  refine List.find?_congr fun r hr => ?_
  obtain ⟨g, hg⟩ := frame_of_mem_chainFrom hr
  exact hk.owns_eq hg name

/-- What a name means, and where it is bound. -/
theorem Shrinks.find?_eq (hk : k.Shrinks h) (hb : h.Balanced outer) {scope : Ref} {f : Frame}
    (hf : h.object? scope = some (.frame f)) (name : String) :
    k.find? scope name = h.find? scope name := by
  unfold find?
  rw [hk.owner?_eq hb hf]
  cases ho : h.owner? scope name with
  | none => rfl
  | some r =>
    obtain ⟨g, hg⟩ := exists_frame_of_owns (owns_of_owner? ho)
    exact hk.bound?_eq hg name

theorem Shrinks.describedFrames_eq (hk : k.Shrinks h) {refs : List Ref}
    (hr : ∀ r ∈ refs, ∃ f, h.object? r = some (.frame f)) :
    k.describedFrames refs = h.describedFrames refs := by
  induction refs with
  | nil => rfl
  | cons r rest ih =>
    obtain ⟨f, hf⟩ := hr r List.mem_cons_self
    unfold describedFrames
    rw [hk.frame?_eq hf, ih fun r hr' => hr r (List.mem_cons_of_mem _ hr')]

theorem Shrinks.describedScope_eq (hk : k.Shrinks h) (hb : h.Balanced outer) {scope : Ref}
    {f : Frame} (hf : h.object? scope = some (.frame f)) :
    k.describedScope scope = h.describedScope scope := by
  unfold describedScope
  rw [hk.chain_eq hb hf]
  exact hk.describedFrames_eq fun _ => frame_of_mem_chainFrom

end Heap

/-! ## Values -/

namespace Value

mutual

/-- The printed form depends on the functions in a value only. -/
theorem display_congr {p q : Ref → List String} :
    ∀ {v : Value}, (∀ r ∈ v.closures, p r = q r) → v.display p = v.display q
  | .closure r, hv => by
    rw [display, display, hv r (by simp [closures])]
  | .array _ items, hv => by
    rw [display, display, displayItems_congr hv]
  | .bool _, _ | .number _, _ | .text _, _ | .builtin _, _ => rfl

theorem displayItems_congr {p q : Ref → List String} :
    ∀ {items : List Value}, (∀ r ∈ closuresIn items, p r = q r) →
      displayItems p items = displayItems q items
  | [], _ => rfl
  | item :: rest, hv => by
    have hitem : item.display p = item.display q :=
      display_congr fun r hr => hv r (List.mem_append_left _ hr)
    have hrest : displayItems p rest = displayItems q rest :=
      displayItems_congr fun r hr => hv r (List.mem_append_right _ hr)
    unfold displayItems
    rw [hitem, hrest]

end

mutual

/-- The description depends on the functions in a value only. -/
theorem described_congr {p q : Ref → String} :
    ∀ {v : Value}, (∀ r ∈ v.closures, p r = q r) → v.described p = v.described q
  | .closure r, hv => by
    rw [described, described, hv r (by simp [closures])]
  | .array _ items, hv => by
    rw [described, described, describedItems_congr hv]
  | .bool _, _ | .number _, _ | .text _, _ | .builtin _, _ => rfl

theorem describedItems_congr {p q : Ref → String} :
    ∀ {items : List Value}, (∀ r ∈ closuresIn items, p r = q r) →
      describedItems p items = describedItems q items
  | [], _ => rfl
  | [item], hv => by
    rw [describedItems, describedItems,
      described_congr fun r hr => hv r (List.mem_append_left _ hr)]
  | item :: next :: rest, hv => by
    rw [describedItems, describedItems,
      described_congr fun r hr => hv r (List.mem_append_left _ hr),
      describedItems_congr fun r hr => hv r (List.mem_append_right _ hr)]

end

end Value

namespace Heap

variable {h k : Heap} {outer : List Ref}

theorem Shrinks.closure_of_value (hk : k.Shrinks h) (hb : h.Balanced outer) {v : Value}
    (hv : v.ValidIn h) {r : Ref} (hr : r ∈ v.closures) : k.closure? r = h.closure? r := by
  obtain ⟨c, hc⟩ := hv.closure hb.valid r hr
  exact hk.closure?_eq hc

theorem Shrinks.display_eq (hk : k.Shrinks h) (hb : h.Balanced outer) {v : Value}
    (hv : v.ValidIn h) : k.display v = h.display v := by
  refine Value.display_congr fun r hr => ?_
  rw [parameterNames, hk.closure_of_value hb hv hr, parameterNames]

theorem Shrinks.described_eq (hk : k.Shrinks h) (hb : h.Balanced outer) {v : Value}
    (hv : v.ValidIn h) : k.described v = h.described v := by
  refine Value.described_congr fun r hr => ?_
  rw [hk.closure_of_value hb hv hr]

end Heap

end ApplyLang
