import ApplyLang.Proofs.Memory.Ownership
import ApplyLang.Proofs.Memory.Tracing
import ApplyLang.Proofs.Memory.Untouched

/-!
# Territories

Work on memory that goes out from certain handles gets no further than these lead, apart from what it
makes itself. A territory says how far that is, and in which frames of it names may be added.

* `Territory` — what was there in the beginning, which objects may change or go, and which frames may
  get new names. What is made later belongs to it.
* `Heap.Local` — memory has changed in a territory only: objects of the territory hold nothing from
  outside, what is outside has not changed, not even in its counters, and no frame has lost a name.
* One lemma for each operation on memory: with handles from the territory, it keeps memory local.
-/

namespace ApplyLang

/-- How far some work on memory may get. -/
structure Territory where
  /-- Memory in the beginning. -/
  start : Heap
  /-- The objects that may change or go. -/
  inside : Ref → Prop
  /-- The frames in which a name may be defined that they do not have. -/
  home : Ref → Prop
  inside_of_new : ∀ r, start.cells.size ≤ r → inside r
  home_of_new : ∀ r, start.cells.size ≤ r → home r

/-- What one copy of a value keeps alive is in the territory. -/
def Value.Inside (t : Territory) (v : Value) : Prop :=
  ∀ r ∈ v.handles, t.inside r

namespace Heap

/-! ## Closed sets and links -/

section Closed

variable {P : Ref → Prop} {h : Heap}

mutual

/-- The functions in a valid value are where its handles lead. -/
theorem Closed.closures (hc : h.Closed P) (hvalid : h.Valid) :
    ∀ {v : Value}, v.ValidIn h → (∀ r ∈ v.handles, P r) → ∀ r ∈ v.closures, P r
  | .closure _, _, hv, r, hr => hv r hr
  | .array storage items, ha, hv, r, hr => by
    have hs : h.object? storage = some (.array items) := ha
    have hitems : ∀ x ∈ items.flatMap Value.handles, P x :=
      hc storage _ (hv storage (List.mem_singleton_self _)) hs
    rw [Value.closures] at hr
    exact Closed.closuresIn hc hvalid (hvalid storage _ hs)
      (fun v hm x hx => hitems x (List.mem_flatMap.mpr ⟨v, hm, hx⟩)) r hr
  | .bool _, _, _, _, hr | .number _, _, _, _, hr | .text _, _, _, _, hr
  | .builtin _, _, _, _, hr => by cases hr

theorem Closed.closuresIn (hc : h.Closed P) (hvalid : h.Valid) :
    ∀ {items : List Value}, (∀ v ∈ items, v.ValidIn h) → (∀ v ∈ items, ∀ r ∈ v.handles, P r) →
      ∀ r ∈ Value.closuresIn items, P r
  | [], _, _, _, hr => by cases hr
  | item :: rest, ha, hv, r, hr => by
    rw [Value.closuresIn] at hr
    rcases List.mem_append.mp hr with hr | hr
    · exact Closed.closures hc hvalid (ha item (by simp)) (hv item (by simp)) r hr
    · exact Closed.closuresIn hc hvalid (fun v hm => ha v (by simp [hm]))
        (fun v hm => hv v (by simp [hm])) r hr

end

theorem Closed.bound (hc : h.Closed P) {r : Ref} {f : Frame} (hr : P r)
    (hf : h.object? r = some (.frame f)) {b : String × Value} (hb : b ∈ f.bindings) :
    ∀ x ∈ b.2.handles, P x := by
  intro x hx
  exact hc r _ hr hf x (List.mem_append_right _ (List.mem_flatMap.mpr ⟨b, hb, hx⟩))

theorem Closed.parent (hc : h.Closed P) {r p : Ref} {f : Frame} (hr : P r)
    (hf : h.object? r = some (.frame f)) (hp : f.parent = some p) : P p :=
  hc r _ hr hf p (List.mem_append_left _ (by simp [hp]))

theorem Closed.handles_insert (hc : h.Closed P) {r : Ref} {f : Frame} (hr : P r)
    (hf : h.object? r = some (.frame f)) {name : String} {v : Value}
    (hv : ∀ x ∈ v.handles, P x) : ∀ x ∈ (Object.frame (f.insert name v)).handles, P x := by
  intro x hx
  rcases List.mem_append.mp hx with hp | hx
  · exact hc.parent hr hf (Option.mem_toList.mp hp)
  · obtain ⟨b, hb, hx⟩ := List.mem_flatMap.mp hx
    rcases Frame.mem_insertInto hb with hbv | hb
    · rw [hbv] at hx
      exact hv x hx
    · exact hc.bound hr hf hb x hx

theorem Closed.links (hc : h.Closed P) (hvalid : h.Valid) {y x : Ref} (hy : P y)
    (hl : h.Links y x) : P x := by
  cases hl with
  | parent hf _ hp => exact hc.parent hy hf hp
  | bound hf _ hb hx =>
    exact hc.closures hvalid ((hvalid y _ hf).2 _ hb) (hc.bound hy hf hb) x hx
  | captured ho => exact hc y _ hy ho _ (List.mem_singleton_self _)

theorem Closed.reaches (hc : h.Closed P) (hvalid : h.Valid) {r x : Ref} (hr : P r)
    (hx : h.Reaches r x) : P x := by
  induction hx with
  | refl => exact hr
  | tail _ hl ih => exact hc.links hvalid ih hl

/-- Only members of the survey are emptied. -/
theorem reaches_of_mem_lost {r x : Ref} (hx : x ∈ h.lost r) : h.Reaches r x := by
  unfold lost at hx
  dsimp only at hx
  split_ifs at hx
  · cases hx
  · exact (Survey.within_survey h r).member x (Survey.mem_refs.mp (List.mem_of_mem_filter hx))

/-- Names are looked for where the scope leads. -/
theorem Closed.exposes (hc : h.Closed P) {name : String} {r scope : Ref} (hs : P scope)
    (he : h.Exposes name r scope) : P r := by
  induction he with
  | here => exact hs
  | outer _ hp _ ih =>
    obtain ⟨f, hf, hparent⟩ := parent?_eq_some_iff.mp hp
    exact ih (hc.parent hs hf hparent)

end Closed

/-! ## Counters -/

theorem cell?_retain_of_ne (h : Heap) {r x : Ref} (hx : x ≠ r) :
    (h.retain r).cell? x = h.cell? x := by
  unfold retain
  split
  · exact cell?_put_of_ne h hx _
  · rfl

theorem cell?_retainAll_of_not_mem (h : Heap) {refs : List Ref} {x : Ref} (hx : x ∉ refs) :
    (h.retainAll refs).cell? x = h.cell? x := by
  induction refs generalizing h with
  | nil => rfl
  | cons r rest ih =>
    rw [List.mem_cons, not_or] at hx
    exact (ih (h.retain r) hx.2).trans (cell?_retain_of_ne h hx.1)

theorem cell?_replace_of_ne (h : Heap) {r x : Ref} (hx : x ≠ r) (o : Object) :
    (h.replace r o).cell? x = h.cell? x := by
  unfold replace
  split
  · exact cell?_put_of_ne h hx _
  · rfl

theorem owns_of_frame {h : Heap} {r : Ref} {f : Frame} (hf : h.object? r = some (.frame f))
    (name : String) : h.owns r name = f.owns name := by
  rw [owns, frame?_eq_some_iff.mpr hf]

theorem owns_congr {h k : Heap} {x : Ref} (hx : k.object? x = h.object? x) (name : String) :
    k.owns x name = h.owns x name := by
  rw [owns, owns, frame?, frame?, hx]

theorem owns_replace_insert {h : Heap} {r : Ref} {f : Frame}
    (hf : h.object? r = some (.frame f)) (name : String) (v : Value) (x : Ref) (key : String) :
    (h.replace r (.frame (f.insert name v))).owns x key =
      if x = r ∧ key = name then true else h.owns x key := by
  have hobject := object?_replace (alive_of_object? hf) (.frame (f.insert name v)) x
  by_cases hx : x = r
  · subst hx
    rw [if_pos rfl] at hobject
    rw [owns_of_frame hobject, owns_of_frame hf]
    by_cases hkey : key = name
    · rw [if_pos ⟨rfl, hkey⟩, hkey, Frame.owns_insert_self]
    · rw [if_neg fun hboth => hkey hboth.2, Frame.owns_insert_of_ne f v hkey]
  · rw [if_neg hx] at hobject
    rw [if_neg fun hboth => hx hboth.1, owns_congr hobject]

/-! ## Local changes -/

/-- Memory has changed in a territory only. -/
structure Local (t : Territory) (h : Heap) : Prop where
  size_le : t.start.cells.size ≤ h.cells.size
  closed : h.Closed t.inside
  outside : ∀ x, ¬ t.inside x → h.cell? x = t.start.cell? x
  /-- A frame that is left has all the names that it had. -/
  kept : ∀ x, h.alive x = true → ∀ name, t.start.owns x name = true → h.owns x name = true
  /-- Names are added at home only. -/
  gained : ∀ x, ¬ t.home x → ∀ name, h.owns x name = true → t.start.owns x name = true

variable {t : Territory} {h k : Heap}

namespace Local

theorem start (hc : t.start.Closed t.inside) : t.start.Local t :=
  ⟨le_rfl, hc, fun _ _ => rfl, fun _ _ _ hn => hn, fun _ _ _ hn => hn⟩

theorem inside_size (hl : h.Local t) : t.inside h.cells.size :=
  t.inside_of_new _ hl.size_le

/-- Objects may go and counters change, as long as that happens in the territory. -/
theorem shrink (hl : h.Local t) (hk : h.Shrinks k)
    (hout : ∀ x, ¬ t.inside x → k.cell? x = h.cell? x) : k.Local t := by
  refine ⟨hk.size_eq ▸ hl.size_le, hl.closed.shrink hk, fun x hx => ?_, fun x hx name hn => ?_,
    fun x hx name hn => ?_⟩
  · rw [hout x hx, hl.outside x hx]
  · rw [owns_congr (hk.eq_of_alive hx)]
    exact hl.kept x (hk.alive hx) name hn
  · obtain ⟨f, hf⟩ := exists_frame_of_owns hn
    rw [owns_congr (hk.eq_of_alive (alive_of_object? hf))] at hn
    exact hl.gained x hx name hn

theorem retain (hl : h.Local t) {r : Ref} (hr : t.inside r) : (h.retain r).Local t := by
  refine hl.shrink (retain_shrinks h r) fun x hx => ?_
  exact cell?_retain_of_ne h fun heq => hx (heq ▸ hr)

theorem retainAll (hl : h.Local t) {refs : List Ref} (hr : ∀ r ∈ refs, t.inside r) :
    (h.retainAll refs).Local t := by
  refine hl.shrink (retainAll_shrinks h refs) fun x hx => ?_
  exact cell?_retainAll_of_not_mem h fun hmem => hx (hr x hmem)

theorem copy (hl : h.Local t) {v : Value} (hv : v.Inside t) : (h.copy v).Local t :=
  hl.retainAll hv

theorem discard (hl : h.Local t) {refs : List Ref} (hr : ∀ r ∈ refs, t.inside r) :
    (h.discard refs).Local t :=
  hl.shrink (discard_shrinks h refs) fun _ hx => hl.closed.cell?_discard hr hx

theorem discardValues (hl : h.Local t) {values : List Value} (hv : ∀ v ∈ values, v.Inside t) :
    (h.discardValues values).Local t := by
  refine hl.discard fun r hr => ?_
  obtain ⟨v, hm, hr⟩ := List.mem_flatMap.mp hr
  exact hv v hm r hr

theorem release (hl : h.Local t) (hvalid : h.Valid) {r : Ref} (hr : t.inside r)
    (hk : h.Shrinks (h.release r)) : (h.release r).Local t := by
  refine hl.shrink hk fun x hx => hl.closed.cell?_release hr (fun y hy => ?_) hx
  exact hl.closed.reaches hvalid hr (reaches_of_mem_lost hy)

/-- A new object belongs to the territory. -/
theorem alloc (hl : h.Local t) {o : Object} (ho : ∀ x ∈ o.handles, t.inside x) :
    (h.alloc o).1.Local t := by
  have hnew := hl.inside_size
  have howns : ∀ x name, x ≠ h.cells.size → (h.alloc o).1.owns x name = h.owns x name := by
    intro x name hx
    exact owns_congr (by rw [object?_alloc, if_neg hx]) name
  refine ⟨?_, fun r p hr hp => ?_, fun x hx => ?_, fun x hx name hn => ?_, fun x hx name hn => ?_⟩
  · rw [size_alloc]
    exact hl.size_le.trans (Nat.le_succ _)
  · rw [object?_alloc] at hp
    split_ifs at hp with heq
    · cases hp
      exact ho
    · exact hl.closed r p hr hp
  · have hne : x ≠ h.cells.size := fun heq => hx (heq ▸ hnew)
    rw [cell?_alloc, if_neg hne, hl.outside x hx]
  · obtain ⟨f, hf⟩ := exists_frame_of_owns hn
    have hne : x ≠ h.cells.size := ((lt_size_of_object? hf).trans_le hl.size_le).ne
    rw [howns x name hne]
    refine hl.kept x ?_ name hn
    rwa [alive, cell?_alloc, if_neg hne] at hx
  · have hne : x ≠ h.cells.size := fun heq => hx (heq ▸ t.home_of_new _ hl.size_le)
    rw [howns x name hne] at hn
    exact hl.gained x hx name hn

/-- A frame is given a binding. If it is not at home, it has the name already. -/
theorem insert (hl : h.Local t) {r : Ref} {f : Frame} (hf : h.object? r = some (.frame f))
    (hr : t.inside r) {name : String} (hname : t.home r ∨ f.owns name = true) {v : Value}
    (hv : v.Inside t) : (h.replace r (.frame (f.insert name v))).Local t := by
  have hobject := object?_replace (alive_of_object? hf) (.frame (f.insert name v))
  refine ⟨?_, fun x o hx ho => ?_, fun x hx => ?_, fun x hx key hk => ?_, fun x hx key hk => ?_⟩
  · rw [size_replace]
    exact hl.size_le
  · rw [hobject] at ho
    split_ifs at ho with heq
    · cases ho
      exact hl.closed.handles_insert hr hf hv
    · exact hl.closed x o hx ho
  · have hne : x ≠ r := fun heq => hx (heq ▸ hr)
    rw [cell?_replace_of_ne h hne, hl.outside x hx]
  · rw [owns_replace_insert hf]
    split_ifs with hboth
    · rfl
    · obtain ⟨o, ho⟩ := alive_iff.mp hx
      rw [hobject] at ho
      split_ifs at ho with heq
      · exact hl.kept x (heq ▸ alive_of_object? hf) key hk
      · exact hl.kept x (alive_of_object? ho) key hk
  · rw [owns_replace_insert hf] at hk
    split_ifs at hk with hboth
    · obtain ⟨rfl, rfl⟩ := hboth
      rw [← owns_of_frame hf] at hname
      exact hl.gained x hx key (hname.resolve_left hx)
    · exact hl.gained x hx key hk

theorem bind (hl : h.Local t) {r : Ref} (hr : t.inside r) {name : String}
    (hname : t.home r ∨ h.owns r name = true) {v : Value} (hv : v.Inside t) :
    (h.bind r name v).Local t := by
  cases hframe : h.frame? r with
  | none =>
    rw [bind_of_none hframe]
    exact hl
  | some f =>
    have hf := frame?_eq_some_iff.mp hframe
    have hf' := (object?_copy h v r).trans hf
    rw [owns_of_frame hf] at hname
    rw [bind_of_frame hf]
    refine ((hl.copy hv).insert hf' hr hname hv).discardValues fun w hw => ?_
    exact hl.closed.bound hr hf (Frame.mem_of_get? (Option.mem_toList.mp hw))

theorem define (hl : h.Local t) {r : Ref} (hr : t.inside r) (hhome : t.home r) {name : String}
    {v : Value} (hv : v.Inside t) (hd : h.define r name v = .ok k) : k.Local t := by
  rw [define_ok hd]
  exact hl.bind hr (.inl hhome) hv

/-- An assignment goes to a frame that has the name, and that the scope leads to. -/
theorem assign (hl : h.Local t) (hvalid : h.Valid) {scope : Ref} (hs : t.inside scope)
    {name : String} {v : Value} (hv : v.Inside t) (ha : h.assign scope name v = .ok k) :
    k.Local t := by
  obtain ⟨r, howner, rfl⟩ := assign_ok ha
  obtain ⟨he, hown⟩ := hvalid.owner?_eq_some_iff.mp howner
  exact hl.bind (hl.closed.exposes hs he) (.inr hown) hv

/-- What a name means is in the territory. -/
theorem find? (hl : h.Local t) (hvalid : h.Valid) {scope : Ref} (hs : t.inside scope)
    {name : String} {v : Value} (hv : h.find? scope name = some v) : v.Inside t := by
  obtain ⟨r, howner, hbound⟩ := Option.bind_eq_some_iff.mp hv
  obtain ⟨f, hf, hget⟩ := Option.bind_eq_some_iff.mp hbound
  have hr := hl.closed.exposes hs (hvalid.owner?_eq_some_iff.mp howner).1
  exact hl.closed.bound hr (frame?_eq_some_iff.mp hf) (Frame.mem_of_get? hget)

theorem child (hl : h.Local t) {r : Ref} (hr : t.inside r) : (h.child r).1.Local t := by
  refine (hl.retain hr).alloc fun x hx => ?_
  rw [List.mem_singleton.mp hx]
  exact hr

theorem newClosure (hl : h.Local t) {c : Closure} (hc : t.inside c.scope) :
    (h.newClosure c).1.Local t ∧ (h.newClosure c).2.Inside t := by
  have hk := hl.retain hc
  constructor
  · refine hk.alloc fun x hx => ?_
    rw [List.mem_singleton.mp hx]
    exact hc
  · intro x hx
    rw [List.mem_singleton.mp hx]
    exact hk.inside_size

theorem newArray (hl : h.Local t) {items : List Value} (hv : ∀ v ∈ items, v.Inside t) :
    (h.newArray items).1.Local t ∧ (h.newArray items).2.Inside t := by
  have hitems : ∀ r ∈ items.flatMap Value.handles, t.inside r := by
    intro r hr
    obtain ⟨v, hm, hr⟩ := List.mem_flatMap.mp hr
    exact hv v hm r hr
  have hk := hl.retainAll hitems
  refine ⟨hk.alloc hitems, fun x hx => ?_⟩
  rw [List.mem_singleton.mp hx]
  exact hk.inside_size

end Local

end Heap

end ApplyLang
