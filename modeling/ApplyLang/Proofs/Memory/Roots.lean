import ApplyLang.Proofs.Memory.Discard

/-!
# Roots

Handles from outside are handles to frames and copies of values. Memory serves them if it is
balanced for exactly these handles and has what each of them stands for.

* `Heap.Serves` — the invariant of everything that works on memory.
* One lemma for each operation on memory: what it serves before, and what it serves afterwards.
* `_evolves` lemmas, which need no invariant.
-/

namespace ApplyLang

/-- What a valid value holds is alive. -/
theorem Value.ValidIn.alive {h : Heap} {v : Value} (hv : v.ValidIn h) {r : Ref}
    (hr : r ∈ v.handles) : h.alive r = true := by
  cases v with
  | closure s =>
    obtain ⟨c, hc⟩ := hv
    rw [List.mem_singleton.mp hr]
    exact Heap.alive_of_object? hc
  | array storage items =>
    rw [List.mem_singleton.mp hr]
    exact Heap.alive_of_object? hv
  | bool | number | text | builtin => cases hr

namespace Heap

/-- Memory serves handles to frames and copies of values. -/
structure Serves (h : Heap) (frames : List Ref) (values : List Value) : Prop where
  balanced : h.Balanced (frames ++ values.flatMap Value.handles)
  frame : ∀ r ∈ frames, ∃ f, h.object? r = some (.frame f)
  value : ∀ v ∈ values, v.ValidIn h

variable {h : Heap} {frames : List Ref} {values : List Value}

namespace Serves

theorem valid (hs : h.Serves frames values) : h.Valid :=
  hs.balanced.valid

/-- What is still held after a change is still what it was. -/
theorem evolve {k : Heap} {frames' : List Ref} {values' : List Value}
    (hs : h.Serves frames values) (hk : h.Evolves k)
    (hb : k.Balanced (frames' ++ values'.flatMap Value.handles))
    (hframe : ∀ r ∈ frames', r ∈ frames ∨ ∃ f, k.object? r = some (.frame f))
    (hvalue : ∀ v ∈ values', v ∈ values ∨ v.ValidIn h) : k.Serves frames' values' := by
  refine ⟨hb, fun r hr => ?_, fun v hv => ?_⟩
  · rcases hframe r hr with hold | hnew
    · obtain ⟨f, hf⟩ := hs.frame r hold
      obtain ⟨g, hg, -⟩ := hk.frame hf (hb.alive_of_mem (List.mem_append_left _ hr))
      exact ⟨g, hg⟩
    · exact hnew
  · have hvalid : v.ValidIn h := (hvalue v hv).elim (hs.value v) id
    refine hvalid.evolve hk fun r hr => hb.alive_of_mem (List.mem_append_right _ ?_)
    exact List.mem_flatMap.mpr ⟨v, hv, hr⟩

/-- The order of handles does not matter. -/
theorem perm {frames' : List Ref} {values' : List Value} (hs : h.Serves frames values)
    (hf : frames'.Perm frames) (hv : values'.Perm values) : h.Serves frames' values' := by
  refine hs.evolve (.refl h) (hs.balanced.congr fun r => ?_) (fun r hr => .inl (hf.mem_iff.mp hr))
    fun v hv' => .inl (hv.mem_iff.mp hv')
  rw [List.count_append, List.count_append, hf.count_eq, (hv.flatMap_right _).count_eq]

/-- A value that holds nothing is served by any memory. -/
theorem plain (hs : h.Serves frames values) {v : Value} (hv : v.handles = [])
    (hvalid : v.ValidIn h) : h.Serves frames (v :: values) := by
  refine ⟨?_, hs.frame, fun w hw => ?_⟩
  · rw [List.flatMap_cons, hv]
    exact hs.balanced
  · rcases List.mem_cons.mp hw with rfl | hw
    · exact hvalid
    · exact hs.value w hw

theorem nothing (hs : h.Serves frames values) : h.Serves frames (.nothing :: values) :=
  hs.plain rfl trivial

theorem alive_of_mem_frames (hs : h.Serves frames values) {r : Ref} (hr : r ∈ frames) :
    h.alive r = true :=
  hs.balanced.alive_of_mem (List.mem_append_left _ hr)

/-- Values in frames are valid. -/
theorem valid_of_bound (hs : h.Serves frames values) {r : Ref} {f : Frame} {name : String}
    {v : Value} (hf : h.object? r = some (.frame f)) (hb : (name, v) ∈ f.bindings) : v.ValidIn h :=
  (hs.balanced.valid r _ hf).2 _ hb

/-- Items of a valid array are valid. -/
theorem valid_of_item (hs : h.Serves frames values) {storage : Ref} {items : List Value}
    {v : Value} (ha : (Value.array storage items).ValidIn h) (hv : v ∈ items) : v.ValidIn h :=
  hs.balanced.valid storage (.array items) ha v hv

end Serves

/-! ## Copies of values -/

theorem object?_copy (h : Heap) (v : Value) (s : Ref) : (h.copy v).object? s = h.object? s :=
  object?_retainAll h v.handles s

theorem copy_shrinks (h : Heap) (v : Value) : h.Shrinks (h.copy v) :=
  retainAll_shrinks h v.handles

theorem discardValues_shrinks (h : Heap) (vs : List Value) : h.Shrinks (h.discardValues vs) :=
  discard_shrinks h _

theorem Serves.retainFrame (hs : h.Serves frames values) {r : Ref} {f : Frame}
    (hr : h.object? r = some (.frame f)) : (h.retain r).Serves (r :: frames) values := by
  refine hs.evolve (retain_shrinks h r).evolves (hs.balanced.retain (alive_of_object? hr)) ?_
    fun _ => .inl
  intro s hs'
  rcases List.mem_cons.mp hs' with rfl | hs'
  · exact .inr ⟨f, (object?_retain h s s).trans hr⟩
  · exact .inl hs'

theorem Serves.copy (hs : h.Serves frames values) {v : Value} (hv : v.ValidIn h) :
    (h.copy v).Serves frames (v :: values) := by
  have hb : (h.copy v).Balanced (v.handles ++ (frames ++ values.flatMap Value.handles)) :=
    hs.balanced.retainAll fun r hr => hv.alive hr
  refine hs.evolve (copy_shrinks h v).evolves (hb.congr fun r => ?_) (fun _ => .inl) ?_
  · simp only [List.flatMap_cons, List.count_append]
    omega
  · intro w hw
    rcases List.mem_cons.mp hw with rfl | hw
    · exact .inr hv
    · exact .inl hw

theorem Serves.copies (hs : h.Serves frames values) {vs : List Value}
    (hv : ∀ v ∈ vs, v.ValidIn h) :
    (h.retainAll (vs.flatMap Value.handles)).Serves frames (vs ++ values) := by
  have halive : ∀ r ∈ vs.flatMap Value.handles, h.alive r = true := by
    intro r hr
    obtain ⟨v, hm, hr⟩ := List.mem_flatMap.mp hr
    exact (hv v hm).alive hr
  have hb := hs.balanced.retainAll halive
  refine hs.evolve (retainAll_shrinks h _).evolves (hb.congr fun r => ?_) (fun _ => .inl) ?_
  · simp only [List.flatMap_append, List.count_append]
    omega
  · intro w hw
    rcases List.mem_append.mp hw with hw | hw
    · exact .inr (hv w hw)
    · exact .inl hw

theorem Serves.discardValues {vs : List Value} (hs : h.Serves frames (vs ++ values)) :
    (h.discardValues vs).Serves frames values := by
  have hb : h.Balanced (vs.flatMap Value.handles ++ (frames ++ values.flatMap Value.handles)) := by
    apply hs.balanced.congr
    intro r
    simp only [List.flatMap_append, List.count_append]
    omega
  exact hs.evolve (discardValues_shrinks h vs).evolves hb.discard (fun _ => .inl)
    fun v hv => .inl (List.mem_append_right _ hv)

theorem Serves.discardValue {v : Value} (hs : h.Serves frames (v :: values)) :
    (h.discardValues [v]).Serves frames values :=
  Serves.discardValues hs

theorem Serves.discardFrames {rs : List Ref} (hs : h.Serves (rs ++ frames) values) :
    (h.discard rs).Serves frames values := by
  have hb : h.Balanced (rs ++ (frames ++ values.flatMap Value.handles)) := by
    rw [← List.append_assoc]
    exact hs.balanced
  exact hs.evolve (discard_shrinks h rs).evolves hb.discard
    (fun r hr => .inl (List.mem_append_right _ hr)) fun _ => .inl

theorem Serves.discardFrame {r : Ref} (hs : h.Serves (r :: frames) values) :
    (h.discard [r]).Serves frames values :=
  Serves.discardFrames hs

/-! ## New objects -/

theorem child_evolves (h : Heap) (r : Ref) : h.Evolves (h.child r).1 :=
  (retain_shrinks h r).evolves.trans (alloc_evolves _ _)

theorem newSealed_evolves (h : Heap) (bindings : List (String × Value)) :
    h.Evolves (h.newSealed bindings).1 :=
  alloc_evolves _ _

theorem newArray_evolves (h : Heap) (items : List Value) : h.Evolves (h.newArray items).1 :=
  (retainAll_shrinks h _).evolves.trans (alloc_evolves _ _)

theorem object?_alloc_new (h : Heap) (o : Object) :
    (h.alloc o).1.object? (h.alloc o).2 = some o :=
  (object?_alloc h o h.cells.size).trans (if_pos rfl)

theorem Serves.child (hs : h.Serves frames values) {r : Ref} {f : Frame}
    (hr : h.object? r = some (.frame f)) :
    (h.child r).1.Serves ((h.child r).2 :: frames) values := by
  have hk := hs.retainFrame hr
  have hr' := (object?_retain h r r).trans hr
  have hvalid : (Object.frame ⟨[], some r, false⟩).ValidIn (h.retain r) (h.retain r).cells.size := by
    refine ⟨fun p hp => ?_, fun b hb => absurd hb (List.not_mem_nil)⟩
    cases hp
    exact ⟨lt_size_of_object? hr', f, hr'⟩
  refine hk.evolve (alloc_evolves _ _) (hk.balanced.alloc hvalid) (fun s hs' => ?_) fun _ => .inl
  rcases List.mem_cons.mp hs' with rfl | hs'
  · exact .inr ⟨_, object?_alloc_new _ _⟩
  · exact .inl (List.mem_cons_of_mem _ hs')

/-- A value that stands for a new object holds the only handle to it. The object takes the handles
    that it holds over. -/
theorem Serves.allocValue {frames' : List Ref} {values' : List Value} {o : Object} {v : Value}
    (hs : h.Serves frames' values') (hframes : frames ⊆ frames') (hvalues : values ⊆ values')
    (hb : h.Balanced (o.handles ++ (frames ++ values.flatMap Value.handles)))
    (ho : o.ValidIn h h.cells.size) (hhandles : v.handles = [(h.alloc o).2])
    (hv : v.ValidIn (h.alloc o).1) : (h.alloc o).1.Serves frames (v :: values) := by
  have hb' := hb.alloc ho
  have he := alloc_evolves h o
  refine ⟨hb'.congr fun r => ?_, fun r hr => ?_, fun w hw => ?_⟩
  · simp only [List.flatMap_cons, hhandles, List.count_append, List.count_cons, List.count_nil]
    omega
  · obtain ⟨f, hf⟩ := hs.frame r (hframes hr)
    obtain ⟨g, hg, -⟩ := he.frame hf (hb'.alive_of_mem (by simp [hr]))
    exact ⟨g, hg⟩
  · rcases List.mem_cons.mp hw with rfl | hw
    · exact hv
    · refine (hs.value w (hvalues hw)).evolve he fun r hr => hb'.alive_of_mem ?_
      exact List.mem_cons_of_mem _ (List.mem_append_right _ (List.mem_flatMap.mpr ⟨w, hw, hr⟩))

theorem Serves.newClosure (hs : h.Serves frames values) {c : Closure} {f : Frame}
    (hr : h.object? c.scope = some (.frame f)) :
    (h.newClosure c).1.Serves frames ((h.newClosure c).2 :: values) := by
  have hk := hs.retainFrame hr
  have hvalid : (Object.closure c).ValidIn (h.retain c.scope) (h.retain c.scope).cells.size :=
    ⟨f, (object?_retain h _ _).trans hr⟩
  exact hk.allocValue (List.subset_cons_self _ _) (List.Subset.refl _) hk.balanced hvalid rfl
    ⟨c, object?_alloc_new _ _⟩

theorem Serves.newArray (hs : h.Serves frames values) {items : List Value}
    (hv : ∀ v ∈ items, v.ValidIn h) :
    (h.newArray items).1.Serves frames ((h.newArray items).2 :: values) := by
  have hk := hs.copies hv
  have hvalid : (Object.array items).ValidIn (h.retainAll (items.flatMap Value.handles))
      (h.retainAll (items.flatMap Value.handles)).cells.size :=
    fun v hvi => hk.value v (List.mem_append_left _ hvi)
  have hb : (h.retainAll (items.flatMap Value.handles)).Balanced
      ((Object.array items).handles ++ (frames ++ values.flatMap Value.handles)) := by
    apply hk.balanced.congr
    intro r
    simp only [Object.handles, List.flatMap_append, List.count_append]
    omega
  exact hk.allocValue (List.Subset.refl _) (List.subset_append_right _ _) hb hvalid rfl
    (object?_alloc_new _ _)

/-- A sealed frame takes its bindings over. -/
theorem Serves.newSealed {bindings : List (String × Value)}
    (hs : h.Serves frames (bindings.map Prod.snd ++ values)) :
    (h.newSealed bindings).1.Serves ((h.newSealed bindings).2 :: frames) values := by
  have hvalid : (Object.frame ⟨bindings, none, true⟩).ValidIn h h.cells.size := by
    refine ⟨fun p hp => (Option.some_ne_none p hp.symm).elim, fun b hb => hs.value _ ?_⟩
    exact List.mem_append_left _ (List.mem_map_of_mem hb)
  have hbefore : h.Balanced ((Object.frame ⟨bindings, none, true⟩).handles ++
      (frames ++ values.flatMap Value.handles)) := by
    apply hs.balanced.congr
    intro r
    simp only [Object.handles, Option.toList_none, List.nil_append, List.flatMap_append,
      List.flatMap_map, List.count_append]
    omega
  refine hs.evolve (newSealed_evolves h bindings) (hbefore.alloc hvalid) (fun s hs' => ?_)
    fun v hv => .inl (List.mem_append_right _ hv)
  rcases List.mem_cons.mp hs' with rfl | hs'
  · exact .inr ⟨_, object?_alloc_new _ _⟩
  · exact .inl hs'

end Heap

/-! ## Bindings -/

namespace Frame

theorem mem_of_get? {f : Frame} {name : String} {v : Value} (hv : f.get? name = some v) :
    (name, v) ∈ f.bindings := by
  obtain ⟨before, after, heq, -⟩ := List.lookup_eq_some_iff.mp hv
  rw [heq]
  simp

theorem mem_insertInto {name : String} {v : Value} {bindings : List (String × Value)}
    {b : String × Value} (hb : b ∈ insertInto name v bindings) :
    b.2 = v ∨ b ∈ bindings := by
  induction bindings with
  | nil =>
    rw [insertInto, List.mem_singleton] at hb
    exact .inl (by rw [hb])
  | cons first rest ih =>
    obtain ⟨key, old⟩ := first
    unfold insertInto at hb
    split_ifs at hb
    · rcases List.mem_cons.mp hb with rfl | hb
      · exact .inl rfl
      · exact .inr (List.mem_cons_of_mem _ hb)
    · rcases List.mem_cons.mp hb with rfl | hb
      · exact .inr (by simp)
      · exact (ih hb).imp_right (List.mem_cons_of_mem _)

theorem like_insert (f : Frame) (name : String) (v : Value) :
    (Object.frame f).Like (.frame (f.insert name v)) :=
  ⟨rfl, rfl⟩

/-- A new binding exchanges the handles of the value it replaces for its own. -/
theorem count_handles_insertInto (name : String) (v : Value) (bindings : List (String × Value))
    (x : Ref) :
    ((bindings.lookup name).toList.flatMap Value.handles).count x +
        ((insertInto name v bindings).flatMap fun b => b.2.handles).count x =
      v.handles.count x + (bindings.flatMap fun b => b.2.handles).count x := by
  induction bindings with
  | nil => simp [insertInto]
  | cons first rest ih =>
    obtain ⟨key, old⟩ := first
    unfold insertInto
    by_cases hk : name = key
    · subst hk
      simp only [List.lookup_cons, beq_self_eq_true, if_true, Option.toList_some,
        List.flatMap_cons, List.flatMap_nil, List.append_nil, List.count_append]
      omega
    · have hb : (name == key) = false := by simp [hk]
      simp only [List.lookup_cons, hb, Bool.false_eq_true, if_false, List.flatMap_cons,
        List.count_append]
      omega

end Frame

namespace Heap

variable {h : Heap} {frames : List Ref} {values : List Value}

theorem bind_of_frame {r : Ref} {f : Frame} (hf : h.object? r = some (.frame f)) (name : String)
    (v : Value) : h.bind r name v =
      ((h.copy v).replace r (.frame (f.insert name v))).discardValues (f.get? name).toList := by
  unfold bind
  rw [frame?_eq_some_iff.mpr hf]

theorem bind_of_none {r : Ref} (hf : h.frame? r = none) (name : String) (v : Value) :
    h.bind r name v = h := by
  unfold bind
  rw [hf]

/-- What is left after a binding: the frame with the new binding, and anything else as it was. -/
theorem object?_of_bind {r x : Ref} {f : Frame} {o : Object} {name : String} {v : Value}
    (hf : h.object? r = some (.frame f)) (ho : (h.bind r name v).object? x = some o) :
    if x = r then o = .frame (f.insert name v) else h.object? x = some o := by
  rw [bind_of_frame hf] at ho
  have hreplaced := (discardValues_shrinks _ _).object x o ho
  have halive : (h.copy v).alive r = true := alive_of_object? ((object?_copy h v r).trans hf)
  rw [object?_replace halive] at hreplaced
  split_ifs at hreplaced ⊢
  · exact (Option.some.inj hreplaced).symm
  · rwa [object?_copy] at hreplaced

theorem bind_evolves (h : Heap) (r : Ref) (name : String) (v : Value) :
    h.Evolves (h.bind r name v) := by
  cases hf : h.frame? r with
  | none => rw [bind_of_none hf]; exact .refl h
  | some f =>
    have ho := frame?_eq_some_iff.mp hf
    rw [bind_of_frame ho]
    have ho' := (object?_copy h v r).trans ho
    exact (copy_shrinks h v).evolves.trans <|
      (replace_evolves ho' (f.like_insert name v)).trans <|
      (discardValues_shrinks _ _).evolves

theorem Serves.bind (hs : h.Serves frames values) {r : Ref} {f : Frame}
    (hf : h.object? r = some (.frame f)) {name : String} {v : Value} (hv : v.ValidIn h) :
    (h.bind r name v).Serves frames values := by
  rw [bind_of_frame hf]
  have hk := hs.copy hv
  have hf' := (object?_copy h v r).trans hf
  have hvalid : (Object.frame (f.insert name v)).ValidIn (h.copy v) r := by
    obtain ⟨hparent, hbind⟩ := hk.balanced.valid r _ hf'
    refine ⟨hparent, fun b hb => ?_⟩
    rcases Frame.mem_insertInto hb with hbv | hb
    · rw [hbv]; exact hk.value v (by simp)
    · exact hbind b hb
  have hb : ((h.copy v).replace r (.frame (f.insert name v))).Balanced
      (frames ++ ((f.get? name).toList ++ values).flatMap Value.handles) := by
    apply hk.balanced.replace hf' (f.like_insert name v) hvalid
    intro x
    have := Frame.count_handles_insertInto name v f.bindings x
    simp only [Object.handles, Frame.insert, Frame.get?, List.flatMap_append,
      List.flatMap_cons, List.count_append] at this ⊢
    omega
  apply Serves.discardValues
  refine hk.evolve (replace_evolves hf' (f.like_insert name v)) hb (fun _ => .inl) fun w hw => ?_
  rcases List.mem_append.mp hw with hw | hw
  · right
    exact (hk.balanced.valid r _ hf').2 (name, w) (Frame.mem_of_get? (Option.mem_toList.mp hw))
  · exact .inl (List.mem_cons_of_mem _ hw)

theorem owns_of_owner? {scope r : Ref} {name : String} (ho : h.owner? scope name = some r) :
    h.owns r name = true := by
  unfold owner? at ho
  exact List.find?_some (p := fun r => h.owns r name) ho

theorem exists_frame_of_owns {r : Ref} {name : String} (ho : h.owns r name = true) :
    ∃ f, h.object? r = some (.frame f) := by
  unfold owns at ho
  cases hf : h.frame? r with
  | none => rw [hf] at ho; cases ho
  | some f => exact ⟨f, frame?_eq_some_iff.mp hf⟩

theorem define_ok {r : Ref} {name : String} {v : Value} {k : Heap}
    (hd : h.define r name v = .ok k) : k = h.bind r name v := by
  unfold define at hd
  split_ifs at hd
  cases hd
  rfl

theorem assign_ok {scope : Ref} {name : String} {v : Value} {k : Heap}
    (ha : h.assign scope name v = .ok k) :
    ∃ r, h.owner? scope name = some r ∧ k = h.bind r name v := by
  unfold assign at ha
  cases ho : h.owner? scope name with
  | none => rw [ho] at ha; cases ha
  | some r =>
    rw [ho] at ha
    simp only at ha
    split_ifs at ha
    cases ha
    exact ⟨r, rfl, rfl⟩

theorem Serves.define (hs : h.Serves frames values) {r : Ref} {f : Frame}
    (hf : h.object? r = some (.frame f)) {name : String} {v : Value} (hv : v.ValidIn h) {k : Heap}
    (hd : h.define r name v = .ok k) : k.Serves frames values := by
  rw [define_ok hd]
  exact hs.bind hf hv

theorem Serves.assign (hs : h.Serves frames values) {scope : Ref} {name : String} {v : Value}
    (hv : v.ValidIn h) {k : Heap} (ha : h.assign scope name v = .ok k) : k.Serves frames values := by
  obtain ⟨r, ho, rfl⟩ := assign_ok ha
  obtain ⟨f, hf⟩ := exists_frame_of_owns (owns_of_owner? ho)
  exact hs.bind hf hv

theorem define_evolves {r : Ref} {name : String} {v : Value} {k : Heap}
    (hd : h.define r name v = .ok k) : h.Evolves k := by
  rw [define_ok hd]
  exact bind_evolves h r name v

theorem assign_evolves {scope : Ref} {name : String} {v : Value} {k : Heap}
    (ha : h.assign scope name v = .ok k) : h.Evolves k := by
  obtain ⟨r, -, rfl⟩ := assign_ok ha
  exact bind_evolves h r name v

/-- What a name means is a valid value. -/
theorem Serves.valid_of_find? (hs : h.Serves frames values) {scope : Ref} {name : String}
    {v : Value} (hv : h.find? scope name = some v) : v.ValidIn h := by
  unfold find? at hv
  obtain ⟨r, -, hb⟩ := Option.bind_eq_some_iff.mp hv
  unfold bound? at hb
  obtain ⟨f, hf, hl⟩ := Option.bind_eq_some_iff.mp hb
  exact hs.valid_of_bound (frame?_eq_some_iff.mp hf) (Frame.mem_of_get? hl)

/-! ## Beginning -/

theorem empty_serves : Heap.empty.Serves [] [] := by
  refine ⟨⟨fun r => ?_, fun r hr => ?_, fun r o ho => ?_⟩, ?_, ?_⟩
  · simp [Heap.empty, holders, cell?, linked]
  · simp [Heap.empty, alive, cell?] at hr
  · simp [Heap.empty, object?, cell?] at ho
  · simp
  · simp

/-- At first there is the handle that keeps the global frame. -/
theorem initial_serves : Heap.initial.Serves [Heap.global] [] := by
  have hplain : ∀ v ∈ globalBindings.map Prod.snd, v.handles = [] ∧ v.ValidIn Heap.empty := by
    simp [globalBindings, Builtin.all, Value.handles, Value.ValidIn]
  have hbindings : Heap.empty.Serves [] (globalBindings.map Prod.snd ++ []) := by
    generalize globalBindings.map Prod.snd = vs at hplain
    induction vs with
    | nil => exact empty_serves
    | cons v vs ih =>
      obtain ⟨hhandles, hvalid⟩ := hplain v List.mem_cons_self
      exact (ih fun w hw => hplain w (List.mem_cons_of_mem _ hw)).plain hhandles hvalid
  exact hbindings.newSealed

end Heap

end ApplyLang
