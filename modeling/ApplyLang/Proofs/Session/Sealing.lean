import ApplyLang.Proofs.Evaluation.Ending
import ApplyLang.Proofs.Session.Reachability

/-!
# Sealed frames

A sealed frame is what it was made as, for as long as it is there. Two kinds of sealed frames exist:
the global frame, and those that a session makes. Neither a step nor an evaluation writes into them,
be it that they are evaluated in, that a name is theirs, or that a release finds them unreachable.

* `Session.perform_changes` — what a step does to memory: changes, or it makes a sealed frame.
* `Session.Moment` — memory between two steps, and at every step of an evaluation.
* `Session.Seals` — a session that has just made a sealed frame.
* `Session.Reached.sealed_immutable` — all sealed frames are made so, and stay so.
-/

namespace ApplyLang

namespace Session

variable {s s' : Session} {h k : Heap}

/-! ## Steps -/

mutual

theorem make_changes {table : Table Value} {w : Written} {v : Value} {h k : Heap}
    (hm : make table h w = .ok (k, v)) : h.Changes k := by
  cases w with
  | bool | number | text =>
    cases hm
    exact .refl h
  | stored name =>
    obtain ⟨w, -, hr⟩ := exists_of_bind_eq_ok hm
    cases hr
    exact (Heap.copy_shrinks h v).changes
  | list items =>
    obtain ⟨⟨k₁, made⟩, hmade, hr⟩ := exists_of_bind_eq_ok hm
    cases hr
    exact (makeAll_changes hmade).trans <|
      (Heap.newArray_changes k₁ made).trans (Heap.discardValues_shrinks _ _).changes

theorem makeAll_changes {table : Table Value} {ws : List Written} {vs : List Value} {h k : Heap}
    (hm : makeAll table h ws = .ok (k, vs)) : h.Changes k := by
  cases ws with
  | nil =>
    cases hm
    exact .refl h
  | cons w ws =>
    obtain ⟨⟨k₁, v⟩, hv, hr⟩ := exists_of_bind_eq_ok hm
    obtain ⟨⟨k₂, made⟩, hmade, hr⟩ := exists_of_bind_eq_ok hr
    cases hr
    exact (make_changes hv).trans (makeAll_changes hmade)

end

theorem storeScope_shrinks (s : Session) (h : Heap) (name : String) (r : Ref) :
    h.Shrinks (({ s with heap := h } : Session).storeScope name r).heap :=
  Heap.discard_shrinks _ _

theorem keep_shrinks (s : Session) (h : Heap) (name : Option String) (v : Value) :
    h.Shrinks (({ s with heap := h } : Session).keep name v).heap := by
  cases name with
  | none => exact Heap.discardValues_shrinks _ _
  | some name => exact Heap.discardValues_shrinks _ _

theorem conclude_changes (s : Session) {ended : Ended} (into : Option String)
    (hk : h.Changes ended.heap) : h.Changes (s.conclude ended into).1.heap := by
  obtain ⟨heap, out, result⟩ := ended
  cases result with
  | error f => exact hk
  | ok v => exact hk.trans (keep_shrinks { s with out := out } heap into v).changes

theorem write_changes {w : Written} {how : Heap → Value → Except BindError Heap} {answer : Answer}
    (hhow : ∀ h k v, how h v = .ok k → h.Changes k) (hw : s.write w how = .ok (s', answer)) :
    s.heap.Changes s'.heap := by
  obtain ⟨⟨k, v⟩, hmade, hr⟩ := exists_of_bind_eq_ok hw
  have hk := make_changes hmade
  dsimp only at hr
  split at hr
  · rename_i k' hwritten
    cases hr
    exact hk.trans ((hhow k k' v hwritten).trans (Heap.discardValues_shrinks _ _).changes)
  · cases hr
    exact hk.trans (Heap.discardValues_shrinks _ _).changes

theorem ask_changes {w : Written} {question : Heap → Value → Answer} {answer : Answer}
    (ha : s.ask w question = .ok (s', answer)) : s.heap.Changes s'.heap := by
  obtain ⟨⟨k, v⟩, hmade, hr⟩ := exists_of_bind_eq_ok ha
  cases hr
  exact (make_changes hmade).trans (Heap.discardValues_shrinks _ _).changes

theorem retain_storeScope_changes (s : Session) (name : String) (r : Ref) :
    s.heap.Changes (({ s with heap := s.heap.retain r } : Session).storeScope name r).heap :=
  (Heap.retain_shrinks s.heap r).changes.trans (storeScope_shrinks s _ name r).changes

/-- A step that makes a sealed frame makes its values and nothing else, and stores the frame. -/
theorem exists_of_makeSealed {fuel : ℕ} {bindings : List (String × Written)} {into : String}
    {answer : Answer} (hp : s.perform fuel (.makeSealed bindings into) = .ok (s', answer)) :
    ∃ h made, makeAll s.values s.heap (bindings.map Prod.snd) = .ok (h, made) ∧
      s'.scopes.get into = .ok h.cells.size ∧
      (h.newSealed ((bindings.map Prod.fst).zip made)).1.Shrinks s'.heap := by
  obtain ⟨⟨k, made⟩, hmade, hr⟩ := exists_of_bind_eq_ok hp
  cases hr
  refine ⟨k, made, hmade, ?_, storeScope_shrinks s (k.newSealed _).1 into _⟩
  simp [storeScope, Table.get, Table.get?, Table.insert]

/-- What a step does to memory: changes, or it makes a sealed frame. -/
theorem perform_changes {fuel : ℕ} {step : Step} {answer : Answer}
    (hp : s.perform fuel step = .ok (s', answer)) :
    s.heap.Changes s'.heap ∨ ∃ bindings into, step = .makeSealed bindings into := by
  cases step with
  | makeSealed bindings into => exact .inr ⟨bindings, into, rfl⟩
  | global into =>
    cases hp
    exact .inl (retain_storeScope_changes s into _)
  | child of into =>
    obtain ⟨r, hr, hrest⟩ := exists_of_bind_eq_ok hp
    cases hrest
    exact .inl ((Heap.child_changes s.heap r).trans (storeScope_shrinks s _ into _).changes)
  | share of into =>
    obtain ⟨r, hr, hrest⟩ := exists_of_bind_eq_ok hp
    cases hrest
    exact .inl (retain_storeScope_changes s into r)
  | parent of into =>
    obtain ⟨r, hr, hrest⟩ := exists_of_bind_eq_ok hp
    split at hrest
    · cases hrest
      exact .inl (retain_storeScope_changes s _ _)
    · cases hrest
      exact .inl (.refl _)
    · cases hrest
      exact .inl (.refl _)
  | define scope name value =>
    obtain ⟨r, hr, hrest⟩ := exists_of_bind_eq_ok hp
    exact .inl (write_changes (fun _ _ _ => Heap.define_changes) hrest)
  | assign scope name value =>
    obtain ⟨r, hr, hrest⟩ := exists_of_bind_eq_ok hp
    exact .inl (write_changes (fun _ _ _ => Heap.assign_changes) hrest)
  | find scope name into =>
    obtain ⟨r, hr, hrest⟩ := exists_of_bind_eq_ok hp
    dsimp only at hrest
    split at hrest
    · cases hrest
      exact .inl ((Heap.copy_shrinks _ _).changes.trans (keep_shrinks s _ into _).changes)
    · cases hrest
      exact .inl (.refl _)
  | owns scope name | isSealed scope | describeScope scope | holders scope | alive weak
  | weaken scope into =>
    obtain ⟨r, hr, hrest⟩ := exists_of_bind_eq_ok hp
    cases hrest
    exact .inl (.refl _)
  | describe value | inspect value =>
    simp only [Session.perform] at hp
    exact .inl (ask_changes hp)
  | strengthen weak into =>
    obtain ⟨r, hr, hrest⟩ := exists_of_bind_eq_ok hp
    split at hrest
    · cases hrest
      exact .inl (retain_storeScope_changes s into r)
    · cases hrest
      exact .inl (.refl _)
  | release scope =>
    obtain ⟨r, hr, hrest⟩ := exists_of_bind_eq_ok hp
    cases hrest
    exact .inl (Heap.release_changes _ _)
  | drop scope =>
    obtain ⟨r, hr, hrest⟩ := exists_of_bind_eq_ok hp
    cases hrest
    exact .inl (Heap.discard_shrinks _ _).changes
  | forget name =>
    obtain ⟨v, hv, hrest⟩ := exists_of_bind_eq_ok hp
    cases hrest
    exact .inl (Heap.discardValues_shrinks _ _).changes
  | evaluate scope source into =>
    obtain ⟨r, hr, hrest⟩ := exists_of_bind_eq_ok hp
    split at hrest
    · cases hrest
      exact .inl (.refl _)
    · split at hrest
      · rename_i ended hended
        obtain rfl := congrArg Prod.fst (Except.ok.inj hrest)
        exact .inl (conclude_changes s into (Machine.finish?_changes hended))
      · cases hrest
  | apply function arguments call into =>
    obtain ⟨⟨k, f⟩, hf, hrest⟩ := exists_of_bind_eq_ok hp
    obtain ⟨⟨k', made⟩, hmade, hrest⟩ := exists_of_bind_eq_ok hrest
    dsimp only at hrest
    split at hrest
    · rename_i ended hended
      obtain rfl := congrArg Prod.fst (Except.ok.inj hrest)
      exact .inl (conclude_changes s into ((make_changes hf).trans ((makeAll_changes hmade).trans
        ((Machine.ofCall_changes ..).trans (Machine.finish?_changes hended)))))
    · cases hrest
  | equal a b =>
    obtain ⟨⟨k, x⟩, hx, hrest⟩ := exists_of_bind_eq_ok hp
    obtain ⟨⟨k', y⟩, hy, hrest⟩ := exists_of_bind_eq_ok hrest
    cases hrest
    exact .inl ((make_changes hx).trans
      ((make_changes hy).trans (Heap.discardValues_shrinks _ _).changes))

theorem run?_changes {fuel : ℕ} {out : Sink} {source : String} {ended : Ended}
    (hr : Program.run? fuel h out source = some ended) : h.Changes ended.heap := by
  rcases Program.run?_eq_some_iff.mp hr with ⟨e, -, rfl⟩ | ⟨node, -, hf⟩
  · exact .refl h
  · exact (Heap.child_changes h Heap.global).trans (Machine.finish?_changes hf)

/-! ## Moments -/

/-- Memory of a session between two steps, or while it evaluates something. -/
inductive Moment (s : Session) : Heap → Prop
  | between : Moment s s.heap
  | during {m : Machine} (hm : s.Evaluating m) : Moment s m.heap

theorem Starts.changes {m : Machine} (hm : s.Starts m) : s.heap.Changes m.heap := by
  cases hm with
  | evaluate => exact .refl _
  | apply hf ha call =>
    exact (make_changes hf).trans ((makeAll_changes ha).trans (Machine.ofCall_changes ..))
  | run hm =>
    unfold Program.start at hm
    split at hm
    · cases hm
    · cases hm
      exact Heap.child_changes s.heap Heap.global

theorem Moment.changes (hh : s.Moment h) : s.heap.Changes h := by
  cases hh with
  | between => exact .refl _
  | during hm =>
    induction hm with
    | start hm => exact hm.changes
    | step _ ih => exact ih.trans (Machine.step_changes _)

/-! ## Sealed frames -/

/-- A session in which a sealed frame has just been made: the global frame when it begins, and later
    the frame that a step makes from values and stores. -/
inductive Seals : Session → Ref → List (String × Value) → Prop
  | global (out : Sink) : Seals (start out) Heap.global Heap.globalBindings
  | made {s s' : Session} {fuel : ℕ} {bindings : List (String × Written)} {into : String}
      {answer : Answer} {h : Heap} {made : List Value} {r : Ref} (hs : s.Reached)
      (hm : makeAll s.values s.heap (bindings.map Prod.snd) = .ok (h, made))
      (hp : s.perform fuel (.makeSealed bindings into) = .ok (s', answer))
      (hr : s'.scopes.get into = .ok r) : Seals s' r ((bindings.map Prod.fst).zip made)

/-- The frame that has been made. -/
theorem Seals.object? {r : Ref} {bindings : List (String × Value)} (hs : s.Seals r bindings) :
    s.heap.object? r = some (.frame ⟨bindings, none, true⟩) := by
  cases hs with
  | global out => rfl
  | @made s₀ _ _ bindings into _ h made _ hs hm hp hr =>
    obtain ⟨h', made', hm', hr', hk⟩ := exists_of_makeSealed hp
    cases hm.symm.trans hm'
    cases hr.symm.trans hr'
    obtain ⟨f, hf⟩ := (hs.sound.perform hp).sound.frame_of_get hr
    have hnew := hk.object _ _ hf
    rw [Heap.newSealed, Heap.object?_alloc, if_pos rfl] at hnew
    rw [hf, hnew]

/-- What a session becomes leaves a sealed frame as it is, or frees it. -/
theorem Becomes.isOrWas {r : Ref} {f : Frame} (hb : s.Becomes s') (hr : s.heap.IsOrWas r f)
    (hf : f.isSealed = true) : s'.heap.IsOrWas r f := by
  induction hb with
  | refl => exact hr
  | perform _ hp ih =>
    rcases perform_changes hp with hk | ⟨bindings, into, rfl⟩
    · exact ih.changes hf hk
    · obtain ⟨h, made, hm, -, hk⟩ := exists_of_makeSealed hp
      exact ((ih.changes hf (makeAll_changes hm)).newSealed _).changes hf hk.changes
  | run _ hrun into ih => exact ih.changes hf (conclude_changes _ into (run?_changes hrun))

/-- A sealed frame has been made by the session, or is the global frame. -/
theorem Reached.exists_seals (hs : s.Reached) {r : Ref} {f : Frame}
    (hf : s.heap.object? r = some (.frame f)) (hsealed : f.isSealed = true) :
    ∃ s₀ : Session, s₀.Seals r f.bindings ∧ s₀.Becomes s := by
  obtain ⟨out, hb⟩ := hs
  induction hb with
  | refl =>
    rw [start, Heap.initial, Heap.newSealed, Heap.object?_alloc] at hf
    split_ifs at hf with hr
    · cases hf
      subst hr
      exact ⟨_, .global out, .refl⟩
    · cases hf
  | @perform fuel step answer s' s'' hs hp ih =>
    rcases perform_changes hp with hk | ⟨bindings, into, rfl⟩
    · obtain ⟨s₀, hseals, hbecomes⟩ := ih (hk.of_sealed hf hsealed)
      exact ⟨s₀, hseals, .perform hbecomes hp⟩
    · obtain ⟨h, made, hm, hr, hk⟩ := exists_of_makeSealed hp
      have hnew := hk.object _ _ hf
      rw [Heap.newSealed, Heap.object?_alloc] at hnew
      split_ifs at hnew with heq
      · cases hnew
        subst heq
        exact ⟨s'', .made ⟨out, hs⟩ hm hp hr, .refl⟩
      · obtain ⟨s₀, hseals, hbecomes⟩ := ih ((makeAll_changes hm).of_sealed hnew hsealed)
        exact ⟨s₀, hseals, .perform hbecomes hp⟩
  | @run _ _ _ s' _ hrun into ih =>
    have hk := conclude_changes s' into (run?_changes hrun)
    obtain ⟨s₀, hseals, hbecomes⟩ := ih (hk.of_sealed hf hsealed)
    exact ⟨s₀, hseals, .run hbecomes hrun into⟩

/-- At every moment of every session, a sealed frame that has been made and is still there has
    exactly the bindings that it was made with; and there are no other sealed frames. -/
theorem Reached.sealed_immutable (hs : s.Reached) (hh : s.Moment h) :
    (∀ (s₀ : Session) r bindings, s₀.Seals r bindings → s₀.Becomes s → h.alive r = true →
      h.object? r = some (.frame ⟨bindings, none, true⟩)) ∧
      ∀ r f, h.object? r = some (.frame f) → f.isSealed = true →
        ∃ s₀ : Session, s₀.Seals r f.bindings ∧ s₀.Becomes s := by
  refine ⟨fun s₀ r bindings hseals hb ha => ?_, fun r f hf hsealed => ?_⟩
  · have hmade := Heap.IsOrWas.of_object? hseals.object?
    exact ((hb.isOrWas hmade rfl).changes rfl hh.changes).object? ha
  · exact hs.exists_seals (hh.changes.of_sealed hf hsealed) hsealed

/-- A sealed frame that binds a function. It is evaluated in, and a name of it is set from inside
    another frame. -/
theorem sealed_immutable_of_function :
    let made : List (String × Value) := [("f", .closure 1), ("x", .text "kept")]
    ∃ s₀ s : Session, s₀.Seals 2 made ∧ s₀.Becomes s ∧ s.Reached ∧ s.heap.alive 2 = true ∧
      s.heap.object? 2 = some (.frame ⟨made, none, true⟩) := by
  intro made
  let g : Cell := ⟨3, .frame ⟨Heap.globalBindings, none, true⟩⟩
  let f : Closure := ⟨[], .word "f" ⟨5, 6⟩, 0⟩
  -- before the frame is made, right after that, and with a frame inside it
  let s₁ : Session := ⟨⟨#[some g, some ⟨1, .closure f⟩]⟩, .unlimited, [("g", 0)], [],
    [("f", .closure 1)]⟩
  let s₂ : Session := ⟨⟨#[some g, some ⟨2, .closure f⟩, some ⟨1, .frame ⟨made, none, true⟩⟩]⟩,
    .unlimited, [("k", 2), ("g", 0)], [], [("f", .closure 1)]⟩
  let s₃ : Session := ⟨⟨#[some g, some ⟨2, .closure f⟩, some ⟨2, .frame ⟨made, none, true⟩⟩,
    some ⟨1, .frame ⟨[], some 2, false⟩⟩]⟩, .unlimited, [("d", 3), ("k", 2), ("g", 0)], [],
    [("f", .closure 1)]⟩
  obtain ⟨_, hbefore⟩ : ∃ answers, performAll 100 (.start .unlimited)
      [.global "g", .evaluate "g" "func(f)" (some "f")] = .ok (s₁, answers) := ⟨_, rfl⟩
  have hm : makeAll s₁.values s₁.heap [.stored "f", .text "kept"] =
    .ok (_, [.closure 1, .text "kept"]) := rfl
  have hp : s₁.perform 0 (.makeSealed [("f", .stored "f"), ("x", .text "kept")] "k") =
    .ok (s₂, .done) := rfl
  have hchild : s₂.perform 0 (.child "k" "d") = .ok (s₃, .done) := rfl
  obtain ⟨_, hdefine⟩ : ∃ answer, s₃.perform 100 (.evaluate "k" "define(x, f)" none) =
    .ok (s₃, answer) := ⟨_, rfl⟩
  obtain ⟨_, hset⟩ : ∃ answer, s₃.perform 100 (.evaluate "d" "set(f, x)" none) =
    .ok (s₃, answer) := ⟨_, rfl⟩
  have hs₁ : s₁.Reached := ⟨_, becomes_performAll hbefore⟩
  have hseals : s₂.Seals 2 made :=
    @Seals.made s₁ s₂ 0 [("f", .stored "f"), ("x", .text "kept")] "k" _ _ _ 2 hs₁ hm hp rfl
  have hb : s₂.Becomes s₃ := .perform (.perform (.perform .refl hchild) hdefine) hset
  have hs₃ : s₃.Reached := ⟨_, ((becomes_performAll hbefore).perform hp).trans hb⟩
  exact ⟨s₂, s₃, hseals, hb, hs₃, rfl,
    (Reached.sealed_immutable hs₃ .between).1 s₂ 2 made hseals hb rfl⟩

end Session

end ApplyLang
