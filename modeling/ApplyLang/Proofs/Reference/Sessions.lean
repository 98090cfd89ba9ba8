import ApplyLang.Proofs.Reference.Agreement
import ApplyLang.Proofs.Session.Soundness

/-!
# Counting is not observable

Nobody can tell whether handles are counted, frames freed and cycles collected. A session that asks
neither for the number of holders nor for a weak handle gets the same answers from memory that only
grows; and a program that is run prints and returns the same.

* `Session.Tracks` — the relation between both sessions that every step keeps.
* `Session.answers_eq_reference` — the result.
-/

namespace ApplyLang

/-- Steps that are not about handles. -/
def Step.plain : Step → Bool
  | holders _ => false
  | weaken _ _ => false
  | alive _ => false
  | strengthen _ _ => false
  | _ => true

/-- Two computations give the same answer and related states, or the same error. -/
inductive Alike {σ α : Type} (R : σ → σ → Prop) :
    Except StepError (σ × α) → Except StepError (σ × α) → Prop
  | ok {n m : σ} (h : R n m) (a : α) : Alike R (.ok (n, a)) (.ok (m, a))
  | error (e : StepError) : Alike R (.error e) (.error e)

theorem Alike.of_eq {σ α : Type} {R : σ → σ → Prop} {n m : σ} {a b : α} (h : R n m) (hab : a = b) :
    Alike R (.ok (n, a)) (.ok (m, b)) :=
  hab ▸ .ok h a

theorem Alike.bind {σ τ α β : Type} {R : σ → σ → Prop} {S : τ → τ → Prop}
    {x y : Except StepError (σ × α)} {f g : σ × α → Except StepError (τ × β)} (hx : Alike R x y)
    (hf : ∀ n m a, R n m → y = .ok (m, a) → Alike S (f (n, a)) (g (m, a))) :
    Alike S (x >>= f) (y >>= g) := by
  cases hx with
  | ok h a => exact hf _ _ a h rfl
  | error e => exact .error e

/-- Both computations go on from something that they have in common. -/
theorem Alike.bind_same {τ α β : Type} {S : τ → τ → Prop} (x : Except StepError α)
    {f g : α → Except StepError (τ × β)} (hf : ∀ a, x = .ok a → Alike S (f a) (g a)) :
    Alike S (x >>= f) (x >>= g) := by
  cases x with
  | ok a => exact hf a rfl
  | error e => exact .error e

namespace Session

/-- The tables and the output are the same, and memory is the other memory with some objects gone. -/
structure Tracks (t s : Session) : Prop where
  heap : t.heap.Shrinks s.heap
  out : t.out = s.out
  scopes : t.scopes = s.scopes
  values : t.values = s.values

variable {t s : Session}

theorem Tracks.change (ht : t.Tracks s) {k h : Heap} (hk : k.Shrinks h) :
    ({ t with heap := k } : Session).Tracks { s with heap := h } :=
  ⟨hk, ht.out, ht.scopes, ht.values⟩

/-- Memory that counts may shrink. -/
theorem Tracks.shrink (ht : t.Tracks s) {h : Heap} (hk : s.heap.Shrinks h) :
    t.Tracks { s with heap := h } :=
  ⟨ht.heap.trans hk, ht.out, ht.scopes, ht.values⟩

theorem Tracks.storeScope (ht : t.Tracks s) (name : String) {r r' : Ref} (hr : r' = r) :
    (Reference.storeScope t name r').Tracks (s.storeScope name r) := by
  subst hr
  refine ⟨ht.heap.trans (Heap.discard_shrinks _ _), ht.out, ?_, ht.values⟩
  exact congrArg (Table.insert · name r') ht.scopes

theorem Tracks.keep (ht : t.Tracks s) (name : Option String) (v : Value) :
    (Reference.keep t name v).Tracks (s.keep name v) := by
  have hk := fun vs => ht.heap.trans (Heap.discardValues_shrinks s.heap vs)
  cases name with
  | some name => exact ⟨hk _, ht.out, ht.scopes, congrArg (Table.insert · name v) ht.values⟩
  | none => exact ⟨hk _, ht.out, ht.scopes, ht.values⟩

theorem shown_eq {k h : Heap} {outer : List Ref} (hk : k.Shrinks h) (hb : h.Balanced outer)
    {v : Value} (hv : v.ValidIn h) : shown k v = shown h v := by
  rw [shown, hk.display_eq hb hv, shown]

theorem Tracks.conclude (ht : t.Tracks s) {n m : Ended} (he : n.Tracks m) {frames : List Ref}
    {values : List Value} (hm : m.heap.Serves frames (resultValues m.result ++ values))
    (into : Option String) :
    Alike Tracks (.ok (Reference.conclude t n into)) (.ok (s.conclude m into)) := by
  obtain ⟨k, out, result⟩ := n
  obtain ⟨h, out, result⟩ := m
  obtain ⟨hk, rfl, rfl⟩ := he
  obtain ⟨heap, _, scopes, weaks, values⟩ := t
  obtain ⟨-, rfl, rfl, rfl⟩ := ht
  cases result with
  | error f => exact .ok ⟨hk, rfl, rfl, rfl⟩ _
  | ok v =>
    have hv : v.ValidIn h := hm.value v List.mem_cons_self
    have hnew : Tracks ⟨k, out, s.scopes, weaks, s.values⟩ ⟨h, out, s.scopes, s.weaks, s.values⟩ :=
      ⟨hk, rfl, rfl, rfl⟩
    refine .of_eq (hnew.keep into v) ?_
    rw [shown_eq hk hm.balanced hv]

/-! ## Written values -/

mutual

theorem make_alike {table : Table Value} {frames : List Ref} {values : List Value} {h k : Heap}
    (hs : h.Serves frames values) (ht : ∀ v ∈ table.map Prod.snd, v ∈ values) (hk : k.Shrinks h) :
    ∀ w : Written, Alike Heap.Shrinks (Reference.make table k w) (make table h w)
  | .bool x | .number x | .text x => .ok hk _
  | .stored name => by
    unfold Reference.make make
    exact .bind_same _ fun v _ => .ok (hk.trans (Heap.copy_shrinks h v)) v
  | .list items => by
    unfold Reference.make make
    refine (makeAll_alike hs ht hk items).bind fun k' h' made hk' _ => ?_
    obtain ⟨hheap, hv⟩ := hk'.newArray made
    exact .of_eq (hheap.trans (Heap.discardValues_shrinks _ made)) hv

theorem makeAll_alike {table : Table Value} {frames : List Ref} {values : List Value} {h k : Heap}
    (hs : h.Serves frames values) (ht : ∀ v ∈ table.map Prod.snd, v ∈ values) (hk : k.Shrinks h) :
    ∀ ws : List Written, Alike Heap.Shrinks (Reference.makeAll table k ws) (makeAll table h ws)
  | [] => .ok hk _
  | w :: ws => by
    unfold Reference.makeAll makeAll
    refine (make_alike hs ht hk w).bind fun k' h' v hk' hmade => ?_
    have hs' := (make_makes hs ht hmade).serves
    refine (makeAll_alike hs' (fun w hw => List.mem_cons_of_mem _ (ht w hw)) hk' ws).bind ?_
    exact fun k'' h'' vs hk'' _ => .ok hk'' (v :: vs)

end

/-! ## Steps -/

theorem Tracks.make (ht : t.Tracks s) (hs : s.Sound) (w : Written) :
    Alike Heap.Shrinks (Reference.make t.values t.heap w) (Session.make s.values s.heap w) := by
  rw [ht.values]
  exact make_alike hs.serves (fun _ => id) ht.heap w

theorem Tracks.makeAll (ht : t.Tracks s) (hs : s.Sound) (ws : List Written) :
    Alike Heap.Shrinks (Reference.makeAll t.values t.heap ws)
      (Session.makeAll s.values s.heap ws) := by
  rw [ht.values]
  exact makeAll_alike hs.serves (fun _ => id) ht.heap ws

theorem Tracks.write (ht : t.Tracks s) (hs : s.Sound) (w : Written)
    {how how' : Heap → Value → Except BindError Heap}
    (hhow : ∀ k h v, k.Shrinks h → h.Serves s.frames (v :: s.kept) →
      (∃ e, how' k v = .error e ∧ how h v = .error e) ∨
        ∃ k' h', how' k v = .ok k' ∧ how h v = .ok h' ∧ k'.Shrinks h') :
    Alike Tracks (Reference.writeWritten t w how') (s.write w how) := by
  refine (ht.make hs w).bind fun k h v hk hmade => ?_
  dsimp only
  rcases hhow k h v hk (hs.make hmade).serves with ⟨e, hn, hm⟩ | ⟨k', h', hn, hm, hk'⟩
  · rw [hn, hm]
    exact .ok (ht.change (hk.trans (Heap.discardValues_shrinks h [v]))) _
  · rw [hn, hm]
    exact .ok (ht.change (hk'.trans (Heap.discardValues_shrinks h' [v]))) _

theorem Tracks.ask (ht : t.Tracks s) (hs : s.Sound) (w : Written) {question : Heap → Value → Answer}
    (hq : ∀ k h v outer, k.Shrinks h → h.Balanced outer → v.ValidIn h →
      question k v = question h v) :
    Alike Tracks (Reference.ask t w question) (s.ask w question) := by
  refine (ht.make hs w).bind fun k h v hk hmade => ?_
  have hserves := (hs.make hmade).serves
  refine .of_eq (ht.change (hk.trans (Heap.discardValues_shrinks h [v]))) ?_
  exact hq k h v _ hk hserves.balanced (hserves.value v List.mem_cons_self)

/-- The evaluation ends in both sessions or in neither. -/
theorem Tracks.evaluate (ht : t.Tracks s) {n m : Machine} (hn : ApplyLang.Tracks n m)
    (hm : m.Sound s.frames s.kept) (fuel : ℕ) (into : Option String) :
    Alike Tracks
      (match Reference.finish? fuel n with
        | some ended => .ok (Reference.conclude t ended into)
        | none => .error .unfinished)
      (match m.finish? fuel with
        | some ended => .ok (s.conclude ended into)
        | none => .error .unfinished) := by
  have hrel := hn.finish? hm fuel
  generalize Reference.finish? fuel n = x at hrel ⊢
  generalize hfinish : m.finish? fuel = y at hrel ⊢
  cases hrel with
  | none => exact .error _
  | some he => exact ht.conclude he (hm.finish? hfinish) into

/-- Applying a function to values that both sessions hold. -/
theorem Tracks.apply {k h : Heap} {f : Value} {made : List Value} (ht : t.Tracks s)
    (hk : k.Shrinks h) (hserves : h.Serves s.frames ((f :: made) ++ s.kept)) (call : Call)
    (fuel : ℕ) (into : Option String) :
    Alike Tracks
      (match Reference.finish? fuel (Reference.ofCall k s.out call f made) with
        | some ended => .ok (Reference.conclude t ended into)
        | none => .error .unfinished)
      (match (Machine.ofCall h s.out call f made).finish? fuel with
        | some ended => .ok (s.conclude ended into)
        | none => .error .unfinished) := by
  have hholds : Machine.Holds s.frames s.kept (f :: made) ⟨h, s.out, .value .nothing, []⟩ :=
    ⟨hserves, trivial⟩
  exact ht.evaluate (hholds.apply_tracks hk call call.span)
    (Machine.ofCall_sound hserves s.out call) fuel into

/-- Every step keeps the two sessions together, and gets one answer. -/
theorem Tracks.perform (ht : t.Tracks s) (hs : s.Sound) (fuel : ℕ) {step : Step}
    (hplain : step.plain = true) :
    Alike Tracks (Reference.perform fuel t step) (s.perform fuel step) := by
  obtain ⟨heap, out, scopes, weaks, values⟩ := t
  obtain ⟨hk, rfl, rfl, rfl⟩ := ht
  have ht : Tracks ⟨heap, s.out, s.scopes, weaks, s.values⟩ s := ⟨hk, rfl, rfl, rfl⟩
  have hb := hs.serves.balanced
  have hretain : ∀ r, Tracks ⟨heap, s.out, s.scopes, weaks, s.values⟩
      { s with heap := s.heap.retain r } := fun r => ht.shrink (Heap.retain_shrinks _ r)
  cases step with
  | holders | weaken | alive | strengthen => cases hplain
  | global into => exact .ok ((hretain Heap.global).storeScope into rfl) _
  | makeSealed bindings into =>
    refine (ht.makeAll hs _).bind fun k h made hk _ => ?_
    have hnew := hk.alloc (.frame ⟨(bindings.map Prod.fst).zip made, none, true⟩)
    exact .ok ((ht.change hnew).storeScope into hk.size_eq.symm) _
  | child of into =>
    refine .bind_same _ fun r _ => ?_
    obtain ⟨hheap, href⟩ := hk.child r
    exact .ok ((ht.change hheap).storeScope into href) _
  | share of into => exact .bind_same _ fun r _ => .ok ((hretain r).storeScope into rfl) _
  | parent of into =>
    refine .bind_same _ fun r hr => ?_
    obtain ⟨f, hf⟩ := hs.frame_of_get hr
    rw [hk.parent?_eq hf]
    cases s.heap.parent? r with
    | none => exact .ok ht _
    | some p =>
      cases into with
      | none => exact .ok ht _
      | some name => exact .ok ((hretain p).storeScope name rfl) _
  | define scope name value =>
    refine .bind_same _ fun r hr => ht.write hs value fun _ _ v hk hserves => ?_
    obtain ⟨f, hf⟩ := hserves.frame r (mem_frames_of_get hr)
    exact hk.define hf name v
  | assign scope name value =>
    refine .bind_same _ fun r hr => ht.write hs value fun _ _ v hk hserves => ?_
    obtain ⟨f, hf⟩ := hserves.frame r (mem_frames_of_get hr)
    exact hk.assign hserves.balanced hf name v
  | find scope name into =>
    refine .bind_same _ fun r hr => ?_
    obtain ⟨f, hf⟩ := hs.frame_of_get hr
    rw [hk.find?_eq hb hf]
    cases hfound : s.heap.find? r name with
    | none => exact .ok ht _
    | some v =>
      have hv := hs.serves.valid_of_find? hfound
      refine .of_eq ((ht.shrink (Heap.copy_shrinks _ v)).keep into v) ?_
      rw [shown_eq hk hb hv]
  | owns scope name =>
    refine .bind_same _ fun r hr => ?_
    obtain ⟨f, hf⟩ := hs.frame_of_get hr
    exact .of_eq ht (congrArg Answer.owns (hk.owns_eq hf name))
  | isSealed scope =>
    refine .bind_same _ fun r hr => ?_
    obtain ⟨f, hf⟩ := hs.frame_of_get hr
    exact .of_eq ht (congrArg Answer.isSealed (hk.isSealed_eq hf))
  | describeScope scope =>
    refine .bind_same _ fun r hr => ?_
    obtain ⟨f, hf⟩ := hs.frame_of_get hr
    exact .of_eq ht (congrArg Answer.description (hk.describedScope_eq hb hf))
  | describe value =>
    simp only [Reference.perform, Session.perform]
    exact ht.ask hs value fun _ _ _ _ hk hb hv =>
      congrArg Answer.description (hk.described_eq hb hv)
  | release scope =>
    refine .bind_same _ fun r hr => .ok ⟨?_, rfl, rfl, rfl⟩ _
    exact hk.trans (Heap.Balanced.release_shrinks (hs.serves_erase hr).balanced)
  | drop scope =>
    refine .bind_same _ fun r _ => .ok ⟨?_, rfl, rfl, rfl⟩ _
    exact hk.trans (Heap.discard_shrinks _ [r])
  | forget name =>
    refine .bind_same _ fun v _ => .ok ⟨?_, rfl, rfl, rfl⟩ _
    exact hk.trans (Heap.discardValues_shrinks _ [v])
  | evaluate scope source into =>
    refine .bind_same _ fun r hr => ?_
    cases parse source with
    | error e => exact .ok ht _
    | ok node =>
      have hm := Machine.ofNode_sound hs.serves (mem_frames_of_get hr) s.out node
      have hn : ApplyLang.Tracks (.ofNode heap s.out node r) (.ofNode s.heap s.out node r) :=
        ⟨hk, rfl, rfl, rfl⟩
      exact ht.evaluate hn hm fuel into
  | apply function arguments call into =>
    refine (ht.make hs function).bind fun k h f hk hf => ?_
    have hserves := (hs.make hf).serves
    have hsub : ∀ v ∈ s.kept, v ∈ f :: s.kept := fun _ => List.mem_cons_of_mem _
    refine (makeAll_alike hserves hsub hk arguments).bind fun k' h' made hk' hmade => ?_
    have hmakes := makeAll_makes hserves hsub hmade
    exact ht.apply hk' (hmakes.serves.perm (.refl _) List.perm_middle.symm) call fuel into
  | equal a b =>
    refine (ht.make hs a).bind fun k h x hk hx => ?_
    have hsub : ∀ v ∈ s.kept, v ∈ x :: s.kept := fun _ => List.mem_cons_of_mem _
    refine (make_alike (hs.make hx).serves hsub hk b).bind fun k' h' y hk' _ => ?_
    exact .ok (ht.change (hk'.trans (Heap.discardValues_shrinks h' [x, y]))) _
  | inspect value =>
    simp only [Reference.perform, Session.perform]
    refine ht.ask hs value fun _ _ _ _ hk hb hv => ?_
    rw [shown_eq hk hb hv]

theorem Tracks.performAll (ht : t.Tracks s) (hs : s.Sound) (fuel : ℕ) {steps : List Step}
    (hplain : ∀ step ∈ steps, step.plain = true) :
    Alike Tracks (Reference.performAll fuel t steps) (s.performAll fuel steps) := by
  induction steps generalizing t s with
  | nil => exact .ok ht []
  | cons step rest ih =>
    have hstep := ht.perform hs fuel (hplain step List.mem_cons_self)
    refine hstep.bind fun t' s' answer ht' hperform => ?_
    have hrest := ih ht' (hs.perform hperform).sound fun step hm =>
      hplain step (List.mem_cons_of_mem _ hm)
    exact hrest.bind fun t'' s'' answers ht'' _ => .ok ht'' (answer :: answers)

/-! ## Programs -/

/-- Running a program ends on both memories or on neither. -/
theorem run?_tracks {k h : Heap} {frames : List Ref} {values : List Value}
    (hs : h.Serves frames values) (hglobal : Heap.global ∈ frames) (hk : k.Shrinks h) (fuel : ℕ)
    (out : Sink) (source : String) :
    Option.Rel Ended.Tracks (Reference.run? fuel k out source)
      (Program.run? fuel h out source) := by
  unfold Reference.run? Program.run? Program.start
  cases parse source with
  | error e => exact .some ⟨hk, rfl, rfl⟩
  | ok node =>
    have hm := Machine.ofProgram_sound hs hglobal out node
    obtain ⟨hheap, href⟩ := hk.child Heap.global
    have hn : ApplyLang.Tracks (Reference.ofProgram k out node) (.ofProgram h out node) :=
      ⟨hheap, rfl, congrArg (Control.eval node) href, congrArg (fun r => [Pending.leave r []]) href⟩
    exact hn.finish? hm fuel

end Session

/-- What is seen of an evaluation that has ended: what the sink has taken and has room for, and the
    fault, or the value with its type and its printed form. -/
def Ended.seen (ended : Ended) : Sink × Except Fault (Value × Shown) :=
  (ended.out, ended.result.map fun v => (v, Session.shown ended.heap v))

theorem Ended.Tracks.seen_eq {n m : Ended} (ht : n.Tracks m) {frames : List Ref}
    {values : List Value} (hm : m.heap.Serves frames (resultValues m.result ++ values)) :
    n.seen = m.seen := by
  obtain ⟨k, out, result⟩ := n
  obtain ⟨h, out, result⟩ := m
  obtain ⟨hk, rfl, rfl⟩ := ht
  cases result with
  | error f => rfl
  | ok v =>
    have hv : v.ValidIn h := hm.value v List.mem_cons_self
    simp only [Ended.seen, Except.map, Session.shown_eq hk hm.balanced hv]

namespace Session

/-- A session that asks nothing about handles gets the answers of the reference, and stores the same
    frames and values. So does whoever runs a program afterwards: it ends if and only if it ends
    there, with the same result. -/
theorem answers_eq_reference (out : Sink) (fuel : ℕ) (steps : List Step)
    (hplain : ∀ step ∈ steps, step.plain = true) :
    ((start out).performAll fuel steps).map Prod.snd =
        (Reference.performAll fuel (start out) steps).map Prod.snd ∧
      ∀ s t answers, (start out).performAll fuel steps = .ok (s, answers) →
        Reference.performAll fuel (start out) steps = .ok (t, answers) →
        s.out = t.out ∧ s.scopes = t.scopes ∧ s.values = t.values ∧
        ∀ (fuel : ℕ) (out : Sink) (source : String),
          (Program.run? fuel s.heap out source).map Ended.seen =
            (Reference.run? fuel t.heap out source).map Ended.seen := by
  have halike := Tracks.performAll ⟨.refl _, rfl, rfl, rfl⟩ (start_sound out) fuel hplain
  have hsound : ∀ s answers, (start out).performAll fuel steps = .ok (s, answers) → s.Sound :=
    fun s answers hp => Reached.sound ⟨out, becomes_performAll hp⟩
  generalize (start out).performAll fuel steps = x at halike hsound ⊢
  generalize Reference.performAll fuel (start out) steps = y at halike ⊢
  cases halike with
  | error e => exact ⟨rfl, fun s t answers hs => by cases hs⟩
  | @ok t s ht answers =>
    refine ⟨rfl, fun s' t' answers' hs' ht' => ?_⟩
    cases hs'
    cases ht'
    refine ⟨ht.out.symm, ht.scopes.symm, ht.values.symm, fun fuel out source => ?_⟩
    have hs := hsound s answers rfl
    have hrun := run?_tracks hs.serves List.mem_cons_self ht.heap fuel out source
    generalize Reference.run? fuel t.heap out source = n at hrun ⊢
    generalize hm : Program.run? fuel s.heap out source = m at hrun ⊢
    cases hrun with
    | none => rfl
    | some hended => exact congrArg some (hended.seen_eq (hs.makes_run? hm).serves).symm

deriving instance DecidableEq for Answer

/-- A function that is bound where it was made, in a frame that is released, and is called then. -/
theorem answers_of_cycle :
    let steps := [Step.global "g", .child "g" "c",
      .evaluate "c" "define(f, func(x, x))" (some "v"), .release "c",
      .apply (.stored "v") [.text "a"] ⟨"f", ⟨0, 0⟩⟩ none]
    let answers := [Answer.done, .done, .ended "" (.ok ⟨"Func", "<func(x)>"⟩), .done,
      .ended "" (.ok ⟨"String", "a"⟩)]
    (∀ step ∈ steps, step.plain = true) ∧
      ((start .unlimited).performAll 100 steps).map Prod.snd = .ok answers ∧
      (Reference.performAll 100 (start .unlimited) steps).map Prod.snd = .ok answers := by
  intro steps answers
  have hplain : ∀ step ∈ steps, step.plain = true := by decide
  have hrun : ((start .unlimited).performAll 100 steps).map Prod.snd = .ok answers := by
    decide +kernel
  exact ⟨hplain, hrun, (answers_eq_reference .unlimited 100 steps hplain).1.symm.trans hrun⟩

end Session

end ApplyLang
