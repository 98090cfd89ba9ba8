import ApplyLang.Proofs.Memory.Survey

/-!
# Live members

What something outside a survey can reach: the members held from outside, and all that they link to,
link by link.

* `Survey.live_of_heldOutside`, `Survey.live_of_target` — the marks reach all of these.
* `Balanced.of_lost` — a member without a mark is held by links from other members without a mark,
  and by the handle that is being released. So nothing else holds it, now or later.
-/

namespace ApplyLang

namespace Survey

/-! ## Marks -/

/-- Whether a reference is marked; there is nothing to mark beyond the end. -/
def Marked (live : Array Bool) (r : Ref) : Prop := live.getD r true = true

/-- Number of marks that are missing. -/
def unmarked (live : Array Bool) : ℕ := live.countP (· = false)

theorem marked_of_size_le {live : Array Bool} {r : Ref} (hr : live.size ≤ r) : Marked live r := by
  simp [Marked, Array.getD_eq_getD_getElem?, Array.getElem?_eq_none hr]

theorem marked_set {live : Array Bool} {r : Ref} (x : Ref) :
    Marked (live.setIfInBounds r true) x ↔ x = r ∨ Marked live x := by
  unfold Marked
  simp only [Array.getD_eq_getD_getElem?, Array.getElem?_setIfInBounds]
  by_cases hx : r = x
  · subst hx
    by_cases hlt : r < live.size <;> simp [hlt]
  · rw [if_neg hx]
    simp [Ne.symm hx]

theorem unmarked_set {live : Array Bool} {r : Ref} (hr : ¬ Marked live r) :
    unmarked (live.setIfInBounds r true) < unmarked live := by
  have hlt : r < live.size := by
    by_contra hge
    exact hr (marked_of_size_le (not_lt.mp hge))
  have hfalse : live[r] = false := by
    simpa [Marked, Array.getD_eq_getD_getElem?, hlt] using hr
  have hpos : 0 < live.countP (· = false) :=
    Array.countP_pos_iff.mpr ⟨live[r], Array.getElem_mem hlt, by simp [hfalse]⟩
  unfold unmarked
  rw [Array.setIfInBounds, dif_pos hlt, Array.countP_set]
  simp only [hfalse, decide_true, if_true, Bool.true_eq_false, decide_false, Bool.false_eq_true,
    if_false]
  omega

/-- What a round of marking does. -/
structure MarksAll (before after : Array Bool) (refs fresh : List Ref) : Prop where
  size_eq : after.size = before.size
  marked_iff : ∀ x, Marked after x ↔ Marked before x ∨ x ∈ refs
  mem_fresh : ∀ x, Marked after x → Marked before x ∨ x ∈ fresh
  unmarked_le : unmarked after + fresh.length ≤ unmarked before

theorem mark_marksAll (live : Array Bool) (refs : List Ref) :
    MarksAll live (mark live refs).1 refs (mark live refs).2 := by
  induction refs generalizing live with
  | nil => exact ⟨rfl, fun x => by simp [mark], fun x hx => .inl hx, le_rfl⟩
  | cons r rest ih =>
    unfold mark
    split_ifs with hr
    · obtain ⟨hsize, hmarked, hfresh, hless⟩ := ih live
      refine ⟨hsize, fun x => ?_, hfresh, hless⟩
      rw [hmarked x, List.mem_cons]
      constructor
      · rintro (hx | hx)
        · exact .inl hx
        · exact .inr (.inr hx)
      · rintro (hx | rfl | hx)
        · exact .inl hx
        · exact .inl hr
        · exact .inr hx
    · obtain ⟨hsize, hmarked, hfresh, hless⟩ := ih (live.setIfInBounds r true)
      have hset := unmarked_set hr
      refine ⟨by simp only [hsize, Array.size_setIfInBounds], fun x => ?_, fun x hx => ?_, ?_⟩
      · simp only [hmarked x, marked_set, List.mem_cons]
        tauto
      · rcases hfresh x hx with hx | hx
        · rcases (marked_set x).mp hx with rfl | hx
          · exact .inr (by simp)
          · exact .inl hx
        · exact .inr (List.mem_cons_of_mem _ hx)
      · simp only [List.length_cons]
        omega

/-! ## Spreading -/

/-- Marks and a frontier hold everything that marked members link to. -/
def Spreads (s : Survey) (live : Array Bool) (frontier : List Ref) : Prop :=
  ∀ r, r < live.size → Marked live r → ∀ x ∈ s.targets r, Marked live x ∨ x ∈ frontier

theorem Spreads.mark {s : Survey} {live : Array Bool} {frontier : List Ref}
    (hs : s.Spreads live frontier) :
    s.Spreads (mark live frontier).1 ((mark live frontier).2.flatMap s.targets) := by
  have hm := mark_marksAll live frontier
  intro r hr hmark x hx
  rcases hm.mem_fresh r hmark with hold | hnew
  · left
    exact (hm.marked_iff x).mpr (hs r (hm.size_eq ▸ hr) hold x hx)
  · right
    exact List.mem_flatMap.mpr ⟨r, hnew, hx⟩

/-- When spreading ends, nothing that was marked or waiting is left out. -/
structure Spread (s : Survey) (live : Array Bool) (frontier : List Ref) (final : Array Bool) :
    Prop where
  size_eq : final.size = live.size
  marked : ∀ x, Marked live x ∨ x ∈ frontier → Marked final x
  closed : s.Spreads final []

theorem spread_spread {s : Survey} {rounds : ℕ} {live : Array Bool} {frontier : List Ref}
    (hs : s.Spreads live frontier) (hrounds : unmarked live < rounds) :
    s.Spread live frontier (s.spread rounds live frontier) := by
  induction rounds generalizing live frontier with
  | zero => omega
  | succ rounds ih =>
    cases frontier with
    | nil => exact ⟨rfl, fun x hx => hx.resolve_right List.not_mem_nil, hs⟩
    | cons r rest =>
      have hm := mark_marksAll live (r :: rest)
      have hnext := hs.mark
      have hfinal : s.Spread (mark live (r :: rest)).1 ((mark live (r :: rest)).2.flatMap s.targets)
          (s.spread rounds (mark live (r :: rest)).1
            ((mark live (r :: rest)).2.flatMap s.targets)) := by
        have hle := hm.unmarked_le
        rcases Nat.eq_zero_or_pos (mark live (r :: rest)).2.length with hzero | hpos
        · -- nothing was fresh, so nothing is left to mark
          rw [List.eq_nil_of_length_eq_zero hzero] at hnext ⊢
          have hstop : s.spread rounds (mark live (r :: rest)).1 [] = (mark live (r :: rest)).1 := by
            cases rounds <;> rfl
          rw [List.flatMap_nil, hstop]
          exact ⟨rfl, fun x hx => hx.resolve_right List.not_mem_nil, hnext⟩
        · exact ih hnext (by omega)
      exact ⟨hfinal.size_eq.trans hm.size_eq,
        fun x hx => hfinal.marked x (.inl ((hm.marked_iff x).mpr hx)), hfinal.closed⟩

theorem live_spread (s : Survey) :
    s.Spread (Array.replicate s.members.size false) (s.refs.filter s.heldOutside) s.live := by
  apply spread_spread
  · intro r hr hmark
    rw [Array.size_replicate] at hr
    have hlt : r < s.members.size := hr
    simp [Marked, Array.getD_eq_getD_getElem?, hlt] at hmark
  · have hle : unmarked (Array.replicate s.members.size false) ≤ s.members.size := by
      exact Array.countP_le_size.trans (Array.size_replicate ..).le
    omega

theorem size_live (s : Survey) : s.live.size = s.members.size :=
  s.live_spread.size_eq.trans (Array.size_replicate ..)

theorem mem_refs {s : Survey} {r : Ref} : r ∈ s.refs ↔ (s.member? r).isSome = true := by
  unfold refs
  rw [List.mem_filter, List.mem_range]
  refine ⟨fun hr => hr.2, fun hr => ⟨?_, hr⟩⟩
  obtain ⟨m, hm⟩ := Option.isSome_iff_exists.mp hr
  exact lt_size_of_member? hm

/-- What is held from outside is live. -/
theorem live_of_heldOutside {s : Survey} {r : Ref} (hr : s.heldOutside r = true) :
    Marked s.live r := by
  apply s.live_spread.marked r
  right
  refine List.mem_filter.mpr ⟨mem_refs.mpr ?_, hr⟩
  unfold heldOutside at hr
  cases hm : s.member? r with
  | none => rw [hm] at hr; cases hr
  | some m => rfl

/-- What a live member links to is live. -/
theorem live_of_target {s : Survey} {r x : Ref} (hlt : r < s.members.size)
    (hr : Marked s.live r) (hx : x ∈ s.targets r) : Marked s.live x :=
  (s.live_spread.closed r (s.size_live ▸ hlt) hr x hx).resolve_right List.not_mem_nil

/-! ## Members without a mark -/

/-- A member that nothing outside the survey can reach. -/
def Lost (s : Survey) (r : Ref) : Prop :=
  (s.member? r).isSome = true ∧ ¬ Marked s.live r

theorem Lost.holders_le {s : Survey} {r : Ref} {m : Member} (hl : s.Lost r)
    (hm : s.member? r = some m) : m.holders ≤ m.links := by
  by_contra hlt
  apply hl.2
  apply live_of_heldOutside
  unfold heldOutside
  rw [hm]
  simp only [Bool.or_eq_true, decide_eq_true_eq]
  exact .inr (not_le.mp hlt)

/-! ## Members of a complete survey -/

theorem Complete.mem_iff {h : Heap} {s : Survey} {r : Ref} {visited : List Ref}
    (hc : Complete h s r visited) (x : Ref) : (s.member? x).isSome = true ↔ x ∈ visited := by
  rw [hc.counts.mem_iff x, hc.waiting_eq, List.append_nil]

theorem Complete.nodup {h : Heap} {s : Survey} {r : Ref} {visited : List Ref}
    (hc : Complete h s r visited) : visited.Nodup :=
  hc.counts.nodup.sublist (List.sublist_append_left _ _)

theorem Complete.lt_size {h : Heap} {s : Survey} {r : Ref} {visited : List Ref}
    (hc : Complete h s r visited) : ∀ x ∈ visited, x < h.cells.size := fun x hx =>
  Heap.lt_size_of_alive (hc.counts.alive x (List.mem_append_left _ hx))

end Survey

namespace Heap

variable {h : Heap} {outer : List Ref}

/-- Number of links from visited members. -/
theorem count_flatMap_targetsAt {visited : List Ref} (hnodup : visited.Nodup)
    (hlt : ∀ y ∈ visited, y < h.cells.size) (x : Ref) :
    (visited.flatMap h.targetsAt).count x =
      ∑ y ∈ Finset.range h.cells.size, if y ∈ visited then (h.targetsAt y).count x else 0 := by
  rw [List.count_flatMap, ← List.sum_toFinset _ hnodup, ← Finset.sum_filter]
  apply Finset.sum_congr
  · ext y
    simp only [List.mem_toFinset, Finset.mem_filter, Finset.mem_range]
    exact ⟨fun hy => ⟨hlt y hy, hy⟩, fun hy => hy.2⟩
  · intro y _
    rfl

/-- Counting says that every handle to a lost member is a link that the survey has met, or the handle
    that is being released. -/
theorem Balanced.count_of_lost {r n : Ref} {visited : List Ref} (hb : h.Balanced (r :: outer))
    (hc : Survey.Complete h (h.survey r) r visited) (hn : (h.survey r).Lost n) :
    outer.count n = 0 ∧ ∀ y < h.cells.size,
      (if y ∈ visited then (h.targetsAt y).count n else 0) = (h.handlesAt y).count n := by
  obtain ⟨m, hm⟩ := Option.isSome_iff_exists.mp hn.1
  have hle := hn.holders_le hm
  rw [hc.counts.links_of_member hm, List.count_append, count_flatMap_targetsAt hc.nodup hc.lt_size,
    hc.counts.holders n m hm, hb.holders_eq n, linked, List.count_cons,
    List.count_singleton] at hle
  have hterm : ∀ y ∈ Finset.range h.cells.size,
      (if y ∈ visited then (h.targetsAt y).count n else 0) ≤ (h.handlesAt y).count n := by
    intro y _
    split_ifs
    · exact h.count_targetsAt_le y n
    · exact Nat.zero_le _
  have hsum := Finset.sum_le_sum hterm
  have heq := (Finset.sum_eq_sum_iff_of_le hterm).mp (by omega)
  exact ⟨by omega, fun y hy => heq y (Finset.mem_range.mpr hy)⟩

/-- A lost member is held by the handle that is being released and by lost members alone. -/
theorem Balanced.of_lost {r n : Ref} {visited : List Ref} (hb : h.Balanced (r :: outer))
    (hc : Survey.Complete h (h.survey r) r visited) (hn : (h.survey r).Lost n) :
    n ∉ outer ∧ ∀ y o, h.object? y = some o → n ∈ o.handles →
      (h.survey r).Lost y ∧ n ∈ Survey.targetsOf o := by
  obtain ⟨houter, hcount⟩ := hb.count_of_lost hc hn
  refine ⟨List.count_eq_zero.mp houter, fun y o ho hy => ?_⟩
  have hpos := List.count_pos_iff.mpr hy
  have hlt := lt_size_of_object? ho
  have hey := hcount y hlt
  rw [handlesAt_of_object? ho] at hey
  split_ifs at hey with hv
  · have htarget : n ∈ h.targetsAt y := List.count_pos_iff.mp (by omega)
    -- were the holder live, so would be what it links to
    refine ⟨⟨(hc.mem_iff y).mpr hv, fun hlive => hn.2 ?_⟩, targetsAt_of_object? ho ▸ htarget⟩
    refine Survey.live_of_target (hc.counts.size_eq ▸ hlt) hlive ?_
    rw [hc.recorded y hv]
    exact htarget
  · omega

end Heap

end ApplyLang
