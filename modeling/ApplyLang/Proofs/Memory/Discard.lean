import ApplyLang.Proofs.Memory.Balance

/-!
# Dropping handles

Dropping a handle may free an object, whose own handles are dropped next, and so on.

* `Balanced.discard` — balanced memory is balanced for the handles that are left. In particular the
  rounds of `Heap.discard` are enough: none of the handles dropped on the way is forgotten.
* `discard_shrinks` — what is still there is as it was.
-/

namespace ApplyLang.Heap

variable {h : Heap} {outer : List Ref}

/-! ## One handle -/

theorem dropHandle_shrinks (h : Heap) (r : Ref) : h.Shrinks (h.dropHandle r).1 := by
  unfold dropHandle
  split
  · rename_i c hc
    have ho : h.object? r = some c.object := by rw [object?, hc]; rfl
    split_ifs
    · refine ⟨size_put h r none, fun s o hs => ?_⟩
      rw [object?_put h r s none (lt_size_of_object? ho)] at hs
      split_ifs at hs with heq
      · cases hs
      · exact hs
    · exact shrinks_of_object? (size_put h r _) fun _ =>
        object?_put_self h (n := c.holders) hc
  · exact .refl h

/-- A handle that is not the last one is taken off the counter. -/
theorem dropHandle_of_shared {r : Ref} {n : ℕ} {o : Object} (hc : h.cell? r = some ⟨n, o⟩)
    (hn : 1 < n) : h.dropHandle r = (h.put r (some ⟨n - 1, o⟩), []) := by
  unfold dropHandle
  simp only [hc]
  rw [if_neg (by omega)]

/-- With the last handle the object goes. -/
theorem dropHandle_of_last {r : Ref} {o : Object} (hc : h.cell? r = some ⟨1, o⟩) :
    h.dropHandle r = (h.put r none, o.handles) := by
  unfold dropHandle
  simp only [hc]
  rw [if_pos le_rfl]

theorem Balanced.dropShared {r : Ref} {n : ℕ} {o : Object} (hb : h.Balanced (r :: outer))
    (hc : h.cell? r = some ⟨n, o⟩) (hn : 1 < n) :
    (h.put r (some ⟨n - 1, o⟩)).Balanced outer := by
  have ho := object?_eq_some_iff.mpr ⟨n, hc⟩
  have hobj : ∀ x, (h.put r (some ⟨n - 1, o⟩)).object? x = h.object? x :=
    fun _ => object?_put_self h hc
  have hholders := fun x => holders_put h r x (some ⟨n - 1, o⟩) (lt_size_of_object? ho)
  have hr : h.holders r = n := by simp [holders, hc]
  apply Balanced.of_evolves (shrinks_of_object? (size_put h r _) hobj).evolves
  · intro x
    have hx := hb.holders_eq x
    rw [List.count_cons] at hx
    rw [hholders x, linked_eq_of_object? (size_put h r _) hobj]
    by_cases hs : x = r
    · subst hs
      simp only [beq_self_eq_true, if_true, Option.elim_some] at hx ⊢
      omega
    · simp only [beq_iff_eq, Ne.symm hs, hs, if_false] at hx ⊢
      omega
  · intro x hx
    rw [hholders x]
    split_ifs with hs
    · simp only [Option.elim_some]; omega
    · obtain ⟨p, hp⟩ := alive_iff.mp hx
      exact hb.holders_pos x (alive_of_object? (hobj x ▸ hp))
  · intro x p hp
    exact hb.valid x p (hobj x ▸ hp)

theorem Balanced.dropLast {r : Ref} {o : Object} (hb : h.Balanced (r :: outer))
    (hc : h.cell? r = some ⟨1, o⟩) : (h.put r none).Balanced (o.handles ++ outer) := by
  have ho := object?_eq_some_iff.mpr ⟨1, hc⟩
  have hlt := lt_size_of_object? ho
  have hholders := fun x => holders_put h r x none hlt
  have hobj := fun x => object?_put h r x none hlt
  have hr : h.holders r = 1 := by simp [holders, hc]
  have hdrop := dropHandle_shrinks h r
  rw [dropHandle_of_last hc] at hdrop
  have hlinked : ∀ x, (h.put r none).linked x + o.handles.count x = h.linked x := by
    intro x
    have hx := linked_put h r x none hlt
    have hn : (h.put r none).handlesAt r = [] :=
      handlesAt_of_none (by rw [hobj r, if_pos rfl]; rfl)
    rw [handlesAt_of_object? ho, hn, List.count_nil] at hx
    omega
  apply Balanced.of_evolves hdrop.evolves
  · intro x
    have hx := hb.holders_eq x
    have hl := hlinked x
    rw [List.count_cons] at hx
    rw [hholders x, List.count_append]
    by_cases hs : x = r
    · subst hs
      simp only [beq_self_eq_true, if_true, Option.elim_none] at hx ⊢
      omega
    · simp only [beq_iff_eq, Ne.symm hs, hs, if_false] at hx ⊢
      omega
  · intro x hx
    obtain ⟨p, hp⟩ := alive_iff.mp hx
    have hne : x ≠ r := by
      intro hs
      rw [hobj x, if_pos hs] at hp
      cases hp
    rw [hholders x, if_neg hne]
    exact hb.holders_pos x (alive_of_object? (hdrop.object x p hp))
  · intro x p hp
    exact hb.valid x p (hdrop.object x p hp)

/-- Dropping a handle from outside turns it into the handles of what it frees. -/
theorem Balanced.dropHandle {r : Ref} (hb : h.Balanced (r :: outer)) :
    (h.dropHandle r).1.Balanced ((h.dropHandle r).2 ++ outer) := by
  have ha := hb.alive_of_mem (r := r) (by simp)
  obtain ⟨o, ho⟩ := alive_iff.mp ha
  obtain ⟨n, hc⟩ := object?_eq_some_iff.mp ho
  have hr : h.holders r = n := by simp [holders, hc]
  have hpos := hb.holders_pos r ha
  rcases (show n = 1 ∨ 1 < n by omega) with rfl | hn
  · rw [dropHandle_of_last hc]
    exact hb.dropLast hc
  · rw [dropHandle_of_shared hc hn]
    exact hb.dropShared hc hn

/-! ## A round -/

theorem dropHandles_shrinks (h : Heap) (refs : List Ref) : h.Shrinks (h.dropHandles refs).1 := by
  induction refs generalizing h with
  | nil => exact .refl h
  | cons r rest ih => exact (dropHandle_shrinks h r).trans (ih _)

theorem Balanced.dropHandles {refs : List Ref} (hb : h.Balanced (refs ++ outer)) :
    (h.dropHandles refs).1.Balanced ((h.dropHandles refs).2 ++ outer) := by
  induction refs generalizing h outer with
  | nil => exact hb
  | cons r rest ih =>
    have h1 : (h.dropHandle r).1.Balanced ((h.dropHandle r).2 ++ (rest ++ outer)) := hb.dropHandle
    have h2 : (h.dropHandle r).1.Balanced (rest ++ ((h.dropHandle r).2 ++ outer)) := by
      apply h1.congr
      intro x
      simp only [List.count_append]
      omega
    apply (ih h2).congr
    intro x
    simp only [Heap.dropHandles, List.count_append]
    omega

/-! ## All rounds -/

/-- Number of objects. -/
def population (h : Heap) : ℕ :=
  ((Finset.range h.cells.size).filter fun r => h.alive r = true).card

theorem population_le (h : Heap) : h.population ≤ h.cells.size :=
  (Finset.card_filter_le _ _).trans (Finset.card_range _).le

theorem Shrinks.alive {k : Heap} (hk : h.Shrinks k) {r : Ref} (hr : k.alive r = true) :
    h.alive r = true := by
  obtain ⟨o, ho⟩ := alive_iff.mp hr
  exact alive_of_object? (hk.object r o ho)

theorem Shrinks.population_le {k : Heap} (hk : h.Shrinks k) : k.population ≤ h.population := by
  unfold population
  rw [hk.size_eq]
  apply Finset.card_le_card
  intro r hr
  obtain ⟨hmem, ha⟩ := Finset.mem_filter.mp hr
  exact Finset.mem_filter.mpr ⟨hmem, hk.alive ha⟩

theorem Shrinks.population_lt {k : Heap} (hk : h.Shrinks k) {r : Ref} (hr : h.alive r = true)
    (hd : k.alive r = false) : k.population < h.population := by
  unfold population
  rw [hk.size_eq]
  apply Finset.card_lt_card
  refine ⟨fun x hx => ?_, fun hsub => ?_⟩
  · obtain ⟨hmem, ha⟩ := Finset.mem_filter.mp hx
    exact Finset.mem_filter.mpr ⟨hmem, hk.alive ha⟩
  · have hmem : r ∈ (Finset.range h.cells.size).filter fun r => h.alive r = true :=
      Finset.mem_filter.mpr ⟨Finset.mem_range.mpr (lt_size_of_alive hr), hr⟩
    have := (Finset.mem_filter.mp (hsub hmem)).2
    rw [hd] at this
    cases this

/-- Handles come out of a handle only if it frees its object. -/
theorem population_dropHandle (h : Heap) (r : Ref) :
    (h.dropHandle r).2 = [] ∨ (h.dropHandle r).1.population < h.population := by
  cases hc : h.cell? r with
  | none => left; simp [dropHandle, hc]
  | some c =>
    have ho : h.object? r = some c.object := by rw [object?, hc]; rfl
    by_cases hn : c.holders ≤ 1
    · right
      have hk := dropHandle_shrinks h r
      have he : (h.dropHandle r).1 = h.put r none := by simp [dropHandle, hc, hn]
      rw [he] at hk ⊢
      apply hk.population_lt (alive_of_object? ho)
      have hdead : (h.put r none).object? r = none := by
        rw [object?_put h r r none (lt_size_of_object? ho), if_pos rfl]; rfl
      by_contra ha
      obtain ⟨o, ho'⟩ := alive_iff.mp (by simpa using ha)
      rw [hdead] at ho'
      cases ho'
    · left; simp [dropHandle, hc, hn]

theorem population_dropHandles (h : Heap) (refs : List Ref) :
    (h.dropHandles refs).2 = [] ∨ (h.dropHandles refs).1.population < h.population := by
  induction refs generalizing h with
  | nil => exact .inl rfl
  | cons r rest ih =>
    have hle := (dropHandle_shrinks h r).population_le
    have hle' := (dropHandles_shrinks (h.dropHandle r).1 rest).population_le
    simp only [dropHandles, List.append_eq_nil_iff]
    rcases population_dropHandle h r with h1 | h1
    · rcases ih (h.dropHandle r).1 with h2 | h2
      · exact .inl ⟨h1, h2⟩
      · exact .inr (by omega)
    · exact .inr (by omega)

theorem dropRounds_nil (n : ℕ) (h : Heap) : dropRounds n h [] = h := by
  cases n <;> rfl

theorem dropRounds_shrinks (n : ℕ) (h : Heap) (refs : List Ref) :
    h.Shrinks (dropRounds n h refs) := by
  induction n generalizing h refs with
  | zero => exact .refl h
  | succ n ih =>
    cases refs with
    | nil => exact .refl h
    | cons r rest => exact (dropHandles_shrinks h (r :: rest)).trans (ih _ _)

theorem Balanced.dropRounds {n : ℕ} {refs : List Ref} (hn : h.population < n)
    (hb : h.Balanced (refs ++ outer)) : (Heap.dropRounds n h refs).Balanced outer := by
  induction n generalizing h refs with
  | zero => omega
  | succ n ih =>
    cases refs with
    | nil => exact hb
    | cons r rest =>
      have hround := hb.dropHandles
      simp only [Heap.dropRounds]
      rcases population_dropHandles h (r :: rest) with hnil | hlt
      · rw [hnil] at hround ⊢
        rw [dropRounds_nil]
        exact hround
      · exact ih (by omega) hround

theorem discard_shrinks (h : Heap) (refs : List Ref) : h.Shrinks (h.discard refs) :=
  dropRounds_shrinks _ h refs

theorem Balanced.discard {refs : List Ref} (hb : h.Balanced (refs ++ outer)) :
    (h.discard refs).Balanced outer :=
  hb.dropRounds (by have := population_le h; omega)

end ApplyLang.Heap
