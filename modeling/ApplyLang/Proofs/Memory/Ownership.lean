import ApplyLang.Proofs.Memory.Roots

/-!
# Owners of names

A name means what the nearest frame that has it says: that is where it is read, and where an
assignment goes. Both walk along the chain of a scope on their own, with a bound on the length of the
walk; here the frames on the way are described without either walk, so that one write can be seen, or
not seen, from every scope of memory at once.

* `Heap.Exposes` — no frame on the way from a scope out to a frame has the name.
* `Heap.NearestOwner` — the frame at the end of that way has it.
* `Heap.Rebinds` — one name of one frame is bound anew, and every scope sees just that.
* `Serves.writes_nearest` — what assignments and definitions do, and when they are refused.
-/

namespace ApplyLang

namespace Frame

theorem owns_insert_self (f : Frame) (name : String) (v : Value) :
    (f.insert name v).owns name = true := by
  rw [owns, get?_insert_self]
  rfl

theorem owns_insert_of_ne (f : Frame) {name other : String} (v : Value) (h : other ≠ name) :
    (f.insert name v).owns other = f.owns other := by
  rw [owns, get?_insert_of_ne f v h, owns]

end Frame

namespace Heap

variable {h k : Heap} {frames : List Ref} {values : List Value}

/-! ## Walking outwards -/

theorem parent?_eq_some_iff {s p : Ref} :
    h.parent? s = some p ↔ ∃ f, h.object? s = some (.frame f) ∧ f.parent = some p := by
  simp only [parent?, Option.bind_eq_some_iff, frame?_eq_some_iff]

theorem Valid.parent (hv : h.Valid) {s p : Ref} (hp : h.parent? s = some p) :
    p < s ∧ ∃ g, h.object? p = some (.frame g) := by
  obtain ⟨f, hf, hparent⟩ := parent?_eq_some_iff.mp hp
  exact (hv s _ hf).1 p hparent

/-- Parents are older than their children, so any bound above the scope is enough. -/
theorem Valid.chainFrom_eq (hv : h.Valid) {fuel fuel' : ℕ} {s : Ref} (hs : s < fuel)
    (hs' : s < fuel') : h.chainFrom fuel (some s) = h.chainFrom fuel' (some s) := by
  induction fuel generalizing fuel' s with
  | zero => exact absurd hs (Nat.not_lt_zero _)
  | succ fuel ih =>
    obtain ⟨fuel', rfl⟩ := Nat.exists_eq_succ_of_ne_zero (Nat.ne_zero_of_lt hs')
    unfold chainFrom
    cases hf : h.frame? s with
    | none => rfl
    | some f =>
      refine congrArg (s :: ·) ?_
      cases hp : f.parent with
      | none => cases fuel <;> cases fuel' <;> rfl
      | some p =>
        have hlt := ((hv s _ (frame?_eq_some_iff.mp hf)).1 p hp).1
        exact ih (hlt.trans_le (Nat.le_of_lt_succ hs)) (hlt.trans_le (Nat.le_of_lt_succ hs'))

/-- The chain of a scope is its frame, and then the chain of the scope around it. -/
theorem Valid.chain_of_frame (hv : h.Valid) {s : Ref} {f : Frame}
    (hf : h.object? s = some (.frame f)) : h.chain s = s :: f.parent.elim [] h.chain := by
  have hlt := lt_size_of_object? hf
  have hfuel : h.chain s = h.chainFrom (h.cells.size + 1) (some s) :=
    hv.chainFrom_eq hlt (Nat.lt_succ_of_lt hlt)
  rw [hfuel, chainFrom, frame?_eq_some_iff.mpr hf]
  refine congrArg (s :: ·) ?_
  cases hp : f.parent with
  | none => cases h.cells.size <;> rfl
  | some p => rfl

theorem chain_of_none {s : Ref} (hf : h.frame? s = none) : h.chain s = [] := by
  unfold chain
  cases h.cells.size with
  | zero => rfl
  | succ n => simp only [chainFrom, hf]

/-- The owner of a name is the frame itself, or the owner from the frame around it. -/
theorem Valid.owner?_eq (hv : h.Valid) (s : Ref) (name : String) :
    h.owner? s name =
      if h.owns s name then some s else (h.parent? s).bind fun p => h.owner? p name := by
  cases hf : h.frame? s with
  | none => simp [owner?, chain_of_none hf, owns, parent?, hf]
  | some f =>
    rw [owner?, hv.chain_of_frame (frame?_eq_some_iff.mp hf), List.find?_cons, parent?, hf,
      Option.bind_some]
    cases h.owns s name with
    | true => rfl
    | false => cases f.parent <;> rfl

/-- A name means what the frame itself says, or what it means in the frame around it. -/
theorem Valid.find?_eq (hv : h.Valid) (s : Ref) (name : String) :
    h.find? s name =
      if h.owns s name then h.bound? s name else (h.parent? s).bind fun p => h.find? p name := by
  rw [find?, hv.owner?_eq]
  split_ifs
  · rfl
  · cases h.parent? s <;> rfl

/-! ## Nearest owners -/

/-- A name of the frame `r` is not hidden from a scope: no frame on the way from the scope out to `r`
    has that name. -/
inductive Exposes (h : Heap) (name : String) (r : Ref) : Ref → Prop
  | here : Exposes h name r r
  | outer {s p : Ref} (hs : h.owns s name = false) (hp : h.parent? s = some p)
      (he : Exposes h name r p) : Exposes h name r s

/-- The nearest frame of a scope that has the name. -/
def NearestOwner (h : Heap) (name : String) (r scope : Ref) : Prop :=
  h.Exposes name r scope ∧ h.owns r name = true

/-- The walk finds the nearest owner. -/
theorem Valid.owner?_eq_some_iff (hv : h.Valid) {s r : Ref} {name : String} :
    h.owner? s name = some r ↔ h.NearestOwner name r s := by
  constructor
  · -- from the oldest scope on, since frames are younger than their parents
    induction s using Nat.strong_induction_on with
    | _ s ih =>
      intro ho
      refine ⟨?_, owns_of_owner? ho⟩
      rw [hv.owner?_eq] at ho
      split_ifs at ho with howns
      · cases ho
        exact .here
      · obtain ⟨p, hp, ho⟩ := Option.bind_eq_some_iff.mp ho
        exact .outer (by simpa using howns) hp (ih p (hv.parent hp).1 ho).1
  · rintro ⟨he, howns⟩
    induction he with
    | here => rw [hv.owner?_eq, if_pos howns]
    | outer hs hp _ ih => rw [hv.owner?_eq, hs, if_neg Bool.false_ne_true, hp, Option.bind_some, ih]

/-! ## Binding one name anew -/

/-- In memory `k` one name of the frame `r` is bound to a value, and every other binding of a frame
    that is still there is as it was in memory `h`. From the scopes that do not hide the frame the
    name means that value, and nothing else means anything else. -/
structure Rebinds (h k : Heap) (r : Ref) (name : String) (v : Value) : Prop where
  bound : k.bound? r name = some v
  other : ∀ x key, k.alive x = true → x ≠ r ∨ key ≠ name → k.bound? x key = h.bound? x key
  parent : ∀ x, k.alive x = true → k.parent? x = h.parent? x
  isSealed : ∀ x, k.alive x = true → k.isSealed x = h.isSealed x
  seen : ∀ s, k.alive s = true → h.Exposes name r s → k.find? s name = some v
  unseen : ∀ s key, k.alive s = true → key ≠ name ∨ ¬ h.Exposes name r s →
    k.find? s key = h.find? s key

/-- Frames that are left after a binding. -/
theorem frame?_of_bind {r x : Ref} {f : Frame} {name : String} {v : Value}
    (hf : h.object? r = some (.frame f)) (hk : (h.bind r name v).Shrinks k)
    (hx : k.alive x = true) :
    k.frame? x = if x = r then some (f.insert name v) else h.frame? x := by
  obtain ⟨o, ho⟩ := alive_iff.mp hx
  have hbind := object?_of_bind hf (hk.object x o ho)
  split_ifs at hbind ⊢
  · rw [frame?, ho, hbind]
  · rw [frame?, frame?, ho, hbind]

/-- What a write does to single frames decides what every scope sees. -/
theorem Rebinds.of_frames {r : Ref} {name : String} {v : Value} (hh : h.Valid) (hk : k.Valid)
    (bound : k.bound? r name = some v)
    (other : ∀ x key, k.alive x = true → x ≠ r ∨ key ≠ name → k.bound? x key = h.bound? x key)
    (parent : ∀ x, k.alive x = true → k.parent? x = h.parent? x)
    (isSealed : ∀ x, k.alive x = true → k.isSealed x = h.isSealed x) :
    h.Rebinds k r name v := by
  have howns : ∀ x key, k.alive x = true → x ≠ r ∨ key ≠ name → k.owns x key = h.owns x key := by
    intro x key hx hne
    rw [owns_iff_bound?, owns_iff_bound?, other x key hx hne]
  have haround : ∀ x p, k.alive x = true → h.parent? x = some p → k.alive p = true := by
    intro x p hx hp
    obtain ⟨-, g, hg⟩ := hk.parent ((parent x hx).trans hp)
    exact alive_of_object? hg
  have hhere : k.find? r name = some v := by
    rw [hk.find?_eq, owns_iff_bound?, bound]
    rfl
  refine ⟨bound, other, parent, isSealed, fun s hs he => ?_, fun s key hs hne => ?_⟩
  · -- along the way to `r`, on which nothing has the name
    induction he with
    | here => exact hhere
    | @outer s p hnot hp _ ih =>
      by_cases hsr : s = r
      · rw [hsr, hhere]
      · rw [hk.find?_eq, howns s name hs (.inl hsr), hnot, if_neg Bool.false_ne_true,
          parent s hs, hp, Option.bind_some]
        exact ih (haround s p hs hp)
  · -- from the oldest scope on, since frames are younger than their parents
    induction s using Nat.strong_induction_on with
    | _ s ih =>
      have hkey : s ≠ r ∨ key ≠ name := by
        rcases hne with hne | hhidden
        · exact .inr hne
        · refine .inl fun hsr => hhidden ?_
          rw [hsr]
          exact .here
      rw [hk.find?_eq, hh.find?_eq, howns s key hs hkey, other s key hs hkey, parent s hs]
      split_ifs with hown
      · rfl
      · cases hp : h.parent? s with
        | none => rfl
        | some p =>
          refine ih p (hh.parent hp).1 (haround s p hs hp) ?_
          rcases hne with hne | hhidden
          · exact .inl hne
          · by_cases hname : key = name
            · refine .inr fun he => hhidden (.outer ?_ hp he)
              rw [← hname]
              simpa using hown
            · exact .inl hname

/-- Binding a name in a frame that is still there afterwards. -/
theorem Valid.rebinds_bind {r : Ref} {f : Frame} {name : String} {v : Value} (hh : h.Valid)
    (hf : h.object? r = some (.frame f)) (hshrinks : (h.bind r name v).Shrinks k) (hk : k.Valid)
    (hr : k.alive r = true) : h.Rebinds k r name v := by
  have hframe := fun x hx => frame?_of_bind (x := x) hf hshrinks hx
  have hbefore := frame?_eq_some_iff.mpr hf
  refine .of_frames hh hk ?_ (fun x key hx hne => ?_) (fun x hx => ?_) fun x hx => ?_
  · rw [bound?, hframe r hr, if_pos rfl, Option.bind_some, Frame.get?_insert_self]
  · rw [bound?, bound?, hframe x hx]
    split_ifs with hxr
    · rw [hxr, hbefore, Option.bind_some, Option.bind_some,
        Frame.get?_insert_of_ne f v (hne.resolve_left fun hne => hne hxr)]
    · rfl
  · rw [parent?, parent?, hframe x hx]
    split_ifs with hxr
    · rw [hxr, hbefore]
      rfl
    · rfl
  · rw [Heap.isSealed, Heap.isSealed, hframe x hx]
    split_ifs with hxr
    · rw [hxr, hbefore]
      rfl
    · rfl

/-- If the frame had the name already, no frame gains or loses a name. -/
theorem Rebinds.owns_eq {r : Ref} {name : String} {v : Value} (hk : h.Rebinds k r name v)
    (hr : h.owns r name = true) {x : Ref} (hx : k.alive x = true) (key : String) :
    k.owns x key = h.owns x key := by
  by_cases hsame : x = r ∧ key = name
  · obtain ⟨rfl, rfl⟩ := hsame
    rw [hr, owns_iff_bound?, hk.bound]
    rfl
  · rw [owns_iff_bound?, owns_iff_bound?, hk.other x key hx (not_and_or.mp hsame)]

/-! ## Writing -/

theorem assign_eq_unbound_iff {scope : Ref} {name : String} {v : Value} :
    h.assign scope name v = .error .unbound ↔ h.find? scope name = none := by
  rw [← Option.not_isSome_iff_eq_none, isSome_find?, assign]
  cases h.owner? scope name with
  | none => simp
  | some r =>
    dsimp only
    split_ifs <;> simp

theorem assign_eq_sealed_iff {scope : Ref} {name : String} {v : Value} :
    h.assign scope name v = .error .isSealed ↔
      ∃ r, h.owner? scope name = some r ∧ h.isSealed r = true := by
  rw [assign]
  cases h.owner? scope name with
  | none => simp
  | some r => cases h.isSealed r <;> simp

theorem define_eq_error_iff {scope : Ref} {name : String} {v : Value} {e : BindError} :
    h.define scope name v = .error e ↔ h.isSealed scope = true ∧ e = .isSealed := by
  rw [define]
  cases h.isSealed scope <;> simp [eq_comm]

/-- What an assignment does with a copy of a value that it uses up: it looks for the nearest frame
    that has the name, and binds the name anew there or refuses. -/
structure AssignsNearest (h : Heap) (frames : List Ref) (values : List Value) (scope : Ref)
    (name : String) (v : Value) : Prop where
  unbound_iff : h.assign scope name v = .error .unbound ↔ h.find? scope name = none
  sealed_iff : h.assign scope name v = .error .isSealed ↔
    ∃ r, h.NearestOwner name r scope ∧ h.isSealed r = true
  /-- Whoever holds something still holds it, and no frame that is left has changed. -/
  refused : ∀ e, h.assign scope name v = .error e →
    (h.discardValues [v]).Serves frames values ∧ h.Shrinks (h.discardValues [v])
  written : ∀ k, h.assign scope name v = .ok k → (k.discardValues [v]).Serves frames values ∧
    ∃ r, h.NearestOwner name r scope ∧ h.isSealed r = false ∧
      h.Rebinds (k.discardValues [v]) r name v ∧
      ∀ x, (k.discardValues [v]).alive x = true → ∀ key,
        (k.discardValues [v]).owns x key = h.owns x key

/-- What a definition does with a copy of a value that it uses up: it binds the name in the frame of
    the scope itself, whatever the frames around it have, or refuses. -/
structure DefinesHere (h : Heap) (frames : List Ref) (values : List Value) (scope : Ref)
    (name : String) (v : Value) : Prop where
  error_iff : ∀ e, h.define scope name v = .error e ↔ h.isSealed scope = true ∧ e = .isSealed
  refused : ∀ e, h.define scope name v = .error e →
    (h.discardValues [v]).Serves frames values ∧ h.Shrinks (h.discardValues [v])
  written : ∀ k, h.define scope name v = .ok k → (k.discardValues [v]).Serves frames values ∧
    h.Rebinds (k.discardValues [v]) scope name v

/-- An owner stays alive as long as somebody holds the scope: it is around it. -/
theorem Valid.alive_of_exposes (hk : k.Valid) (hparent : ∀ x p, h.parent? x = some p →
    k.alive x = true → k.parent? x = some p) {name : String} {r s : Ref}
    (he : h.Exposes name r s) (hs : k.alive s = true) : k.alive r = true := by
  induction he with
  | here => exact hs
  | outer _ hp _ ih =>
    obtain ⟨-, g, hg⟩ := hk.parent (hparent _ _ hp hs)
    exact ih (alive_of_object? hg)

theorem Evolves.parent?_eq_some (hk : h.Evolves k) {x p : Ref} (hp : h.parent? x = some p)
    (hx : k.alive x = true) : k.parent? x = some p := by
  obtain ⟨f, hf, hparent⟩ := parent?_eq_some_iff.mp hp
  obtain ⟨g, hg, hsame, -⟩ := hk.frame hf hx
  exact parent?_eq_some_iff.mpr ⟨g, hg, hsame.trans hparent⟩

/-- Assignments write where the name is read, definitions write where they stand; both are seen from
    exactly the scopes that do not hide the frame, and refused before anything has changed. -/
theorem Serves.writes_nearest {v : Value} (hs : h.Serves frames (v :: values)) {scope : Ref}
    (hscope : scope ∈ frames) (name : String) :
    h.AssignsNearest frames values scope name v ∧ h.DefinesHere frames values scope name v := by
  have hvalid : v.ValidIn h := hs.value v List.mem_cons_self
  have hrefused : (h.discardValues [v]).Serves frames values ∧ h.Shrinks (h.discardValues [v]) :=
    ⟨hs.discardValue, discardValues_shrinks h [v]⟩
  have hwritten : ∀ {r : Ref} {f : Frame}, h.object? r = some (.frame f) →
      ((h.bind r name v).discardValues [v]).Serves frames values := fun hf =>
    (hs.bind hf hvalid).discardValue
  have hafter : ∀ r, (h.bind r name v).Shrinks ((h.bind r name v).discardValues [v]) := fun r =>
    discardValues_shrinks _ [v]
  refine ⟨⟨assign_eq_unbound_iff, ?_, fun _ _ => hrefused, fun k ha => ?_⟩,
    ⟨fun e => define_eq_error_iff, fun _ _ => hrefused, fun k hd => ?_⟩⟩
  · simp only [assign_eq_sealed_iff, hs.valid.owner?_eq_some_iff]
  · obtain ⟨r, howner, rfl⟩ := assign_ok ha
    have hnearest := hs.valid.owner?_eq_some_iff.mp howner
    obtain ⟨f, hf⟩ := exists_frame_of_owns hnearest.2
    have hk := hwritten hf
    have hevolves : h.Evolves ((h.bind r name v).discardValues [v]) :=
      (bind_evolves h r name v).trans (hafter r).evolves
    have hr : ((h.bind r name v).discardValues [v]).alive r = true :=
      hk.valid.alive_of_exposes (fun x p hp hx => hevolves.parent?_eq_some hp hx) hnearest.1
        (hk.alive_of_mem_frames hscope)
    have hrebinds := hs.valid.rebinds_bind hf (hafter r) hk.valid hr
    have hunsealed : h.isSealed r = false := by
      by_contra hsealed
      have herror : h.assign scope name v = .error .isSealed :=
        assign_eq_sealed_iff.mpr ⟨r, howner, by simpa using hsealed⟩
      rw [herror] at ha
      cases ha
    exact ⟨hk, r, hnearest, hunsealed, hrebinds, fun x hx => hrebinds.owns_eq hnearest.2 hx⟩
  · obtain ⟨f, hf⟩ := hs.frame scope hscope
    rw [define_ok hd]
    have hk := hwritten hf
    exact ⟨hk, hs.valid.rebinds_bind hf (hafter scope) hk.valid (hk.alive_of_mem_frames hscope)⟩

/-- From the frame 3 a name is written in the frame 1 around it. The frame 2 beside it hides that
    name and keeps its own; the global frame refuses. -/
theorem writes_nearest_beside : ∃ h k : Heap,
    h.Serves [3, 2, 1, 0] [.text "new"] ∧ h.assign 3 "x" (.text "new") = .ok k ∧
      (k.find? 1 "x", k.find? 2 "x") = (some (.text "new"), some (.text "inner")) ∧
      (h.AssignsNearest [3, 2, 1, 0] [] 3 "x" (.text "new") ∧
        h.DefinesHere [3, 2, 1, 0] [] 3 "x" (.text "new")) ∧
      h.AssignsNearest [3, 2, 1, 0] [] 3 "true" (.text "new") ∧
      h.assign 3 "true" (.text "new") = .error .isSealed := by
  have h₁ : (initial.child 0).1.Serves [1, 0] [] := initial_serves.child rfl
  have h₂ : ((initial.child 0).1.bind 1 "x" (.text "outer")).Serves [1, 0] [] :=
    h₁.bind rfl trivial
  have h₃ := h₂.child (r := 1) rfl
  have h₄ : (Heap.bind _ 2 "x" (.text "inner")).Serves [2, 1, 0] [] := h₃.bind rfl trivial
  have h₅ := (h₄.child (r := 1) rfl).plain (v := .text "new") rfl trivial
  have hscope : (3 : Ref) ∈ [3, 2, 1, 0] := List.mem_cons_self
  exact ⟨_, _, h₅, rfl, rfl, Serves.writes_nearest h₅ hscope "x",
    (Serves.writes_nearest h₅ hscope "true").1, rfl⟩

end Heap

end ApplyLang
