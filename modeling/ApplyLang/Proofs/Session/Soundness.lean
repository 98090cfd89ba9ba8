import ApplyLang.Session
import ApplyLang.Proofs.Evaluation.Soundness
import ApplyLang.Proofs.Evaluation.Growth

/-!
# What a session holds

Between steps, memory serves one handle for each entry of the table of scopes, one copy for each
entry of the table of values, and the handle that keeps the global frame. No step leaves a handle
behind.

* `Session.Sound` — the invariant.
* `Session.Sound.perform` — a step keeps it, and gives out no reference a second time.
-/

namespace ApplyLang

namespace Table

variable {α : Type} {t : Table α} {name : String} {a : α}

theorem get_eq_ok (h : t.get name = .ok a) : Table.get? t name = some a := by
  unfold get at h
  split at h
  · rename_i hget
    cases h
    exact hget
  · cases h

theorem mem_of_get? (h : Table.get? t name = some a) : a ∈ t.map Prod.snd := by
  obtain ⟨before, after, heq, -⟩ := List.lookup_eq_some_iff.mp h
  rw [heq]
  simp

theorem mem_insert {x : α} (h : x ∈ (Table.insert t name a).map Prod.snd) :
    x = a ∨ x ∈ t.map Prod.snd := by
  rcases List.mem_cons.mp h with rfl | h
  · exact .inl rfl
  · exact .inr ((List.filter_sublist.map _).subset h)

theorem nodup_erase (ht : (t.map Prod.fst).Nodup) (name : String) :
    ((Table.erase t name).map Prod.fst).Nodup :=
  ht.sublist (List.filter_sublist.map _)

theorem nodup_insert (ht : (t.map Prod.fst).Nodup) (name : String) (a : α) :
    ((Table.insert t name a).map Prod.fst).Nodup := by
  refine List.nodup_cons.mpr ⟨fun hmem => ?_, nodup_erase ht name⟩
  obtain ⟨entry, hentry, heq⟩ := List.mem_map.mp hmem
  have hne := (List.mem_filter.mp hentry).2
  simp [heq] at hne

/-- The names are apart, so erasing one takes out one entry. -/
theorem perm_erase (ht : (t.map Prod.fst).Nodup) (name : String) :
    (t.map Prod.snd).Perm ((Table.get? t name).toList ++ (Table.erase t name).map Prod.snd) := by
  induction t with
  | nil => rfl
  | cons entry rest ih =>
    obtain ⟨key, a⟩ := entry
    obtain ⟨hkey, hrest⟩ := List.nodup_cons.mp ht
    by_cases hname : name = key
    · subst hname
      have herase : Table.erase rest name = rest := by
        refine List.filter_eq_self.mpr fun entry hentry => ?_
        simp only [bne_iff_ne, ne_eq]
        intro heq
        exact hkey (List.mem_map.mpr ⟨entry, hentry, heq⟩)
      simp only [Table.erase] at herase
      simp [Table.get?, Table.erase, herase]
    · have hb : (name == key) = false := by simp [hname]
      have hne : (key != name) = true := by simp [Ne.symm hname]
      simp only [Table.get?, Table.erase, List.lookup_cons, hb, List.filter_cons, hne, if_true,
        List.map_cons]
      exact ((ih hrest).cons a).trans List.perm_middle.symm

end Table

/-- A reference that was given out to a frame: it stands for a frame or for nothing. -/
def Heap.ForFrame (h : Heap) (r : Ref) : Prop :=
  r < h.cells.size ∧ ∀ o, h.object? r = some o → ∃ f, o = .frame f

theorem Heap.ForFrame.evolve {h k : Heap} {r : Ref} (hr : h.ForFrame r) (hk : h.Evolves k) :
    k.ForFrame r := by
  refine ⟨hr.1.trans_le hk.size_le, fun o ho => ?_⟩
  obtain ⟨o', ho', hlike⟩ := hk.like r o hr.1 ho
  obtain ⟨f, rfl⟩ := hr.2 o' ho'
  cases o with
  | frame g => exact ⟨g, rfl⟩
  | closure c => cases hlike
  | array items => cases hlike

namespace Session

/-- The frames that a session holds, the global one first. -/
def frames (s : Session) : List Ref :=
  Heap.global :: s.scopes.map Prod.snd

/-- The values that a session keeps. -/
def kept (s : Session) : List Value :=
  s.values.map Prod.snd

/-- Names in the tables are apart, and weak handles are for frames. -/
structure Tidy (s : Session) : Prop where
  scopes : (s.scopes.map Prod.fst).Nodup
  values : (s.values.map Prod.fst).Nodup
  weaks : ∀ r ∈ s.weaks.map Prod.snd, s.heap.ForFrame r

/-- Memory serves the tables, and nothing else. -/
structure Sound (s : Session) : Prop where
  serves : s.heap.Serves s.frames s.kept
  tidy : s.Tidy

/-- A session in which memory has grown out of the memory before. -/
structure Leads (h : Heap) (s : Session) : Prop where
  sound : s.Sound
  evolves : h.Evolves s.heap

variable {s s' : Session}

/-! ## Tables -/

theorem Tidy.evolve (ht : s.Tidy) {k : Heap} (hk : s.heap.Evolves k) :
    ({ s with heap := k } : Session).Tidy :=
  ⟨ht.scopes, ht.values, fun r hr => (ht.weaks r hr).evolve hk⟩

theorem storeScope_leads {name : String} {r : Ref} (ht : s.Tidy)
    (hs : s.heap.Serves (r :: s.frames) s.kept) : (s.storeScope name r).Leads s.heap := by
  have he := (Heap.discard_shrinks s.heap (s.scopes.get? name).toList).evolves
  refine ⟨⟨?_, Table.nodup_insert ht.scopes name r, ht.values, (ht.evolve he).weaks⟩, he⟩
  apply Heap.Serves.discardFrames
  apply hs.perm ?_ (.refl _)
  have hp := ((Table.perm_erase ht.scopes name).cons Heap.global).cons r
  refine .trans ?_ hp.symm
  simp only [frames, storeScope, Table.insert, List.map_cons]
  exact List.perm_middle.trans ((List.perm_middle.cons _).trans (.swap _ _ _))

theorem storeValue_leads {name : String} {v : Value} (ht : s.Tidy)
    (hs : s.heap.Serves s.frames (v :: s.kept)) : (s.storeValue name v).Leads s.heap := by
  have he := (Heap.discardValues_shrinks s.heap (s.values.get? name).toList).evolves
  refine ⟨⟨?_, ht.scopes, Table.nodup_insert ht.values name v, (ht.evolve he).weaks⟩, he⟩
  apply Heap.Serves.discardValues
  apply hs.perm (.refl _)
  have hp := (Table.perm_erase ht.values name).cons v
  exact List.perm_middle.trans hp.symm

theorem keep_leads {name : Option String} {v : Value} (ht : s.Tidy)
    (hs : s.heap.Serves s.frames (v :: s.kept)) : (s.keep name v).Leads s.heap := by
  cases name with
  | some name => exact storeValue_leads ht hs
  | none =>
    have he := (Heap.discardValues_shrinks s.heap [v]).evolves
    exact ⟨⟨Heap.Serves.discardValues hs, ht.evolve he⟩, he⟩

theorem mem_frames_of_get {name : String} {r : Ref} (hr : s.scopes.get name = .ok r) :
    r ∈ s.frames :=
  List.mem_cons_of_mem _ (Table.mem_of_get? (Table.get_eq_ok hr))

theorem Sound.frame_of_get (hs : s.Sound) {name : String} {r : Ref}
    (hr : s.scopes.get name = .ok r) : ∃ f, s.heap.object? r = some (.frame f) :=
  hs.serves.frame r (mem_frames_of_get hr)

theorem Sound.parent_frame (hs : s.Sound) {r p : Ref} {f : Frame}
    (hf : s.heap.object? r = some (.frame f)) (hp : s.heap.parent? r = some p) :
    ∃ g, s.heap.object? p = some (.frame g) := by
  unfold Heap.parent? at hp
  rw [Heap.frame?_eq_some_iff.mpr hf] at hp
  exact ((hs.serves.balanced.valid r _ hf).1 p hp).2

/-! ## Written values -/

/-- Memory after making a value serves it in addition. -/
structure Makes (h k : Heap) (frames : List Ref) (values : List Value) : Prop where
  serves : k.Serves frames values
  evolves : h.Evolves k

mutual

theorem make_makes {table : Table Value} {frames : List Ref} {values : List Value} {h k : Heap}
    {w : Written} {v : Value} (hs : h.Serves frames values)
    (ht : ∀ v ∈ table.map Prod.snd, v ∈ values) (hm : make table h w = .ok (k, v)) :
    Makes h k frames (v :: values) := by
  cases w with
  | bool x => cases hm; exact ⟨hs.plain rfl trivial, .refl h⟩
  | number x => cases hm; exact ⟨hs.plain rfl trivial, .refl h⟩
  | text x => cases hm; exact ⟨hs.plain rfl trivial, .refl h⟩
  | stored name =>
    obtain ⟨w, hw, hr⟩ := exists_of_bind_eq_ok hm
    have hmem := ht w (Table.mem_of_get? (Table.get_eq_ok hw))
    cases hr
    exact ⟨hs.copy (hs.value v hmem), (Heap.copy_shrinks h v).evolves⟩
  | list items =>
    obtain ⟨⟨k₁, made⟩, hmade, hr⟩ := exists_of_bind_eq_ok hm
    obtain ⟨hk, he⟩ := makeAll_makes hs ht hmade
    cases hr
    have hnew := hk.newArray fun v hv => hk.value v (List.mem_append_left _ hv)
    refine ⟨Heap.Serves.discardValues (hnew.perm (.refl _) List.perm_middle), ?_⟩
    exact he.trans ((Heap.newArray_evolves k₁ made).trans (Heap.discardValues_shrinks _ _).evolves)

theorem makeAll_makes {table : Table Value} {frames : List Ref} {values : List Value} {h k : Heap}
    {ws : List Written} {vs : List Value} (hs : h.Serves frames values)
    (ht : ∀ v ∈ table.map Prod.snd, v ∈ values) (hm : makeAll table h ws = .ok (k, vs)) :
    Makes h k frames (vs ++ values) := by
  cases ws with
  | nil => cases hm; exact ⟨hs, .refl h⟩
  | cons w ws =>
    obtain ⟨⟨k₁, v⟩, hv, hr⟩ := exists_of_bind_eq_ok hm
    obtain ⟨⟨k₂, made⟩, hmade, hr⟩ := exists_of_bind_eq_ok hr
    cases hr
    obtain ⟨hk₁, he₁⟩ := make_makes hs ht hv
    obtain ⟨hk₂, he₂⟩ := makeAll_makes hk₁ (fun w hw => List.mem_cons_of_mem _ (ht w hw)) hmade
    exact ⟨hk₂.perm (.refl _) List.perm_middle.symm, he₁.trans he₂⟩

end

theorem length_makeAll {table : Table Value} {h k : Heap} {ws : List Written} {vs : List Value}
    (hm : Session.makeAll table h ws = .ok (k, vs)) : vs.length = ws.length := by
  induction ws generalizing h k vs with
  | nil => cases hm; rfl
  | cons w ws ih =>
    obtain ⟨⟨k₁, v⟩, hv, hr⟩ := exists_of_bind_eq_ok hm
    obtain ⟨⟨k₂, made⟩, hmade, hr⟩ := exists_of_bind_eq_ok hr
    cases hr
    exact congrArg (· + 1) (ih hmade)

theorem Sound.make (hs : s.Sound) {w : Written} {k : Heap} {v : Value}
    (hm : Session.make s.values s.heap w = .ok (k, v)) : Makes s.heap k s.frames (v :: s.kept) :=
  make_makes hs.serves (fun _ => id) hm

theorem Sound.makeAll (hs : s.Sound) {ws : List Written} {k : Heap} {vs : List Value}
    (hm : Session.makeAll s.values s.heap ws = .ok (k, vs)) :
    Makes s.heap k s.frames (vs ++ s.kept) :=
  makeAll_makes hs.serves (fun _ => id) hm

/-! ## Steps -/

/-- Memory may change as long as it serves the tables. -/
theorem Sound.change (hs : s.Sound) {k : Heap} (hk : Makes s.heap k s.frames s.kept) :
    ({ s with heap := k } : Session).Leads s.heap :=
  ⟨⟨hk.serves, hs.tidy.evolve hk.evolves⟩, hk.evolves⟩

theorem Sound.leads (hs : s.Sound) : s.Leads s.heap :=
  ⟨hs, .refl s.heap⟩

/-- The written value is let go of, whether or not it was stored. -/
theorem Sound.write {w : Written} {how : Heap → Value → Except BindError Heap} {answer : Answer}
    (hs : s.Sound)
    (hhow : ∀ h k v, h.Serves s.frames (v :: s.kept) → how h v = .ok k →
      Makes h k s.frames (v :: s.kept))
    (hw : s.write w how = .ok (s', answer)) : s'.Leads s.heap := by
  obtain ⟨⟨k, v⟩, hmade, hr⟩ := exists_of_bind_eq_ok hw
  obtain ⟨hk, he⟩ := hs.make hmade
  have hdiscard : ∀ k', Makes k k' s.frames (v :: s.kept) →
      ({ s with heap := k'.discardValues [v] } : Session).Leads s.heap := fun k' hk' =>
    hs.change ⟨hk'.serves.discardValue,
      he.trans (hk'.evolves.trans (Heap.discardValues_shrinks _ _).evolves)⟩
  dsimp only at hr
  split at hr
  · rename_i k' hwritten
    cases hr
    exact hdiscard k' (hhow k k' v hk hwritten)
  · cases hr
    exact hdiscard k ⟨hk, .refl k⟩

theorem Sound.ask {w : Written} {question : Heap → Value → Answer} {answer : Answer}
    (hs : s.Sound) (ha : s.ask w question = .ok (s', answer)) : s'.Leads s.heap := by
  obtain ⟨⟨k, v⟩, hmade, hr⟩ := exists_of_bind_eq_ok ha
  obtain ⟨hk, he⟩ := hs.make hmade
  cases hr
  exact hs.change ⟨hk.discardValue,
    he.trans (Heap.discardValues_shrinks _ _).evolves⟩

theorem Sound.conclude (hs : s.Sound) {ended : Ended} (into : Option String)
    (hk : Makes s.heap ended.heap s.frames (resultValues ended.result ++ s.kept)) :
    (s.conclude ended into).1.Leads s.heap := by
  unfold Session.conclude
  obtain ⟨heap, out, result⟩ := ended
  cases result with
  | error f =>
    have ht := hs.tidy.evolve hk.evolves
    exact ⟨⟨hk.serves, ht.scopes, ht.values, ht.weaks⟩, hk.evolves⟩
  | ok v =>
    have ht := hs.tidy.evolve hk.evolves
    have ht' : ({ s with heap := heap, out := out } : Session).Tidy :=
      ⟨ht.scopes, ht.values, ht.weaks⟩
    have hkeep : (({ s with heap := heap, out := out } : Session).keep into v).Leads heap :=
      keep_leads ht' hk.serves
    exact ⟨hkeep.sound, hk.evolves.trans hkeep.evolves⟩

theorem Sound.storeScope (hs : s.Sound) {k : Heap} {name : String} {r : Ref}
    (hk : Makes s.heap k (r :: s.frames) s.kept) :
    (({ s with heap := k } : Session).storeScope name r).Leads s.heap := by
  have hstore : (({ s with heap := k } : Session).storeScope name r).Leads k :=
    storeScope_leads (hs.tidy.evolve hk.evolves) hk.serves
  exact ⟨hstore.sound, hk.evolves.trans hstore.evolves⟩

theorem Sound.keep (hs : s.Sound) {k : Heap} {name : Option String} {v : Value}
    (hk : Makes s.heap k s.frames (v :: s.kept)) :
    (({ s with heap := k } : Session).keep name v).Leads s.heap := by
  have hkeep : (({ s with heap := k } : Session).keep name v).Leads k :=
    keep_leads (hs.tidy.evolve hk.evolves) hk.serves
  exact ⟨hkeep.sound, hk.evolves.trans hkeep.evolves⟩

theorem Sound.retain (hs : s.Sound) {r : Ref} {f : Frame}
    (hf : s.heap.object? r = some (.frame f)) :
    Makes s.heap (s.heap.retain r) (r :: s.frames) s.kept :=
  ⟨hs.serves.retainFrame hf, (Heap.retain_shrinks _ _).evolves⟩

/-- The entries that are left and the one that is taken out. -/
theorem Sound.serves_erase (hs : s.Sound) {name : String} {r : Ref}
    (hr : s.scopes.get name = .ok r) :
    s.heap.Serves (r :: Heap.global :: (s.scopes.erase name).map Prod.snd) s.kept := by
  have hperm := (Table.perm_erase hs.tidy.scopes name).cons Heap.global
  rw [Table.get_eq_ok hr] at hperm
  exact hs.serves.perm ((List.Perm.swap _ _ _).trans hperm.symm) (.refl _)

/-- An entry is taken out of the table of scopes, and its handle is given up. -/
theorem Sound.eraseScope (hs : s.Sound) {k : Heap} {name : String} {r : Ref}
    (hr : s.scopes.get name = .ok r)
    (hk : ∀ frames, s.heap.Serves (r :: frames) s.kept → Makes s.heap k frames s.kept) :
    ({ s with scopes := s.scopes.erase name, heap := k } : Session).Leads s.heap := by
  obtain ⟨hserves, he⟩ := hk _ (hs.serves_erase hr)
  have ht := hs.tidy.evolve he
  exact ⟨⟨hserves, Table.nodup_erase ht.scopes name, ht.values, ht.weaks⟩, he⟩

theorem Sound.forget (hs : s.Sound) {name : String} {v : Value}
    (hv : s.values.get name = .ok v) :
    ({ s with values := s.values.erase name, heap := s.heap.discardValues [v] } : Session).Leads
      s.heap := by
  have hperm := Table.perm_erase hs.tidy.values name
  rw [Table.get_eq_ok hv] at hperm
  have he := (Heap.discardValues_shrinks s.heap [v]).evolves
  have ht := hs.tidy.evolve he
  refine ⟨⟨?_, ht.scopes, Table.nodup_erase ht.values name, ht.weaks⟩, he⟩
  exact Heap.Serves.discardValues (hs.serves.perm (.refl _) hperm.symm)

theorem Sound.weaken (hs : s.Sound) {name : String} {r : Ref} (into : String)
    (hr : s.scopes.get name = .ok r) :
    ({ s with weaks := s.weaks.insert into r } : Session).Leads s.heap := by
  refine ⟨⟨hs.serves, hs.tidy.scopes, hs.tidy.values, fun x hx => ?_⟩, .refl _⟩
  rcases Table.mem_insert hx with rfl | hx
  · obtain ⟨f, hf⟩ := hs.frame_of_get hr
    exact ⟨Heap.lt_size_of_object? hf, fun o ho => ⟨f, by rw [hf] at ho; cases ho; rfl⟩⟩
  · exact hs.tidy.weaks x hx

theorem Sound.evaluate (hs : s.Sound) {fuel : ℕ} {node : Node} {r : Ref} {ended : Ended}
    (hr : r ∈ s.frames) (hended : (Machine.ofNode s.heap s.out node r).finish? fuel = some ended)
    (into : Option String) : (s.conclude ended into).1.Leads s.heap := by
  have hm := Machine.ofNode_sound hs.serves hr s.out node
  exact hs.conclude into ⟨hm.finish? hended, (Machine.finish?_changes hended).evolves⟩

theorem Sound.apply (hs : s.Sound) {fuel : ℕ} {function : Written} {arguments : List Written}
    {k k' : Heap} {f : Value} {made : List Value} {call : Call} {ended : Ended}
    (hf : Session.make s.values s.heap function = .ok (k, f))
    (hmade : Session.makeAll s.values k arguments = .ok (k', made))
    (hended : (Machine.ofCall k' s.out call f made).finish? fuel = some ended)
    (into : Option String) : (s.conclude ended into).1.Leads s.heap := by
  obtain ⟨hk, he⟩ := hs.make hf
  obtain ⟨hk', he'⟩ := makeAll_makes hk (fun _ => List.mem_cons_of_mem _) hmade
  have hm := Machine.ofCall_sound (hk'.perm (.refl _) List.perm_middle.symm) s.out call
  refine hs.conclude into ⟨hm.finish? hended, he.trans (he'.trans ?_)⟩
  exact ((Machine.ofCall_changes ..).trans (Machine.finish?_changes hended)).evolves

/-- Every step that can be performed keeps a session sound. -/
theorem Sound.perform {fuel : ℕ} {step : Step} {answer : Answer} (hs : s.Sound)
    (hp : s.perform fuel step = .ok (s', answer)) : s'.Leads s.heap := by
  cases step with
  | global into =>
    cases hp
    obtain ⟨f, hf⟩ := hs.serves.frame Heap.global List.mem_cons_self
    exact hs.storeScope (hs.retain hf)
  | makeSealed bindings into =>
    obtain ⟨⟨k, made⟩, hmade, hr⟩ := exists_of_bind_eq_ok hp
    obtain ⟨hk, he⟩ := hs.makeAll hmade
    cases hr
    have hlength := length_makeAll hmade
    rw [List.length_map] at hlength
    refine hs.storeScope ⟨?_, he.trans (Heap.newSealed_evolves _ _)⟩
    apply Heap.Serves.newSealed
    rw [List.map_snd_zip (by simp [hlength])]
    exact hk
  | child of into =>
    obtain ⟨r, hr, hrest⟩ := exists_of_bind_eq_ok hp
    obtain ⟨f, hf⟩ := hs.frame_of_get hr
    cases hrest
    exact hs.storeScope ⟨hs.serves.child hf, Heap.child_evolves _ _⟩
  | share of into =>
    obtain ⟨r, hr, hrest⟩ := exists_of_bind_eq_ok hp
    obtain ⟨f, hf⟩ := hs.frame_of_get hr
    cases hrest
    exact hs.storeScope (hs.retain hf)
  | parent of into =>
    obtain ⟨r, hr, hrest⟩ := exists_of_bind_eq_ok hp
    obtain ⟨f, hf⟩ := hs.frame_of_get hr
    split at hrest
    · rename_i p name hparent
      cases hrest
      obtain ⟨g, hg⟩ := hs.parent_frame hf hparent
      exact hs.storeScope (hs.retain hg)
    · cases hrest; exact hs.leads
    · cases hrest; exact hs.leads
  | define scope name value =>
    obtain ⟨r, hr, hrest⟩ := exists_of_bind_eq_ok hp
    refine hs.write (fun h k v hk hwritten => ?_) hrest
    obtain ⟨f, hf⟩ := hk.frame r (mem_frames_of_get hr)
    exact ⟨hk.define hf (hk.value v List.mem_cons_self) hwritten, Heap.define_evolves hwritten⟩
  | assign scope name value =>
    obtain ⟨r, hr, hrest⟩ := exists_of_bind_eq_ok hp
    refine hs.write (fun h k v hk hwritten => ?_) hrest
    exact ⟨hk.assign (hk.value v List.mem_cons_self) hwritten, Heap.assign_evolves hwritten⟩
  | find scope name into =>
    obtain ⟨r, hr, hrest⟩ := exists_of_bind_eq_ok hp
    dsimp only at hrest
    split at hrest
    · rename_i v hfound
      cases hrest
      exact hs.keep ⟨hs.serves.copy (hs.serves.valid_of_find? hfound),
        (Heap.copy_shrinks _ _).evolves⟩
    · cases hrest; exact hs.leads
  | owns scope name | isSealed scope | describeScope scope | holders scope | alive weak =>
    obtain ⟨r, hr, hrest⟩ := exists_of_bind_eq_ok hp
    cases hrest
    exact hs.leads
  | describe value | inspect value =>
    simp only [Session.perform] at hp
    exact hs.ask hp
  | weaken scope into =>
    obtain ⟨r, hr, hrest⟩ := exists_of_bind_eq_ok hp
    cases hrest
    exact hs.weaken into hr
  | strengthen weak into =>
    obtain ⟨r, hr, hrest⟩ := exists_of_bind_eq_ok hp
    split at hrest
    · rename_i halive
      cases hrest
      obtain ⟨o, ho⟩ := Heap.alive_iff.mp halive
      obtain ⟨f, rfl⟩ := (hs.tidy.weaks r (Table.mem_of_get? (Table.get_eq_ok hr))).2 o ho
      exact hs.storeScope (hs.retain ho)
    · cases hrest; exact hs.leads
  | release scope =>
    obtain ⟨r, hr, hrest⟩ := exists_of_bind_eq_ok hp
    cases hrest
    exact hs.eraseScope hr fun _ hserves => ⟨hserves.release, Heap.release_evolves _ _⟩
  | drop scope =>
    obtain ⟨r, hr, hrest⟩ := exists_of_bind_eq_ok hp
    cases hrest
    exact hs.eraseScope hr fun _ hserves =>
      ⟨hserves.discardFrame, (Heap.discard_shrinks _ _).evolves⟩
  | forget name =>
    obtain ⟨v, hv, hrest⟩ := exists_of_bind_eq_ok hp
    cases hrest
    exact hs.forget hv
  | evaluate scope source into =>
    obtain ⟨r, hr, hrest⟩ := exists_of_bind_eq_ok hp
    split at hrest
    · cases hrest; exact hs.leads
    · rename_i node hparse
      split at hrest
      · rename_i ended hended
        obtain rfl := congrArg Prod.fst (Except.ok.inj hrest)
        exact hs.evaluate (mem_frames_of_get hr) hended into
      · cases hrest
  | apply function arguments call into =>
    obtain ⟨⟨k, f⟩, hf, hrest⟩ := exists_of_bind_eq_ok hp
    obtain ⟨⟨k', made⟩, hmade, hrest⟩ := exists_of_bind_eq_ok hrest
    dsimp only at hrest
    split at hrest
    · rename_i ended hended
      obtain rfl := congrArg Prod.fst (Except.ok.inj hrest)
      exact hs.apply hf hmade hended into
    · cases hrest
  | equal a b =>
    obtain ⟨⟨k, x⟩, hx, hrest⟩ := exists_of_bind_eq_ok hp
    obtain ⟨⟨k', y⟩, hy, hrest⟩ := exists_of_bind_eq_ok hrest
    cases hrest
    obtain ⟨hk, he⟩ := hs.make hx
    obtain ⟨hk', he'⟩ := make_makes hk (fun _ => List.mem_cons_of_mem _) hy
    refine hs.change ⟨?_, he.trans (he'.trans (Heap.discardValues_shrinks _ _).evolves)⟩
    have hkept : k'.Serves s.frames ([x, y] ++ s.kept) := hk'.perm (.refl _) (.swap y x _)
    exact hkept.discardValues

/-- A program that is run between steps leaves its result and nothing else. -/
theorem Sound.makes_run? {fuel : ℕ} {out : Sink} {source : String} {ended : Ended} (hs : s.Sound)
    (hr : Program.run? fuel s.heap out source = some ended) :
    Makes s.heap ended.heap s.frames (resultValues ended.result ++ s.kept) := by
  unfold Program.run? Program.start at hr
  cases hparse : parse source with
  | error e =>
    rw [hparse] at hr
    cases hr
    exact ⟨hs.serves, .refl _⟩
  | ok node =>
    rw [hparse] at hr
    have hm := Machine.ofProgram_sound hs.serves List.mem_cons_self out node
    refine ⟨hm.finish? hr, ?_⟩
    exact ((Heap.child_changes s.heap Heap.global).trans (Machine.finish?_changes hr)).evolves

/-! ## Sequences of steps -/

/-- What a session may become when steps are performed, and programs run in between. -/
inductive Becomes (s : Session) : Session → Prop
  | refl : Becomes s s
  | perform {fuel : ℕ} {step : Step} {answer : Answer} {s' s'' : Session} (hs : Becomes s s')
      (hp : s'.perform fuel step = .ok (s'', answer)) : Becomes s s''
  | run {fuel : ℕ} {source : String} {ended : Ended} {s' : Session} (hs : Becomes s s')
      (hr : Program.run? fuel s'.heap s'.out source = some ended) (into : Option String) :
      Becomes s (s'.conclude ended into).1

theorem Becomes.trans {s'' : Session} (hs : s.Becomes s') (hs' : s'.Becomes s'') :
    s.Becomes s'' := by
  induction hs' with
  | refl => exact hs
  | perform _ hp ih => exact .perform ih hp
  | run _ hr into ih => exact .run ih hr into

theorem becomes_performAll {fuel : ℕ} {steps : List Step} {answers : List Answer}
    (hp : s.performAll fuel steps = .ok (s', answers)) : s.Becomes s' := by
  induction steps generalizing s answers with
  | nil => cases hp; exact .refl
  | cons step rest ih =>
    obtain ⟨⟨s₁, answer⟩, hstep, hr⟩ := exists_of_bind_eq_ok hp
    obtain ⟨⟨s₂, later⟩, hrest, hr⟩ := exists_of_bind_eq_ok hr
    cases hr
    exact (Becomes.perform .refl hstep).trans (ih hrest)

/-- What a session may be. -/
def Reached (s : Session) : Prop :=
  ∃ out, (start out).Becomes s

theorem Sound.becomes (hs : s.Sound) (hb : s.Becomes s') : s'.Leads s.heap := by
  induction hb with
  | refl => exact hs.leads
  | perform _ hp ih =>
    have hnext := ih.sound.perform hp
    exact ⟨hnext.sound, ih.evolves.trans hnext.evolves⟩
  | run _ hr into ih =>
    have hnext := ih.sound.conclude into (ih.sound.makes_run? hr)
    exact ⟨hnext.sound, ih.evolves.trans hnext.evolves⟩

theorem start_sound (out : Sink) : (start out).Sound := by
  refine ⟨Heap.initial_serves, List.nodup_nil, List.nodup_nil, fun r hr => ?_⟩
  exact absurd hr List.not_mem_nil

theorem Reached.sound (hs : s.Reached) : s.Sound := by
  obtain ⟨out, hb⟩ := hs
  exact ((start_sound out).becomes hb).sound

end Session

end ApplyLang
