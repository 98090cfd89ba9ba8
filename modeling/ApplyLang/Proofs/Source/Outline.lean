import ApplyLang.Proofs.Number.Printing
import ApplyLang.Proofs.Source.Recognition

/-!
# Outlines lose nothing

The outline of a tree that was read determines the tree, with all its spans.

* `Heading` — what the line of a node says about it, apart from its span.
* `Tree.Plain` — what holds of the leaves of a tree that was read (`Layout.plain`). Only such leaves
  are certain to end where their line says so: a text is written as it is, and what stands in it may
  look like lines of an outline.
* `Outdented` — what may follow the outline of a node. An argument list is over when a line is
  indented less than the arguments are.
* `Node.outline_append_inj` — an outline can be told from what follows it, and no other tree of
  plain leaves has the same.
* `outline_eq_iff_same` — the outlines of two programs are equal if and only if the trees are.
-/

namespace ApplyLang

/-! ## Lines -/

/-- What the line of a node says about it, apart from its span. -/
inductive Heading
  | number (value : Float)
  | text (value : String)
  | word (name : String)
  | apply

namespace Heading

/-- The characters between the indentation and the span. -/
def chars : Heading → List Char
  | number x => (Number.text x).toList ++ [' ']
  | text x => '"' :: x.toList ++ ['"', ' ']
  | word x => ['W', 'o', 'r', 'd', '('] ++ x.toList ++ [')', ' ']
  | apply => ['A', 'p', 'p', 'l', 'y', ' ']

/-- What the parser guarantees of a heading. -/
def Plain : Heading → Prop
  | number x => ∃ n, x = Number.ofNat n
  | text x => ∀ c ∈ x.toList, c ≠ '"'
  | word x => ∀ c ∈ x.toList, c ≠ ')'
  | apply => True

/-- The kinds of headings, told apart by the first character. -/
def kind : Heading → Nat
  | number _ => 0
  | text _ => 1
  | word _ => 2
  | apply => 3

/-- The kind of heading that begins with a character. -/
def kindOf (c : Char) : Nat :=
  if c = '"' then 1 else if c = 'W' then 2 else if c = 'A' then 3 else 0

variable {a b : Heading} {x y : List Char}

/-- The first character of a heading is not a blank, and tells the kind of the heading. -/
theorem exists_first (ha : a.Plain) :
    ∃ c rest, a.chars = c :: rest ∧ c ≠ ' ' ∧ kindOf c = a.kind := by
  cases a with
  | number x =>
    obtain ⟨n, rfl⟩ := ha
    obtain ⟨-, c, rest, htext, hc⟩ := Number.text_ofNat_chars n
    have hother {d : Char} (hd : d.isDigit = false) (hI : d ≠ 'I') : c ≠ d := by
      rintro rfl
      rcases hc with hc | rfl
      · rw [hd] at hc
        cases hc
      · exact hI rfl
    have hquote : c ≠ '"' := hother (by decide) (by decide)
    have hword : c ≠ 'W' := hother (by decide) (by decide)
    have happly : c ≠ 'A' := hother (by decide) (by decide)
    refine ⟨c, rest ++ [' '], by rw [chars, htext, List.cons_append],
      hother (by decide) (by decide), ?_⟩
    rw [kindOf, if_neg hquote, if_neg hword, if_neg happly]
    rfl
  | text x => exact ⟨'"', _, rfl, by decide, rfl⟩
  | word x => exact ⟨'W', _, rfl, by decide, rfl⟩
  | apply => exact ⟨'A', _, rfl, by decide, rfl⟩

theorem append_inj (ha : a.Plain) (hb : b.Plain) (h : a.chars ++ x = b.chars ++ y) :
    a = b ∧ x = y := by
  have hkind : a.kind = b.kind := by
    obtain ⟨c, rest, hca, -, hkind⟩ := exists_first ha
    obtain ⟨d, rest', hdb, -, hkind'⟩ := exists_first hb
    rw [hca, hdb] at h
    rw [← hkind, ← hkind', (List.cons.inj h).1]
  cases a with
  | number v =>
    cases b with
    | number w =>
      obtain ⟨m, rfl⟩ := ha
      obtain ⟨n, rfl⟩ := hb
      simp only [chars, List.append_assoc, List.singleton_append] at h
      obtain ⟨htext, hxy⟩ := run_until h (Number.text_ofNat_chars m).1 (Number.text_ofNat_chars n).1
      rw [Number.text_ofNat_inj (String.toList_inj.1 htext)]
      exact ⟨rfl, hxy⟩
    | _ => cases hkind
  | text v =>
    cases b with
    | text w =>
      simp only [chars, List.cons_append, List.append_assoc, List.cons.injEq, true_and] at h
      obtain ⟨htext, hxy⟩ := run_until h ha hb
      rw [String.toList_inj.1 htext]
      exact ⟨rfl, (List.cons.inj hxy).2⟩
    | _ => cases hkind
  | word v =>
    cases b with
    | word w =>
      simp only [chars, List.append_assoc] at h
      obtain ⟨hname, hxy⟩ := run_until (List.append_cancel_left h) ha hb
      rw [String.toList_inj.1 hname]
      exact ⟨rfl, (List.cons.inj hxy).2⟩
    | _ => cases hkind
  | apply =>
    cases b with
    | apply => exact ⟨rfl, List.append_cancel_left h⟩
    | _ => cases hkind

end Heading

/-- A span that is written before something other than a digit. -/
theorem Span.append_inj {s t : Span} {x y : List Char} (hx : ∀ c ∈ x.head?, c.isDigit = false)
    (hy : ∀ c ∈ y.head?, c.isDigit = false) (h : s.text.toList ++ x = t.text.toList ++ y) :
    s = t ∧ x = y := by
  have htext (s : Span) :
      s.text.toList = Nat.toDigits 10 s.start ++ '.' :: '.' :: Nat.toDigits 10 s.stop := by
    simp [Span.text]
  have hdot (z : List Char) : ∀ c ∈ ('.' :: z).head?, c.isDigit = false := by simp
  rw [htext, htext, List.append_assoc, List.append_assoc, List.cons_append, List.cons_append,
    List.cons_append, List.cons_append] at h
  obtain ⟨hstart, h⟩ :=
    run_unique h isDigit_of_mem_toDigits isDigit_of_mem_toDigits (hdot _) (hdot _)
  simp only [List.cons.injEq, true_and] at h
  obtain ⟨hstop, hxy⟩ := run_unique h isDigit_of_mem_toDigits isDigit_of_mem_toDigits hx hy
  obtain ⟨start, stop⟩ := s
  obtain ⟨start', stop'⟩ := t
  obtain rfl : start = start' := toDigits_inj.1 hstart
  obtain rfl : stop = stop' := toDigits_inj.1 hstop
  exact ⟨rfl, hxy⟩

/-! ## Trees that were read -/

namespace Tree

mutual

/-- The leaves of the tree are such as are read. -/
def Plain : Tree → Prop
  | number x => (Heading.number x).Plain
  | text x => (Heading.text x).Plain
  | word x => (Heading.word x).Plain
  | apply f xs => Plain f ∧ PlainAll xs

/-- The leaves of all these trees are such as are read. -/
def PlainAll : List Tree → Prop
  | [] => True
  | x :: xs => Plain x ∧ PlainAll xs

end

theorem PlainAll.snoc {ts : List Tree} {t : Tree} (hts : PlainAll ts) (ht : t.Plain) :
    PlainAll (ts ++ [t]) := by
  induction ts with
  | nil => exact ⟨ht, trivial⟩
  | cons x xs ih => exact ⟨hts.1, ih hts.2⟩

end Tree

mutual

/-- What can be written is read as a tree of plain leaves. -/
theorem Layout.plain : ∀ {t : Tree} {l : List Char}, Layout t l → t.Plain
  | _, _, .text hc => by
    rw [Tree.Plain, Heading.Plain, String.toList_ofList]
    exact hc
  | _, _, .number _ _ => ⟨_, rfl⟩
  | _, _, .word hw => by
    rw [Tree.Plain, Heading.Plain, String.toList_ofList]
    rintro c hc rfl
    exact absurd (hw.chars _ hc) (by decide)
  | _, _, .call ho _ _ => ⟨ho.plain, trivial⟩
  | _, _, .apply ho _ _ hi _ _ => ⟨ho.plain, hi.plain⟩

theorem Items.plain : ∀ {ts : List Tree} {l : List Char}, Items ts l → Tree.PlainAll ts
  | _, _, .one ht => ⟨ht.plain, trivial⟩
  | _, _, .more hi _ _ ht => hi.plain.snoc ht.plain

end

/-! ## Nodes -/

namespace Node

/-- What the line of a node says about it. -/
def heading : Node → Heading
  | number x _ => .number x
  | text x _ => .text x
  | word x _ => .word x
  | apply _ _ _ => .apply

/-- The lines below the line of a node. -/
def lower (indent : Nat) : Node → List Char
  | apply f xs _ =>
    '\n' :: ((outline (indent + 2) f).toList ++ (outlineAll (indent + 2) xs).toList)
  | _ => []

/-- A node as its line and the lines below it. -/
theorem toList_outline (indent : Nat) (n : Node) : (n.outline indent).toList =
    List.replicate indent ' ' ++
      (n.heading.chars ++ (n.span.text.toList ++ n.lower indent)) := by
  cases n <;> simp [outline, heading, Heading.chars, span, lower, Text.blanks]

theorem toList_outlineAll (indent : Nat) (x : Node) (xs : List Node) :
    (outlineAll indent (x :: xs)).toList =
      '\n' :: ((x.outline indent).toList ++ (outlineAll indent xs).toList) := by
  simp [outlineAll]

theorem plain_heading {n : Node} (hn : n.tree.Plain) : n.heading.Plain := by
  cases n with
  | number | text | word => exact hn
  | apply => trivial

/-! ## What follows an outline -/

/-- Nothing follows, or a line that is indented by so many blanks at most. -/
inductive Outdented (indent : Nat) : List Char → Prop
  | nil : Outdented indent []
  | line {j : Nat} {c : Char} {rest : List Char} (hj : j ≤ indent) (hc : c ≠ ' ') :
      Outdented indent ('\n' :: (List.replicate j ' ' ++ c :: rest))

variable {indent : Nat} {r r' : List Char}

theorem Outdented.mono {j : Nat} (hr : Outdented j r) (h : j ≤ indent) : Outdented indent r := by
  cases hr with
  | nil => exact .nil
  | line hj hc => exact .line (hj.trans h) hc

theorem Outdented.head_not_digit (hr : Outdented indent r) :
    ∀ c ∈ r.head?, c.isDigit = false := by
  cases hr <;> simp

/-- The line of a node starts with its blanks and no more. -/
theorem exists_line {n : Node} (hn : n.tree.Plain) (indent : Nat) :
    ∃ c rest, (n.outline indent).toList = List.replicate indent ' ' ++ c :: rest ∧ c ≠ ' ' := by
  obtain ⟨c, rest, hchars, hc, -⟩ := Heading.exists_first (plain_heading hn)
  exact ⟨c, _, by rw [toList_outline, hchars, List.cons_append], hc⟩

theorem outdented_outlineAll {xs : List Node} (hxs : Tree.PlainAll (treeAll xs))
    (hr : Outdented indent r) : Outdented indent ((outlineAll indent xs).toList ++ r) := by
  cases xs with
  | nil => exact hr
  | cons x xs =>
    obtain ⟨c, rest, hline, hc⟩ := exists_line hxs.1 indent
    rw [toList_outlineAll, hline]
    simp only [List.cons_append, List.append_assoc]
    exact .line le_rfl hc

/-- A line that is indented further than an argument list is not what follows it. -/
theorem not_outdented {j : Nat} (hj : j < indent) {n : Node} (hn : n.tree.Plain) :
    ¬ Outdented j ('\n' :: ((n.outline indent).toList ++ r)) := by
  intro h
  obtain ⟨c, rest, hline, hc⟩ := exists_line hn indent
  rw [hline] at h
  generalize hz : '\n' :: (List.replicate indent ' ' ++ c :: rest ++ r) = z at h
  cases h with
  | nil => cases hz
  | @line i d rest' hi hd =>
    rw [List.append_assoc, List.cons_append] at hz
    have hblank (k : Nat) : ∀ b ∈ List.replicate k ' ', (b == ' ') = true := by simp
    obtain ⟨hlen, -⟩ := run_unique (List.cons.inj hz).2 (hblank indent) (hblank i)
      (by simpa using hc) (by simpa using hd)
    have := congrArg List.length hlen
    rw [List.length_replicate, List.length_replicate] at this
    omega

/-! ## Decoding -/

/-- The line of a node tells what it says, and where it ends. -/
theorem line_inj {s t : Node} (hs : s.tree.Plain) (ht : t.tree.Plain) (hr : Outdented indent r)
    (hr' : Outdented indent r')
    (h : (s.outline indent).toList ++ r = (t.outline indent).toList ++ r') :
    s.heading = t.heading ∧ s.span = t.span ∧ s.lower indent ++ r = t.lower indent ++ r' := by
  have hlower (n : Node) {z : List Char} (hz : Outdented indent z) :
      ∀ c ∈ (n.lower indent ++ z).head?, c.isDigit = false := by
    cases n with
    | apply => simp [lower]
    | number | text | word => exact hz.head_not_digit
  simp only [toList_outline, List.append_assoc] at h
  obtain ⟨hheading, hrest⟩ :=
    Heading.append_inj (plain_heading hs) (plain_heading ht) (List.append_cancel_left h)
  obtain ⟨hspan, hlower⟩ := Span.append_inj (hlower s hr) (hlower t hr') hrest
  exact ⟨hheading, hspan, hlower⟩

/-- The outline of a leaf is its line. -/
theorem leaf_inj {s t : Node} (hleaf : s.heading ≠ .apply) (hs : s.tree.Plain) (ht : t.tree.Plain)
    (hr : Outdented indent r) (hr' : Outdented indent r')
    (h : (s.outline indent).toList ++ r = (t.outline indent).toList ++ r') : s = t ∧ r = r' := by
  obtain ⟨hheading, hspan, hrest⟩ := line_inj hs ht hr hr' h
  cases s with
  | apply => exact absurd rfl hleaf
  | number | text | word =>
    cases t <;> cases hheading
    cases hspan
    exact ⟨rfl, hrest⟩

mutual

/-- An outline before something that is not indented further determines its tree, and where it
    ends. -/
theorem outline_append_inj : ∀ {s t : Node} {indent : Nat} {r r' : List Char}, s.tree.Plain →
    t.tree.Plain → Outdented indent r → Outdented indent r' →
    (s.outline indent).toList ++ r = (t.outline indent).toList ++ r' → s = t ∧ r = r'
  | .number _ _, _, _, _, _, hs, ht, hr, hr', h => leaf_inj Heading.noConfusion hs ht hr hr' h
  | .text _ _, _, _, _, _, hs, ht, hr, hr', h => leaf_inj Heading.noConfusion hs ht hr hr' h
  | .word _ _, _, _, _, _, hs, ht, hr, hr', h => leaf_inj Heading.noConfusion hs ht hr hr' h
  | .apply f xs p, t, indent, r, r', hs, ht, hr, hr', h => by
    obtain ⟨hheading, hspan, h⟩ := line_inj hs ht hr hr' h
    cases t with
    | number | text | word => cases hheading
    | apply g ys q =>
      cases hspan
      have hdeep : Outdented (indent + 2) r := hr.mono (by omega)
      have hdeep' : Outdented (indent + 2) r' := hr'.mono (by omega)
      simp only [lower, List.cons_append, List.append_assoc, List.cons.injEq, true_and] at h
      obtain ⟨rfl, harguments⟩ := outline_append_inj hs.1 ht.1 (outdented_outlineAll hs.2 hdeep)
        (outdented_outlineAll ht.2 hdeep') h
      obtain ⟨rfl, hend⟩ :=
        outlineAll_append_inj hs.2 ht.2 (Nat.lt_add_of_pos_right two_pos) hr hr' harguments
      exact ⟨rfl, hend⟩

/-- An argument list ends where a line is indented less than its arguments. -/
theorem outlineAll_append_inj : ∀ {xs ys : List Node} {j indent : Nat} {r r' : List Char},
    Tree.PlainAll (treeAll xs) → Tree.PlainAll (treeAll ys) → j < indent → Outdented j r →
    Outdented j r' →
    (outlineAll indent xs).toList ++ r = (outlineAll indent ys).toList ++ r' → xs = ys ∧ r = r'
  | [], [], _, _, _, _, _, _, _, _, _, h => ⟨rfl, h⟩
  | [], y :: ys, j, indent, r, r', _, hys, hj, hr, _, h => by
    obtain rfl : r = _ := h
    rw [toList_outlineAll, List.cons_append, List.append_assoc] at hr
    exact absurd hr (not_outdented hj hys.1)
  | x :: xs, [], j, indent, r, r', hxs, _, hj, _, hr', h => by
    obtain rfl : _ = r' := h
    rw [toList_outlineAll, List.cons_append, List.append_assoc] at hr'
    exact absurd hr' (not_outdented hj hxs.1)
  | x :: xs, y :: ys, j, indent, r, r', hxs, hys, hj, hr, hr', h => by
    rw [toList_outlineAll, toList_outlineAll] at h
    simp only [List.cons_append, List.append_assoc, List.cons.injEq, true_and] at h
    obtain ⟨rfl, hothers⟩ := outline_append_inj hxs.1 hys.1
      (outdented_outlineAll hxs.2 (hr.mono hj.le)) (outdented_outlineAll hys.2 (hr'.mono hj.le)) h
    obtain ⟨rfl, hend⟩ := outlineAll_append_inj hxs.2 hys.2 hj hr hr' hothers
    exact ⟨rfl, hend⟩

end

/-! ## Equality -/

mutual

/-- Trees of leaves that were read are equal if they have the same parts. -/
theorem same_iff : ∀ {s t : Node}, s.tree.Plain → t.tree.Plain → (s.same t = true ↔ s = t)
  | .number x p, t, hs, ht => by
    cases t with
    | number y q =>
      obtain ⟨m, rfl⟩ := hs
      obtain ⟨n, rfl⟩ := ht
      simp [same, Number.ofNat_beq_iff]
    | _ => simp [same]
  | .text x p, t, _, _ => by cases t <;> simp [same]
  | .word x p, t, _, _ => by cases t <;> simp [same]
  | .apply f xs p, t, hs, ht => by
    cases t with
    | apply g ys q => simp [same, same_iff hs.1 ht.1, sameAll_iff hs.2 ht.2, and_assoc]
    | _ => simp [same]

theorem sameAll_iff : ∀ {xs ys : List Node}, Tree.PlainAll (treeAll xs) →
    Tree.PlainAll (treeAll ys) → (sameAll xs ys = true ↔ xs = ys)
  | [], [], _, _ => by simp [sameAll]
  | [], _ :: _, _, _ => by simp [sameAll]
  | _ :: _, [], _, _ => by simp [sameAll]
  | x :: xs, y :: ys, hxs, hys => by
    simp [sameAll, same_iff hxs.1 hys.1, sameAll_iff hxs.2 hys.2]

end

end Node

/-- Outlines lose nothing: two texts that are read have equal outlines, indented alike, if and only
    if they are read as equal trees, spans included. -/
theorem outline_eq_iff_same {a b : String} {s t : Node} (ha : parse a = .ok s) (hb : parse b = .ok t)
    (indent : Nat) : s.outline indent = t.outline indent ↔ s.same t = true := by
  obtain ⟨_, l, _, -, -, hl, -⟩ := layout_of_parse ha
  obtain ⟨_, l', _, -, -, hl', -⟩ := layout_of_parse hb
  rw [Node.same_iff hl.plain hl'.plain]
  constructor
  · intro h
    have hchars : (s.outline indent).toList ++ [] = (t.outline indent).toList ++ [] := by rw [h]
    exact (Node.outline_append_inj hl.plain hl'.plain .nil .nil hchars).1
  · rintro rfl
    rfl

/-- A text with a line break inside, and a blank more before the closing bracket. -/
theorem outline_eq_iff_same_of_call : ∃ s t, parse "f(\"a\nb\")" = .ok s ∧
    parse "f(\"a\nb\" )" = .ok t ∧ s.outline 4 ≠ t.outline 4 := by
  have ha : parse "f(\"a\nb\")" =
      .ok (.apply (.word "f" ⟨0, 1⟩) [.text "a\nb" ⟨2, 7⟩] ⟨0, 8⟩) := rfl
  have hb : parse "f(\"a\nb\" )" =
      .ok (.apply (.word "f" ⟨0, 1⟩) [.text "a\nb" ⟨2, 7⟩] ⟨0, 9⟩) := rfl
  exact ⟨_, _, ha, hb, fun h => absurd ((outline_eq_iff_same ha hb 4).1 h) (by decide)⟩

end ApplyLang
