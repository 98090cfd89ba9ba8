import ApplyLang.Proofs.Source.Parsing
import ApplyLang.Proofs.Source.Tokens
import Mathlib.Order.MinMax

/-!
# Where nodes stand

The span of a node covers the characters that the node was read from, and nothing else: cut out of
the text they are a program, and this program is the node.

* `Span.Covers` — a piece of a text and the bytes it takes.
* `Built.span_eq` — a node reaches from its first token to its last.
* `tokens_of_has` — the tokens of a node are the tokens of the piece that its span covers.
* `parse_slice` — the piece is read as the node, and its parts stand inside, one after the other.

A parser copies and compares positions, and does nothing else with them
(`Parser.exists_of_feedAll_moved`), so a piece is read alike wherever it stands.
-/

namespace ApplyLang

open ApplyLang.Text (byteLength byteLength_append)

/-- A span covers a piece of a text: what comes before the piece takes the bytes before the span. -/
def Span.Covers (s : Span) (text piece : List Char) : Prop :=
  ∃ before after, text = before ++ piece ++ after ∧ s.start = byteLength before ∧
    s.stop = byteLength before + byteLength piece

/-! ## Nodes that are moved -/

/-- A span with its ends moved. -/
def Span.moved (f : Nat → Nat) (s : Span) : Span :=
  ⟨f s.start, f s.stop⟩

theorem Span.moved_join {f : Nat → Nat} (hf : Monotone f) (s t : Span) :
    (s.join t).moved f = (s.moved f).join (t.moved f) := by
  simp [join, moved, hf.map_min, hf.map_max]

/-- A token at another place. -/
def Token.moved (f : Nat → Nat) (t : Token) : Token :=
  ⟨t.symbol, t.span.moved f⟩

namespace Node

mutual

/-- A node at another place. -/
def moved (f : Nat → Nat) : Node → Node
  | number x s => .number x (s.moved f)
  | text x s => .text x (s.moved f)
  | word x s => .word x (s.moved f)
  | apply g xs s => .apply (moved f g) (movedAll f xs) (s.moved f)

/-- Nodes at another place. -/
def movedAll (f : Nat → Nat) : List Node → List Node
  | [] => []
  | x :: xs => moved f x :: movedAll f xs

end

theorem movedAll_eq_map (f : Nat → Nat) (nodes : List Node) :
    movedAll f nodes = nodes.map (moved f) := by
  induction nodes with
  | nil => rfl
  | cons x xs ih => rw [movedAll, ih, List.map_cons]

theorem span_moved (f : Nat → Nat) (n : Node) : (n.moved f).span = n.span.moved f := by
  cases n <;> rfl

end Node

/-- An open argument list at another place. -/
def Opened.moved (f : Nat → Nat) (o : Opened) : Opened :=
  ⟨o.operator.moved f, f o.bracket, o.arguments.map (Node.moved f)⟩

theorem Opened.close_moved {f : Nat → Nat} (hf : Monotone f) (o : Opened) (stop : Nat) :
    (o.moved f).close (f stop) = (o.close stop).moved f := by
  simp only [close, moved, Node.moved, Node.movedAll_eq_map, Node.span_moved, Span.moved_join hf,
    List.map_reverse]
  rfl

namespace Parser

/-- A parser that has read the same at another place. -/
def moved (f : Nat → Nat) (q : Parser) : Parser :=
  ⟨q.opened.map (Opened.moved f), q.current.map (Node.moved f)⟩

theorem leaf?_moved (f : Nat → Nat) (t : Token) :
    leaf? (t.moved f) = (leaf? t).map (Node.moved f) := by
  obtain ⟨symbol, span⟩ := t
  cases symbol <;> rfl

variable {f : Nat → Nat} {q q' : Parser} {t : Token} {ts : List Token}

/-- A token that is read at another place is read here. -/
theorem exists_of_feed_moved (hmono : Monotone f) (hf : (q.moved f).feed (t.moved f) = .ok q') :
    ∃ q₁, q.feed t = .ok q₁ ∧ q₁.moved f = q' := by
  obtain ⟨opened, current⟩ := q
  cases current with
  | none =>
    cases hleaf : leaf? t with
    | some n =>
      have hmoved : leaf? (t.moved f) = some (n.moved f) := by
        rw [leaf?_moved, hleaf, Option.map_some]
      refine ⟨_, feed_leaf hleaf, ?_⟩
      rw [moved, Option.map_none, feed_leaf hmoved] at hf
      exact Except.ok.inj hf
    | none =>
      obtain ⟨symbol, span⟩ := t
      cases symbol with
      | text | number | word => cases hleaf
      | opening | separator | unclosed => cases hf
      | closing =>
        cases opened with
        | nil => cases hf
        | cons innermost outer =>
          refine ⟨_, rfl, ?_⟩
          rw [← Except.ok.inj hf]
          simp [moved, ← Opened.close_moved hmono, Token.moved, Span.moved]
  | some n =>
    obtain ⟨symbol, span⟩ := t
    cases symbol with
    | text | number | word | unclosed => cases hf
    | opening => exact ⟨_, rfl, Except.ok.inj hf⟩
    | separator =>
      cases opened with
      | nil => cases hf
      | cons innermost outer => exact ⟨_, rfl, Except.ok.inj hf⟩
    | closing =>
      cases opened with
      | nil => cases hf
      | cons innermost outer =>
        refine ⟨_, rfl, ?_⟩
        rw [← Except.ok.inj hf]
        simp only [moved, Option.map_some, ← Opened.close_moved hmono]
        rfl

theorem exists_of_feedAll_moved (hmono : Monotone f)
    (hf : (q.moved f).feedAll (ts.map (Token.moved f)) = .ok q') :
    ∃ q₁, q.feedAll ts = .ok q₁ ∧ q₁.moved f = q' := by
  induction ts generalizing q with
  | nil => exact ⟨q, rfl, Except.ok.inj hf⟩
  | cons t ts ih =>
    obtain ⟨q₁, hfirst, hrest⟩ := exists_of_feedAll hf
    obtain ⟨q₂, hfeed, rfl⟩ := exists_of_feed_moved hmono hfirst
    obtain ⟨q₃, hfeedAll, rfl⟩ := ih hrest
    refine ⟨q₃, ?_, rfl⟩
    rw [feedAll, hfeed]
    exact hfeedAll

end Parser

/-- A text begins with the same tokens wherever it stands. -/
theorem SpelledBefore.lower {next : Option Char} {d p : Nat} {ts : List Token} {x : List Char}
    (hx : SpelledBefore next (d + p) ts x) :
    ∃ ts₀, ts = ts₀.map (Token.moved (d + ·)) ∧ SpelledBefore next p ts₀ x := by
  generalize hd : d + p = p' at hx
  induction hx generalizing p with
  | nil hg => exact ⟨[], rfl, .nil hg⟩
  | @cons _ s ts g w rest hg hw he _ ih =>
    subst hd
    obtain ⟨ts₀, rfl, hts₀⟩ := ih (Nat.add_assoc _ _ _).symm
    refine ⟨_, ?_, .cons hg hw he hts₀⟩
    simp [Token.moved, Span.moved, Nat.add_assoc]

/-! ## Nodes and their tokens -/

/-- A leaf takes the bytes of its token, and has no parts. -/
theorem Parser.of_leaf? {t : Token} {n : Node} (hn : leaf? t = some n) :
    n.span = t.span ∧ n.parts = [] := by
  obtain ⟨symbol, span⟩ := t
  cases symbol with
  | text | number | word =>
    cases hn
    exact ⟨rfl, rfl⟩
  | opening | closing | separator | unclosed => cases hn

/-- A node reaches from its first token to its last. -/
theorem Built.span_eq : ∀ {ts : List Token} {n : Node}, Built ts n → Token.InOrder ts →
    ∃ first ∈ ts.head?, ∃ last ∈ ts.getLast?, n.span = ⟨first.span.start, last.span.stop⟩
  | _, _, @Built.leaf t _ hn, _ => ⟨t, rfl, t, rfl, (Parser.of_leaf? hn).1⟩
  | _, _, @Built.apply os args operator arguments t t' ho _ _ _, hts => by
    have htokens : Token.InOrder (os ++ (t :: args ++ [t'])) := by rwa [List.append_assoc] at hts
    obtain ⟨first, hfirst, last, hlast, hspan⟩ :=
      ho.span_eq (htokens.part (List.prefix_append _ _).isInfix)
    refine ⟨first, ?_, t', List.getLast?_concat, ?_⟩
    · rw [List.append_assoc, List.head?_append, hfirst]
      rfl
    · rw [Node.span, hspan]
      exact htokens.join_eq hfirst hlast List.mem_cons_self List.mem_concat_self
  | _, _, @Built.applyLast os args ls operator last arguments t t' ho _ _ _ _, hts => by
    have htokens : Token.InOrder (os ++ (t :: args ++ ls ++ [t'])) := by
      rwa [List.append_assoc, List.append_assoc, ← List.append_assoc (t :: args)] at hts
    obtain ⟨first, hfirst, last, hlast, hspan⟩ :=
      ho.span_eq (htokens.part (List.prefix_append _ _).isInfix)
    refine ⟨first, ?_, t', List.getLast?_concat, ?_⟩
    · rw [List.append_assoc, List.append_assoc, List.head?_append, hfirst]
      rfl
    · rw [Node.span, hspan]
      exact htokens.join_eq hfirst hlast List.mem_cons_self List.mem_concat_self

/-- Nodes whose tokens stand among others, those of one node after those of the other. -/
inductive Among : List Node → List Token → Prop
  | nil {ts : List Token} : Among [] ts
  | cons {n : Node} {ns : List Node} {before ts rest : List Token} (hn : Built ts n)
      (hns : Among ns rest) : Among (n :: ns) (before ++ ts ++ rest)

namespace Among

variable {n : Node} {ns : List Node} {ts us : List Token}

theorem mono (hns : Among ns ts) (hts : ts <:+: us) : Among ns us := by
  induction hns generalizing us with
  | nil => exact .nil
  | @cons n ns before ts rest hn _ ih =>
    obtain ⟨s, t, rfl⟩ := hts
    have hlonger : Among (n :: ns) (s ++ before ++ ts ++ (rest ++ t)) :=
      .cons hn (ih (List.prefix_append rest t).isInfix)
    simpa using hlonger

theorem snoc (hns : Among ns ts) (hn : Built us n) : Among (ns ++ [n]) (ts ++ us) := by
  induction hns with
  | @nil ts =>
    have honly : Among [n] (ts ++ us ++ []) := .cons hn .nil
    simpa using honly
  | cons hfirst _ ih =>
    rw [List.append_assoc]
    exact .cons hfirst ih

/-- The tokens of each of the nodes are consecutive. -/
theorem part (hns : Among ns ts) (hn : n ∈ ns) : ∃ us, us <:+: ts ∧ Built us n := by
  induction hns with
  | nil => cases hn
  | @cons first ns before ts rest hfirst _ ih =>
    rcases List.mem_cons.mp hn with rfl | hn
    · exact ⟨ts, List.infix_append _ _ _, hfirst⟩
    · obtain ⟨us, hus, hn⟩ := ih hn
      exact ⟨us, hus.trans (List.suffix_append _ _).isInfix, hn⟩

/-- The nodes stand one after the other. -/
theorem ordered (hns : Among ns ts) (hts : Token.InOrder ts) :
    ns.Pairwise fun a b => a.span.stop ≤ b.span.start := by
  induction hns with
  | nil => exact .nil
  | @cons n ns before ts rest hn hns ih =>
    have hrest := hts.part (List.suffix_append (before ++ ts) rest).isInfix
    have hlt := (List.pairwise_append.mp hts.ordered).2.2
    refine .cons (fun m hm => ?_) (ih hrest)
    obtain ⟨us, hus, hm⟩ := hns.part hm
    obtain ⟨_, _, last, hlast, hnspan⟩ := hn.span_eq (hts.part (List.infix_append _ _ _))
    obtain ⟨first, hfirst, _, _, hmspan⟩ := hm.span_eq (hrest.part hus)
    rw [hnspan, hmspan]
    exact hlt last (List.mem_append_right _ (List.mem_of_getLast? hlast)) first
      (hus.subset (List.mem_of_head? hfirst))

end Among

theorem BuiltArguments.among : ∀ {ts : List Token} {arguments : List Node},
    BuiltArguments ts arguments → Among arguments ts
  | _, _, .nil => .nil
  | _, _, .snoc ha hn _ => (ha.among.snoc hn).mono (List.prefix_append _ _).isInfix

/-- The tokens of the parts of a node stand among its own. -/
theorem Built.among {ts : List Token} {n : Node} (hb : Built ts n) : Among n.parts ts := by
  cases hb with
  | leaf hn =>
    rw [(Parser.of_leaf? hn).2]
    exact .nil
  | @apply os args operator arguments t t' ho _ ha _ =>
    have hparts : Among (operator :: arguments) ([] ++ os ++ (t :: args ++ [t'])) :=
      .cons ho (ha.among.mono ⟨[t], [t'], rfl⟩)
    simpa [Node.parts] using hparts
  | @applyLast os args ls operator last arguments t t' ho _ ha hl _ =>
    have hparts : Among (operator :: (arguments ++ [last]))
        ([] ++ os ++ (t :: (args ++ ls) ++ [t'])) :=
      .cons ho ((ha.among.snoc hl).mono ⟨[t], [t'], rfl⟩)
    simpa [Node.parts] using hparts

/-- The tokens of every node of a program are consecutive. -/
theorem Built.has {ts : List Token} {program n : Node} (hb : Built ts program)
    (hn : program.Has n) : ∃ us, us <:+: ts ∧ Built us n := by
  induction hn with
  | self => exact ⟨ts, List.infix_rfl, hb⟩
  | part _ hp ih =>
    obtain ⟨us, hus, hn⟩ := ih
    obtain ⟨vs, hvs, hp⟩ := hn.among.part hp
    exact ⟨vs, hvs.trans hus, hp⟩

/-! ## Programs -/

/-- A program is built from its tokens. -/
theorem tokens_of_parse {src : String} {program : Node} (hp : parse src = .ok program) :
    ∃ ts x y, src.toList = x ++ y ∧ SpelledBefore y.head? 0 ts x ∧ Built ts program := by
  have hfeed := parse_eq_ok_iff.mp hp
  have hspelled : Spelled 0 (Token.scan src.toList ++ []) src.toList := by
    rw [List.append_nil]
    exact Token.spelled_scan _
  obtain ⟨x, y, hsrc, hx, -, -⟩ := hspelled.split (Parser.not_unclosed_of_feedAll hfeed)
  have htook := (Parser.Took.before .nil).feedAll hfeed
  generalize htokens : [] ++ Token.scan src.toList = ts at htook
  cases htook with
  | after hb hn =>
    cases hb with
    | nil =>
      rw [List.nil_append, List.nil_append] at htokens
      exact ⟨_, x, y, hsrc, hx, htokens ▸ hn⟩

/-- A node of a program is built from the tokens of the piece of the text that its span covers. -/
theorem tokens_of_has {src : String} {program n : Node} (hp : parse src = .ok program)
    (hn : program.Has n) :
    ∃ piece next ts, n.span.Covers src.toList piece ∧ Built ts n ∧
      SpelledBefore next n.span.start ts piece := by
  obtain ⟨all, x, y, hsrc, hx, hb⟩ := tokens_of_parse hp
  obtain ⟨ts, hts, hn⟩ := hb.has hn
  obtain ⟨first, hfirst, last, hlast, hspan⟩ := hn.span_eq (hx.inOrder.2.part hts)
  obtain ⟨s, t, rfl⟩ := hts
  obtain ⟨before, piece, z, rfl, hpiece, hstart, hstop⟩ := hx.slice hfirst hlast
  rw [Nat.zero_add] at hpiece hstart hstop
  rw [hspan, hstart, hstop, byteLength_append]
  refine ⟨piece, _, ts, ⟨before, z ++ y, ?_, rfl, rfl⟩, hn, hpiece⟩
  rw [hsrc, List.append_assoc]

namespace Built

variable {next : Option Char} {p : Nat} {ts : List Token} {n : Node} {piece : List Char}

/-- A node takes up some bytes, and all its tokens are within them. -/
theorem encloses (hb : Built ts n) (hpiece : SpelledBefore next p ts piece) :
    n.span.start < n.span.stop ∧
      ∀ t ∈ ts, n.span.start ≤ t.span.start ∧ t.span.stop ≤ n.span.stop := by
  have hts := hpiece.inOrder.2
  obtain ⟨first, hfirst, last, hlast, hspan⟩ := hb.span_eq hts
  have hbetween : ∀ t ∈ ts, first.span.start ≤ t.span.start ∧ t.span.stop ≤ last.span.stop :=
    fun t ht => hts.between hfirst hlast ht
  have hmem := List.mem_of_head? hfirst
  rw [hspan]
  exact ⟨Nat.lt_of_lt_of_le (hts.positive first hmem) (hbetween first hmem).2, hbetween⟩

/-- The parts of a node stand inside it. -/
theorem parts_inside (hb : Built ts n) (hpiece : SpelledBefore next p ts piece) :
    ∀ m ∈ n.parts, n.span.start ≤ m.span.start ∧ m.span.stop ≤ n.span.stop := by
  intro m hm
  obtain ⟨us, hus, hm⟩ := hb.among.part hm
  obtain ⟨u, hu, v, hv, hspan⟩ := hm.span_eq (hpiece.inOrder.2.part hus)
  obtain ⟨-, htokens⟩ := hb.encloses hpiece
  rw [hspan]
  exact ⟨(htokens u (hus.subset (List.mem_of_head? hu))).1,
    (htokens v (hus.subset (List.mem_of_getLast? hv))).2⟩

/-- The characters of a node are a program of their own: the node, moved to the beginning. -/
theorem parse_piece (hb : Built ts n) (hpiece : SpelledBefore next p ts piece) :
    ∃ m, parse (String.ofList piece) = .ok m ∧ m.moved (p + ·) = n := by
  obtain ⟨ts₀, rfl, hts₀⟩ := SpelledBefore.lower (p := 0) hpiece
  obtain ⟨⟨opened, current⟩, hfeed, hmoved⟩ :=
    Parser.exists_of_feedAll_moved (q := Parser.start) (fun _ _ h => Nat.add_le_add_left h p)
      (hb.reads [])
  obtain ⟨hopened, hcurrent⟩ := Parser.mk.inj hmoved
  obtain ⟨m, rfl, hm⟩ := Option.map_eq_some_iff.mp hcurrent
  rw [List.map_eq_nil_iff] at hopened
  subst hopened
  refine ⟨m, parse_eq_ok_iff.mpr ?_, hm⟩
  rw [String.toList_ofList, Token.scan, hts₀.scan_end]
  exact hfeed

end Built

/-- A node of a program stands in the text, and takes up some bytes of it. -/
theorem covers_of_has {src : String} {program n : Node} (hp : parse src = .ok program)
    (hn : program.Has n) :
    n.span.start < n.span.stop ∧ ∃ piece, n.span.Covers src.toList piece := by
  obtain ⟨piece, next, ts, hcovers, hb, hpiece⟩ := tokens_of_has hp hn
  exact ⟨(hb.encloses hpiece).1, piece, hcovers⟩

theorem byteLength_eq_zero {x : List Char} (hx : byteLength x = 0) : x = [] := by
  cases x with
  | nil => rfl
  | cons c rest =>
    have hc := c.utf8Size_pos
    rw [byteLength] at hx
    omega

/-- A piece with one token that takes all of it is spelled as this token. -/
theorem SpelledBefore.spells {next : Option Char} {t : Token} {piece : List Char}
    (hpiece : SpelledBefore next t.span.start [t] piece)
    (hstop : t.span.stop = t.span.start + byteLength piece) : Spells t.symbol piece := by
  generalize hp : t.span.start = p at hpiece hstop
  cases hpiece with
  | @cons _ x _ g w rest _ hw _ _ =>
    dsimp only at hp hstop
    rw [byteLength_append, byteLength_append _ rest, byteLength_append] at hstop
    have hg : g = [] := byteLength_eq_zero (by omega)
    have hrest : rest = [] := byteLength_eq_zero (by omega)
    subst hg hrest
    rwa [List.append_nil]

/-- The span of a word covers its name. -/
theorem covers_name {src : String} {program : Node} {name : String} {place : Span}
    (hp : parse src = .ok program) (hn : program.Has (.word name place)) :
    place.Covers src.toList name.toList := by
  obtain ⟨piece, next, ts, hcovers, hb, hpiece⟩ := tokens_of_has hp hn
  have hstop : place.stop = place.start + byteLength piece := by
    obtain ⟨before, after, -, hstart, hstop⟩ := hcovers
    rwa [← hstart] at hstop
  cases hb with
  | @leaf t _ hleaf =>
    obtain ⟨x, s⟩ := t
    cases x with
    | text | number | opening | closing | separator | unclosed => cases hleaf
    | word w =>
      cases hleaf
      have hspells := hpiece.spells hstop
      cases hspells
      rwa [String.toList_ofList]

/-- The span of a node is not empty and covers a piece of the text; the parts of the node stand
    inside it, in order and apart; and the piece is read as the node, with all its spans counted
    from there. -/
theorem parse_slice {src : String} {program n : Node} (hp : parse src = .ok program)
    (hn : program.Has n) :
    n.span.start < n.span.stop ∧
      (∀ m ∈ n.parts, n.span.start ≤ m.span.start ∧ m.span.stop ≤ n.span.stop) ∧
      (n.parts.Pairwise fun a b => a.span.stop ≤ b.span.start) ∧
      ∃ piece, n.span.Covers src.toList piece ∧
        ∃ m, parse (String.ofList piece) = .ok m ∧ m.moved (n.span.start + ·) = n := by
  obtain ⟨piece, next, ts, hcovers, hb, hpiece⟩ := tokens_of_has hp hn
  obtain ⟨hpos, -⟩ := hb.encloses hpiece
  exact ⟨hpos, hb.parts_inside hpiece, hb.among.ordered hpiece.inOrder.2, piece, hcovers,
    hb.parse_piece hpiece⟩

/-- An argument behind a comment, a chain of calls and a character of two bytes. -/
theorem parse_slice_argument :
    ∃ program n, parse "# é\n f(x) (2a, gü(\"b\"),)" = .ok program ∧ program.Has n ∧
      n.span = ⟨16, 24⟩ ∧
      ∃ piece, (⟨16, 24⟩ : Span).Covers "# é\n f(x) (2a, gü(\"b\"),)".toList piece ∧
        ∃ m, parse (String.ofList piece) = .ok m ∧ m.moved (16 + ·) = n := by
  let argument : Node := .apply (.word "gü" ⟨16, 19⟩) [.text "b" ⟨20, 23⟩] ⟨16, 24⟩
  let program : Node := .apply (.apply (.word "f" ⟨6, 7⟩) [.word "x" ⟨8, 9⟩] ⟨6, 10⟩)
    [.word "2a" ⟨12, 14⟩, argument] ⟨6, 26⟩
  have hp : parse "# é\n f(x) (2a, gü(\"b\"),)" = .ok program := rfl
  have hmem : argument ∈ program.parts := by simp [program, Node.parts]
  have hn : program.Has argument := .part .self hmem
  exact ⟨program, argument, hp, hn, rfl, (parse_slice hp hn).2.2.2⟩

end ApplyLang
