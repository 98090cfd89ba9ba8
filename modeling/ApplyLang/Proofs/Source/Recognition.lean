import ApplyLang.Proofs.Source.Parsing
import ApplyLang.Proofs.Source.Tokens

/-!
# What is read was written

A text that is read as a tree is a layout of that tree, with trivia around it.

* `Parser.Has` — the text that stands behind a parser: trivia, then for every open argument list
  the operator, the bracket and the arguments so far, and last the expression just completed.
* `Parser.Has.feed` — a token adds its characters to this text.
* `parse_iff_layout` — a text is read as a tree if and only if it is a layout of it between trivia.
-/

namespace ApplyLang

/-! ## The text behind a parser -/

/-- The text of an argument list from its opening bracket to where another argument may begin. -/
inductive Listed : List Tree → List Char → Prop
  | none {g : List Char} (hg : Trivia g) : Listed [] g
  | some {ts : List Tree} {before items g g' : List Char} (hb : Trivia before)
      (hi : Items ts items) (hg : Trivia g) (hg' : Trivia g') :
      Listed ts (before ++ items ++ g ++ ',' :: g')

/-- The text of the open argument lists, up to where an expression may begin. -/
inductive Before : List Opened → List Char → Prop
  | start {g : List Char} (hg : Trivia g) : Before [] g
  | opened {innermost : Opened} {outer : List Opened} {before o g tail : List Char}
      (hb : Before outer before) (ho : Layout innermost.operator.tree o) (hg : Trivia g)
      (ht : Listed (innermost.arguments.reverse.map Node.tree) tail) :
      Before (innermost :: outer) (before ++ o ++ g ++ '(' :: tail)

namespace Parser

/-- The text that a parser has read. -/
inductive Has : Parser → List Char → Prop
  | before {opened : List Opened} {x : List Char} (hb : Before opened x) : Has ⟨opened, none⟩ x
  | after {opened : List Opened} {node : Node} {x l g : List Char} (hb : Before opened x)
      (hl : Layout node.tree l) (hg : Trivia g) : Has ⟨opened, some node⟩ (x ++ l ++ g)

end Parser

theorem Listed.append {ts : List Tree} {x g : List Char} (hx : Listed ts x) (hg : Trivia g) :
    Listed ts (x ++ g) := by
  cases hx with
  | none hx => exact .none (hx.append hg)
  | some hb hi hc hafter => simpa using Listed.some hb hi hc (hafter.append hg)

theorem Before.append {opened : List Opened} {x g : List Char} (hx : Before opened x)
    (hg : Trivia g) : Before opened (x ++ g) := by
  cases hx with
  | start hx => exact .start (hx.append hg)
  | opened hb ho hc ht => simpa using Before.opened hb ho hc (ht.append hg)

/-- One more argument, and the comma behind it. -/
theorem Listed.separator {ts : List Tree} {t : Tree} {x l g : List Char} (hx : Listed ts x)
    (ht : Layout t l) (hg : Trivia g) : Listed (ts ++ [t]) (x ++ l ++ g ++ [',']) := by
  cases hx with
  | none hx => exact .some hx (.one ht) hg .nil
  | some hb hi hc hafter => simpa using Listed.some hb (.more hi hc hafter ht) hg .nil

/-- One more argument, and the bracket behind it. -/
theorem Listed.apply {operator t : Tree} {ts : List Tree} {o g x l g' : List Char}
    (ho : Layout operator o) (hg : Trivia g) (hx : Listed ts x) (ht : Layout t l)
    (hg' : Trivia g') :
    Layout (.apply operator (ts ++ [t])) (o ++ g ++ '(' :: x ++ l ++ g' ++ [')']) := by
  cases hx with
  | none hx => simpa using Layout.apply ho hg hx (.one ht) .none hg'
  | some hb hi hc hafter =>
    simpa using Layout.apply ho hg hb (.more hi hc hafter ht) .none hg'

/-- The bracket behind the opening bracket, or behind a comma. -/
theorem Listed.close {operator : Tree} {ts : List Tree} {o g x : List Char}
    (ho : Layout operator o) (hg : Trivia g) (hx : Listed ts x) :
    Layout (.apply operator ts) (o ++ g ++ '(' :: x ++ [')']) := by
  cases hx with
  | none hx => exact .call ho hg hx
  | some hb hi hc hafter => simpa using Layout.apply ho hg hb hi (.some hc) hafter

namespace Parser

variable {q q' : Parser}

theorem Has.append {x g : List Char} (hq : Has q x) (hg : Trivia g) : Has q (x ++ g) := by
  cases hq with
  | before hb => exact .before (hb.append hg)
  | after hb hl hc =>
    rw [List.append_assoc]
    exact .after hb hl (hc.append hg)

/-- A leaf has the token's characters as a layout. -/
theorem layout_leaf {t : Token} {node : Node} {w : List Char} (hn : leaf? t = some node)
    (hw : Spells t.symbol w) : Layout node.tree w := by
  obtain ⟨symbol, span⟩ := t
  cases hw with
  | text hc => cases hn; exact .text hc
  | number hne hd => cases hn; exact .number hne hd
  | word hw => cases hn; exact .word hw
  | opening | closing | separator | unclosed => cases hn

/-- A bracket closes an argument list in which an argument is missing or may be missing. -/
theorem Has.close {innermost : Opened} {outer : List Opened} {x : List Char}
    (hx : Before (innermost :: outer) x) (stop : Nat) :
    Has ⟨outer, some (innermost.close stop)⟩ (x ++ [')']) := by
  cases hx with
  | opened hb ho hg ht =>
    have hl := ht.close ho hg
    rw [← tree_close innermost stop] at hl
    simpa using Has.after hb hl .nil

/-- A bracket closes an argument list behind an argument. -/
theorem Has.closeLast {innermost : Opened} {last : Node} {outer : List Opened}
    {x l g : List Char} (hx : Before (innermost :: outer) x) (hl : Layout last.tree l)
    (hg : Trivia g) (stop : Nat) :
    Has ⟨outer, some
        (Opened.close { innermost with arguments := last :: innermost.arguments } stop)⟩
      (x ++ l ++ g ++ [')']) := by
  cases hx with
  | opened hb ho hc ht =>
    have happly := ht.apply ho hc hl hg
    have htree :
        (Opened.close { innermost with arguments := last :: innermost.arguments } stop).tree =
          .apply innermost.operator.tree
            (innermost.arguments.reverse.map Node.tree ++ [last.tree]) := by
      simp [tree_close]
    rw [← htree] at happly
    simpa using Has.after hb happly .nil

/-- A token adds its characters to the text that has been read. -/
theorem Has.feed {t : Token} {x w : List Char} (hq : Has q x) (hw : Spells t.symbol w)
    (hf : q.feed t = .ok q') : Has q' (x ++ w) := by
  cases hq with
  | @before opened x hb =>
    cases hleaf : leaf? t with
    | some node =>
      simp only [Parser.feed, hleaf] at hf
      cases hf
      simpa using Has.after hb (layout_leaf hleaf hw) .nil
    | none =>
      obtain ⟨symbol, span⟩ := t
      cases hw with
      | text | number | word => cases hleaf
      | opening | separator | unclosed => cases hf
      | closing =>
        cases opened with
        | nil => cases hf
        | cons innermost outer =>
          cases hf
          exact .close hb span.stop
  | @after opened node x l g hb hl hg =>
    obtain ⟨symbol, span⟩ := t
    cases hw with
    | text | number | word | unclosed => cases hf
    | opening =>
      cases hf
      exact .before (.opened hb hl hg (.none .nil))
    | separator =>
      cases hb with
      | start => cases hf
      | @opened innermost _ _ _ _ tail hb ho hc ht =>
        cases hf
        have hlisted : Listed ((node :: innermost.arguments).reverse.map Node.tree)
            (tail ++ l ++ g ++ [',']) := by
          simpa using ht.separator hl hg
        have hbefore : Before ({ innermost with arguments := node :: innermost.arguments } :: _) _ :=
          .opened hb ho hc hlisted
        refine .before ?_
        simpa using hbefore
    | closing =>
      cases opened with
      | nil => cases hf
      | cons innermost outer =>
        cases hf
        exact .closeLast hb hl hg span.stop

/-- All tokens of a text are read. -/
theorem Has.feedAll {p : Nat} {ts : List Token} {x y : List Char} (hq : Has q x)
    (hy : Spelled p ts y) (hf : q.feedAll ts = .ok q') :
    ∃ z g, x ++ y = z ++ g ∧ Has q' z ∧ FinalTrivia g := by
  induction hy generalizing q x with
  | @nil _ g hg =>
    cases hf
    exact ⟨x, g, rfl, hq, hg⟩
  | unclosed => exact absurd rfl (not_unclosed_of_feedAll hf _ List.mem_cons_self)
  | @cons _ s ts g w rest hg hw _ _ ih =>
    obtain ⟨q₁, hfeed, hf⟩ := exists_of_feedAll hf
    obtain ⟨z, g', heq, hz, hg'⟩ := ih ((hq.append hg).feed hw hfeed) hf
    refine ⟨z, g', ?_, hz, hg'⟩
    rw [← heq]
    simp

end Parser

open ApplyLang.Parser

/-- A program is a layout of the tree that it is read as, between trivia. -/
theorem layout_of_parse {src : String} {node : Node} (hp : parse src = .ok node) :
    ∃ before l after, src.toList = before ++ l ++ after ∧ Trivia before ∧ Layout node.tree l ∧
      FinalTrivia after := by
  unfold parse parseChars at hp
  cases hfeed : Parser.start.feedAll (Token.scan src.toList) with
  | error e => rw [hfeed] at hp; cases hp
  | ok q =>
    rw [hfeed] at hp
    have hstart : Has Parser.start [] := .before (.start .nil)
    obtain ⟨z, g, heq, hz, hg⟩ := hstart.feedAll (Token.spelled_scan src.toList) hfeed
    cases hz with
    | before => cases hp
    | @after opened last x l g' hb hl hg' =>
      cases hb with
      | opened => cases hp
      | start hx =>
        cases hp
        refine ⟨x, l, g' ++ g, ?_, hx, hl, hg.prepend hg'⟩
        rw [List.nil_append] at heq
        rw [heq]
        simp

/-- A text is read as a tree if and only if it is a layout of this tree between trivia; and it is a
    layout of no other tree. -/
theorem parse_iff_layout (src : String) (t : Tree) :
    ((∃ node, parse src = .ok node ∧ node.tree = t) ↔
      ∃ before l after, src.toList = before ++ l ++ after ∧ Trivia before ∧ Layout t l ∧
        FinalTrivia after) ∧
      ∀ l t', Layout t l → Layout t' l → t' = t := by
  refine ⟨⟨?_, ?_⟩, fun l t' ht ht' => ht'.unique ht⟩
  · rintro ⟨node, hp, rfl⟩
    exact layout_of_parse hp
  · rintro ⟨before, l, after, hsrc, hbefore, hl, hafter⟩
    exact parse_of_layout hsrc hbefore hl hafter

/-- A comma may follow the last argument, and makes no other tree. -/
theorem layout_trailing_comma :
    (∃ node, parse "f(a,)" = .ok node ∧ node.tree = .apply (.word "f") [.word "a"]) ∧
      ∀ t, Layout t ['f', '(', 'a', ',', ')'] → t = .apply (.word "f") [.word "a"] := by
  have hf : Begun [] 'f' [] := .single rfl (by decide)
  have ha : Begun [] 'a' [] := .single rfl (by decide)
  have hl : Layout (.apply (.word "f") [.word "a"]) ['f', '(', 'a', ',', ')'] :=
    .apply (.word hf.isWord) .nil .nil (.one (.word ha.isWord)) (.some .nil) .nil
  have h := parse_iff_layout "f(a,)" (.apply (.word "f") [.word "a"])
  exact ⟨h.1.mpr ⟨[], _, [], rfl, .nil, hl, .closed .nil⟩, fun t ht => h.2 _ t hl ht⟩

end ApplyLang
