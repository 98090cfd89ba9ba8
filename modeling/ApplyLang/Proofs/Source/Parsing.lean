import ApplyLang.Proofs.Source.Layout

/-!
# The parser on tokens

What stands between two tokens is of no concern to a parser. Every node is read from consecutive
tokens: those of its parts with brackets and commas between them.

* `Node.Has` — the nodes of a program.
* `Parser.exists_feed_iff` — which tokens are read; `Parser.feedAll_append`,
  `Parser.exists_of_feedAll_error` — how far they are read.
* `Built` — a node and the tokens it is read from.
* `Parser.Took.feedAll` — the tokens behind a parser make up its open argument lists and its
  expression; so a program is built from all its tokens.
* `Built.reads` — wherever an expression may stand, the tokens of a node are read as this node.
-/

namespace ApplyLang

/-! ## The nodes of a program -/

namespace Node

/-- The nodes that a node is made of. -/
def parts : Node → List Node
  | apply operator arguments _ => operator :: arguments
  | _ => []

/-- The nodes of a program. -/
inductive Has (program : Node) : Node → Prop
  | self : Has program program
  | part {n p : Node} (hn : Has program n) (hp : p ∈ n.parts) : Has program p

theorem eq_word_of_name? {n : Node} {name : String} (hn : n.name? = some name) :
    n = .word name n.span := by
  cases n with
  | word x s =>
    cases hn
    rfl
  | number | text | apply => cases hn

end Node

/-! ## Feeding -/

namespace Parser

variable {q q' : Parser} {t : Token} {ts us : List Token}

theorem feed_opening {opened : List Opened} {node : Node} (ht : t.symbol = .opening) :
    feed ⟨opened, some node⟩ t = .ok ⟨⟨node, t.span.start, []⟩ :: opened, none⟩ := by
  simp [feed, ht]

theorem feed_separator {operator node : Node} {bracket : Nat} {arguments : List Node}
    {opened : List Opened} (ht : t.symbol = .separator) :
    feed ⟨⟨operator, bracket, arguments⟩ :: opened, some node⟩ t =
      .ok ⟨⟨operator, bracket, node :: arguments⟩ :: opened, none⟩ := by
  simp [feed, ht]

theorem feed_closing {operator node : Node} {bracket : Nat} {arguments : List Node}
    {opened : List Opened} (ht : t.symbol = .closing) :
    feed ⟨⟨operator, bracket, arguments⟩ :: opened, some node⟩ t =
      .ok ⟨opened, some (Opened.close ⟨operator, bracket, node :: arguments⟩ t.span.stop)⟩ := by
  simp [feed, ht]

theorem feed_closing_after_separator {operator : Node} {bracket : Nat} {arguments : List Node}
    {opened : List Opened} (ht : t.symbol = .closing) :
    feed ⟨⟨operator, bracket, arguments⟩ :: opened, none⟩ t =
      .ok ⟨opened, some (Opened.close ⟨operator, bracket, arguments⟩ t.span.stop)⟩ := by
  simp [feed, leaf?, ht]

theorem close_reverse (operator : Node) (bracket : Nat) (arguments : List Node) (stop : Nat) :
    Opened.close ⟨operator, bracket, arguments.reverse⟩ stop =
      .apply operator arguments (operator.span.join ⟨bracket, stop⟩) := by
  rw [Opened.close, List.reverse_reverse]

theorem feed_leaf {opened : List Opened} {node : Node} (hn : leaf? t = some node) :
    feed ⟨opened, none⟩ t = .ok ⟨opened, some node⟩ := by
  simp [feed, hn]

theorem exists_of_feedAll (hf : q.feedAll (t :: ts) = .ok q') :
    ∃ q₁, q.feed t = .ok q₁ ∧ q₁.feedAll ts = .ok q' := by
  rw [feedAll] at hf
  cases hfeed : q.feed t with
  | error e => rw [hfeed] at hf; cases hf
  | ok q₁ => exact ⟨q₁, rfl, by rwa [hfeed] at hf⟩

theorem feedAll_append (hf : q.feedAll ts = .ok q') : q.feedAll (ts ++ us) = q'.feedAll us := by
  induction ts generalizing q with
  | nil =>
    cases hf
    rfl
  | cons t ts ih =>
    obtain ⟨q₁, hfeed, hf⟩ := exists_of_feedAll hf
    rw [List.cons_append, feedAll, hfeed]
    exact ih hf

/-- Tokens that are refused are refused at one of them. -/
theorem exists_of_feedAll_error {e : ParseError} (hf : q.feedAll ts = .error e) :
    ∃ us t vs q', ts = us ++ t :: vs ∧ q.feedAll us = .ok q' ∧ q'.feed t = .error e := by
  induction ts generalizing q with
  | nil => cases hf
  | cons t ts ih =>
    cases hfeed : q.feed t with
    | error e' =>
      rw [feedAll, hfeed] at hf
      cases hf
      exact ⟨[], t, ts, q, rfl, rfl, hfeed⟩
    | ok q₁ =>
      rw [feedAll, hfeed] at hf
      obtain ⟨us, t', vs, q', rfl, hus, ht'⟩ := ih hf
      refine ⟨t :: us, t', vs, q', rfl, ?_, ht'⟩
      rw [feedAll, hfeed]
      exact hus

/-- Whether a symbol may come next. -/
def admits (q : Parser) : Symbol → Bool
  | .text _ | .number _ | .word _ => q.current.isNone
  | .opening => q.current.isSome
  | .closing => !q.opened.isEmpty
  | .separator => q.current.isSome && !q.opened.isEmpty
  | .unclosed => false

/-- A token is read if its symbol may come next. -/
theorem exists_feed_iff : (∃ q', q.feed t = .ok q') ↔ q.admits t.symbol = true := by
  obtain ⟨opened, current⟩ := q
  obtain ⟨x, span⟩ := t
  cases current with
  | none => cases x <;> cases opened <;> simp [feed, leaf?, admits]
  | some node => cases x <;> cases opened <;> simp [feed, admits]

/-- No parser goes on after a quote that no other quote follows. -/
theorem not_unclosed_of_feed (hf : q.feed t = .ok q') : t.symbol ≠ .unclosed := by
  intro hx
  have hadmits := exists_feed_iff.mp ⟨q', hf⟩
  rw [hx] at hadmits
  cases hadmits

theorem not_unclosed_of_feedAll (hf : q.feedAll ts = .ok q') : ∀ t ∈ ts, t.symbol ≠ .unclosed := by
  induction ts generalizing q with
  | nil => simp
  | cons t ts ih =>
    obtain ⟨q₁, hfeed, hf⟩ := exists_of_feedAll hf
    exact List.forall_mem_cons.mpr ⟨not_unclosed_of_feed hfeed, ih hf⟩

end Parser

/-- A text is a program if its tokens are an expression. -/
theorem parse_eq_ok_iff {src : String} {n : Node} :
    parse src = .ok n ↔ Parser.start.feedAll (Token.scan src.toList) = .ok ⟨[], some n⟩ := by
  unfold parse parseChars
  cases hf : Parser.start.feedAll (Token.scan src.toList) with
  | error e =>
    constructor
    · intro h
      cases h
    · intro h
      cases h
  | ok q =>
    obtain ⟨opened, current⟩ := q
    constructor
    · intro h
      cases current with
      | none => cases h
      | some node =>
        cases opened with
        | nil =>
          cases h
          rfl
        | cons => cases h
    · intro h
      cases h
      rfl

/-! ## Nodes and their tokens -/

mutual

/-- A node and the tokens it is read from. -/
inductive Built : List Token → Node → Prop
  | leaf {t : Token} {n : Node} (hn : Parser.leaf? t = some n) : Built [t] n
  /-- An argument list that is closed right after its opening bracket or after a comma. -/
  | apply {os args : List Token} {operator : Node} {arguments : List Node} {t t' : Token}
      (ho : Built os operator) (hopening : t.symbol = .opening) (ha : BuiltArguments args arguments)
      (hclosing : t'.symbol = .closing) :
      Built (os ++ t :: args ++ [t'])
        (.apply operator arguments (operator.span.join ⟨t.span.start, t'.span.stop⟩))
  /-- An argument list that is closed after an argument. -/
  | applyLast {os args ls : List Token} {operator last : Node} {arguments : List Node}
      {t t' : Token} (ho : Built os operator) (hopening : t.symbol = .opening)
      (ha : BuiltArguments args arguments) (hl : Built ls last) (hclosing : t'.symbol = .closing) :
      Built (os ++ t :: args ++ ls ++ [t'])
        (.apply operator (arguments ++ [last])
          (operator.span.join ⟨t.span.start, t'.span.stop⟩))

/-- Arguments and the tokens they are read from, each with the comma behind it. -/
inductive BuiltArguments : List Token → List Node → Prop
  | nil : BuiltArguments [] []
  | snoc {args ns : List Token} {arguments : List Node} {n : Node} {t : Token}
      (ha : BuiltArguments args arguments) (hn : Built ns n) (hseparator : t.symbol = .separator) :
      BuiltArguments (args ++ ns ++ [t]) (arguments ++ [n])

end

/-- The tokens of the open argument lists. -/
inductive BuiltOpened : List Opened → List Token → Prop
  | nil : BuiltOpened [] []
  | cons {outer : List Opened} {ts os args : List Token} {operator : Node} {arguments : List Node}
      {t : Token} (hb : BuiltOpened outer ts) (ho : Built os operator)
      (hopening : t.symbol = .opening) (ha : BuiltArguments args arguments.reverse) :
      BuiltOpened (⟨operator, t.span.start, arguments⟩ :: outer) (ts ++ os ++ t :: args)

namespace Parser

/-- The tokens that a parser has read. -/
inductive Took : Parser → List Token → Prop
  | before {opened : List Opened} {ts : List Token} (hb : BuiltOpened opened ts) :
      Took ⟨opened, none⟩ ts
  | after {opened : List Opened} {ts ns : List Token} {n : Node} (hb : BuiltOpened opened ts)
      (hn : Built ns n) : Took ⟨opened, some n⟩ (ts ++ ns)

variable {q q' : Parser} {t : Token} {ts us : List Token}

/-- A bracket ends the innermost argument list. -/
theorem Took.close {o : Opened} {outer : List Opened} (hb : BuiltOpened (o :: outer) ts)
    (ht : t.symbol = .closing) : Took ⟨outer, some (o.close t.span.stop)⟩ (ts ++ [t]) := by
  cases hb with
  | cons hb ho hopening ha =>
    have hafter := Took.after hb (.apply ho hopening ha ht)
    simpa [Opened.close] using hafter

/-- A bracket ends the innermost argument list behind an argument. -/
theorem Took.closeLast {operator last : Node} {bracket : Nat} {arguments : List Node}
    {outer : List Opened} (hb : BuiltOpened (⟨operator, bracket, arguments⟩ :: outer) ts)
    (hl : Built us last) (ht : t.symbol = .closing) :
    Took ⟨outer, some (Opened.close ⟨operator, bracket, last :: arguments⟩ t.span.stop)⟩
      (ts ++ us ++ [t]) := by
  cases hb with
  | cons hb ho hopening ha =>
    have hafter := Took.after hb (.applyLast ho hopening ha hl ht)
    simpa [Opened.close] using hafter

theorem Took.feed (hq : Took q ts) (hf : q.feed t = .ok q') : Took q' (ts ++ [t]) := by
  cases hq with
  | @before opened _ hb =>
    cases hleaf : leaf? t with
    | some n =>
      simp only [Parser.feed, hleaf] at hf
      cases hf
      exact .after hb (.leaf hleaf)
    | none =>
      obtain ⟨symbol, span⟩ := t
      cases symbol with
      | text | number | word => cases hleaf
      | opening | separator | unclosed => cases hf
      | closing =>
        cases opened with
        | nil => cases hf
        | cons innermost outer =>
          cases hf
          exact .close hb rfl
  | @after opened ts ns n hb hn =>
    obtain ⟨symbol, span⟩ := t
    cases symbol with
    | text | number | word | unclosed => cases hf
    | opening =>
      cases hf
      exact .before (.cons hb hn rfl .nil)
    | separator =>
      cases hb with
      | nil => cases hf
      | @cons outer ts os args operator arguments t hb ho hopening ha =>
        cases hf
        have hmore :
            BuiltArguments (args ++ ns ++ [⟨.separator, span⟩]) (n :: arguments).reverse := by
          rw [List.reverse_cons]
          exact .snoc ha hn rfl
        have hopened := BuiltOpened.cons hb ho hopening hmore
        simpa using Took.before hopened
    | closing =>
      cases opened with
      | nil => cases hf
      | cons innermost outer =>
        cases hf
        exact .closeLast hb hn rfl

theorem Took.feedAll (hq : Took q ts) (hf : q.feedAll us = .ok q') : Took q' (ts ++ us) := by
  induction us generalizing q ts with
  | nil =>
    cases hf
    rwa [List.append_nil]
  | cons t us ih =>
    obtain ⟨q₁, hfeed, hf⟩ := exists_of_feedAll hf
    rw [List.append_cons]
    exact ih (hq.feed hfeed) hf

end Parser

open ApplyLang.Parser

mutual

/-- Wherever an expression may stand, the tokens of a node are read as this node. -/
theorem Built.reads : ∀ {ts : List Token} {n : Node}, Built ts n → ∀ opened : List Opened,
    feedAll ⟨opened, none⟩ ts = .ok ⟨opened, some n⟩
  | _, _, .leaf hn, opened => by
    rw [feedAll, feed_leaf hn]
    rfl
  | _, _, @Built.apply os args operator arguments t t' ho hopening ha hclosing, opened => by
    rw [List.append_assoc, feedAll_append (ho.reads opened), List.cons_append, feedAll,
      feed_opening hopening]
    refine (feedAll_append (ha.reads operator t.span.start opened)).trans ?_
    rw [feedAll, feed_closing_after_separator hclosing, close_reverse]
    rfl
  | _, _, @Built.applyLast os args ls operator last arguments t t' ho hopening ha hl hclosing,
      opened => by
    rw [List.append_assoc, List.append_assoc, feedAll_append (ho.reads opened), List.cons_append,
      feedAll, feed_opening hopening]
    refine (feedAll_append (ha.reads operator t.span.start opened)).trans ?_
    rw [feedAll_append (hl.reads _), feedAll, feed_closing hclosing, ← List.reverse_concat,
      close_reverse]
    rfl

theorem BuiltArguments.reads : ∀ {ts : List Token} {arguments : List Node},
    BuiltArguments ts arguments → ∀ (operator : Node) (bracket : Nat) (opened : List Opened),
      feedAll ⟨⟨operator, bracket, []⟩ :: opened, none⟩ ts =
        .ok ⟨⟨operator, bracket, arguments.reverse⟩ :: opened, none⟩
  | _, _, .nil, _, _, _ => rfl
  | _, _, @BuiltArguments.snoc args ns arguments n t ha hn hseparator, operator, bracket,
      opened => by
    rw [List.append_assoc, feedAll_append (ha.reads operator bracket opened),
      feedAll_append (hn.reads _), feedAll, feed_separator hseparator, List.reverse_append]
    rfl

end

end ApplyLang
