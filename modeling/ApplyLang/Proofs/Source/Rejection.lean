import ApplyLang.Evaluation.Program
import ApplyLang.Proofs.Source.Parsing
import ApplyLang.Proofs.Source.Tokens

/-!
# Where a text stops being a program

A text that is no program is refused at the one position up to which it is the beginning of a
program and behind which it is not any more.

* `Parser.exists_completion` — whatever a parser has read, it can be completed: with a leaf if an
  expression is missing, and with a bracket for every open argument list.
* `Token.scan_line` — the tokens of a text stay when a new line is put behind it.
* `Parser.admits_of_begins` — a symbol is refused for the character it begins with, except for a
  quote that could have been closed.
* `parse_error_viable` — the position of a parse error.
-/

namespace ApplyLang

open ApplyLang.Text (byteLength byteLength_append)

/-- A text that is a program. -/
def Accepted (text : List Char) : Prop :=
  ∃ n, parse (String.ofList text) = .ok n

theorem accepted_iff {text : List Char} :
    Accepted text ↔ ∃ n, Parser.start.feedAll (Token.scan text) = .ok ⟨[], some n⟩ := by
  simp only [Accepted, parse_eq_ok_iff, String.toList_ofList]

/-! ## Completing a beginning -/

namespace Parser

/-- Brackets close all open argument lists. -/
theorem exists_closed (opened : List Opened) (node : Node) (p : Nat) :
    ∃ n, feedAll ⟨opened, some node⟩ (Token.scanFrom .gap p (.replicate opened.length ')')) =
      .ok ⟨[], some n⟩ := by
  induction opened generalizing node p with
  | nil => exact ⟨node, rfl⟩
  | cons innermost outer ih =>
    let full := { innermost with arguments := node :: innermost.arguments }
    obtain ⟨n, hn⟩ := ih (full.close (p + 1)) (p + 1)
    exact ⟨n, hn⟩

/-- Whatever has been read is the beginning of a program. -/
theorem exists_completion (q : Parser) (p : Nat) :
    ∃ more n, q.feedAll (Token.scanFrom .gap p more) = .ok ⟨[], some n⟩ := by
  obtain ⟨opened, current⟩ := q
  cases current with
  | some node =>
    obtain ⟨n, hn⟩ := exists_closed opened node p
    exact ⟨_, n, hn⟩
  | none =>
    have hword : IsWord ['a'] := (Begun.single (by decide) (by decide)).isWord
    have hends : (Symbol.word ['a']).EndsBefore (List.replicate opened.length ')').head? := by
      cases opened with
      | nil => simp [Symbol.EndsBefore]
      | cons =>
        have hclosing : Token.isWordChar ')' = false := by decide
        simp [Symbol.EndsBefore, List.replicate_succ, hclosing]
    obtain ⟨n, hn⟩ := exists_closed opened (.word "a" ⟨p, p + 1⟩) (p + 1)
    refine ⟨['a'] ++ .replicate opened.length ')', n, ?_⟩
    rw [(Spells.word hword).scan hends p]
    exact hn

end Parser

/-- A new line ends every comment. -/
theorem FinalTrivia.line {g : List Char} (hg : FinalTrivia g) : Trivia (g ++ ['\n']) := by
  cases hg with
  | closed hg => exact hg.append (.one (by decide))
  | comment hg hb =>
    rw [List.append_assoc]
    exact hg.append (.comment hb (by decide) .nil)

/-- A new line ends every symbol. -/
theorem Symbol.EndsBefore.line {x : Symbol} {c : Option Char} (hx : x.EndsBefore c) :
    x.EndsBefore (c.or (some '\n')) := by
  cases c with
  | some c => exact hx
  | none =>
    cases x with
    | unclosed => exact hx
    | text | opening | closing | separator => exact trivial
    | word | number =>
      intro c hc
      cases hc
      decide

/-- The tokens of a text stay when a new line is put behind it. -/
theorem Token.scan_line {text : List Char} (ht : ∀ t ∈ Token.scan text, t.symbol ≠ .unclosed)
    (more : List Char) :
    scan (text ++ '\n' :: more) = scan text ++ scanFrom .gap (byteLength text + 1) more := by
  have hspelled : Spelled 0 (scan text ++ []) text := by
    rw [List.append_nil]
    exact spelled_scan text
  obtain ⟨x, y, rfl, hx, hy, -⟩ := hspelled.split ht
  cases hy with
  | nil hg =>
    have hbefore : SpelledBefore (y ++ '\n' :: more).head? 0 (scan (x ++ y)) x := by
      rw [List.head?_append]
      exact hx.mono fun _ h => h.line
    have hline : y ++ '\n' :: more = y ++ ['\n'] ++ more := List.append_cons _ _ _
    rw [List.append_assoc, scan, hbefore.scan, hline, scan_trivia hg.line]
    simp [byteLength_append, byteLength, Nat.add_assoc, show '\n'.utf8Size = 1 from rfl]

/-! ## What cannot follow -/

theorem Token.isWordChar_iff {c : Char} : isWordChar c = true ↔
    Text.isWhiteSpace c = false ∧ c ≠ '(' ∧ c ≠ ')' ∧ c ≠ ',' ∧ c ≠ '#' ∧ c ≠ '"' := by
  simp [isWordChar, and_assoc]

theorem Symbol.Begins.not_trivia {x : Symbol} {c : Char} (hc : x.Begins c) :
    Text.isWhiteSpace c = false ∧ c ≠ '#' := by
  cases x with
  | number | word =>
    obtain ⟨hblank, -, -, -, hhash, -⟩ := Token.isWordChar_iff.mp hc
    exact ⟨hblank, hhash⟩
  | text | unclosed | opening | closing | separator =>
    cases hc
    decide

/-- No trivia stands in front of a character that a symbol begins with. -/
theorem Trivia.eq_nil_of_begins {x : Symbol} {c : Char} {g w rest : List Char} (hg : Trivia g)
    (hc : x.Begins c) (hw : g ++ w = c :: rest) : g = [] := by
  obtain ⟨hblank, hhash⟩ := hc.not_trivia
  cases hg with
  | nil => rfl
  | blank hd _ =>
    obtain ⟨rfl, -⟩ := List.cons.inj hw
    rw [hblank] at hd
    cases hd
  | comment =>
    obtain ⟨rfl, -⟩ := List.cons.inj hw
    exact absurd rfl hhash

/-- A text that begins as a symbol does begins with a token. A quote is left open only if no other
    quote follows. -/
theorem Spelled.exists_first {p : Nat} {x : Symbol} {c : Char} {ts : List Token} {rest : List Char}
    (hs : Spelled p ts (c :: rest)) (hc : x.Begins c) :
    ∃ t us, ts = t :: us ∧ t.symbol.Begins c ∧ (t.symbol = .unclosed → '"' ∉ rest) := by
  generalize htext : c :: rest = text at hs
  cases hs with
  | nil hg =>
    cases hg with
    | closed hg =>
      cases hg.eq_nil_of_begins hc (List.append_nil _ |>.trans htext.symm)
      cases htext
    | comment hg hb =>
      cases hg.eq_nil_of_begins hc htext.symm
      exact absurd (List.cons.inj htext).1 hc.not_trivia.2
  | @unclosed _ g content hg hq =>
    cases hg.eq_nil_of_begins hc htext.symm
    obtain ⟨rfl, rfl⟩ := List.cons.inj htext
    exact ⟨_, [], rfl, rfl, fun _ hmem => hq _ hmem rfl⟩
  | @cons _ s ts g w tail hg hw he _ =>
    cases hg.eq_nil_of_begins hc ((List.append_assoc _ _ _).symm.trans htext.symm)
    obtain ⟨d, w, rfl, hd⟩ := hw.begins
    obtain ⟨rfl, rfl⟩ := List.cons.inj htext
    refine ⟨_, ts, rfl, hd, fun hs => ?_⟩
    cases hs
    exact he.elim

namespace Symbol

/-- Whether a symbol is an expression, or the beginning of one. -/
def isOperand : Symbol → Bool
  | .text _ | .number _ | .word _ | .unclosed => true
  | .opening | .closing | .separator => false

/-- The symbol that a bracket or a comma is. -/
def ofChar? (c : Char) : Option Symbol :=
  if c = '(' then some .opening
  else if c = ')' then some .closing
  else if c = ',' then some .separator
  else none

theorem Begins.ofChar?_eq {x : Symbol} {c : Char} (hx : x.Begins c) :
    ofChar? c = if x.isOperand then none else some x := by
  cases x with
  | number | word =>
    obtain ⟨-, hopening, hclosing, hseparator, -, -⟩ := Token.isWordChar_iff.mp hx
    simp [ofChar?, isOperand, hopening, hclosing, hseparator]
  | text | unclosed | opening | closing | separator =>
    cases hx
    rfl

/-- The first character says which bracket a symbol is, or that it is none. -/
theorem Begins.alike {x y : Symbol} {c : Char} (hx : x.Begins c) (hy : y.Begins c) :
    x = y ∨ x.isOperand = true ∧ y.isOperand = true := by
  have hsame := hx.ofChar?_eq.symm.trans hy.ofChar?_eq
  cases hxo : x.isOperand with
  | true =>
    cases hyo : y.isOperand with
    | true => exact .inr ⟨rfl, rfl⟩
    | false => simp [hxo, hyo] at hsame
  | false =>
    cases hyo : y.isOperand with
    | true => simp [hxo, hyo] at hsame
    | false =>
      left
      simpa [hxo, hyo] using hsame

end Symbol

namespace Parser

variable {q : Parser} {t : Token} {e : ParseError}

/-- A symbol is refused for the character that it begins with, except for a quote that could have
    been closed. -/
theorem admits_of_begins {x y : Symbol} {c : Char} (hx : x.Begins c) (hy : y.Begins c)
    (hquote : x = .unclosed → q.current ≠ none) (hadmits : q.admits y = true) :
    q.admits x = true := by
  rcases hx.alike hy with rfl | ⟨hxo, hyo⟩
  · exact hadmits
  · have hnone : q.current = none := by
      cases y with
      | text | number | word => exact Option.isNone_iff_eq_none.mp hadmits
      | unclosed => cases hadmits
      | opening | closing | separator => cases hyo
    cases x with
    | text | number | word => exact Option.isNone_iff_eq_none.mpr hnone
    | unclosed => exact absurd hnone (hquote rfl)
    | opening | closing | separator => cases hxo

/-! ## What is said -/

/-- A token is refused where it stands, and the end could have stood there if a program ends
    there. -/
theorem of_feed_error (hf : q.feed t = .error e) :
    e.position = t.span.start ∧ (e.expected = .argumentsOrEnd ↔ ∃ n, q = ⟨[], some n⟩) := by
  obtain ⟨opened, current⟩ := q
  obtain ⟨x, s⟩ := t
  cases current with
  | none =>
    suffices he : e = ⟨s.start, .expression⟩ by simp [he]
    cases x with
    | text | number | word => cases hf
    | opening | separator | unclosed => exact (Except.error.inj hf).symm
    | closing =>
      cases opened with
      | nil => exact (Except.error.inj hf).symm
      | cons => cases hf
  | some node =>
    suffices he : e = ⟨s.start, afterExpression opened⟩ by
      cases opened <;> simp [he, afterExpression]
    cases x with
    | text | number | word | unclosed => exact (Except.error.inj hf).symm
    | opening => cases hf
    | closing | separator =>
      cases opened with
      | nil => exact (Except.error.inj hf).symm
      | cons => cases hf

theorem of_finish_error {stop : Nat} (hf : q.finish stop = .error e) :
    e.position = stop ∧ (e.expected = .argumentsOrEnd ↔ ∃ n, q = ⟨[], some n⟩) := by
  obtain ⟨opened, current⟩ := q
  cases current with
  | none =>
    cases hf
    simp
  | some node =>
    cases opened with
    | nil => cases hf
    | cons =>
      cases hf
      simp

/-- What has been read can be completed, and is a program if nothing is open or missing. -/
theorem viable {text : List Char} (hq : start.feedAll (Token.scan text) = .ok q) :
    (∃ more, Accepted (text ++ more)) ∧ (Accepted text ↔ ∃ n, q = ⟨[], some n⟩) := by
  constructor
  · obtain ⟨more, n, hmore⟩ := q.exists_completion (byteLength text + 1)
    refine ⟨'\n' :: more, accepted_iff.mpr ⟨n, ?_⟩⟩
    rw [Token.scan_line (not_unclosed_of_feedAll hq), feedAll_append hq, hmore]
  · rw [accepted_iff, hq]
    simp

end Parser

/-- Only one message names the end. -/
theorem Expectation.names_end_iff (x : Expectation) :
    "EOI".toList <:+: x.message.toList ↔ x = .argumentsOrEnd := by
  cases x with
  | expression | arguments | argumentsOrEnd => decide +kernel

/-- A character that begins a refused token cannot stand there, whatever follows; but a quote might
    have been closed. -/
theorem not_accepted_of_feed_error {q : Parser} {t : Token} {e : ParseError} {ts vs : List Token}
    {before tail : List Char} {c : Char}
    (hbefore : SpelledBefore (some c) 0 ts before)
    (hrest : Spelled (byteLength before) (t :: vs) (c :: tail)) (ht : t.symbol.Begins c)
    (hq : Parser.start.feedAll ts = .ok q) (hf : q.feed t = .error e) :
    (c = '"' ∧ '"' ∉ tail) ∨ ∀ more, ¬ Accepted (before ++ c :: more) := by
  by_cases hopen : t.symbol = .unclosed ∧ q.current = none
  · left
    obtain ⟨t', us, htokens, -, hquote⟩ := hrest.exists_first ht
    obtain ⟨rfl, rfl⟩ := List.cons.inj htokens
    rw [hopen.1] at ht
    exact ⟨ht, hquote hopen.1⟩
  · right
    intro more haccepted
    obtain ⟨n, hn⟩ := accepted_iff.mp haccepted
    have hscan := SpelledBefore.scan (y := c :: more) hbefore
    have hmore : Spelled (byteLength before) (Token.scanFrom .gap (byteLength before) (c :: more))
      (c :: more) := Token.spelled .gap rfl _
    obtain ⟨u, us, htokens, hu, -⟩ := hmore.exists_first ht
    rw [Nat.zero_add, htokens] at hscan
    rw [Token.scan, hscan, Parser.feedAll_append hq] at hn
    obtain ⟨q', hfeed, -⟩ := Parser.exists_of_feedAll hn
    have hadmits := Parser.admits_of_begins ht hu (fun hx hnone => hopen ⟨hx, hnone⟩)
      (Parser.exists_feed_iff.mp ⟨q', hfeed⟩)
    obtain ⟨q₁, hq₁⟩ := Parser.exists_feed_iff.mpr hadmits
    rw [hf] at hq₁
    cases hq₁

/-- How far a text that is no program is read, and what the parser that has read it says. -/
theorem exists_of_parse_error {src : String} {e : ParseError} (he : parse src = .error e) :
    ∃ before rest q, src.toList = before ++ rest ∧
      Parser.start.feedAll (Token.scan before) = .ok q ∧
      (e.position = byteLength before ∧ (e.expected = .argumentsOrEnd ↔ ∃ n, q = ⟨[], some n⟩)) ∧
      ∀ c tail, rest = c :: tail →
        (c = '"' ∧ '"' ∉ tail) ∨ ∀ more, ¬ Accepted (before ++ c :: more) := by
  unfold parse parseChars at he
  cases hfeed : Parser.start.feedAll (Token.scan src.toList) with
  | ok q =>
    -- all tokens are read, and something is missing at the end
    rw [hfeed] at he
    exact ⟨src.toList, [], q, (List.append_nil _).symm, hfeed, Parser.of_finish_error he, by simp⟩
  | error e' =>
    rw [hfeed] at he
    cases he
    obtain ⟨ts, t, vs, q, htokens, hq, hf⟩ := Parser.exists_of_feedAll_error hfeed
    have hspelled := Token.spelled_scan src.toList
    rw [htokens] at hspelled
    obtain ⟨before, rest, hsrc, hbefore, hrest, hfirst⟩ :=
      hspelled.split (Parser.not_unclosed_of_feedAll hq)
    obtain ⟨hstart, c, tail, rfl, ht⟩ := hfirst t rfl
    rw [Nat.zero_add] at hstart hrest
    obtain ⟨hposition, hexpected⟩ := Parser.of_feed_error hf
    refine ⟨before, c :: tail, q, hsrc, ?_, ⟨hposition.trans hstart, hexpected⟩, ?_⟩
    · rw [Token.scan, hbefore.scan_end, hq]
    · intro c' tail' hnext
      cases hnext
      exact not_accepted_of_feed_error hbefore hrest ht hq hf

/-- A text that is no program is refused at a position between two of its characters. What comes
    before is the beginning of a program; and it is none any more with the next character, unless
    this is a quote that no other quote follows. The message names the end if and only if what comes
    before is a program itself. -/
theorem parse_error_viable {src : String} {e : ParseError} (he : parse src = .error e) :
    ∃ before rest message, src.toList = before ++ rest ∧
      e.fault = .parsing ⟨byteLength before, byteLength before⟩ message ∧
      (∃ more, Accepted (before ++ more)) ∧
      (∀ c tail, rest = c :: tail →
        (c = '"' ∧ '"' ∉ tail) ∨ ∀ more, ¬ Accepted (before ++ c :: more)) ∧
      ("EOI".toList <:+: message.toList ↔ Accepted before) := by
  obtain ⟨before, rest, q, hsrc, hq, ⟨hposition, hexpected⟩, hrest⟩ := exists_of_parse_error he
  obtain ⟨hmore, haccepted⟩ := Parser.viable hq
  refine ⟨before, rest, e.expected.message, hsrc, ?_, hmore, hrest, ?_⟩
  · rw [ParseError.fault, hposition]
  · rw [Expectation.names_end_iff, hexpected, haccepted]

/-- An argument that follows another without a comma. -/
theorem parse_error_viable_operand :
    parse "f(é # c\n, \"b\" 1)" = .error ⟨15, .arguments⟩ ∧
      ∃ before rest, "f(é # c\n, \"b\" 1)".toList = before ++ rest ∧ byteLength before = 15 ∧
        (∃ more, Accepted (before ++ more)) ∧ ¬ Accepted before := by
  have he : parse "f(é # c\n, \"b\" 1)" = .error ⟨15, .arguments⟩ := rfl
  obtain ⟨before, rest, message, hsrc, hfault, hmore, -, hend⟩ := parse_error_viable he
  obtain ⟨hplace, rfl⟩ := Fault.parsing.inj hfault
  refine ⟨he, before, rest, hsrc, (Span.mk.inj hplace).1.symm, hmore, ?_⟩
  rw [← hend, Expectation.names_end_iff]
  decide

end ApplyLang
