import ApplyLang.Source.Node
import ApplyLang.Source.Token
import ApplyLang.Number.Binary
import ApplyLang.Text.Bytes

/-!
# Reading programs

A program is one expression. An expression is a text, a number or a word, followed by any number of
argument lists in round brackets: `f(a)(b)` applies the value of `f(a)`. Arguments are separated by
commas, and one comma may follow the last.

* `parse` — the tree of a text, or the first position at which it stops being the beginning of a
  program and what could have stood there.
* `Parser.feed` — the same, one token at a time: `Parser` holds the argument lists that are open and
  the expression that has just been completed.

Names in brackets are the interpreter's own for what a definition does.
-/

namespace ApplyLang

/-- What could have stood where a program went wrong. -/
inductive Expectation
  | expression
  | arguments
  | argumentsOrEnd
  deriving DecidableEq, Repr

/-- Where a program went wrong. -/
structure ParseError where
  position : Nat
  expected : Expectation
  deriving DecidableEq, Repr

/-- What a parse error says. -/
def Expectation.message : Expectation → String
  | .expression => "expected expression"
  | .arguments => "expected arguments"
  | .argumentsOrEnd => "expected EOI or arguments"

/-- An argument list that is not closed yet, with the position of its bracket; its arguments are
    kept last first. -/
structure Opened where
  operator : Node
  bracket : Nat
  arguments : List Node

/-- Closes an argument list (`build_expression`). The application covers its operator and the list,
    both brackets included. -/
def Opened.close (o : Opened) (stop : Nat) : Node :=
  .apply o.operator o.arguments.reverse (o.operator.span.join ⟨o.bracket, stop⟩)

/-- A parser between two tokens: the open argument lists, innermost first, and the expression that
    ends here, if an expression has been completed. -/
structure Parser where
  opened : List Opened
  current : Option Node

namespace Parser

/-- The start of a program. -/
def start : Parser := ⟨[], none⟩

/-- The value of a run of digits. -/
def naturalOf (digits : List Char) : Nat :=
  digits.foldl (fun n c => 10 * n + (c.toNat - '0'.toNat)) 0

/-- The leaf that a token stands for (`build_primary`). -/
def leaf? (t : Token) : Option Node :=
  match t.symbol with
  | .text content => some (.text (String.ofList content) t.span)
  | .number digits => some (.number (Number.ofNat (naturalOf digits)) t.span)
  | .word name => some (.word (String.ofList name) t.span)
  | _ => none

/-- What may follow a completed expression: more arguments, and at the outermost level the end. -/
def afterExpression (opened : List Opened) : Expectation :=
  if opened.isEmpty then .argumentsOrEnd else .arguments

/-- Reads one token, by the rules `expression` and `arguments` of the grammar. -/
def feed (p : Parser) (t : Token) : Except ParseError Parser :=
  match p.current with
  | none =>
    match leaf? t, t.symbol, p.opened with
    | some node, _, opened => .ok ⟨opened, some node⟩
    | none, .closing, innermost :: outer => .ok ⟨outer, some (innermost.close t.span.stop)⟩
    | none, _, _ => .error ⟨t.span.start, .expression⟩
  | some node =>
    match t.symbol, p.opened with
    | .opening, opened => .ok ⟨⟨node, t.span.start, []⟩ :: opened, none⟩
    | .separator, innermost :: outer =>
      .ok ⟨{ innermost with arguments := node :: innermost.arguments } :: outer, none⟩
    | .closing, innermost :: outer =>
      let full := { innermost with arguments := node :: innermost.arguments }
      .ok ⟨outer, some (full.close t.span.stop)⟩
    | _, opened => .error ⟨t.span.start, afterExpression opened⟩

/-- Ends a program at byte position `stop` (the rule `program`). -/
def finish (p : Parser) (stop : Nat) : Except ParseError Node :=
  match p.current, p.opened with
  | none, _ => .error ⟨stop, .expression⟩
  | some node, [] => .ok node
  | some _, _ :: _ => .error ⟨stop, .arguments⟩

/-- Reads tokens in order. -/
def feedAll (p : Parser) : List Token → Except ParseError Parser
  | [] => .ok p
  | t :: rest => do feedAll (← p.feed t) rest

end Parser

/-- Reads a program from its characters. -/
def parseChars (text : List Char) : Except ParseError Node := do
  let p ← Parser.start.feedAll (Token.scan text)
  p.finish (Text.byteLength text)

/-- Reads a program (`parse`). -/
def parse (text : String) : Except ParseError Node :=
  parseChars text.toList

end ApplyLang
