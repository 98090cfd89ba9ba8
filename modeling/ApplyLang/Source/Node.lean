import ApplyLang.Source.Span
import ApplyLang.Number.Text
import ApplyLang.Text.Quoted
import ApplyLang.Text.WhiteSpace

/-!
# Syntax trees

A program is a tree of literals and words, joined only by application. Every node knows the bytes of
the source it was read from.

* `Node.same` — equality of trees with all their spans; numbers are compared as doubles.
* `Node.outline` — a tree as indented lines, one per node.
* `Node.described` — a tree on one line, with all its parts named.
-/

namespace ApplyLang

/-- A node of a program (`TNode`). -/
inductive Node
  | number (value : Float) (span : Span)
  | text (value : String) (span : Span)
  | word (name : String) (span : Span)
  | apply (operator : Node) (arguments : List Node) (span : Span)

namespace Node

/-- The bytes a node was read from. -/
def span : Node → Span
  | number _ s => s
  | text _ s => s
  | word _ s => s
  | apply _ _ s => s

/-- The name, if the node is a word (`as_word`). -/
def name? : Node → Option String
  | word name _ => some name
  | _ => none

mutual

/-- Equality of trees, spans included. -/
def same : Node → Node → Bool
  | number x s, number y t => x == y && s == t
  | text x s, text y t => x == y && s == t
  | word x s, word y t => x == y && s == t
  | apply f xs s, apply g ys t => same f g && sameAll xs ys && s == t
  | _, _ => false

/-- Equality of lists of trees. -/
def sameAll : List Node → List Node → Bool
  | [], [] => true
  | x :: xs, y :: ys => same x y && sameAll xs ys
  | _, _ => false

end

mutual

/-- A tree as lines, each node below its parent and two columns further in (`pretty_string`). Texts
    are written as they are, so a text with line breaks covers several lines. -/
def outline (indent : Nat) : Node → String
  | number x s => Text.blanks indent ++ Number.text x ++ " " ++ s.text
  | text x s => Text.blanks indent ++ "\"" ++ x ++ "\" " ++ s.text
  | word x s => Text.blanks indent ++ "Word(" ++ x ++ ") " ++ s.text
  | apply f xs s =>
    Text.blanks indent ++ "Apply " ++ s.text ++ "\n" ++ outline (indent + 2) f ++
      outlineAll (indent + 2) xs

/-- The lines of several trees, each after a line break. -/
def outlineAll (indent : Nat) : List Node → String
  | [] => ""
  | x :: xs => "\n" ++ outline indent x ++ outlineAll indent xs

end

/-- Something with its span, on one line. -/
def describedAt (inner : String) (s : Span) : String :=
  "Trivia \x7b inner: " ++ inner ++ ", span: Range \x7b start: " ++ toString s.start ++ ", end: " ++
    toString s.stop ++ " \x7d \x7d"

mutual

/-- A tree on one line. -/
def described : Node → String
  | number x s => describedAt ("Literal(Number(" ++ Number.annotated x ++ "))") s
  | text x s => describedAt ("Literal(String(" ++ Text.quoted x ++ "))") s
  | word x s => describedAt ("Word(" ++ Text.quoted x ++ ")") s
  | apply f xs s => describedAt ("Apply(" ++ described f ++ ", [" ++ describedAll xs ++ "])") s

/-- Several trees on one line. -/
def describedAll : List Node → String
  | [] => ""
  | [x] => described x
  | x :: y :: rest => described x ++ ", " ++ describedAll (y :: rest)

end

end Node

end ApplyLang
