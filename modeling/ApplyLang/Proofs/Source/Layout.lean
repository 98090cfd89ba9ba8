import ApplyLang.Source.Parser

/-!
# The grammar of programs

Which texts a tree may be written as, without a word about reading them.

* `Tree` — a syntax tree that does not know where it stands; `Node.tree` forgets the places.
* `Trivia` — what may stand between two parts of a program.
* `IsWord` — the words.
* `Layout` — the ways to write a tree.

A comment reaches up to the next line feed or carriage return. That character is white space, so it
is trivia as well, and only at the end of a text is there a comment without it (`FinalTrivia`).
-/

namespace ApplyLang

/-- A syntax tree without spans. -/
inductive Tree
  | number (value : Float)
  | text (value : String)
  | word (name : String)
  | apply (operator : Tree) (arguments : List Tree)

namespace Node

mutual

/-- A node without its spans. -/
def tree : Node → Tree
  | number x _ => .number x
  | text x _ => .text x
  | word x _ => .word x
  | apply f xs _ => .apply (tree f) (treeAll xs)

/-- Nodes without their spans. -/
def treeAll : List Node → List Tree
  | [] => []
  | x :: xs => tree x :: treeAll xs

end

theorem treeAll_eq_map (nodes : List Node) : treeAll nodes = nodes.map tree := by
  induction nodes with
  | nil => rfl
  | cons x xs ih => rw [treeAll, ih, List.map_cons]

end Node

/-! ## Between the parts -/

/-- White space and comments, each comment with the character that ends it. -/
inductive Trivia : List Char → Prop
  | nil : Trivia []
  | blank {c : Char} {rest : List Char} (hc : Text.isWhiteSpace c = true) (hr : Trivia rest) :
      Trivia (c :: rest)
  | comment {body rest : List Char} {c : Char} (hb : ∀ b ∈ body, Text.endsComment b = false)
      (hc : Text.endsComment c = true) (hr : Trivia rest) : Trivia ('#' :: body ++ c :: rest)

/-- What may stand at the end of a text: the last comment may be open. -/
inductive FinalTrivia : List Char → Prop
  | closed {g : List Char} (hg : Trivia g) : FinalTrivia g
  | comment {g body : List Char} (hg : Trivia g) (hb : ∀ b ∈ body, Text.endsComment b = false) :
      FinalTrivia (g ++ '#' :: body)

theorem Trivia.append {a b : List Char} (ha : Trivia a) (hb : Trivia b) : Trivia (a ++ b) := by
  induction ha with
  | nil => exact hb
  | blank hc _ ih => exact .blank hc ih
  | comment hbody hc _ ih =>
    rw [List.append_assoc]
    exact .comment hbody hc ih

theorem Trivia.one {c : Char} (hc : Text.isWhiteSpace c = true) : Trivia [c] :=
  .blank hc .nil

/-! ## The parts -/

/-- A word is a run of word characters that does not begin as a number: if it begins with digits,
    then a letter or an underscore follows the last of them. -/
structure IsWord (name : List Char) : Prop where
  nonempty : name ≠ []
  chars : ∀ c ∈ name, Token.isWordChar c = true
  noNumber : ∀ digits rest, name = digits ++ rest → digits ≠ [] →
    (∀ c ∈ digits, c.isDigit = true) → (∀ c ∈ rest.head?, c.isDigit = false) →
    ∃ c ∈ rest.head?, c.isAlpha = true ∨ c = '_'

/-- A comma after the last argument, or none. -/
inductive OptionalComma : List Char → Prop
  | none : OptionalComma []
  | some {g : List Char} (hg : Trivia g) : OptionalComma (g ++ [','])

mutual

/-- The ways to write a tree. -/
inductive Layout : Tree → List Char → Prop
  | text {content : List Char} (hc : ∀ c ∈ content, c ≠ '"') :
      Layout (.text (String.ofList content)) ('"' :: content ++ ['"'])
  | number {digits : List Char} (hne : digits ≠ []) (hd : ∀ c ∈ digits, c.isDigit = true) :
      Layout (.number (Number.ofNat (Parser.naturalOf digits))) digits
  | word {name : List Char} (hw : IsWord name) : Layout (.word (String.ofList name)) name
  | call {operator : Tree} {o g g' : List Char} (ho : Layout operator o) (hg : Trivia g)
      (hg' : Trivia g') : Layout (.apply operator []) (o ++ g ++ '(' :: g' ++ [')'])
  | apply {operator : Tree} {arguments : List Tree} {o g before items comma after : List Char}
      (ho : Layout operator o) (hg : Trivia g) (hbefore : Trivia before)
      (hi : Items arguments items) (hc : OptionalComma comma) (hafter : Trivia after) :
      Layout (.apply operator arguments) (o ++ g ++ '(' :: before ++ items ++ comma ++ after ++ [')'])

/-- The ways to write arguments, of which there is at least one: a comma stands between two of them. -/
inductive Items : List Tree → List Char → Prop
  | one {t : Tree} {l : List Char} (ht : Layout t l) : Items [t] l
  | more {ts : List Tree} {t : Tree} {items g g' l : List Char} (hi : Items ts items)
      (hg : Trivia g) (hg' : Trivia g') (ht : Layout t l) :
      Items (ts ++ [t]) (items ++ g ++ ',' :: g' ++ l)

end

end ApplyLang
