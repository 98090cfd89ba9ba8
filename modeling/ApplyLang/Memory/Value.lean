import ApplyLang.Number.Text

/-!
# Values

What a program computes with. Functions and array storages live in memory and are named by
references; a value that mentions one is a handle to it.

* `Value.same` — equality: item by item for arrays, by identity for functions, by name for built-in
  functions, and as doubles for numbers, so that a value with a NaN in it differs from itself.
* `Value.display` — the printed form. Texts stand bare on their own and between quotes in an array.
* `Value.handles` — the references that one copy of a value keeps alive.
* `Value.closures` — the functions inside a value, at any depth of its arrays.
-/

namespace ApplyLang

/-- Names a frame, a function or an array storage. References are given out once. -/
abbrev Ref := Nat

/-- The functions that are there from the start (`NativeFunction`). -/
inductive Builtin
  | add
  | subtract
  | multiply
  | divide
  | equal
  | less
  | greater
  | print
  | array
  | length
  | element
  deriving DecidableEq, Repr

namespace Builtin

/-- The name a built-in function is bound to. -/
def name : Builtin → String
  | add => "+"
  | subtract => "-"
  | multiply => "*"
  | divide => "/"
  | equal => "=="
  | less => "<"
  | greater => ">"
  | print => "print"
  | array => "array"
  | length => "length"
  | element => "element"

/-- All built-in functions. -/
def all : List Builtin :=
  [add, subtract, multiply, divide, equal, less, greater, print, array, length, element]

/-- Names tell built-in functions apart. -/
theorem name_injective {a b : Builtin} (h : a.name = b.name) : a = b := by
  cases a <;> cases b <;> first | rfl | exact absurd h (by decide)

end Builtin

/-- A value (`Val`). An array carries its items along with the reference of the storage that holds
    them: copies of an array share the storage, and only the storage holds the items. -/
inductive Value
  | bool (value : Bool)
  | number (value : Float)
  | text (value : String)
  | array (storage : Ref) (items : List Value)
  | closure (ref : Ref)
  | builtin (function : Builtin)

namespace Value

/-- The result of what has no other result (`Val::NOTHING`). -/
def nothing : Value := bool false

/-- Everything but `false` counts as true (`is_truthy`). -/
def truthy : Value → Bool
  | bool false => false
  | _ => true

/-- Functions, whether built in or not (`is_callable`). -/
def callable : Value → Bool
  | closure _ => true
  | builtin _ => true
  | _ => false

/-- Name of a value's type (`to_readable_type`). -/
def typeName : Value → String
  | bool _ => "Bool"
  | number _ => "Number"
  | text _ => "String"
  | array _ _ => "Array"
  | closure _ => "Func"
  | builtin _ => "Builtin"

mutual

/-- Equality of values. -/
def same : Value → Value → Bool
  | bool x, bool y => x == y
  | number x, number y => x == y
  | text x, text y => x == y
  | array _ xs, array _ ys => sameAll xs ys
  | closure x, closure y => x == y
  | builtin x, builtin y => x == y
  | _, _ => false

/-- Equality of lists of values. -/
def sameAll : List Value → List Value → Bool
  | [], [] => true
  | x :: xs, y :: ys => same x y && sameAll xs ys
  | _, _ => false

end

mutual

/-- Printed form of a value, given the parameter names of the functions. -/
def display (parameters : Ref → List String) : Value → String
  | bool x => if x then "true" else "false"
  | number x => Number.text x
  | text x => x
  | array _ items => "[" ++ displayItems parameters items ++ "]"
  | closure r => "<func(" ++ ", ".intercalate (parameters r) ++ ")>"
  | builtin f => "<builtin " ++ f.name ++ ">"

/-- Printed form of the items of an array, each written by `fmt_nested`. -/
def displayItems (parameters : Ref → List String) : List Value → String
  | [] => ""
  | item :: rest =>
    let shown := match item with
      | text x => "\"" ++ x ++ "\""
      | _ => display parameters item
    match rest with
    | [] => shown
    | _ :: _ => shown ++ ", " ++ displayItems parameters rest

end

/-- The references that one copy of a value keeps alive. -/
def handles : Value → List Ref
  | array storage _ => [storage]
  | closure r => [r]
  | _ => []

mutual

/-- The functions in a value, at any depth. -/
def closures : Value → List Ref
  | closure r => [r]
  | array _ items => closuresIn items
  | _ => []

/-- The functions in a list of values, at any depth. -/
def closuresIn : List Value → List Ref
  | [] => []
  | item :: rest => closures item ++ closuresIn rest

end

end Value

end ApplyLang
