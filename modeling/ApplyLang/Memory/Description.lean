import ApplyLang.Memory.Scope

/-!
# Descriptions

One-line descriptions of values and scopes, in which all parts are named and every text is quoted.

* `Heap.described` — a value. The description of a function leaves its scope out, which may well
  contain the function itself.
* `Heap.describedScope` — the frames of a scope, with their names but without their values.
-/

namespace ApplyLang

/-- A parameter of a function with its place. -/
def describedParameter (parameter : String × Span) : String :=
  Node.describedAt (Text.quoted parameter.1) parameter.2

/-- A function without its scope. -/
def Closure.described (c : Closure) : String :=
  "Closure \x7b params: [" ++ ", ".intercalate (c.parameters.map describedParameter) ++
    "], body: " ++ c.body.described ++ ", .. \x7d"

namespace Value

mutual

/-- A value, given the descriptions of functions. -/
def described (function : Ref → String) : Value → String
  | bool x => if x then "Bool(true)" else "Bool(false)"
  | number x => "Number(" ++ Number.annotated x ++ ")"
  | text x => "String(" ++ Text.quoted x ++ ")"
  | array _ items => "Array([" ++ describedItems function items ++ "])"
  | closure r => "Closure(" ++ function r ++ ")"
  | builtin f => "Builtin(" ++ Text.quoted f.name ++ ")"

/-- The items of an array. -/
def describedItems (function : Ref → String) : List Value → String
  | [] => ""
  | [item] => described function item
  | item :: next :: rest =>
    described function item ++ ", " ++ describedItems function (next :: rest)

end

end Value

namespace Heap

/-- A value. -/
def described (h : Heap) (v : Value) : String :=
  v.described fun r =>
    match h.closure? r with
    | some c => c.described
    | none => ""

/-- Frames, each inside the next. -/
def describedFrames (h : Heap) : List Ref → String
  | [] => "None"
  | r :: rest =>
    match h.frame? r with
    | some f =>
      let outer := match rest with
        | [] => "None"
        | _ :: _ => "Some(" ++ h.describedFrames rest ++ ")"
      "Scope \x7b names: [" ++ ", ".intercalate (f.names.map Text.quoted) ++ "], sealed: " ++
        (if f.isSealed then "true" else "false") ++ ", parent: " ++ outer ++ " \x7d"
    | none => "None"

/-- A scope. -/
def describedScope (h : Heap) (scope : Ref) : String :=
  h.describedFrames (h.chain scope)

end Heap

end ApplyLang
