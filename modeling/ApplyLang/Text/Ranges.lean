/-!
# Ranges of code points

Properties of characters are kept as tables: lists of closed ranges of code points, in ascending
order and without overlap.

* `inRanges` — whether a table holds a code point.
-/

namespace ApplyLang.Text

/-- Some range of the table holds the code point. -/
def inRanges (table : List (Nat × Nat)) (n : Nat) : Bool :=
  table.any fun range => range.1 ≤ n && n ≤ range.2

end ApplyLang.Text
