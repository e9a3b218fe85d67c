import Mathlib.Data.List.Infix

/-!
# Replacements in texts

A text is a list of characters. `replaceAll` takes the occurrences of a pattern from left to right, without overlaps.
-/

namespace Text

variable {α : Type} [DecidableEq α]

variable {p r t : List α} {rules : List (List α × List α)}

end Text
