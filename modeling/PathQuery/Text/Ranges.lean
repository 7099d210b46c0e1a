/-!
# Text/Ranges — sets of code points as ascending ranges
-/

namespace PathQuery.Text

/-- Whether a code point lies in one of the ranges, both of whose ends belong to it. The ranges
ascend, so the search ends at the first one beyond the code point. -/
def inRanges : List (Nat × Nat) → Nat → Bool
  | [], _ => false
  | (first, last) :: ranges, n => first.ble n && (n.ble last || inRanges ranges n)

end PathQuery.Text
