/-!
# Ranges of code points

Character classes are ascending lists of ranges, both ends included.
-/

namespace FlowGraph.Text

set_option autoImplicit false

/-- Whether `n` is in one of the ranges. The ranges ascend, so the search ends at the first one
that starts after `n`. -/
def inRanges : List (Nat × Nat) → Nat → Bool
  | [], _ => false
  | (low, high) :: ranges, n => if n < low then false else n ≤ high || inRanges ranges n

end FlowGraph.Text
