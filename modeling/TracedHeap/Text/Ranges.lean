/-!
# Ranges of code points

A set of code points as a list of ranges, both ends included, in ascending order.
-/

namespace TracedHeap.Text

def inRanges : List (Nat × Nat) → Nat → Bool
  | [], _ => false
  | (low, high) :: rest, n => if n ≤ high then low ≤ n else inRanges rest n

end TracedHeap.Text
