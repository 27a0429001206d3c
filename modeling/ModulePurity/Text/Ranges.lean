/-!
# Classes of characters

A class is given by ranges of code points in ascending order.
-/

namespace ModulePurity.Text

/-- Whether a character lies in one of the ranges, which ascend. -/
def inRanges (c : Char) : List (Nat × Nat) → Bool
  | [] => false
  | (first, last) :: rest =>
    if c.toNat < first then false else c.toNat ≤ last || inRanges c rest

end ModulePurity.Text
