/-!
# Character classes as alternating bounds

A class of characters is given by the sorted list of code points at which membership changes: the
first bound opens a range, the next closes it, and so on. A long list is written as the distances between
its bounds.
-/

namespace CodeAtlas.Text

/-- Whether `n` lies in one of the ranges `[b₀, b₁), [b₂, b₃), …` of a sorted list of bounds. -/
def inRanges : List Nat → Nat → Bool
  | [], _ => false
  | b :: bs, n => if n < b then false else !inRanges bs n

/-- The bounds that follow `n` at the given distances, each counted from the bound before it. -/
def boundsAfter : (n : Nat) → List Nat → List Nat
  | _, [] => []
  | n, d :: ds => (n + d) :: boundsAfter (n + d) ds

end CodeAtlas.Text
