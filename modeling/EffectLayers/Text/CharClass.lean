/-!
# Classes of characters

A class of characters is kept as the increasing list of the code points where membership
changes, starting from "outside".

## Main definitions

* `CharClass`, `CharClass.contains`: a class and its membership test.
-/

namespace EffectLayers

/-- A set of characters, given by the code points at which membership flips, in increasing
order. -/
structure CharClass where
  bounds : List Nat

namespace CharClass

/-- Membership of a code point below the first of the bounds is `inside`; it flips at each. -/
def flips (inside : Bool) (n : Nat) : List Nat → Bool
  | [] => inside
  | bound :: bounds => if bound ≤ n then flips (!inside) n bounds else inside

/-- A character belongs to the class when an odd number of bounds lie at or below it. -/
def contains (s : CharClass) (c : Char) : Bool := flips false c.toNat s.bounds

end CharClass

end EffectLayers
