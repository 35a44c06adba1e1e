/-!
# Ranges of characters

A property of characters as the closed ranges of code points that have it, in
ascending order and apart from each other.
-/

namespace Lox.Text

abbrev Ranges := List (Nat × Nat)

namespace Ranges

def covers (ranges : Ranges) (c : Char) : Bool :=
  ranges.any fun range => range.1 ≤ c.toNat && c.toNat ≤ range.2

def areApart : Ranges → Bool
  | [] => true
  | [range] => range.1 ≤ range.2
  | range :: next :: rest =>
    range.1 ≤ range.2 && range.2 + 1 < next.1 && areApart (next :: rest)

def size (ranges : Ranges) : Nat :=
  ranges.foldr (fun range count => range.2 + 1 - range.1 + count) 0

end Ranges

end Lox.Text
