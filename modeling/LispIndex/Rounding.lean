/-!
Rounding to the nearest number. Of two numbers that are equally near the even one is taken.
-/

namespace LispIndex.Rounding

def nearest (n d : Nat) : Nat :=
  if d < 2 * (n % d) || (2 * (n % d) == d && n / d % 2 == 1) then n / d + 1 else n / d

/-- The whole number nearest to `n / d` of those with at most 53 significant bits. -/
def significant (n d : Nat) : Nat :=
  let unit := Nat.pow 2 ((n / d).log2 - 52)
  nearest n (d * unit) * unit

end LispIndex.Rounding
