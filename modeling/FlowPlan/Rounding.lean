/-!
Natural numbers rounded to doubles, the floating-point numbers with 53 binary digits.

`roundToDouble` is computed on natural numbers alone.  A number of at most 53 digits is a double
already, and a longer one lies between two neighbouring multiples of the unit of its last digit
kept.  A rounded number from `doubleBound` on has no finite double.
-/

namespace FlowPlan

/-- The multiple of a unit that is nearest to a number, and of two that are equally near the even
multiple. -/
def nearestMultiple (unit n : Nat) : Nat :=
  let below := n / unit
  let rest := 2 * (n % unit)
  if rest < unit || (rest == unit && below % 2 == 0) then below * unit else (below + 1) * unit

/-- What the last of the 53 leading binary digits of a number counts, or 1 for a number with fewer
digits. -/
def doubleUnit (n : Nat) : Nat := 1 <<< (Nat.log2 n - 52)

/-- The double that is nearest to a number, ties going to the even digit. -/
def roundToDouble (n : Nat) : Nat := nearestMultiple (doubleUnit n) n

/-- The least number that is too large for a double.  It lies halfway between the largest double
and the power of two behind it, and there the tie goes up. -/
def doubleBound : Nat := (1 <<< 1024) - (1 <<< 970)

end FlowPlan
