/-!
# Binary numbers

A finite floating-point number is a whole number times a power of two. Taken apart like
that it can be compared and converted exactly.
-/

namespace TypedLambda.Decimal

/-- The number `mantissa * 2 ^ power`, negated if `negative`. -/
structure Binary where
  negative : Bool
  mantissa : Nat
  power : Int
  /-- The next number towards zero is half as far away as the next one outwards. -/
  narrow : Bool
deriving DecidableEq

namespace Binary

def ofFloat? (x : Float) : Option Binary :=
  let bits := x.toBits.toNat
  let field : Nat := bits / Nat.pow 2 52 % Nat.pow 2 11
  let fraction : Nat := bits % Nat.pow 2 52
  let negative := bits / Nat.pow 2 63 == 1
  if field = Nat.pow 2 11 - 1 then none
  else if field = 0 then some ⟨negative, fraction, -1074, false⟩
  else some ⟨negative, Nat.pow 2 52 + fraction, (field : Int) - 1075, fraction == 0 && field > 1⟩

def withSign (x : Binary) (n : Nat) : Int := if x.negative then -(n : Int) else n

def truncate (x : Binary) : Int :=
  x.withSign (x.mantissa * Nat.pow 2 x.power.toNat / Nat.pow 2 (-x.power).toNat)

def isWhole (x : Binary) : Bool := x.mantissa % Nat.pow 2 (-x.power).toNat == 0

end Binary

end TypedLambda.Decimal
