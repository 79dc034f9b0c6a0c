import TypedLambda.Decimal.Binary

/-!
# Shortest decimals

The reals that round to a given binary number form an interval. Its decimal text is the one
with the fewest digits in that interval, and of those the nearest to the number. Everything
is compared in whole numbers.
-/

namespace TypedLambda.Decimal

structure Scaled where
  digits : Nat
  exponent : Int
deriving DecidableEq

def compareScaled (a : Nat) (i : Int) (n : Nat) (j : Int) : Ordering :=
  compare (a * Nat.pow 10 i.toNat * Nat.pow 2 (-j).toNat)
    (n * Nat.pow 2 j.toNat * Nat.pow 10 (-i).toNat)

namespace Binary

/-- Whether a decimal lies among the reals that round to the number. The ends of the
interval belong to it if the mantissa is even. -/
def accepts (x : Binary) (d : Scaled) : Bool :=
  let low := compareScaled d.digits d.exponent
    (4 * x.mantissa - (if x.narrow then 1 else 2)) (x.power - 2)
  let high := compareScaled d.digits d.exponent (4 * x.mantissa + 2) (x.power - 2)
  let closed := x.mantissa % 2 == 0
  (low == .gt || (closed && low == .eq)) && (high == .lt || (closed && high == .eq))

def leading (x : Binary) : Int :=
  let above (e : Int) : Bool := compareScaled 1 e x.mantissa x.power == .gt
  let exponents := (List.range 700).map fun (i : Nat) => (i : Int) - 345
  ((exponents.find? above).getD 345) - 1

def nearest? (x : Binary) (exponent : Int) : Option Scaled :=
  let numerator := x.mantissa * Nat.pow 2 x.power.toNat * Nat.pow 10 (-exponent).toNat
  let denominator := Nat.pow 2 (-x.power).toNat * Nat.pow 10 exponent.toNat
  let below := numerator / denominator
  let twice := 2 * (numerator % denominator)
  -- on a tie the even one comes first
  let upFirst := twice > denominator || (twice == denominator && below % 2 == 1)
  let candidates := if upFirst then [below + 1, below] else [below, below + 1]
  (candidates.map fun digits => (⟨digits, exponent⟩ : Scaled)).find? x.accepts

/-- The shortest decimal of a number other than zero. Seventeen digits are enough; beyond
them stands the exact value. -/
def shortest (x : Binary) : Scaled :=
  let top := x.leading
  let places := (List.range 17).map fun (i : Nat) => top - i
  (places.findSome? x.nearest?).getD
    ⟨x.mantissa * Nat.pow 2 x.power.toNat * Nat.pow 5 (-x.power).toNat, min x.power 0⟩

end Binary

def significant (n : Nat) : List Char :=
  ((Nat.toDigits 10 n).reverse.dropWhile (· == '0')).reverse

end TypedLambda.Decimal
