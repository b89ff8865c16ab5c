/-!
# Double-precision numbers

The values of the binary format of 64 bits, with exact arithmetic on natural numbers
throughout. The finite magnitudes form one increasing sequence that starts at zero; a
magnitude is given by its `rank` in it. Every magnitude is a whole number of units of `2 ^
-1074`, and rounding a ratio takes the nearest magnitude, of two equally near ones the one of
even rank.
-/
namespace ProtoSchema

/-- The number of finite magnitudes; the first rank that is past them all. -/
abbrev Binary64.rankLimit : Nat := 0x7FF0000000000000

/-- A double. The sign of a NaN is not kept: no text shows it. -/
inductive Binary64 where
  | finite (negative : Bool) (rank : Fin Binary64.rankLimit)
  | infinite (negative : Bool)
  | nan
  deriving DecidableEq

namespace Binary64

/-- The number of magnitudes between a power of two and the next, `2 ^ 52`. -/
def binade : Nat := 0x10000000000000

/-- One is this many units. -/
def unitsInOne : Nat := Nat.pow 2 1074

/-- The magnitude of a rank, in units. -/
def units (rank : Nat) : Nat :=
  if rank < binade then rank else (binade + rank % binade) * Nat.pow 2 (rank / binade - 1)

/-- The whole number nearest to a ratio, a half going to the even neighbour. -/
def roundDiv (num den : Nat) : Nat :=
  let quotient := num / den
  let rest := num % den
  if 2 * rest < den ∨ (2 * rest = den ∧ quotient % 2 = 0) then quotient else quotient + 1

/-- The rank of the magnitude nearest to a ratio; at least `rankLimit` when the ratio is too
large. The significand keeps 53 binary digits, fewer below the least power of two that has
them. -/
def nearestRank (num den : Nat) : Nat :=
  let scaled := num * unitsInOne
  let shift := (scaled / den).log2 - 52
  shift * binade + roundDiv scaled (den * Nat.pow 2 shift)

/-- A decimal number `digits · 10 ^ exponent`. -/
structure Decimal where
  digits : Nat
  exponent : Int
  deriving DecidableEq, Repr

/-- The number of decimal digits of a number. -/
def digitCount (n : Nat) : Nat := (Nat.toDigits 10 n).length

/-- The rank of the magnitude nearest to a decimal. Decimals that are far outside the range
are settled by the place of their first digit, so that no power of ten is larger than it need
be. -/
def Decimal.rank (d : Decimal) : Nat :=
  let place := d.exponent + digitCount d.digits
  if d.digits = 0 ∨ place < -330 then 0
  else if 310 < place then rankLimit
  else if 0 ≤ d.exponent then nearestRank (d.digits * Nat.pow 10 d.exponent.toNat) 1
  else nearestRank d.digits (Nat.pow 10 (-d.exponent).toNat)

/-- The double nearest to a decimal of the given sign. -/
def ofDecimal (negative : Bool) (d : Decimal) : Binary64 :=
  if h : d.rank < rankLimit then .finite negative ⟨d.rank, h⟩ else .infinite negative

/-- The number with its sign changed. -/
def negate : Binary64 → Binary64
  | .finite negative rank => .finite (!negative) rank
  | .infinite negative => .infinite (!negative)
  | .nan => .nan

/-- Is it a number, and not an infinite one? -/
def isFinite : Binary64 → Bool
  | .finite .. => true
  | _ => false

end Binary64

end ProtoSchema
