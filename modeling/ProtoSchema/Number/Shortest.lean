import ProtoSchema.Number.Binary64

/-!
# Shortest decimals

The decimal with the fewest digits that reads back as a given double, of several the one
nearest to it, and how its digits are set out. A value has two neighbours on the grid of
decimals with `n` digits; the grids are tried from the coarsest on. The exact decimal stands
behind them, so a decimal that reads back is found whatever the grids hold.
-/
namespace ProtoSchema.Binary64

/-- The place `p` of the leading digit of a magnitude above zero: it is below `10 ^ p` and not
below `10 ^ (p - 1)`. -/
def leadPlace (rank : Nat) : Int :=
  digitCount (units rank * Nat.pow 10 400 / unitsInOne) - 400

/-- The magnitude as a decimal, without loss. -/
def exactDecimal (rank : Nat) : Decimal := ⟨units rank * Nat.pow 5 1074, -1074⟩

/-- The two neighbours of a magnitude among the decimals with `n` digits, the nearer first and
the even one of two that are equally near. -/
def neighbours (rank n : Nat) : List Decimal :=
  let exponent := leadPlace rank - n
  let num := units rank * Nat.pow 10 (-exponent).toNat
  let den := unitsInOne * Nat.pow 10 exponent.toNat
  let below := num / den
  let nearest := roundDiv num den
  [⟨nearest, exponent⟩, ⟨if nearest = below then below + 1 else below, exponent⟩]

/-- The decimal that stands for a magnitude above zero. -/
def shortest (rank : Nat) : Decimal :=
  ((List.range 17).findSome? fun n =>
    (neighbours rank (n + 1)).find? fun d => d.rank = rank).getD (exactDecimal rank)

/-- Digits without the zeros at their end. -/
def significant (digits : List Char) : List Char :=
  (digits.reverse.dropWhile (· = '0')).reverse

/-- How a number is set out: the places of the leading digit from `plainFrom` on and below
`plainBelow` are written positionally, all others with an exponent. -/
structure Layout where
  plainFrom : Int
  plainBelow : Int

/-- An exponent: always a sign, and at least two digits. -/
def exponentText (e : Int) : List Char :=
  let digits := Nat.toDigits 10 e.natAbs
  'e' :: (if e < 0 then '-' else '+') :: (if digits.length < 2 then '0' :: digits else digits)

/-- Digits with the decimal point at a place: before them all (place zero or less), among
them, or after them all, with a zero where a side of the point would be empty. -/
def positional (digits : List Char) (place : Int) : List Char :=
  if place ≤ 0 then '0' :: '.' :: List.replicate (-place).toNat '0' ++ digits
  else
    let whole := digits.take place.toNat
    let fraction := digits.drop place.toNat
    whole ++ List.replicate (place.toNat - whole.length) '0' ++
      '.' :: (if fraction.isEmpty then ['0'] else fraction)

/-- One digit, the point and the others if there are any, and the exponent. -/
def scientific (digits : List Char) (place : Int) : List Char :=
  digits.take 1 ++ (if digits.length ≤ 1 then [] else '.' :: digits.drop 1) ++
    exponentText (place - 1)

/-- A decimal above zero, set out. -/
def Layout.decimal (layout : Layout) (d : Decimal) : List Char :=
  let all := Nat.toDigits 10 d.digits
  let place := d.exponent + all.length
  if layout.plainFrom ≤ place ∧ place < layout.plainBelow then
    positional (significant all) place
  else scientific (significant all) place

/-- The text of a double. -/
def Layout.text (layout : Layout) : Binary64 → List Char
  | .finite negative rank =>
    let magnitude := if rank.val = 0 then ['0', '.', '0'] else layout.decimal (shortest rank)
    if negative then '-' :: magnitude else magnitude
  | .infinite negative => if negative then ['-', 'i', 'n', 'f'] else ['i', 'n', 'f']
  | .nan => ['n', 'a', 'n']

end ProtoSchema.Binary64
