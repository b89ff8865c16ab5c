import ProtoSchema.Number.Binary64
import ProtoSchema.Text.Blank
import ProtoSchema.Text.DecimalDigit
import ProtoSchema.Text.Quoted

/-!
# Numerals

Numbers as they are written. Two kinds of rule are kept apart. The *shapes* of a numeral in a
schema source are three regular languages over ASCII: integers, reals, and everything else
that starts like a number. The *reading* of a text as a number is more generous: blanks around
it, a sign, digits of any script, and single underscores between digits. What has a shape can
be read, but for whole numbers in base ten with more digits than are allowed. That limit is a
setting of the machine, and a parameter here; without one, numbers of any length are read.
-/
namespace ProtoSchema

/-- Why a text is not read as a number. -/
inductive NumeralError where
  /-- It is no whole number in the base. -/
  | integer (base : Nat) (text : Text)
  /-- It has more digits than may be read. -/
  | tooLong (limit digits : Nat)
  /-- It is no real. -/
  | real (text : Text)
  deriving DecidableEq

/-- The quoted text is cut at two hundred characters where a whole number was wanted. -/
def NumeralError.message : NumeralError → Text
  | .integer base text =>
    Text.ofString s!"invalid literal for int() with base {base}: " ++
      Text.ofChars (text.quoted.take 200)
  | .tooLong limit digits =>
    Text.ofString (s!"Exceeds the limit ({limit} digits) for integer string conversion: " ++
      s!"value has {digits} digits; use sys.set_int_max_str_digits() to increase the limit")
  | .real text =>
    Text.ofString "could not convert string to float: " ++ Text.ofChars text.quoted

namespace Numeral

/-! ## Shapes -/

/-- Is the character an octal digit? -/
def isOctalDigit (c : Char) : Bool := '0' ≤ c && c ≤ '7'

/-- Is the character a hexadecimal digit, in either case? -/
def isHexDigit (c : Char) : Bool :=
  c.isDigit || ('a' ≤ c && c ≤ 'f') || ('A' ≤ c && c ≤ 'F')

/-- The shapes `[1-9][0-9]*`, `0[0-7]*` and `0[xX][0-9a-fA-F]+`. -/
def isIntegerShape : List Char → Bool
  | '0' :: 'x' :: digits => !digits.isEmpty && digits.all isHexDigit
  | '0' :: 'X' :: digits => !digits.isEmpty && digits.all isHexDigit
  | '0' :: digits => digits.all isOctalDigit
  | first :: digits => first.isDigit && digits.all Char.isDigit
  | [] => false

/-- The shape `[eE][+-]?[0-9]+`. -/
def isExponentShape : List Char → Bool
  | e :: rest =>
    let digits := match rest with
      | '+' :: digits => digits
      | '-' :: digits => digits
      | digits => digits
    (e = 'e' || e = 'E') && !digits.isEmpty && digits.all Char.isDigit
  | [] => false

/-- A fraction's digits, then an exponent or nothing. -/
def isFractionShape (cs : List Char) : Bool :=
  let rest := cs.dropWhile Char.isDigit
  rest.isEmpty || isExponentShape rest

/-- Digits with a point among them, after them or before them, and an exponent or none; or
digits with an exponent. -/
def isRealShape (cs : List Char) : Bool :=
  let whole := cs.takeWhile Char.isDigit
  match cs.dropWhile Char.isDigit with
  | '.' :: rest =>
    isFractionShape rest && (!whole.isEmpty || !(rest.takeWhile Char.isDigit).isEmpty)
  | rest => !whole.isEmpty && isExponentShape rest

/-! ## Reading -/

/-- A text in ASCII: digits of every script as ASCII digits, blanks outside ASCII as spaces.
What has no such form becomes a question mark, which no numeral holds. -/
def toAscii (t : Text) : List Char :=
  t.map fun
    | .char c =>
      if c.toNat < 0x7F then c
      else if Text.isBlank c then ' '
      else match Text.decimalDigit? c with
        | some d => Nat.digitChar d
        | none => '?'
    | .stray _ => '?'

/-- Characters without the blanks at either end. -/
def trim (cs : List Char) : List Char :=
  ((cs.dropWhile Text.isBlank).reverse.dropWhile Text.isBlank).reverse

/-- The value of a digit in bases up to sixteen; letters count in either case. -/
def digitValue (c : Char) : Nat :=
  if c.isDigit then c.toNat - '0'.toNat
  else if 'a' ≤ c ∧ c ≤ 'f' then c.toNat - 'a'.toNat + 10
  else if 'A' ≤ c ∧ c ≤ 'F' then c.toNat - 'A'.toNat + 10
  else 16

/-- Is the character a digit of the base? -/
def isDigitOf (base : Nat) (c : Char) : Bool := digitValue c < base

/-- The number that digits denote, the most significant first. -/
def ofDigits (base : Nat) (digits : List Char) : Nat :=
  digits.foldl (fun n c => n * base + digitValue c) 0

/-- Is every underscore between two digits, given that a digit came before? -/
def separatesDigits (isDigit : Char → Bool) : List Char → Bool
  | [] => true
  | '_' :: d :: rest => isDigit d && separatesDigits isDigit rest
  | '_' :: [] => false
  | d :: rest => isDigit d && separatesDigits isDigit rest

/-- Digits, possibly set in groups by single underscores. -/
def isGrouped (isDigit : Char → Bool) : List Char → Bool
  | [] => false
  | d :: rest => isDigit d && separatesDigits isDigit rest

/-- A sign in front, and what follows it. -/
def splitSign : List Char → Bool × List Char
  | '-' :: rest => (true, rest)
  | '+' :: rest => (false, rest)
  | cs => (false, cs)

/-- One underscore less, if there is one. -/
def dropUnderscore : List Char → List Char
  | '_' :: rest => rest
  | cs => cs

/-- The digits of a numeral in a base, without the mark of base sixteen or eight. An
underscore may stand between the mark and the digits. -/
def dropBaseMark (base : Nat) : List Char → List Char
  | '0' :: m :: rest =>
    if (base = 16 ∧ (m = 'x' ∨ m = 'X')) ∨ (base = 8 ∧ (m = 'o' ∨ m = 'O')) then
      dropUnderscore rest
    else '0' :: m :: rest
  | cs => cs

/-- The most digits that are read if no other limit is set. -/
def digitLimit : Nat := 4300

/-- Refuse more digits than may be read, counted up to the first character that is neither a
digit nor an underscore. In a base that is a power of two any number of them may be read. -/
def checkLength (limit : Option Nat) (base : Nat) (digits : List Char) :
    Except NumeralError Unit :=
  let run := digits.takeWhile fun c => isDigitOf base c || c = '_'
  let count := (run.filter (· ≠ '_')).length
  match limit with
  | none => .ok ()
  | some most =>
    if base &&& (base - 1) ≠ 0 ∧ isGrouped (isDigitOf base) run ∧ most < count then
      .error (.tooLong most count)
    else .ok ()

/-- Read a whole number in a base, of no more digits than the limit allows. -/
def readInteger (base : Nat) (t : Text) (limit : Option Nat := some digitLimit) :
    Except NumeralError Int := do
  let (negative, unsigned) := splitSign (trim (toAscii t))
  let digits := dropBaseMark base unsigned
  checkLength limit base digits
  if isGrouped (isDigitOf base) digits then
    let n : Int := ofDigits base (digits.filter (· ≠ '_'))
    .ok (if negative then -n else n)
  else .error (.integer base t)

/-- Read the literal of a whole number: base sixteen after `0x` or `0X`, base eight after
another leading zero, else base ten. -/
def readLiteral (t : Text) (limit : Option Nat := some digitLimit) :
    Except NumeralError Int :=
  match t with
  | .char '0' :: .char 'x' :: digits => readInteger 16 digits limit
  | .char '0' :: .char 'X' :: digits => readInteger 16 digits limit
  | .char '0' :: d :: digits => readInteger 8 (.char '0' :: d :: digits) limit
  | t => readInteger 10 t limit

/-- Does every underscore have a digit on either side? -/
def underscoresFit : (before : Char) → List Char → Bool
  | _, [] => true
  | before, '_' :: rest =>
    before.isDigit && (match rest with | d :: _ => d.isDigit | [] => false) &&
      underscoresFit '_' rest
  | _, c :: rest => underscoresFit c rest

/-- Read an exponent: its mark, a sign or none, and digits. No exponent counts as zero. -/
def readExponent? : List Char → Option Int
  | [] => some 0
  | e :: rest =>
    let (negative, digits) := splitSign rest
    if (e = 'e' ∨ e = 'E') ∧ !digits.isEmpty ∧ digits.all Char.isDigit then
      let n : Int := ofDigits 10 digits
      some (if negative then -n else n)
    else none

/-- Read a decimal without a sign: digits with a point among them or none, and an exponent or
none. -/
def readDecimal? (cs : List Char) : Option Binary64.Decimal :=
  let whole := cs.takeWhile Char.isDigit
  let rest := cs.dropWhile Char.isDigit
  let afterPoint := match rest with
    | '.' :: rest => rest
    | _ => []
  let fraction := afterPoint.takeWhile Char.isDigit
  let exponentPart := match rest with
    | '.' :: rest => rest.dropWhile Char.isDigit
    | rest => rest
  if whole.isEmpty ∧ fraction.isEmpty then none
  else (readExponent? exponentPart).map fun e =>
    ⟨ofDigits 10 (whole ++ fraction), e - fraction.length⟩

/-- Read a number that may be a fraction, infinite or no number at all. The names of the last
two count in any case of letters. -/
def readReal (t : Text) : Except NumeralError Binary64 :=
  let trimmed := trim (toAscii t)
  let (negative, unsigned) := splitSign (trimmed.filter (· ≠ '_'))
  let word := unsigned.map Char.toLower
  if !underscoresFit ' ' trimmed then .error (.real t)
  else if word = "inf".toList ∨ word = "infinity".toList then .ok (.infinite negative)
  else if word = "nan".toList then .ok .nan
  else match readDecimal? unsigned with
    | some d => .ok (.ofDecimal negative d)
    | none => .error (.real t)

end Numeral

end ProtoSchema
