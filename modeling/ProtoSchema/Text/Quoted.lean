import ProtoSchema.Text.Basic
import ProtoSchema.Text.Printable

/-!
# Quoted text

The quoted form of a text in messages and listings, on one line and in printable characters
only. The quote is an apostrophe unless the text holds apostrophes and no double quote. The
quote in use and the backslash are escaped by a backslash, newline, carriage return and tab
have short escapes, and what is not printable is written by its code.
-/
namespace ProtoSchema.Text

/-- The lowest `width` hexadecimal digits of a number, in lower case. -/
def fixedHex : (width : Nat) → Nat → List Char
  | 0, _ => []
  | width + 1, n => fixedHex width (n / 16) ++ [Nat.digitChar (n % 16)]

/-- The escape of a code point: two, four or eight digits, whichever holds it first. -/
def codeEscape (code : Nat) : List Char :=
  if code < 0x100 then '\\' :: 'x' :: fixedHex 2 code
  else if code < 0x10000 then '\\' :: 'u' :: fixedHex 4 code
  else '\\' :: 'U' :: fixedHex 8 code

/-- The quote that encloses a text. -/
def quoteMark (t : Text) : Char :=
  if t.contains (.char '\'') && !t.contains (.char '"') then '"' else '\''

/-- A glyph as it stands between two marks. -/
def quotedGlyph (mark : Char) : Glyph → List Char
  | .char c =>
    if c = mark ∨ c = '\\' then ['\\', c]
    else if c = '\n' then ['\\', 'n']
    else if c = '\r' then ['\\', 'r']
    else if c = '\t' then ['\\', 't']
    else if isPrintable c then [c]
    else codeEscape c.toNat
  | .stray b => codeEscape (Glyph.stray b).code

/-- The quoted form of a text. -/
def quoted (t : Text) : List Char :=
  let mark := quoteMark t
  mark :: t.flatMap (quotedGlyph mark) ++ [mark]

end ProtoSchema.Text
