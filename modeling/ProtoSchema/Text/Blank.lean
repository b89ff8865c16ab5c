/-!
# Blanks

The characters that may stand around a number given as a setting or an argument: the ASCII
blanks, the control character "next line", and the separators of Unicode 14 for words, lines
and paragraphs. The information separators of ASCII are not among them.
-/
namespace ProtoSchema.Text

/-- The blanks, as inclusive ranges of code points. -/
def blankRanges : List (Nat × Nat) :=
  [(0x09, 0x0D), (0x20, 0x20), (0x85, 0x85), (0xA0, 0xA0), (0x1680, 0x1680), (0x2000, 0x200A),
    (0x2028, 0x2029), (0x202F, 0x202F), (0x205F, 0x205F), (0x3000, 0x3000)]

/-- May the character stand around a number? -/
def isBlank (c : Char) : Bool :=
  blankRanges.any fun (first, last) => first ≤ c.toNat && c.toNat ≤ last

end ProtoSchema.Text
