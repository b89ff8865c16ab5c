/-!
# Text

The text of a token, of a tree and of a message. Schema sources are Unicode, but a string
literal may write bytes that are no UTF-8; such a byte is kept as a glyph of its own, so that
no byte of a literal is lost. `Text.code` orders glyphs: a stray byte `b` sorts as the code
point `0xDC00 + b`, which no character has.
-/
namespace ProtoSchema

/-- A byte above the ASCII range that belongs to no UTF-8 sequence. -/
structure StrayByte where
  val : UInt8
  high : 0x80 ≤ val
  deriving DecidableEq

/-- One unit of a text: a character, or a byte kept as it stood. -/
inductive Glyph where
  | char (c : Char)
  | stray (b : StrayByte)
  deriving DecidableEq

/-- The place of a glyph in the order of texts. -/
def Glyph.code : Glyph → Nat
  | .char c => c.toNat
  | .stray b => 0xDC00 + b.val.toNat

/-- A sequence of characters and stray bytes. -/
abbrev Text := List Glyph

namespace Text

/-- The text whose glyphs are the given characters. -/
def ofChars (cs : List Char) : Text := cs.map .char

/-- The text of the characters of a string. -/
def ofString (s : String) : Text := ofChars s.toList

instance : Coe String Text := ⟨ofString⟩

/-- The characters of a text that holds no stray byte. -/
def chars? : Text → Option (List Char)
  | [] => some []
  | .char c :: rest => (chars? rest).map (c :: ·)
  | .stray _ :: _ => none

/-- The string of a text that holds no stray byte. -/
def toString? (t : Text) : Option String := (chars? t).map String.ofList

/-- Texts joined with a separator between neighbours. -/
def join (separator : Text) : List Text → Text
  | [] => []
  | [t] => t
  | t :: ts => t ++ separator ++ join separator ts

/-- A text between two ASCII apostrophes. -/
def apostrophed (t : Text) : Text := .char '\'' :: t ++ [.char '\'']

/-- Lexicographic order by glyph code: does `a` come strictly before `b`? -/
def precedes : Text → Text → Bool
  | _, [] => false
  | [], _ :: _ => true
  | x :: xs, y :: ys => if x.code = y.code then precedes xs ys else decide (x.code < y.code)

theorem chars?_ofChars (cs : List Char) : chars? (ofChars cs) = some cs := by
  induction cs with
  | nil => rfl
  | cons c cs ih => simp [ofChars, chars?] at ih ⊢; simp [ih]

end Text

end ProtoSchema
