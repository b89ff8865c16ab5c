import ProtoSchema.Document.Basic
import ProtoSchema.Number.Shortest
import ProtoSchema.Text.Quoted

/-!
# The text of documents

Documents as JSON. Every element of a list and every entry of an object stands on a line of
its own, set in by its depth. Characters stand as they are but for the quote, the backslash
and the control characters, which are escaped, and a stray byte is the escape of its code. The
text of a document holds no stray byte. `toJson` is that text for every indent; `setOut`
refuses an indent that is no signed number of 64 bits, and a text for which the memory has no
room. How much room there is depends on the machine. A limit that a machine may set on the
digits of the integers it writes is left out.
-/
namespace ProtoSchema.Document

/-- How a document is set out. -/
structure Style where
  /-- Spaces per level; none if not positive. -/
  indent : Int
  /-- Are the entries of objects put in the order of their keys? -/
  sortKeys : Bool
  deriving DecidableEq, Repr

/-- Reals have the fewest digits that identify them, written positionally from `0.0001` to
below `10 ^ 16`. -/
def realLayout : Binary64.Layout := ⟨-3, 17⟩

/-- A glyph inside quotes. -/
def escaped : Glyph → List Char
  | .char c =>
    if c = '"' then ['\\', '"']
    else if c = '\\' then ['\\', '\\']
    else if c = '\n' then ['\\', 'n']
    else if c = '\r' then ['\\', 'r']
    else if c = '\t' then ['\\', 't']
    else if c = '\x08' then ['\\', 'b']
    else if c = '\x0c' then ['\\', 'f']
    else if c.toNat < 0x20 then '\\' :: 'u' :: Text.fixedHex 4 c.toNat
    else [c]
  | .stray b => '\\' :: 'u' :: Text.fixedHex 4 (Glyph.stray b).code

/-- A text between quotes. -/
def writeText (t : Text) : List Char := '"' :: t.flatMap escaped ++ ['"']

/-- A real; the names of the ones that are not finite are not quoted. -/
def writeReal : Binary64 → List Char
  | .infinite true => "-Infinity".toList
  | .infinite false => "Infinity".toList
  | .nan => "NaN".toList
  | x => realLayout.text x

namespace Style

/-- The start of a line at a depth. -/
def newline (style : Style) (depth : Nat) : List Char :=
  '\n' :: List.replicate (style.indent.toNat * depth) ' '

/-- Items between brackets, at a depth; nothing stands between the brackets of no items. -/
def enclose (style : Style) (depth : Nat) (left right : Char) : List (List Char) → List Char
  | [] => [left, right]
  | items =>
    let inner := style.newline (depth + 1)
    left :: inner ++ List.intercalate (',' :: inner) items ++ style.newline depth ++ [right]

/-- The items of an object by key. -/
def order (style : Style) (items : List (Text × List Char)) : List (Text × List Char) :=
  if style.sortKeys then items.mergeSort fun a b => !b.1.precedes a.1 else items

end Style

mutual

/-- The text of a document that stands at a depth. -/
def write (style : Style) (depth : Nat) : Document → List Char
  | .null => "null".toList
  | .bool b => (toString b).toList
  | .integer n => (toString n).toList
  | .real x => writeReal x
  | .text t => writeText t
  | .list elements => style.enclose depth '[' ']' (writeAll style (depth + 1) elements)
  | .object entries =>
    let items := style.order (writeEntries style (depth + 1) entries)
    style.enclose depth '{' '}'
      (items.map fun (key, value) => writeText key ++ ':' :: ' ' :: value)

/-- The texts of the elements of a list. -/
def writeAll (style : Style) (depth : Nat) : List Document → List (List Char)
  | [] => []
  | d :: rest => d.write style depth :: writeAll style depth rest

/-- The keys of an object with the texts of their values. -/
def writeEntries (style : Style) (depth : Nat) : List (Text × Document) →
    List (Text × List Char)
  | [] => []
  | (key, d) :: rest => (key, d.write style depth) :: writeEntries style depth rest

end

/-- The text of a whole document. -/
def toJson (style : Style) (d : Document) : List Char := d.write style 0

/-! ## Limits -/

/-- Why a document cannot be set out. -/
inductive LayoutError where
  /-- An indent was asked for, and none was given. -/
  | blankIndent
  /-- The indent is no signed number of 64 bits. -/
  | indentOutOfRange
  /-- The memory has no room for the text. -/
  | indentTooWide
  deriving DecidableEq, Repr

/-- The memory of a machine. -/
structure Memory where
  /-- Is there room for so many characters? -/
  holds : Nat → Bool

namespace Memory

/-- A memory with room for as many characters or fewer. -/
def ofSize (size : Nat) : Memory := ⟨fun n => n ≤ size⟩

/-- The memory where no other is named. Nothing that is proved depends on its size. -/
def usual : Memory := .ofSize 0xFFFFFFFFF

/-- Is there room for the text of a document? What lines are set in by is made before the
text. -/
def fits (memory : Memory) (style : Style) (d : Document) : Bool :=
  memory.holds style.indent.toNat && memory.holds (d.toJson style).length

end Memory

/-- The text of a document, unless its lines cannot be set in or there is no room for it. A
text alone has one line, and any indent will do for it. -/
def setOut (style : Style) (d : Document) (memory : Memory := .usual) :
    Except LayoutError (List Char) :=
  match d with
  | .text t => .ok (writeText t)
  | d =>
    if style.indent < -0x8000000000000000 ∨ 0x8000000000000000 ≤ style.indent then
      .error .indentOutOfRange
    else if memory.fits style d then .ok (d.toJson style)
    else .error .indentTooWide

end ProtoSchema.Document
