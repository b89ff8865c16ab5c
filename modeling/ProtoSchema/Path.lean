import ProtoSchema.Text.Basic

/-!
# Paths

The names of files, as a root and the names below it. Empty names and single points say
nothing and are left out; two points are kept, since what they lead to depends on the files.
-/
namespace ProtoSchema

/-- The way to a file or directory, from the working directory or from a root. -/
structure Path where
  /-- No slash for a path from the working directory, else one or two. -/
  slashes : Nat
  names : List Text
  deriving DecidableEq

namespace Path

/-- What parts the names of a path. -/
private def slash : Glyph := .char '/'

/-- The parts of a text between slashes. -/
def split : Text → List Text
  | [] => [[]]
  | g :: rest =>
    if g = slash then [] :: split rest
    else match split rest with
      | part :: parts => (g :: part) :: parts
      | [] => [[g]]

/-- Exactly two slashes in front are a root of their own; any other number counts as one. -/
def ofText (t : Text) : Path where
  slashes :=
    let n := (t.takeWhile (· = slash)).length
    if n = 2 then 2 else min n 1
  names := (split t).filter fun name => name ≠ [] ∧ name ≠ [.char '.']

/-- The path as it is written. -/
def text (p : Path) : Text :=
  if p.slashes = 0 ∧ p.names.isEmpty then [.char '.']
  else List.replicate p.slashes slash ++ Text.join [slash] p.names

/-- The directory that holds what the path leads to. -/
def parent (p : Path) : Path := { p with names := p.names.dropLast }

/-- Can the system be given the path? The character zero would end it. -/
def isNameable (p : Path) : Bool := p.names.all fun name => !name.contains (.char '\x00')

/-- The last name; empty if there is none. -/
def name (p : Path) : Text := p.names.getLast?.getD []

/-- The last name from its last point on, unless the point is its first or last character. -/
def extension (p : Path) : Text :=
  let after := (p.name.reverse.takeWhile (· ≠ .char '.')).length
  let point := p.name.length - 1 - after
  if after < p.name.length ∧ 0 < point ∧ 0 < after then p.name.drop point else []

/-- The glyph in lower case, if it is a letter of ASCII. -/
def lowerGlyph : Glyph → Glyph
  | .char c => .char c.toLower
  | g => g

/-- Does the path name a schema? Letters count in either case; no letter beyond ASCII has one
of these for its lower case. -/
def isSchema (p : Path) : Bool := p.extension.map lowerGlyph = Text.ofString ".proto"

end Path

end ProtoSchema
