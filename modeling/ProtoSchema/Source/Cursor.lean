import ProtoSchema.Source.Lexeme

/-!
# Cursors

A place in a source: the characters behind it, the nearest first, those ahead of it, and its
line and column. A cursor moves over one character at a time, so behind and ahead always make
up the source; `Cursor.perform` carries out a reading and says where in the source its fault
lies.
-/
namespace ProtoSchema

/-- A fault of a source, at the position of the construct that is wrong. -/
structure LexicalError where
  fault : LexicalFault
  position : Position
  deriving DecidableEq, Repr

/-- A message with its position in front. -/
def Position.locate (p : Position) (message : Text) : Text :=
  Text.ofString s!"Line {p.line}, Column {p.column}: " ++ message

/-- What is told of an error. -/
def LexicalError.message (e : LexicalError) : Text := e.position.locate e.fault.message

/-- A place between two characters of a source. -/
structure Cursor where
  behind : List Char
  ahead : List Char
  position : Position
  deriving DecidableEq, Repr

namespace Cursor

/-- The cursor at the first character of a source. -/
def start (source : List Char) : Cursor := ⟨[], source, ⟨1, 1⟩⟩

/-- The number of characters behind the cursor. -/
def offset (c : Cursor) : Nat := c.behind.length

/-- The whole source. -/
def source (c : Cursor) : List Char := c.behind.reverse ++ c.ahead

/-- The position after a character. -/
def step (p : Position) (c : Char) : Position :=
  if c = '\n' then ⟨p.line + 1, 1⟩ else ⟨p.line, p.column + 1⟩

/-- Move over one character; at the end, stay. -/
def advance (c : Cursor) : Cursor :=
  match c.ahead with
  | [] => c
  | x :: rest => ⟨x :: c.behind, rest, step c.position x⟩

/-- Move over a number of characters. -/
def advanceBy : Nat → Cursor → Cursor
  | 0, c => c
  | n + 1, c => advanceBy n c.advance

/-- Move over a byte order mark at the start of the source. It takes no column. -/
def skipMark (c : Cursor) : Cursor :=
  match c.behind, c.ahead with
  | [], '\uFEFF' :: rest => { c with behind := ['\uFEFF'], ahead := rest }
  | _, _ => c

/-- The character at a distance from the cursor, if the source goes that far. A place before
the first character counts from the end; `none` means that it is before the first one even
so. -/
def look (c : Cursor) (distance : Int) : Option (Option Char) :=
  let place := c.offset + distance
  if 0 ≤ place then some (c.source[place.toNat]?)
  else
    let fromEnd := c.source.length + place
    if 0 ≤ fromEnd then some (c.source[fromEnd.toNat]?) else none

/-- Read at the cursor and move over what the reading passes. -/
def perform (c : Cursor) (read : List Char → Reading α) : Except LexicalError α × Cursor :=
  let r := read c.ahead
  let outcome := match r.outcome with
    | .ok a => .ok a
    | .error e => .error ⟨e.fault, (c.advanceBy e.offset).position⟩
  (outcome, c.advanceBy r.length)

@[simp] theorem ahead_advance (c : Cursor) : c.advance.ahead = c.ahead.drop 1 := by
  rcases c with ⟨_, _ | ⟨_, _⟩, _⟩ <;> rfl

@[simp] theorem ahead_advanceBy (n : Nat) (c : Cursor) :
    (c.advanceBy n).ahead = c.ahead.drop n := by
  induction n generalizing c with
  | zero => rfl
  | succ n ih => simp [advanceBy, ih]

@[simp] theorem source_advance (c : Cursor) : c.advance.source = c.source := by
  rcases c with ⟨_, _ | ⟨_, _⟩, _⟩ <;> simp [advance, source]

@[simp] theorem source_advanceBy (n : Nat) (c : Cursor) :
    (c.advanceBy n).source = c.source := by
  induction n generalizing c with
  | zero => rfl
  | succ n ih => simp [advanceBy, ih]

@[simp] theorem ahead_perform (c : Cursor) (read : List Char → Reading α) :
    (c.perform read).2.ahead = c.ahead.drop (read c.ahead).length := by
  simp [perform]

end Cursor

end ProtoSchema
