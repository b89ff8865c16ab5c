import ProtoSchema.Token

/-!
# Readings

What is read at the head of a list of characters, without regard to where in a source it
stands. A reading says how many characters it passes and either what they denote or what is
wrong with them and how far from the head. `Reading.after` sets a reading behind characters
that were passed before.
-/
namespace ProtoSchema

/-- What can be wrong with the characters of a source. -/
inductive LexicalFault where
  | unterminatedComment
  | unterminatedString
  | missingHexDigits (count : Nat)
  | invalidCodePoint (value : Nat)
  | octalOutOfRange (digits : List Char)
  | invalidEscape (c : Char)
  | unexpectedCharacter (c : Char)
  deriving DecidableEq, Repr

namespace LexicalFault

/-- A number in upper-case hexadecimal digits, at least four of them. -/
def codePointName (n : Nat) : List Char :=
  let digits := (Nat.toDigits 16 n).map Char.toUpper
  List.replicate (4 - digits.length) '0' ++ digits

/-- The wording of a fault, without its place. -/
def message : LexicalFault → Text
  | unterminatedComment => "Unterminated block comment"
  | unterminatedString => "Unterminated string"
  | missingHexDigits count => s!"Expected {count} hex digits in escape sequence"
  | invalidCodePoint value =>
    Text.ofString "Invalid unicode escape U+" ++ Text.ofChars (codePointName value)
  | octalOutOfRange digits =>
    Text.ofString "Octal escape out of range '\\" ++ Text.ofChars digits ++ Text.ofString "'"
  | invalidEscape c =>
    Text.ofString "Invalid escape sequence '\\" ++ Text.ofChars [c] ++ Text.ofString "'"
  | unexpectedCharacter c =>
    Text.ofString "Unexpected character " ++ Text.ofChars (Text.quoted [.char c])

end LexicalFault

/-- A fault and the number of characters before the construct it belongs to. -/
structure Misreading where
  offset : Nat
  fault : LexicalFault
  deriving DecidableEq, Repr

/-- The outcome of reading at the head of some characters, and how many of them were
passed. -/
structure Reading (α : Type) where
  outcome : Except Misreading α
  length : Nat

namespace Reading

/-- A reading of `length` characters without fault. -/
def done (length : Nat) (a : α) : Reading α := ⟨.ok a, length⟩

/-- A fault of the construct that starts at the head. -/
def fail (length : Nat) (fault : LexicalFault) : Reading α := ⟨.error ⟨0, fault⟩, length⟩

/-- The same reading, seen from `n` characters further back. -/
def after (n : Nat) (r : Reading α) : Reading α where
  outcome := match r.outcome with
    | .ok a => .ok a
    | .error e => .error { e with offset := n + e.offset }
  length := n + r.length

def map (f : α → β) (r : Reading α) : Reading β where
  outcome := r.outcome.map f
  length := r.length

@[simp] theorem length_done (n : Nat) (a : α) : (done n a).length = n := rfl

@[simp] theorem length_fail (n : Nat) (f : LexicalFault) :
    (fail n f : Reading α).length = n := rfl

@[simp] theorem length_after (n : Nat) (r : Reading α) :
    (r.after n).length = n + r.length := rfl

@[simp] theorem length_map (f : α → β) (r : Reading α) : (r.map f).length = r.length := rfl

end Reading

end ProtoSchema
