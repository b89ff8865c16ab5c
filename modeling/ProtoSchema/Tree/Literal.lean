import ProtoSchema.Token

/-!
# Values of options

The values that options and text-format messages are given. Every node keeps the position of
its first token. What an option may be given (a scalar or a message) is also what a list after
a colon may hold; a list without a colon holds messages only.
-/
namespace ProtoSchema

/-- A single value. -/
inductive Scalar where
  | string (value : Text)
  | integer (value : Int)
  | real (value : Binary64)
  | identifier (name : Text)
  deriving DecidableEq

/-- A single value in its place. -/
structure ScalarValue where
  scalar : Scalar
  position : Position
  deriving DecidableEq

/-- How the name of an entry is written: plain, as `[a.b.c]` or as `[host/a.b.c]`. -/
inductive EntryNameKind where
  | plain
  | extension
  | typeUrl
  deriving DecidableEq, Repr

mutual

/-- A message in braces or angle brackets; which of them is not kept. -/
structure MessageLiteral where
  entries : List LiteralEntry
  position : Position

/-- One `name: value` of a message. -/
structure LiteralEntry where
  name : Text
  value : EntryValue
  nameKind : EntryNameKind
  position : Position

/-- What an entry of a message may be given. -/
inductive EntryValue where
  | scalar (value : ScalarValue)
  | message (value : MessageLiteral)
  /-- A list after a colon. -/
  | list (elements : List OptionValue) (position : Position)
  /-- A list without a colon. -/
  | messages (elements : List MessageLiteral) (position : Position)

/-- What an option may be given. -/
inductive OptionValue where
  | scalar (value : ScalarValue)
  | message (value : MessageLiteral)

end

/-- One part of an option's name; the name of an extension is written in parentheses. -/
structure OptionNamePart where
  name : Text
  isExtension : Bool
  position : Position
  deriving DecidableEq

namespace OptionName

/-- One part as it is written in a source. -/
def partText (part : OptionNamePart) : Text :=
  if part.isExtension then .char '(' :: part.name ++ [.char ')'] else part.name

/-- The name as it is written in a source. -/
def text (parts : List OptionNamePart) : Text := Text.join "." (parts.map partText)

end OptionName

end ProtoSchema
