import ProtoSchema.Grammar.Member

/-!
# Messages, enums and extensions

Declarations that hold declarations. Everything that can hold a message is read with the
production for an element of a message given; `messageElement` ties the knot where fewer
tokens are left.
-/
namespace ProtoSchema.Grammar

open Parse

/-! ## Enums -/

/-- A value `NAME = number [options];`, where the number may be negative. -/
def enumValueDecl : Parse EnumValueDecl := within .enumValueDecl do
  let start ← current
  let name ← consumeName (.aName "enum value name")
  consumeMark .equals "="
  let number ← signedInteger (.anInteger "enum value number")
  let options ← optionalCompactOptions
  consumeMark .semicolon ";"
  return ⟨name, number, options, start.position⟩

/-- One statement of an enum; an empty one leaves nothing. -/
def enumElement : Parse (Option EnumElement) := do
  if ← accept [.semicolon] then return none
  else if ← checkKeyword "option" then return some (.option (← optionStatement))
  else if ← checkKeyword "reserved" then return some (.reserved (← reservedDecl true))
  else return some (.value (← enumValueDecl))

/-- An enum; the first word is taken unseen. -/
def enumDecl : Parse EnumDecl := within .enumDecl do
  let start ← advance
  let name ← consumeName (.aName "enum name")
  let elements ← body enumElement
  return ⟨name, elements, start.position⟩

/-! ## Messages -/

/-- A group whose cardinality, if any, was read before; its first word is taken unseen. -/
def groupDeclOf (element : Parse (Option MessageElement)) (cardinality : Option Cardinality)
    (start : Token) : Parse GroupDecl := within .groupDecl do
  let _ ← advance
  let name ← consumeName (.aName "group name")
  consumeMark .equals "="
  let number ← fieldNumber
  let options ← optionalCompactOptions
  let elements ← body element
  return ⟨cardinality, name, number, options, elements, start.position⟩

/-- The cardinality that a soft keyword stands for. -/
def cardinality? (t : Token) : Option Cardinality :=
  if t.soft then Cardinality.ofText? t.text else none

/-- A field or a group, with a cardinality or without. -/
def memberOf (element : Parse (Option MessageElement)) : Parse Member := do
  let start ← current
  let cardinality := cardinality? start
  if cardinality.isSome then
    let _ ← advance
  if ← checkKeyword "group" then return .group (← groupDeclOf element cardinality start)
  else return .field (← fieldDecl cardinality start)

/-- An option, a group or a field of a oneof; none of them may have a cardinality. -/
def oneofElementOf (element : Parse (Option MessageElement)) : Parse OneofElement := do
  let start ← current
  if ← checkKeyword "option" then return .option (← optionStatement)
  else if ← checkKeyword "group" then
    return .member (.group (← groupDeclOf element none start))
  else if (cardinality? start).isSome then reject .cardinalityInOneof
  else return .member (.field (← fieldDecl none start))

/-- A oneof; the first word is taken unseen. -/
def oneofDeclOf (element : Parse (Option MessageElement)) : Parse OneofDecl :=
  within .oneofDecl do
    let start ← advance
    let name ← consumeName (.aName "oneof name")
    let elements ← body (some <$> oneofElementOf element)
    return ⟨name, elements, start.position⟩

/-- A message; the first word is taken unseen. -/
def messageDeclOf (element : Parse (Option MessageElement)) : Parse MessageDecl :=
  within .messageDecl do
    let start ← advance
    let name ← consumeName (.aName "message name")
    let elements ← body element
    return ⟨name, elements, start.position⟩

/-- Fields and groups for a type declared elsewhere; the first word is taken unseen. -/
def extensionDeclOf (element : Parse (Option MessageElement)) : Parse ExtensionDecl :=
  within .extensionDecl do
    let start ← advance
    let extendee ← typeName
    let elements ← body (some <$> memberOf element)
    return ⟨extendee, elements, start.position⟩

/-- Does a map field start here? `map` without an angle bracket is the name of a type. -/
def atMapField : Parse Bool := do
  if ← checkWord "map" then return (← look 1).kind = .leftAngle else return false

/-- One statement of a message; an empty one leaves nothing. -/
def messageElementOf (element : Parse (Option MessageElement)) :
    Parse (Option MessageElement) := do
  if ← accept [.semicolon] then return none
  else if ← checkKeyword "option" then return some (.option (← optionStatement))
  else if ← checkKeyword "message" then return some (.message (← messageDeclOf element))
  else if ← checkKeyword "enum" then return some (.enum (← enumDecl))
  else if ← checkKeyword "extend" then return some (.extension (← extensionDeclOf element))
  else if ← checkKeyword "extensions" then
    return some (.extensionRange (← extensionRangeDecl))
  else if ← checkKeyword "reserved" then return some (.reserved (← reservedDecl false))
  else if ← checkKeyword "oneof" then return some (.oneof (← oneofDeclOf element))
  else if ← atMapField then return some (.mapField (← mapFieldDecl))
  else return some (.member (← memberOf element))

/-- One statement of a message, whatever it holds. -/
def messageElement : Parse (Option MessageElement) := recursive messageElementOf

/-- A group behind a cardinality or none. -/
def groupDecl : Option Cardinality → Token → Parse GroupDecl := groupDeclOf messageElement

/-- A field or a group, wherever one may stand. -/
def member : Parse Member := memberOf messageElement

def oneofElement : Parse OneofElement := oneofElementOf messageElement

/-- A oneof. -/
def oneofDecl : Parse OneofDecl := oneofDeclOf messageElement

/-- A message. -/
def messageDecl : Parse MessageDecl := messageDeclOf messageElement

/-- An extension. -/
def extensionDecl : Parse ExtensionDecl := extensionDeclOf messageElement

end ProtoSchema.Grammar
