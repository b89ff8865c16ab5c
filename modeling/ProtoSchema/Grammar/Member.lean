import ProtoSchema.Grammar.Option

/-!
# Bodies, ranges and fields

The parts of declarations that hold no declarations themselves, and the braces around those
that do.
-/
namespace ProtoSchema.Grammar

open Parse

/-- Elements in braces. An element that is an empty statement leaves nothing. -/
def body (element : Parse (Option α)) : Parse (List α) := do
  consumeMark .leftBrace "\x7b"
  let elements ← whileMore (return !(← check .rightBrace)) do
    if ← atEnd then expect [.spelled "\x7d"]
    element
  let _ ← advance
  return elements.filterMap id

/-- The number that bounds a range. Only enums have negative ones. -/
def rangeNumber (signed : Bool) (wanted : String → Expectation) : Parse Int :=
  if signed then signedInteger (wanted "enum value number")
  else unsignedInteger (wanted "field number")

/-- A number, or a number, the word `to`, and a number or the word `max`. -/
def tagRange (signed : Bool) : Parse TagRange := within .tagRange do
  let start ← current
  let first ← rangeNumber signed .anInteger
  if ← checkWord "to" then
    let _ ← advance
    if ← checkWord "max" then
      let _ ← advance
      return ⟨first, some .max, start.position⟩
    else
      let last ← rangeNumber signed .anIntegerOrMax
      return ⟨first, some (.number last), start.position⟩
  else return ⟨first, none, start.position⟩

/-- Ranges with commas between them, at least one. -/
def tagRanges (signed : Bool) : Parse (List TagRange) := separatedBy .comma (tagRange signed)

/-- Reserved names or ranges; the first word is taken unseen. -/
def reservedDecl (signed : Bool) : Parse ReservedDecl := within .reservedDecl do
  let start ← advance
  if ← check .string then
    let names ← separatedBy .comma (stringLiteral (.aString "reserved name"))
    consumeMark .semicolon ";"
    return ⟨.names names, start.position⟩
  else
    let ranges ← tagRanges signed
    consumeMark .semicolon ";"
    return ⟨.ranges ranges, start.position⟩

/-- Ranges set aside for extensions; the first word is taken unseen. -/
def extensionRangeDecl : Parse ExtensionRangeDecl := within .extensionRangeDecl do
  let start ← advance
  let ranges ← tagRanges false
  let options ← optionalCompactOptions
  consumeMark .semicolon ";"
  return ⟨ranges, options, start.position⟩

/-- A field whose cardinality, if any, was read before; the field starts at the given
token. -/
def fieldDecl (cardinality : Option Cardinality) (start : Token) : Parse FieldDecl :=
  within .fieldDecl do
    let type ← typeName
    let name ← consumeName (.aName "field name")
    consumeMark .equals "="
    let number ← fieldNumber
    let options ← optionalCompactOptions
    consumeMark .semicolon ";"
    return ⟨cardinality, type, name, number, options, start.position⟩

/-- One of the scalar types that a map may be keyed by. -/
def mapKeyType : Parse Text := do
  let key ← current
  if key.kind ≠ .identifier || !isMapKeyType key.text then expect [.mapKeyType]
  let _ ← advance
  return key.text

/-- A field `map<key, value> name = number [options];` -/
def mapFieldDecl : Parse MapFieldDecl := within .mapFieldDecl do
  let start ← consumeWord "map"
  consumeMark .leftAngle "<"
  let keyType ← mapKeyType
  consumeMark .comma ","
  let valueType ← typeName
  consumeMark .rightAngle ">"
  let name ← consumeName (.aName "field name")
  consumeMark .equals "="
  let number ← fieldNumber
  let options ← optionalCompactOptions
  consumeMark .semicolon ";"
  return ⟨keyType, valueType, name, number, options, start.position⟩

end ProtoSchema.Grammar
