import ProtoSchema.Grammar.Parse

/-!
# Names, strings and numbers

The parts that all declarations are made of. Whole numbers are read whatever their length: the
limit that a machine may set on their digits is left out of the grammar.
-/
namespace ProtoSchema.Grammar

open Parse

/-- A single identifier, a soft keyword too. -/
def identifier : Parse Text :=
  return (← consume .identifier (.anIdentifier "identifier")).text

/-- Identifiers with points between them. -/
def qualifiedIdentifier : Parse Text := return Text.join "." (← separatedBy .dot identifier)

/-- A qualified identifier, with a point in front or not. -/
def typeName : Parse Text := do
  if ← accept [.dot] then return .char '.' :: (← qualifiedIdentifier)
  else if ← check .identifier then qualifiedIdentifier
  else expect [.typeName]

/-- One or more string literals; their values are joined. -/
def stringLiteral (wanted : Expectation) : Parse Text := do
  let first := (← consume .string wanted).text
  let rest ← whileMore (check .string) advance
  return first ++ (rest.map Token.text).flatten

/-- A whole number without a sign. -/
def unsignedInteger (wanted : Expectation) : Parse Int := do
  let t ← consume .integer wanted
  ofNumeral (Numeral.readLiteral t.text none)

/-- A whole number, with a minus in front or not. -/
def signedInteger (wanted : Expectation) : Parse Int := do
  let negative ← accept [.minus]
  let n ← unsignedInteger wanted
  return if negative then -n else n

/-- The number of a field. -/
def fieldNumber : Parse Int := unsignedInteger (.anInteger "field number")

end ProtoSchema.Grammar
