import ProtoSchema.Grammar.Value
import ProtoSchema.Tree.Declaration

/-!
# Options

Options as statements and in brackets behind a declaration.
-/
namespace ProtoSchema.Grammar

open Parse

/-- A name, or the name of an extension in parentheses. -/
def optionNamePart : Parse OptionNamePart := do
  let start ← current
  if ← accept [.leftParen] then
    let name ← typeName
    consumeMark .rightParen ")"
    return ⟨name, true, start.position⟩
  else if ← check .identifier then return ⟨(← advance).text, false, start.position⟩
  else expect [.anIdentifier "option name", .spelled "("]

/-- The parts of a name, with points between them. -/
def optionName : Parse (List OptionNamePart) :=
  within .optionName (separatedBy .dot optionNamePart)

/-- A scalar, or a message in braces or angle brackets. -/
def optionValue : Parse OptionValue := within .optionValue (optionValueOf messageLiteral)

/-- An option statement; its first word is taken unseen. -/
def optionStatement : Parse OptionStatement := within .optionDecl do
  let start ← advance
  let name ← optionName
  consumeMark .equals "="
  let value ← optionValue
  consumeMark .semicolon ";"
  return ⟨name, value, start.position⟩

/-- An option `name = value`, as it stands in brackets. -/
def compactOption : Parse CompactOption := do
  let start ← current
  let name ← optionName
  consumeMark .equals "="
  let value ← optionValue
  return ⟨name, value, start.position⟩

/-- Options in brackets, at least one. -/
def compactOptions : Parse (List CompactOption) := within .compactOptions do
  consumeMark .leftBracket "["
  let options ← separatedBy .comma compactOption
  if ← check .rightBracket then
    let _ ← advance
    return options
  else expect [.spelled ",", .spelled "]"]

/-- Options in brackets, or none at all. -/
def optionalCompactOptions : Parse (List CompactOption) := do
  if ← check .leftBracket then compactOptions else return []

end ProtoSchema.Grammar
