import ProtoSchema.Grammar.Name
import ProtoSchema.Tree.Literal

/-!
# Option values

Scalars, and messages in the text format. Messages hold entries and entries hold messages, so
the productions for the parts of a message are given the production for a whole one;
`messageLiteral` ties the knot where fewer tokens are left.
-/
namespace ProtoSchema.Grammar

open Parse

/-- The number behind a sign. -/
def signedNumber (negative : Bool) : Parse Scalar := do
  let t ← current
  if t.kind = .integer then
    let _ ← advance
    let n ← ofNumeral (Numeral.readLiteral t.text none)
    return .integer (if negative then -n else n)
  else if t.kind = .real || (← checkWord "inf") then
    let _ ← advance
    let x ← ofNumeral (Numeral.readReal t.text)
    return .real (if negative then x.negate else x)
  else expect [.number]

/-- The scalar that starts with the given token, which is the next one. -/
def scalarFrom (start : Token) : Parse Scalar :=
  match start.kind with
  | .string => return .string (← stringLiteral (.aString "string literal"))
  | .plus => do
    let _ ← advance
    signedNumber false
  | .minus => do
    let _ ← advance
    signedNumber true
  | .integer => do
    let _ ← advance
    return .integer (← ofNumeral (Numeral.readLiteral start.text none))
  | .real => do
    let _ ← advance
    return .real (← ofNumeral (Numeral.readReal start.text))
  | .identifier => do
    let _ ← advance
    return if start.text = Text.ofString "inf" then .real (.infinite false)
      else .identifier start.text
  | _ => expect [.scalarValue]

/-- A string, a number, or an identifier; `inf` is a number. -/
def scalarValue : Parse ScalarValue := within .scalarValue do
  let start ← current
  return ⟨← scalarFrom start, start.position⟩

/-- Does a message literal start here? -/
def atMessageLiteral : Parse Bool := do
  if ← check .leftBrace then return true else check .leftAngle

/-- A message or a scalar. -/
def optionValueOf (message : Parse MessageLiteral) : Parse OptionValue := do
  if ← atMessageLiteral then return .message (← message) else return .scalar (← scalarValue)

/-- The elements of a list, in brackets and with commas between them; there may be none. -/
def bracketed (element : Parse α) : Parse (List α × Position) := do
  let start ← consume .leftBracket (.spelled "[")
  let elements ← do
    if ← check .rightBracket then pure [] else separatedBy .comma element
  if ← check .rightBracket then
    let _ ← advance
    return (elements, start.position)
  else expect [.spelled ",", .spelled "]"]

/-- A list after a colon. -/
def listLiteralOf (message : Parse MessageLiteral) : Parse (List OptionValue × Position) :=
  within .listLiteral (bracketed (optionValueOf message))

/-- A list of messages without a colon. -/
def messageListOf (message : Parse MessageLiteral) : Parse (List MessageLiteral × Position) :=
  within .listOfMessagesLiteral (bracketed message)

/-- What may follow a colon. -/
def entryValueOf (message : Parse MessageLiteral) : Parse EntryValue := do
  if ← atMessageLiteral then return .message (← message)
  else if ← check .leftBracket then
    let (elements, position) ← listLiteralOf message
    return .list elements position
  else return .scalar (← scalarValue)

/-- The name of an entry: plain, or in brackets as an extension or as a type URL. -/
def entryName : Parse (Text × EntryNameKind) := do
  if ← accept [.leftBracket] then
    let name ← qualifiedIdentifier
    if ← accept [.slash] then
      let typeName ← qualifiedIdentifier
      consumeMark .rightBracket "]"
      return (name ++ .char '/' :: typeName, .typeUrl)
    else
      consumeMark .rightBracket "]"
      return (name, .extension)
  else return ((← consume .identifier (.anIdentifier "field name")).text, .plain)

/-- A name and a value. The colon may be left out before a message and before a list of
messages. -/
def literalEntryOf (message : Parse MessageLiteral) : Parse LiteralEntry :=
  within .messageLiteralField do
    let start ← current
    let (name, nameKind) ← entryName
    let value ← do
      if ← accept [.colon] then entryValueOf message
      else if ← atMessageLiteral then pure (EntryValue.message (← message))
      else if ← check .leftBracket then
        let (elements, position) ← messageListOf message
        pure (EntryValue.messages elements position)
      else expect [.spelled ":", .spelled "\x7b", .spelled "<", .spelled "["]
    return ⟨name, value, nameKind, start.position⟩

/-- The closing bracket that goes with the opening one, which is taken. -/
def openMessage : Parse (TokenKind × String) := do
  if ← accept [.leftBrace] then return (.rightBrace, "\x7d")
  else if ← accept [.leftAngle] then return (.rightAngle, ">")
  else expect [.spelled "\x7b", .spelled "<"]

/-- Entries, each with a comma or a semicolon behind it or nothing. -/
def messageLiteralOf (message : Parse MessageLiteral) : Parse MessageLiteral :=
  within .messageLiteral do
    let start ← current
    let (close, closeMark) ← openMessage
    let entries ← whileMore (return !(← check close)) do
      let named ← do
        if ← check .identifier then pure true else check .leftBracket
      if !named then expect [.anIdentifier "field name", .spelled closeMark]
      let entry ← literalEntryOf message
      let _ ← accept [.comma, .semicolon]
      return entry
    let _ ← advance
    return ⟨entries, start.position⟩

/-- A message in the text format. -/
def messageLiteral : Parse MessageLiteral := recursive messageLiteralOf

/-- One entry of a message literal. -/
def literalEntry : Parse LiteralEntry := literalEntryOf messageLiteral

def entryValue : Parse EntryValue := entryValueOf messageLiteral

/-- A list behind a colon. -/
def listLiteral : Parse (List OptionValue × Position) := listLiteralOf messageLiteral

def listElement : Parse OptionValue := optionValueOf messageLiteral

/-- A list of messages without a colon. -/
def messageList : Parse (List MessageLiteral × Position) := messageListOf messageLiteral

end ProtoSchema.Grammar
