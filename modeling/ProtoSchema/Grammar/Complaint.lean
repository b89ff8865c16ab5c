import ProtoSchema.Token
import ProtoSchema.Source.Cursor

/-!
# Complaints

What is said of a token that cannot go on: which grammar rule was being read, what would have
been accepted instead, and the token itself.
-/
namespace ProtoSchema

/-- The grammar rules that a complaint can name. -/
inductive Rule where
  | syntaxDecl
  | importDecl
  | packageDecl
  | optionName
  | optionDecl
  | compactOptions
  | optionValue
  | scalarValue
  | messageLiteral
  | messageLiteralField
  | listLiteral
  | listOfMessagesLiteral
  | messageDecl
  | fieldDecl
  | mapFieldDecl
  | groupDecl
  | oneofDecl
  | extensionRangeDecl
  | tagRange
  | reservedDecl
  | enumDecl
  | enumValueDecl
  | extensionDecl
  | serviceDecl
  | methodDecl
  deriving DecidableEq, Repr

/-- The name of a rule in error reports: that of the node it builds. -/
def Rule.name : Rule → String
  | syntaxDecl => "SyntaxDecl"
  | importDecl => "ImportDecl"
  | packageDecl => "PackageDecl"
  | optionName => "OptionName"
  | optionDecl => "OptionDecl"
  | compactOptions => "CompactOptions"
  | optionValue => "OptionValue"
  | scalarValue => "ScalarValue"
  | messageLiteral => "MessageLiteral"
  | messageLiteralField => "MessageLiteralField"
  | listLiteral => "ListLiteral"
  | listOfMessagesLiteral => "ListOfMessagesLiteral"
  | messageDecl => "MessageDecl"
  | fieldDecl => "FieldDecl"
  | mapFieldDecl => "MapFieldDecl"
  | groupDecl => "GroupDecl"
  | oneofDecl => "OneofDecl"
  | extensionRangeDecl => "ExtensionRangeDecl"
  | tagRange => "TagRange"
  | reservedDecl => "ReservedDecl"
  | enumDecl => "EnumDecl"
  | enumValueDecl => "EnumValueDecl"
  | extensionDecl => "ExtensionDecl"
  | serviceDecl => "ServiceDecl"
  | methodDecl => "MethodDecl"

/-- One alternative of what would have been accepted. -/
inductive Expectation where
  /-- The word or mark spelled so. -/
  | spelled (word : String)
  /-- A string literal, for the purpose named. -/
  | aString (purpose : String)
  /-- A whole number, for the purpose named. -/
  | anInteger (purpose : String)
  /-- A whole number for the purpose named, or the word `max`. -/
  | anIntegerOrMax (purpose : String)
  /-- Any identifier, for the purpose named. -/
  | anIdentifier (purpose : String)
  /-- An identifier that is no soft keyword, for the purpose named. -/
  | aName (purpose : String)
  | typeName
  | mapKeyType
  | number
  | scalarValue
  /-- Described in the words of whoever asked. -/
  | described (what : Text)
  deriving DecidableEq

namespace Expectation

def text : Expectation → Text
  | spelled word => Text.apostrophed word
  | aString purpose => purpose
  | anInteger purpose => purpose
  | anIntegerOrMax purpose => Text.ofString purpose ++ Text.ofString " or 'max'"
  | anIdentifier purpose => purpose
  | aName purpose => purpose
  | typeName => "type name"
  | mapKeyType => "map key type"
  | number => "number"
  | scalarValue => "scalar value"
  | described what => what

end Expectation

/-- What is wrong with a token. -/
inductive Complaint where
  | expected (alternatives : List Expectation)
  /-- A word such as `optional` before a field of a oneof. -/
  | cardinalityInOneof
  /-- In the words of whoever complains. -/
  | stated (message : Text) (alternatives : List Expectation)
  deriving DecidableEq

namespace Complaint

/-- What would have been accepted. -/
def alternatives : Complaint → List Expectation
  | expected alternatives => alternatives
  | cardinalityInOneof => [.typeName]
  | stated _ alternatives => alternatives

/-- The wording of a complaint about a token. -/
def message (complaint : Complaint) (actual : Token) : Text :=
  match complaint with
  | expected alternatives =>
    let wanted := Text.join " or " (alternatives.map Expectation.text)
    if actual.kind = .endOfInput then
      Text.ofString "Unexpected end of input, expected " ++ wanted
    else Text.ofString "Expected " ++ wanted ++ Text.ofString ", got " ++ actual.describe
  | cardinalityInOneof =>
    Text.ofString "Oneof fields cannot have a cardinality, got " ++ actual.text.apostrophed
  | stated message _ => message

end Complaint

/-- A token that cannot go on, with the innermost rule being read, if any. -/
structure SyntaxError where
  complaint : Complaint
  rule : Option Rule
  actual : Token
  deriving DecidableEq

namespace SyntaxError

def text (e : SyntaxError) : Text := e.complaint.message e.actual

def message (e : SyntaxError) : Text := e.actual.position.locate e.text

end SyntaxError

end ProtoSchema
