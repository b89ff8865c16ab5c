import ProtoSchema.Grammar.Schema

/-!
# Parsing call by call

A list of tokens read by calls in any order: tokens are looked at and taken, and productions
are read wherever the calls before have left off, whether what they read starts there or not.
A call that fails leaves the state where it failed, and the next call goes on from there.
-/
namespace ProtoSchema

/-- What a body can be made of. -/
inductive BodyElement : Type → Type 1 where
  | message : BodyElement MessageElement
  | oneof : BodyElement OneofElement
  | enum : BodyElement EnumElement
  | extension : BodyElement Member
  | service : BodyElement ServiceElement
  | method : BodyElement OptionStatement

/-- One element of a body; an empty statement leaves nothing. -/
def BodyElement.production : BodyElement α → Parse (Option α)
  | message => Grammar.messageElement
  | oneof => some <$> Grammar.oneofElement
  | enum => Grammar.enumElement
  | extension => some <$> Grammar.member
  | service => Grammar.serviceElement
  | method => Grammar.methodElement

/-- What can be asked of a parser, with the type of what it yields. -/
inductive ParserCall : Type → Type 1 where
  | current : ParserCall Token
  | look (distance : Int) : ParserCall Token
  | atEnd : ParserCall Bool
  | check (kind : TokenKind) : ParserCall Bool
  | checkWord (word : String) : ParserCall Bool
  | checkKeyword (word : String) : ParserCall Bool
  | accept (kinds : List TokenKind) : ParserCall Bool
  | advance : ParserCall Token
  | reject (complaint : Complaint) : ParserCall Unit
  | consume (kind : TokenKind) (wanted : Expectation) : ParserCall Token
  | consumeWord (word : String) : ParserCall Token
  | consumeName (wanted : Expectation) : ParserCall Text
  | schema : ParserCall Schema
  | qualifiedIdentifier : ParserCall Text
  | typeName : ParserCall Text
  | stringLiteral (wanted : Expectation) : ParserCall Text
  | unsignedInteger (wanted : Expectation) : ParserCall Int
  | signedInteger (wanted : Expectation) : ParserCall Int
  | syntaxDecl : ParserCall SyntaxDecl
  | schemaElement : ParserCall (Option SchemaElement)
  | importDecl : ParserCall ImportDecl
  | packageDecl : ParserCall PackageDecl
  | optionName : ParserCall (List OptionNamePart)
  | optionNamePart : ParserCall OptionNamePart
  | optionStatement : ParserCall OptionStatement
  | compactOptions : ParserCall (List CompactOption)
  | compactOption : ParserCall CompactOption
  | optionalCompactOptions : ParserCall (List CompactOption)
  | optionValue : ParserCall OptionValue
  | scalarValue : ParserCall ScalarValue
  | messageLiteral : ParserCall MessageLiteral
  | literalEntry : ParserCall LiteralEntry
  | entryValue : ParserCall EntryValue
  | listLiteral : ParserCall (List OptionValue × Position)
  | listElement : ParserCall OptionValue
  | messageList : ParserCall (List MessageLiteral × Position)
  | body (element : BodyElement α) : ParserCall (List α)
  | messageDecl : ParserCall MessageDecl
  | messageElement : ParserCall (Option MessageElement)
  | member : ParserCall Member
  | fieldDecl (cardinality : Option Cardinality) (start : Token) : ParserCall FieldDecl
  | mapFieldDecl : ParserCall MapFieldDecl
  | groupDecl (cardinality : Option Cardinality) (start : Token) : ParserCall GroupDecl
  | oneofDecl : ParserCall OneofDecl
  | oneofElement : ParserCall OneofElement
  | extensionRangeDecl : ParserCall ExtensionRangeDecl
  | tagRanges (signed : Bool) : ParserCall (List TagRange)
  | tagRange (signed : Bool) : ParserCall TagRange
  | reservedDecl (signed : Bool) : ParserCall ReservedDecl
  | enumDecl : ParserCall EnumDecl
  | enumElement : ParserCall (Option EnumElement)
  | enumValueDecl : ParserCall EnumValueDecl
  | extensionDecl : ParserCall ExtensionDecl
  | serviceDecl : ParserCall ServiceDecl
  | serviceElement : ParserCall (Option ServiceElement)
  | methodDecl : ParserCall MethodDecl
  | methodType : ParserCall (Bool × Text)
  | methodElement : ParserCall (Option OptionStatement)

namespace ParserCall

/-- The step that answers a call. -/
def step : ParserCall α → Parse α
  | current => Parse.current
  | look distance => Parse.look distance
  | atEnd => Parse.atEnd
  | check kind => Parse.check kind
  | checkWord word => Parse.checkWord word
  | checkKeyword word => Parse.checkKeyword word
  | accept kinds => Parse.accept kinds
  | advance => Parse.advance
  | reject complaint => Parse.reject complaint
  | consume kind wanted => Parse.consume kind wanted
  | consumeWord word => Parse.consumeWord word
  | consumeName wanted => Parse.consumeName wanted
  | schema => Grammar.schema
  | qualifiedIdentifier => Grammar.qualifiedIdentifier
  | typeName => Grammar.typeName
  | stringLiteral wanted => Grammar.stringLiteral wanted
  | unsignedInteger wanted => Grammar.unsignedInteger wanted
  | signedInteger wanted => Grammar.signedInteger wanted
  | syntaxDecl => Grammar.syntaxDecl
  | schemaElement => Grammar.schemaElement
  | importDecl => Grammar.importDecl
  | packageDecl => Grammar.packageDecl
  | optionName => Grammar.optionName
  | optionNamePart => Grammar.optionNamePart
  | optionStatement => Grammar.optionStatement
  | compactOptions => Grammar.compactOptions
  | compactOption => Grammar.compactOption
  | optionalCompactOptions => Grammar.optionalCompactOptions
  | optionValue => Grammar.optionValue
  | scalarValue => Grammar.scalarValue
  | messageLiteral => Grammar.messageLiteral
  | literalEntry => Grammar.literalEntry
  | entryValue => Grammar.entryValue
  | listLiteral => Grammar.listLiteral
  | listElement => Grammar.listElement
  | messageList => Grammar.messageList
  | body element => Grammar.body element.production
  | messageDecl => Grammar.messageDecl
  | messageElement => Grammar.messageElement
  | member => Grammar.member
  | fieldDecl cardinality start => Grammar.fieldDecl cardinality start
  | mapFieldDecl => Grammar.mapFieldDecl
  | groupDecl cardinality start => Grammar.groupDecl cardinality start
  | oneofDecl => Grammar.oneofDecl
  | oneofElement => Grammar.oneofElement
  | extensionRangeDecl => Grammar.extensionRangeDecl
  | tagRanges signed => Grammar.tagRanges signed
  | tagRange signed => Grammar.tagRange signed
  | reservedDecl signed => Grammar.reservedDecl signed
  | enumDecl => Grammar.enumDecl
  | enumElement => Grammar.enumElement
  | enumValueDecl => Grammar.enumValueDecl
  | extensionDecl => Grammar.extensionDecl
  | serviceDecl => Grammar.serviceDecl
  | serviceElement => Grammar.serviceElement
  | methodDecl => Grammar.methodDecl
  | methodType => Grammar.methodType
  | methodElement => Grammar.methodElement

end ParserCall

/-- The states that calls lead to, one after the other, on a new parser of the tokens. -/
inductive ParseState.Reached (tokens : List Token) : ParseState → Prop where
  | new : Reached tokens (start tokens)
  | call {s : ParseState} {α : Type} (c : ParserCall α) : Reached tokens s →
    Reached tokens (c.step s).2

end ProtoSchema
