import ProtoSchema.Grammar.Message
import ProtoSchema.Source.TokenStream

/-!
# Services and whole schemas

The declarations that stand at the top level only, and the schema made of them.
-/
namespace ProtoSchema

namespace Grammar

open Parse

/-! ## Services -/

/-- A type in parentheses, marked as a stream or not. Directly before the closing parenthesis
`stream` is the name of a type. -/
def methodType : Parse (Bool × Text) := do
  consumeMark .leftParen "("
  let streaming ← do
    if ← checkKeyword "stream" then pure (decide ((← look 1).kind ≠ .rightParen))
    else pure false
  if streaming then
    let _ ← advance
  let type ← typeName
  consumeMark .rightParen ")"
  return (streaming, type)

/-- One statement of a method's body; an empty one leaves nothing. -/
def methodElement : Parse (Option OptionStatement) := do
  if ← accept [.semicolon] then return none
  else if ← checkKeyword "option" then return some (← optionStatement)
  else expect [.spelled "option", .spelled ";", .spelled "\x7d"]

/-- A method ends in a semicolon or has a body. -/
def methodDecl : Parse MethodDecl := within .methodDecl do
  let start ← consumeWord "rpc"
  let name ← consumeName (.aName "method name")
  let (clientStreaming, inputType) ← methodType
  let _ ← consumeWord "returns"
  let (serverStreaming, outputType) ← methodType
  let options ← do
    if ← check .leftBrace then body methodElement
    else if ← accept [.semicolon] then pure []
    else expect [.spelled ";", .spelled "\x7b"]
  return ⟨name, inputType, outputType, clientStreaming, serverStreaming, options,
    start.position⟩

/-- One statement of a service; an empty one leaves nothing. -/
def serviceElement : Parse (Option ServiceElement) := do
  if ← accept [.semicolon] then return none
  else if ← checkKeyword "option" then return some (.option (← optionStatement))
  else if ← checkWord "rpc" then return some (.method (← methodDecl))
  else expect [.spelled "rpc", .spelled "option", .spelled ";", .spelled "\x7d"]

/-- A service, `service Name` and its statements in braces. -/
def serviceDecl : Parse ServiceDecl := within .serviceDecl do
  let start ← consumeWord "service"
  let name ← consumeName (.aName "service name")
  let elements ← body serviceElement
  return ⟨name, elements, start.position⟩

/-! ## Schemas -/

/-- The statement `syntax = "level";`. -/
def syntaxDecl : Parse SyntaxDecl := within .syntaxDecl do
  let start ← consumeWord "syntax"
  consumeMark .equals "="
  let level ← stringLiteral (.aString "syntax level")
  consumeMark .semicolon ";"
  return ⟨level, start.position⟩

/-- The word that may stand before the path of an import. -/
def importModifier : Parse (Option ImportModifier) := do
  if ← checkWord "weak" then
    let _ ← advance
    return some .weakly
  else if ← checkWord "public" then
    let _ ← advance
    return some .publicly
  else return none

/-- An import `import "path";`, with `weak` or `public` before the path or neither. -/
def importDecl : Parse ImportDecl := within .importDecl do
  let start ← consumeWord "import"
  let modifier ← importModifier
  let path ← stringLiteral (.aString "import path")
  consumeMark .semicolon ";"
  return ⟨path, modifier, start.position⟩

/-- The statement `package a.b.c;`. -/
def packageDecl : Parse PackageDecl := within .packageDecl do
  let start ← consumeWord "package"
  let name ← qualifiedIdentifier
  consumeMark .semicolon ";"
  return ⟨name, start.position⟩

/-- One statement at the top level; an empty one leaves nothing. -/
def schemaElement : Parse (Option SchemaElement) := do
  if ← accept [.semicolon] then return none
  else if ← checkWord "import" then return some (.importing (← importDecl))
  else if ← checkWord "package" then return some (.package (← packageDecl))
  else if ← checkKeyword "option" then return some (.option (← optionStatement))
  else if ← checkKeyword "message" then return some (.message (← messageDecl))
  else if ← checkKeyword "enum" then return some (.enum (← enumDecl))
  else if ← checkKeyword "extend" then return some (.extension (← extensionDecl))
  else if ← checkWord "service" then return some (.service (← serviceDecl))
  else expect [.spelled "import", .spelled "package", .spelled "option", .spelled "message",
    .spelled "enum", .spelled "extend", .spelled "service", .spelled ";"]

/-- A whole schema: the statement of the level may come first, and the end must follow. -/
def schema : Parse Schema := do
  let level ← do
    if ← checkWord "syntax" then pure (some (← syntaxDecl)) else pure none
  let elements ← whileMore (return !(← atEnd)) schemaElement
  return ⟨level, elements.filterMap id⟩

end Grammar

/-- Why a source is no schema. -/
inductive SchemaError where
  | lexical (e : LexicalError)
  | parse (e : ParseFailure)
  deriving DecidableEq

/-- Read the schema that a list of tokens holds. -/
def Schema.ofTokens (tokens : List Token) : Except ParseFailure Schema :=
  (Grammar.schema (ParseState.start tokens)).1

/-- Read the schema that a source holds. -/
def Schema.ofSource (source : List Char) : Except SchemaError Schema :=
  match tokenize source with
  | .error e => .error (.lexical e)
  | .ok tokens => (Schema.ofTokens tokens).mapError .parse

end ProtoSchema
