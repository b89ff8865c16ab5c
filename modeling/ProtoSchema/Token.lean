import ProtoSchema.Number.Numeral
import ProtoSchema.Text.Quoted

/-!
# Tokens

The tokens of a schema source. A token keeps its kind, its text, the position of its first
character and whether it is one of the words that are keywords at some places of the grammar
only. The text of a string token is the value of the literal; every other token has the text
it was written with.
-/
namespace ProtoSchema

/-- A place in a source; lines and columns count from one, columns in characters. -/
structure Position where
  line : Nat
  column : Nat
  deriving DecidableEq, Repr

/-- What a token is, as far as the grammar goes by kind. -/
inductive TokenKind where
  | identifier
  | integer
  | real
  | string
  /-- A run that starts like a number and has no number's shape. No grammar rule accepts
  it. -/
  | malformedNumber
  | semicolon
  | comma
  | dot
  | slash
  | colon
  | equals
  | minus
  | plus
  | leftParen
  | rightParen
  | leftBrace
  | rightBrace
  | leftBracket
  | rightBracket
  | leftAngle
  | rightAngle
  /-- The end of the source. -/
  | endOfInput
  deriving DecidableEq, Repr

namespace TokenKind

/-- The name of a kind in listings. -/
def name : TokenKind → String
  | identifier => "IDENT"
  | integer => "INT"
  | real => "FLOAT"
  | string => "STRING"
  | malformedNumber => "INVALID_NUMBER"
  | semicolon => "SEMI"
  | comma => "COMMA"
  | dot => "DOT"
  | slash => "SLASH"
  | colon => "COLON"
  | equals => "EQUALS"
  | minus => "MINUS"
  | plus => "PLUS"
  | leftParen => "LPAREN"
  | rightParen => "RPAREN"
  | leftBrace => "LBRACE"
  | rightBrace => "RBRACE"
  | leftBracket => "LBRACKET"
  | rightBracket => "RBRACKET"
  | leftAngle => "LANGLE"
  | rightAngle => "RANGLE"
  | endOfInput => "EOF"

/-- Every kind, in the order of listings. -/
def all : List TokenKind :=
  [identifier, integer, real, string, malformedNumber, semicolon, comma, dot, slash, colon,
    equals, minus, plus, leftParen, rightParen, leftBrace, rightBrace, leftBracket,
    rightBracket, leftAngle, rightAngle, endOfInput]

/-- The kind with a given name in listings. -/
def ofName? (s : String) : Option TokenKind := all.find? fun kind => kind.name = s

/-- The kind of a one-character token. -/
def ofMark? : Char → Option TokenKind
  | ';' => some semicolon
  | ',' => some comma
  | '.' => some dot
  | '/' => some slash
  | ':' => some colon
  | '=' => some equals
  | '-' => some minus
  | '+' => some plus
  | '(' => some leftParen
  | ')' => some rightParen
  | '{' => some leftBrace
  | '}' => some rightBrace
  | '[' => some leftBracket
  | ']' => some rightBracket
  | '<' => some leftAngle
  | '>' => some rightAngle
  | _ => none

/-- The kind of a run of characters that starts like a number. -/
def ofNumber (run : List Char) : TokenKind :=
  if Numeral.isIntegerShape run then integer
  else if Numeral.isRealShape run then real
  else malformedNumber

theorem ofName?_name (kind : TokenKind) : ofName? kind.name = some kind := by
  cases kind <;> decide

end TokenKind

/-- One token of a source. -/
structure Token where
  kind : TokenKind
  text : Text
  position : Position
  /-- Marked as a word that is a keyword at some places of the grammar. -/
  soft : Bool
  deriving DecidableEq

namespace Token

/-- The words that are keywords at some places of the grammar and names at others. -/
def softKeywords : List String :=
  ["group", "message", "enum", "oneof", "reserved", "extensions", "extend", "option",
    "optional", "required", "repeated", "stream"]

/-- Is the text one of the soft keywords? -/
def isSoftKeyword (t : Text) : Bool := softKeywords.any fun word => Text.ofString word = t

/-- How a message speaks of the token it did not expect. -/
def describe (t : Token) : Text :=
  match t.kind with
  | .endOfInput => "end of input"
  | .string => Text.ofString "string " ++ Text.ofChars t.text.quoted
  | .malformedNumber => Text.ofString "invalid numeric literal " ++ t.text.apostrophed
  | _ => if t.soft then Text.ofString "keyword " ++ t.text.apostrophed else t.text.apostrophed

/-- The token with its kind, quoted text and position, on one line. -/
def summary (t : Token) : List Char :=
  s!"Token({t.kind.name}, ".toList ++ t.text.quoted ++
    s!", {t.position.line}:{t.position.column})".toList

end Token

end ProtoSchema
