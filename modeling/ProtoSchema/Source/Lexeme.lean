import ProtoSchema.Source.Escape

/-!
# Trivia and lexemes

What stands at the head of the characters of a source: blanks and comments, which separate
tokens, or the characters of one token. Every reading takes as many characters as it can.
-/
namespace ProtoSchema

namespace Trivia

/-- The blanks between tokens: the six of ASCII. -/
def isSpace (c : Char) : Bool :=
  c = ' ' || c = '\t' || c = '\r' || c = '\n' || c = '\x0c' || c = '\x0b'

/-- The characters up to a newline or the end. -/
def lineRest (cs : List Char) : List Char := cs.takeWhile (· ≠ '\n')

/-- The number of characters up to and including the first end of a block comment. -/
def blockEnd? : List Char → Option Nat
  | [] => none
  | '*' :: '/' :: _ => some 2
  | _ :: rest => (blockEnd? rest).map (· + 1)

/-- Read a block comment. Its first two characters are passed whatever they are. -/
def block (cs : List Char) : Reading Unit :=
  match blockEnd? (cs.drop 2) with
  | some n => .done (2 + n) ()
  | none => .fail cs.length .unterminatedComment

/-- Read blanks and comments as far as they go. -/
def read : List Char → Reading Unit
  | [] => .done 0 ()
  | c :: rest =>
    if isSpace c then (read rest).after 1
    else if c = '/' ∧ rest.head? = some '/' then
      let n := (lineRest rest).length
      (read (rest.drop n)).after (1 + n)
    else if c = '/' ∧ rest.head? = some '*' then
      match blockEnd? (rest.drop 1) with
      | some n => (read (rest.drop (1 + n))).after (2 + n)
      | none => .fail (c :: rest).length .unterminatedComment
    else .done 0 ()
termination_by cs => cs.length

end Trivia

namespace Lexeme

/-- Identifiers start with an ASCII letter or an underscore. -/
def isIdentifierStart (c : Char) : Bool := c.isAlpha || c = '_'

/-- Identifiers go on with ASCII letters, digits and underscores. -/
def isIdentifierChar (c : Char) : Bool := c.isAlphanum || c = '_'

/-- The letters, digits and underscores at the head. -/
def identifier (cs : List Char) : List Char := cs.takeWhile isIdentifierChar

/-- What goes on a run of a number on its own: digits, points, and all letters but `e`. -/
def isNumberChar (c : Char) : Bool := (c.isAlphanum || c = '.') && c ≠ 'e' && c ≠ 'E'

/-- What stands in front of an exponent. -/
def isExponentMark (c : Char) : Bool := c = 'e' || c = 'E'

/-- A plus or a minus. -/
def isSign (c : Char) : Bool := c = '+' || c = '-'

/-- The rest of a number's run: a sign belongs to it directly after an `e`. -/
def numberRest : List Char → List Char
  | [] => []
  | [c] => if isNumberChar c || isExponentMark c then [c] else []
  | c :: d :: rest =>
    if isNumberChar c then c :: numberRest (d :: rest)
    else if isExponentMark c then
      if isSign d then c :: d :: numberRest rest else c :: numberRest (d :: rest)
    else []

/-- The run of a number. It starts with a point or not; the character after that is taken
whatever it is. -/
def number : List Char → List Char
  | '.' :: d :: rest => '.' :: d :: numberRest rest
  | d :: rest => d :: numberRest rest
  | [] => []

/-- Does a number start at the head? -/
def startsNumber : List Char → Bool
  | '.' :: d :: _ => d.isDigit
  | d :: _ => d.isDigit
  | [] => false

/-- What a string literal stands in. -/
def isQuote (c : Char) : Bool := c = '"' || c = '\''

/-- Read the token at the head: its kind and its text. -/
def read : List Char → Reading (TokenKind × Text)
  | [] => .done 0 (.endOfInput, [])
  | c :: rest =>
    let cs := c :: rest
    if isIdentifierStart c then
      .done (identifier cs).length (.identifier, Text.ofChars (identifier cs))
    else if startsNumber cs then
      .done (number cs).length (.ofNumber (number cs), Text.ofChars (number cs))
    else if isQuote c then (StringLiteral.read cs).map (.string, ·)
    else match TokenKind.ofMark? c with
      | some kind => .done 1 (kind, Text.ofChars [c])
      | none => .fail 0 (.unexpectedCharacter c)

end Lexeme

end ProtoSchema
