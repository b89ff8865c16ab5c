import Mathlib.Computability.Language
import ProtoSchema.Source.TokenStream

/-!
# The lexical rules

Which tokens the characters of a source are, said without an order of reading them. Trivia and
lexemes are runs of characters of certain shapes, and the longest run counts. A rule speaks of
what follows the run only where that matters: a line comment goes on to the end of its line,
and an octal escape to its third digit.
-/
namespace ProtoSchema.Lexicon

open scoped Computability

/-! ## Trivia -/

def whitespace : List Char := [' ', '\t', '\r', '\n', '\x0c', '\x0b']

/-- The characters hold no end of a block comment. -/
def Unclosed (cs : List Char) : Prop := ¬['*', '/'] <:+: cs

/-- There is a newline ahead, or nothing. -/
def AtLineEnd (rest : List Char) : Prop := ∀ c ∈ rest.head?, c = '\n'

/-- A blank or a comment, and what follows it. -/
inductive TriviaPiece : List Char → List Char → Prop where
  | blank {c : Char} {rest : List Char} : c ∈ whitespace → TriviaPiece [c] rest
  | line {body rest : List Char} :
    '\n' ∉ body → AtLineEnd rest → TriviaPiece ('/' :: '/' :: body) rest
  /-- The first `*/` behind the `/*` ends the comment; the star of `/*` is no part of it. -/
  | block {body rest : List Char} :
    Unclosed (body ++ ['*']) → TriviaPiece ('/' :: '*' :: (body ++ ['*', '/'])) rest

/-- Blanks and comments, and what follows them. -/
inductive TriviaRun : List Char → List Char → Prop where
  | nil {rest : List Char} : TriviaRun [] rest
  | cons {piece run rest : List Char} :
    TriviaPiece piece (run ++ rest) → TriviaRun run rest → TriviaRun (piece ++ run) rest

/-- The blanks and comments in front of `rest` are all that there are. -/
structure LongestTrivia (run rest : List Char) : Prop where
  isRun : TriviaRun run rest
  longest : ∀ run' rest', run' ++ rest' = run ++ rest → TriviaRun run' rest' →
    run'.length ≤ run.length

/-! ## Words and numbers -/

/-- One character of a class. -/
def one (p : Char → Prop) : Language Char := {w | ∃ c, p c ∧ w = [c]}

/-- `[A-Za-z_][A-Za-z0-9_]*` -/
def identifier : Language Char :=
  one (fun c => c.isAlpha ∨ c = '_') * (one fun c => c.isAlphanum ∨ c = '_')∗

/-- `[eE]` -/
def exponentMark : Language Char := one (· ∈ ['e', 'E'])

/-- `[+-]` -/
def sign : Language Char := one (· ∈ ['+', '-'])

/-- `[0-9A-DF-Za-df-z.]` -/
def runCharacter : Language Char :=
  one fun c => c = '.' ∨ c.isAlphanum ∧ c ∉ ['e', 'E']

/-- `\.?[0-9]([0-9A-DF-Za-df-z.]|[eE][+-]?)*` -/
def numericRun : Language Char :=
  (1 + {['.']}) * one (·.isDigit) * (runCharacter + exponentMark * (1 + sign))∗

/-- `[0-9]+` -/
def digits : Language Char := one (·.isDigit) * (one (·.isDigit))∗

/-- `[1-9][0-9]*|0[0-7]*|0[xX][0-9a-fA-F]+` -/
def integerShape : Language Char :=
  one (fun c => c.isDigit ∧ c ≠ '0') * (one (·.isDigit))∗ +
    {['0']} * (one (Numeral.isOctalDigit ·))∗ +
    {['0']} * (one (· ∈ ['x', 'X']) *
      (one (Numeral.isHexDigit ·) * (one (Numeral.isHexDigit ·))∗))

/-- `[eE][+-]?[0-9]+` -/
def exponent : Language Char := exponentMark * ((1 + sign) * digits)

/-- `[0-9]+\.[0-9]*([eE][+-]?[0-9]+)?|[0-9]+[eE][+-]?[0-9]+|\.[0-9]+([eE][+-]?[0-9]+)?` -/
def realShape : Language Char :=
  digits * ({['.']} * ((one (·.isDigit))∗ * (1 + exponent))) + digits * exponent +
    {['.']} * (digits * (1 + exponent))

/-- What the run of a number is. -/
inductive NumberKind (w : List Char) : TokenKind → Prop where
  | integer : w ∈ integerShape → NumberKind w .integer
  | real : w ∉ integerShape → w ∈ realShape → NumberKind w .real
  | malformed : w ∉ integerShape → w ∉ realShape → NumberKind w .malformedNumber

/-- The marks of one character and their kinds. -/
def marks : List (Char × TokenKind) :=
  [(';', .semicolon), (',', .comma), ('.', .dot), ('/', .slash), (':', .colon),
    ('=', .equals),
    ('-', .minus), ('+', .plus), ('(', .leftParen), (')', .rightParen), ('\x7b', .leftBrace),
    ('\x7d', .rightBrace), ('[', .leftBracket), (']', .rightBracket), ('<', .leftAngle),
    ('>', .rightAngle)]

/-! ## String literals -/

/-- The escapes of one character, and the bytes they denote. -/
def simpleEscapes : List (Char × UInt8) :=
  [('a', 0x07), ('b', 0x08), ('f', 0x0C), ('n', 0x0A), ('r', 0x0D), ('t', 0x09), ('v', 0x0B),
    ('\\', 0x5C), ('"', 0x22), ('\'', 0x27), ('?', 0x3F)]

/-- The escapes of a code point, and how many digits it has. -/
def codePointEscapes : List (Char × ℕ) := [('u', 4), ('U', 8)]

/-- A character has this number. -/
def IsCodePoint (n : ℕ) : Prop := n ≤ 0x10FFFF ∧ ¬(0xD800 ≤ n ∧ n ≤ 0xDFFF)

/-- Hexadecimal digits, as many as these. -/
def HexDigits (count : ℕ) (digits : List Char) : Prop :=
  digits.length = count ∧ ∀ c ∈ digits, Numeral.isHexDigit c

/-- Octal digits, three at most, and no more of them than these stand there. -/
structure OctalDigits (digits rest : List Char) : Prop where
  ne_nil : digits ≠ []
  length_le : digits.length ≤ 3
  octal : ∀ c ∈ digits, Numeral.isOctalDigit c
  all : digits.length = 3 ∨ ∀ c ∈ rest.head?, ¬Numeral.isOctalDigit c

/-- What may stand behind a backslash, the bytes it denotes, and what follows it. -/
inductive IsEscape : List Char → List UInt8 → List Char → Prop where
  | simple {c : Char} {b : UInt8} {rest : List Char} :
    (c, b) ∈ simpleEscapes → IsEscape [c] [b] rest
  | hex {digits rest : List Char} : HexDigits 2 digits →
    IsEscape ('x' :: digits) [UInt8.ofNat (Numeral.ofDigits 16 digits)] rest
  | codePoint {c : Char} {count : ℕ} {digits rest : List Char} :
    (c, count) ∈ codePointEscapes → HexDigits count digits →
    IsCodePoint (Numeral.ofDigits 16 digits) →
    IsEscape (c :: digits) (Utf8.encodeChar (Char.ofNat (Numeral.ofDigits 16 digits))) rest
  | octal {digits rest : List Char} : OctalDigits digits rest →
    Numeral.ofDigits 8 digits ≤ 0xFF →
    IsEscape digits [UInt8.ofNat (Numeral.ofDigits 8 digits)] rest

/-- What is wrong with what stands behind a backslash. -/
inductive EscapeFault : List Char → LexicalFault → Prop where
  | cut {rest : List Char} : AtLineEnd rest → EscapeFault rest .unterminatedString
  | digits {c : Char} {count : ℕ} {digits rest : List Char} :
    (c, count) ∈ ('x', 2) :: codePointEscapes → digits.length < count →
    (∀ d ∈ digits, Numeral.isHexDigit d) → (∀ d ∈ rest.head?, ¬Numeral.isHexDigit d) →
    EscapeFault (c :: (digits ++ rest)) (.missingHexDigits count)
  | codePoint {c : Char} {count : ℕ} {digits rest : List Char} :
    (c, count) ∈ codePointEscapes → HexDigits count digits →
    ¬IsCodePoint (Numeral.ofDigits 16 digits) →
    EscapeFault (c :: (digits ++ rest)) (.invalidCodePoint (Numeral.ofDigits 16 digits))
  | octal {digits rest : List Char} : OctalDigits digits rest →
    0xFF < Numeral.ofDigits 8 digits →
    EscapeFault (digits ++ rest) (.octalOutOfRange digits)
  | unknown {c : Char} {rest : List Char} : c ≠ '\n' → ¬Numeral.isOctalDigit c →
    (∀ b, (c, b) ∉ simpleEscapes) → (∀ n, (c, n) ∉ ('x', 2) :: codePointEscapes) →
    EscapeFault (c :: rest) (.invalidEscape c)

/-- Characters and escapes inside quotes, the bytes they denote, and what follows them. -/
inductive Content (quote : Char) : List Char → List UInt8 → List Char → Prop where
  | nil {rest : List Char} : Content quote [] [] rest
  | character {c : Char} {content rest : List Char} {bytes : List UInt8} :
    c ∉ [quote, '\\', '\n'] → Content quote content bytes rest →
    Content quote (c :: content) (Utf8.encodeChar c ++ bytes) rest
  | escape {escape content rest : List Char} {bytes bytes' : List UInt8} :
    IsEscape escape bytes (content ++ rest) → Content quote content bytes' rest →
    Content quote ('\\' :: (escape ++ content)) (bytes ++ bytes') rest

def quotes : List Char := ['"', '\'']

/-! ## Lexemes -/

/-- The characters of a token, with its kind and its text. -/
inductive IsLexeme : List Char → TokenKind → Text → Prop where
  | identifier {w : List Char} : w ∈ identifier → IsLexeme w .identifier (Text.ofChars w)
  | number {w : List Char} {kind : TokenKind} : w ∈ numericRun → NumberKind w kind →
    IsLexeme w kind (Text.ofChars w)
  | string {quote : Char} {content : List Char} {bytes : List UInt8} : quote ∈ quotes →
    Content quote content bytes [quote] →
    IsLexeme (quote :: (content ++ [quote])) .string (Utf8.decode bytes)
  | mark {c : Char} {kind : TokenKind} : (c, kind) ∈ marks →
    IsLexeme [c] kind (Text.ofChars [c])

/-- The lexeme in front of `rest` is the longest that stands there. -/
structure LongestLexeme (w : List Char) (kind : TokenKind) (text : Text) (rest : List Char) :
    Prop where
  isLexeme : IsLexeme w kind text
  longest : ∀ w' kind' text', w' <+: w ++ rest → IsLexeme w' kind' text' →
    w'.length ≤ w.length

/-- What is wrong with characters behind trivia, and how many of them stand before the
construct that is wrong. -/
inductive Fault : List Char → ℕ → LexicalFault → Prop where
  | comment {rest : List Char} : Unclosed rest →
    Fault ('/' :: '*' :: rest) 0 .unterminatedComment
  | string {quote : Char} {content rest : List Char} {bytes : List UInt8} : quote ∈ quotes →
    Content quote content bytes rest → AtLineEnd rest →
    Fault (quote :: (content ++ rest)) 0 .unterminatedString
  | escape {quote : Char} {content rest : List Char} {bytes : List UInt8}
    {fault : LexicalFault} :
    quote ∈ quotes → Content quote content bytes ('\\' :: rest) →
    (∀ escape bytes rest', escape ++ rest' = rest → ¬IsEscape escape bytes rest') →
    EscapeFault rest fault →
      Fault (quote :: (content ++ '\\' :: rest)) (1 + content.length) fault
  | character {c : Char} {rest : List Char} : c ∉ quotes →
    (∀ w kind text, w <+: c :: rest → ¬IsLexeme w kind text) →
    Fault (c :: rest) 0 (.unexpectedCharacter c)

/-! ## Sources -/

/-- The position behind some characters: lines end at newlines, columns count the characters
of the last line. -/
def positionAfter (before : List Char) : Position :=
  ⟨1 + before.count '\n', 1 + (before.reverse.takeWhile (· ≠ '\n')).length⟩

/-- The characters of a source without the byte order mark at its start. -/
def unmarked : List Char → List Char
  | '\uFEFF' :: rest => rest
  | cs => cs

/-- A token, its characters, and the trivia in front of it. -/
structure Tile where
  trivia : List Char
  lexeme : List Char
  token : Token

def Tile.characters (t : Tile) : List Char := t.trivia ++ t.lexeme

/-- The token of a lexeme. -/
def tokenOf (kind : TokenKind) (text : Text) (position : Position) : Token :=
  ⟨kind, text, position,
    decide (kind = .identifier ∧ ∃ word ∈ Token.softKeywords, text = Text.ofString word)⟩

/-- The tokens of the characters behind others, up to the end or to a fault. -/
inductive Tiling : List Char → List Char → List Tile → Option LexicalError → Prop where
  | finish {before run : List Char} : LongestTrivia run [] →
    Tiling before run [⟨run, [], tokenOf .endOfInput [] (positionAfter (before ++ run))⟩] none
  | fault {before run rest : List Char} {n : ℕ} {fault : LexicalFault} :
    LongestTrivia run rest →
    Fault rest n fault →
    Tiling before (run ++ rest) []
      (some ⟨fault, positionAfter (before ++ run ++ rest.take n)⟩)
  | token {before run w rest : List Char} {kind : TokenKind} {text : Text} {tiles : List Tile}
    {failure : Option LexicalError} : LongestTrivia run (w ++ rest) →
    ¬['/', '*'] <+: w ++ rest →
    LongestLexeme w kind text rest → Tiling (before ++ run ++ w) rest tiles failure →
    Tiling before (run ++ (w ++ rest))
      (⟨run, w, tokenOf kind text (positionAfter (before ++ run))⟩ :: tiles) failure

end ProtoSchema.Lexicon
