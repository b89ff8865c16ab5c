import ProtoSchema.Source.TokenStream

/-!
# Sessions

A cursor and one stream over it, used call by call: whole tokens are read, or single parts of
them wherever the cursor stands, whether a token of that kind starts there or not. A call that
fails leaves the cursor where its fault was found, and the session goes on from there.
-/
namespace ProtoSchema

/-- What can be asked of a session. -/
inductive SourceCall where
  | atEnd
  | look (distance : Int)
  | advance
  | skipLineComment
  | skipBlockComment
  | skipTrivia
  | identifier
  | number
  | string
  | escape
  /-- Read hexadecimal digits of an escape that starts at a place. -/
  | hexDigits (count : Int) (place : Position)
  /-- The bytes of a code point of an escape that starts at a place. -/
  | codePoint (value : Int) (place : Position)
  | tokenize
  /-- The next token of the stream. -/
  | next
  /-- Begin a new stream where the cursor stands. -/
  | restart
  deriving DecidableEq

/-- What a call yields. -/
inductive SourceReply where
  | done
  | flag (b : Bool)
  /-- A character, or the end of the source. -/
  | character (c : Option Char)
  | text (t : Text)
  | number (n : Nat)
  | bytes (bs : List UInt8)
  | token (t : Token)
  | tokens (ts : List Token)
  deriving DecidableEq

/-- Why a call yields nothing. -/
inductive SourceFailure where
  | lexical (e : LexicalError)
  /-- The stream has ended. -/
  | exhausted
  /-- A place so far before the start that it is before the source counted from the end
  too. -/
  | noCharacter
  /-- No digits were asked for, so there is no number. -/
  | numeral (e : NumeralError)
  | negativeCodePoint
  deriving DecidableEq

/-- The wording of the failures that are no fault of the source. -/
def SourceFailure.message : SourceFailure → Text
  | lexical e => e.message
  | exhausted => ""
  | noCharacter => "string index out of range"
  | numeral e => e.message
  | negativeCodePoint => "chr() arg not in range(0x110000)"

/-- The cursor, and how far the stream over it has come. -/
structure SourceSession where
  cursor : Cursor
  stream : TokenStream
  deriving DecidableEq

namespace SourceSession

/-- Nothing has been read, and the stream has not been asked for. -/
def start (source : List Char) : SourceSession := ⟨Cursor.start source, .unstarted⟩

/-- Read with the cursor. -/
def perform (s : SourceSession) (read : List Char → Reading α) (reply : α → SourceReply) :
    Except SourceFailure SourceReply × SourceSession :=
  match s.cursor.perform read with
  | (.ok a, c) => (.ok (reply a), { s with cursor := c })
  | (.error e, c) => (.error (.lexical e), { s with cursor := c })

/-- Take the characters that a rule finds ahead of the cursor. -/
def take (s : SourceSession) (run : List Char → List Char) (reply : List Char → SourceReply) :
    Except SourceFailure SourceReply × SourceSession :=
  let found := run s.cursor.ahead
  (.ok (reply found), { s with cursor := s.cursor.advanceBy found.length })

/-- A fault is reported at the place given, not where the digits stand. -/
def hexDigits (s : SourceSession) (count : Int) (place : Position) :
    Except SourceFailure SourceReply × SourceSession :=
  if count ≤ 0 then (.error (.numeral (.integer 16 [])), s)
  else
    let r := Escape.hexNumber count.toNat s.cursor.ahead
    let reply := match r.outcome with
      | .ok n => .ok (.number n)
      | .error e => .error (.lexical ⟨e.fault, place⟩)
    (reply, { s with cursor := s.cursor.advanceBy r.length })

/-- A fault is reported at the place given. -/
def codePoint (value : Int) (place : Position) : Except SourceFailure SourceReply :=
  if value < 0 then .error .negativeCodePoint
  else match Escape.codePoint value.toNat with
    | .ok bytes => .ok (.bytes bytes)
    | .error fault => .error (.lexical ⟨fault, place⟩)

/-- The outcome of a call, and the session after it. -/
def call (s : SourceSession) : SourceCall → Except SourceFailure SourceReply × SourceSession
  | .atEnd => (.ok (.flag s.cursor.ahead.isEmpty), s)
  | .look distance =>
    match s.cursor.look distance with
    | some c => (.ok (.character c), s)
    | none => (.error .noCharacter, s)
  | .advance => (.ok (.character s.cursor.ahead.head?), { s with cursor := s.cursor.advance })
  | .skipLineComment => s.take Trivia.lineRest fun _ => .done
  | .skipBlockComment => s.perform Trivia.block fun _ => .done
  | .skipTrivia => s.perform Trivia.read fun _ => .done
  | .identifier => s.take Lexeme.identifier fun run => .text (Text.ofChars run)
  | .number => s.take Lexeme.number fun run => .text (Text.ofChars run)
  | .string => s.perform StringLiteral.read .text
  | .escape => s.perform Escape.read .bytes
  | .hexDigits count place => s.hexDigits count place
  | .codePoint value place => (codePoint value place, s)
  | .tokenize =>
    let drained := s.cursor.tokens
    let reply := match drained.failure with
      | some e => .error (.lexical e)
      | none => .ok (.tokens drained.tokens)
    (reply, { s with cursor := drained.cursor })
  | .next =>
    match s.stream.next s.cursor with
    | (.ok t, stream, c) => (.ok (.token t), ⟨c, stream⟩)
    | (.error (.faulty e), stream, c) => (.error (.lexical e), ⟨c, stream⟩)
    | (.error .exhausted, stream, c) => (.error .exhausted, ⟨c, stream⟩)
  | .restart => (.ok .done, { s with stream := .unstarted })

end SourceSession

end ProtoSchema
