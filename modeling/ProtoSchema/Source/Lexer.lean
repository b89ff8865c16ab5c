import ProtoSchema.Source.Session

/-!
# Lexers

A cursor and any number of streams over it, used call by call. All streams move the one
cursor, and each begins with the first token that is asked of it, whenever it was made.
-/
namespace ProtoSchema

/-- The cursor, and how far each stream over it has come. -/
structure Lexer where
  cursor : Cursor
  streams : Nat → TokenStream

namespace Lexer

/-- Nothing has been read, and no stream has been asked for. -/
def start (source : List Char) : Lexer := ⟨Cursor.start source, fun _ => .unstarted⟩

/-- The cursor and one of the streams. -/
def session (s : Lexer) (i : Nat) : SourceSession := ⟨s.cursor, s.streams i⟩

/-- The outcome of a call, and the lexer after it. What is asked of a stream is asked of the
one with the number given. -/
def call (s : Lexer) (i : Nat) (c : SourceCall) : Except SourceFailure SourceReply × Lexer :=
  match (s.session i).call c with
  | (r, t) => (r, ⟨t.cursor, fun j => if j = i then t.stream else s.streams j⟩)

end Lexer

/-- Where a call begins to read: a stream passes over a byte order mark when it begins. -/
def SourceSession.entry (s : SourceSession) : SourceCall → Cursor
  | .tokenize => s.cursor.skipMark
  | .next => if s.stream = .unstarted then s.cursor.skipMark else s.cursor
  | _ => s.cursor

namespace Lexer

/-- Does a stream pass over a byte order mark in the call? -/
def skips (s : Lexer) (i : Nat) (c : SourceCall) : Bool := (s.session i).entry c ≠ s.cursor

/-- The lexers that calls lead to, one after the other, on a new lexer of the source; and has
a stream passed over a byte order mark? -/
inductive Reached (source : List Char) : Bool → Lexer → Prop where
  | new : Reached source false (start source)
  | call {skipped : Bool} {s : Lexer} (i : Nat) (c : SourceCall) : Reached source skipped s →
    Reached source (skipped || s.skips i c) (s.call i c).2

/-- What streams have answered, in the order they were asked: which stream, and what. -/
abbrev Answers := List (Nat × Except SourceFailure SourceReply)

/-- The tokens among answers, up to the end tokens. -/
def produced (answers : Answers) : List Token :=
  answers.filterMap fun
    | (_, .ok (.token t)) => if t.kind = .endOfInput then none else some t
    | _ => none

/-- Streams are made over a new lexer of the source, and those that have been made are asked
for tokens, in any order: the number of streams, the lexer after all that, and the answers. -/
inductive Interleaved (source : List Char) : Nat → Lexer → Answers → Prop where
  | new : Interleaved source 0 (start source) []
  | make {made : Nat} {s : Lexer} {answers : Answers} : Interleaved source made s answers →
    Interleaved source (made + 1) (s.call made .restart).2 answers
  | next {made : Nat} {s : Lexer} {answers : Answers} (i : Nat) : i < made →
    Interleaved source made s answers →
    Interleaved source made (s.call i .next).2 (answers ++ [(i, (s.call i .next).1)])

end Lexer

/-- The positions that a stream gives in a call: those of tokens, or that of a fault. -/
def SourceCall.positions (c : SourceCall) : Except SourceFailure SourceReply → List Position
  | .ok (.token t) => [t.position]
  | .ok (.tokens ts) => ts.map Token.position
  | .error (.lexical e) => if c = .next ∨ c = .tokenize then [e.position] else []
  | _ => []

end ProtoSchema
