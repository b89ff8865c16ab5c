import ProtoSchema.Grammar.Complaint

/-!
# Parsing steps

A parsing step reads tokens from a place in a list and yields a value or fails; either way it
leaves a state behind, and steps after it go on from there. Past the end of the list its last
token stands for ever, so a list that lacks an end token can still be read. The state also
holds the rules being read, innermost first.
-/
namespace ProtoSchema

/-- Why a step fails. -/
inductive ParseFailure where
  | unexpected (e : SyntaxError)
  /-- The token list is empty. -/
  | noToken
  /-- A token marked as a number that is none. -/
  | numeral (e : NumeralError)
  /-- A repetition that goes round without taking a token: it would never end. -/
  | endless
  deriving DecidableEq

/-- A place in a list of tokens, and the rules being read there. -/
structure ParseState where
  tokens : Array Token
  /-- The index of the next token. -/
  index : Nat
  rules : List Rule
  deriving DecidableEq

namespace ParseState

/-- The first token is next, and no rule is being read. -/
def start (tokens : List Token) : ParseState := ⟨tokens.toArray, 0, []⟩

/-- The number of tokens not yet passed. -/
def remaining (s : ParseState) : Nat := s.tokens.size - s.index

/-- The token at an index; past the end the last one. An index before the first token counts
from the end. -/
def tokenAt? (s : ParseState) (i : Int) : Option Token :=
  if s.tokens.size ≤ i then s.tokens.back?
  else if 0 ≤ i then s.tokens[i.toNat]?
  else
    let fromEnd := s.tokens.size + i
    if 0 ≤ fromEnd then s.tokens[fromEnd.toNat]? else none

end ParseState

/-- A step from state to state that yields an `α` or fails. -/
def Parse (α : Type) : Type := ParseState → Except ParseFailure α × ParseState

namespace Parse

instance : Monad Parse where
  pure a := fun s => (.ok a, s)
  bind p f := fun s =>
    match p s with
    | (.ok a, s) => f a s
    | (.error e, s) => (.error e, s)

/-- Fail without looking at a token. -/
def fail (e : ParseFailure) : Parse α := fun s => (.error e, s)

/-- Yield the number that a numeral denotes. -/
def ofNumeral (r : Except NumeralError α) : Parse α := fun s => (r.mapError .numeral, s)

/-- The token at a distance from the next one. -/
def look (distance : Int) : Parse Token := fun s =>
  match s.tokenAt? (s.index + distance) with
  | some t => (.ok t, s)
  | none => (.error .noToken, s)

/-- The next token. -/
def current : Parse Token := look 0

/-- Reject the next token. -/
def reject (complaint : Complaint) : Parse α := do
  let actual ← current
  fun s => (.error (.unexpected ⟨complaint, s.rules.head?, actual⟩), s)

/-- Reject the next token for not being any of the alternatives. -/
def expect (alternatives : List Expectation) : Parse α := reject (.expected alternatives)

/-- Is the next token the end? -/
def atEnd : Parse Bool := return (← current).kind = .endOfInput

/-- Take the next token. An end token stays. -/
def advance : Parse Token := do
  let t ← current
  if t.kind = .endOfInput then return t
  else fun s => (.ok t, { s with index := s.index + 1 })

/-- Is the next token of a kind? -/
def check (kind : TokenKind) : Parse Bool := return (← current).kind = kind

/-- Is the next token the identifier spelled so? -/
def checkWord (word : String) : Parse Bool := do
  let t ← current
  return t.kind = .identifier && t.text = Text.ofString word

/-- Is the next token the soft keyword spelled so? -/
def checkKeyword (word : String) : Parse Bool := do
  let t ← current
  return t.soft && t.text = Text.ofString word

/-- Take the next token if it is of one of the kinds. -/
def accept : List TokenKind → Parse Bool
  | [] => return false
  | kind :: kinds => do
    if ← check kind then
      let _ ← advance
      return true
    else accept kinds

/-- Take a token of a kind. -/
def consume (kind : TokenKind) (wanted : Expectation) : Parse Token := do
  if ← check kind then advance else expect [wanted]

/-- Take the mark that is spelled so. -/
def consumeMark (kind : TokenKind) (mark : String) : Parse Unit := do
  let _ ← consume kind (.spelled mark)

/-- Take the identifier spelled so. -/
def consumeWord (word : String) : Parse Token := do
  if ← checkWord word then advance else expect [.spelled word]

/-- Take the name of a declaration: an identifier that is no soft keyword. -/
def consumeName (wanted : Expectation) : Parse Text := do
  let t ← current
  if t.kind ≠ .identifier || t.soft then expect [wanted]
  else return (← advance).text

/-- Read while `rule` is the innermost rule. -/
def within (rule : Rule) (p : Parse α) : Parse α := fun s =>
  match p { s with rules := rule :: s.rules } with
  | (r, s) => (r, { s with rules := s.rules.tail })

/-- As long as `more` says so, read another element. -/
def whileMore (more : Parse Bool) (element : Parse α) : Parse (List α) := fun s =>
  match more s with
  | (.error e, s) => (.error e, s)
  | (.ok false, s) => (.ok [], s)
  | (.ok true, s₁) =>
    match element s₁ with
    | (.error e, s) => (.error e, s)
    | (.ok a, s₂) =>
      if _h : s₂.remaining < s.remaining then
        match whileMore more element s₂ with
        | (.ok as, s) => (.ok (a :: as), s)
        | (.error e, s) => (.error e, s)
      else (.error .endless, s₂)
termination_by s => s.remaining

/-- One element, and another after each separator. -/
def separatedBy (separator : TokenKind) (element : Parse α) : Parse (List α) := do
  let first ← element
  return first :: (← whileMore (accept [separator]) element)

/-- A step that may use itself where fewer tokens are left. -/
def recursive (step : Parse α → Parse α) : Parse α := fun s =>
  step (fun t =>
    if t.remaining < s.remaining then recursive step t else (.error .endless, t)) s
termination_by s => s.remaining

end Parse

end ProtoSchema
