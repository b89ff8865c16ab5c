import ProtoSchema.Document.Basic
import ProtoSchema.Number.Numeral

/-!
# A reader of JSON

What a text in JSON stands for. The text is cut into pieces, marks on the one hand and values
that hold no others on the other, and a machine goes over the pieces with what is open on a
stack. The reader is strict: the names of infinities, controls inside quotes, zeros in front
of a number and a comma too many are refused. The escape of a low surrogate that stands alone
is the stray byte with its code.
-/
namespace ProtoSchema.Json

/-! ## Strings -/

/-- The number that hexadecimal digits denote. -/
def hexCode? (digits : List Char) : Option Nat :=
  if digits.all Numeral.isHexDigit then some (Numeral.ofDigits 16 digits) else none

/-- What a backslash and one character stand for. -/
def shortEscape? (c : Char) : Option Char :=
  if c = '"' ∨ c = '\\' ∨ c = '/' then some c
  else if c = 'b' then some '\x08'
  else if c = 'f' then some '\x0c'
  else if c = 'n' then some '\n'
  else if c = 'r' then some '\r'
  else if c = 't' then some '\t'
  else none

/-- The codes of a string up to its closing quote, and what is left behind the quote. -/
def scanString : List Char → Option (List Nat × List Char)
  | [] => none
  | c :: cs =>
    if c = '"' then some ([], cs)
    else if c.toNat < 0x20 then none
    else if c ≠ '\\' then (scanString cs).map fun s => (c.toNat :: s.1, s.2)
    else match cs with
      | 'u' :: d₁ :: d₂ :: d₃ :: d₄ :: cs =>
        (hexCode? [d₁, d₂, d₃, d₄]).bind fun code => (scanString cs).map fun s =>
          (code :: s.1, s.2)
      | e :: cs =>
        (shortEscape? e).bind fun c => (scanString cs).map fun s => (c.toNat :: s.1, s.2)
      | [] => none

/-- A string ends behind its opening quote. -/
theorem length_scanString {cs rest : List Char} {codes : List Nat}
    (h : scanString cs = some (codes, rest)) : rest.length < cs.length := by
  fun_induction scanString cs generalizing codes <;>
    grind [Option.map_eq_some_iff, Option.bind_eq_some_iff]

/-- Codes in which a high surrogate and a low one directly behind it are the one code that
they stand for. -/
def joinSurrogates : List Nat → List Nat
  | high :: low :: codes =>
    if 0xD800 ≤ high ∧ high < 0xDC00 ∧ 0xDC00 ≤ low ∧ low < 0xE000 then
      (0x10000 + (high - 0xD800) * 0x400 + (low - 0xDC00)) :: joinSurrogates codes
    else high :: joinSurrogates (low :: codes)
  | codes => codes

/-- The glyph of a code. -/
def glyph? (code : Nat) : Option Glyph :=
  let b := UInt8.ofNat (code - 0xDC00)
  if code.isValidChar then some (.char (Char.ofNat code))
  else if h : 0x80 ≤ b then if 0xDC00 + b.toNat = code then some (.stray ⟨b, h⟩) else none
  else none

/-- The text of the codes of a string. -/
def text? (codes : List Nat) : Option Text := (joinSurrogates codes).mapM glyph?

/-! ## Words -/

/-- Digits of a whole number: no zero in front of others. -/
def isWhole : List Char → Bool
  | [] => false
  | '0' :: digits => digits.isEmpty
  | digits => digits.all Char.isDigit

/-- A number without its sign. It is an integer if neither a point nor an exponent stands in
it. -/
def magnitude? (negative : Bool) (cs : List Char) : Option Document :=
  let whole := cs.takeWhile Char.isDigit
  let isReal := match cs.dropWhile Char.isDigit with
    | '.' :: rest => !(rest.takeWhile Char.isDigit).isEmpty && Numeral.isFractionShape rest
    | rest => Numeral.isExponentShape rest
  if !isWhole whole then none
  else if whole = cs then
    let n : Int := Numeral.ofDigits 10 whole
    some (.integer (if negative then -n else n))
  else if isReal then
    (Numeral.readDecimal? cs).map fun d => .real (Binary64.ofDecimal negative d)
  else none

/-- A number, with a minus in front or without. -/
def number? : List Char → Option Document
  | '-' :: cs => magnitude? true cs
  | cs => magnitude? false cs

/-- What a word outside quotes stands for. -/
def word? (cs : List Char) : Option Document :=
  if cs = "null".toList then some .null
  else if cs = "true".toList then some (.bool true)
  else if cs = "false".toList then some (.bool false)
  else number? cs

/-! ## Pieces -/

/-- The marks of JSON. -/
inductive Mark where
  | openList
  | closeList
  | openObject
  | closeObject
  | comma
  | colon
  deriving DecidableEq

/-- A piece of a text. The value is no list and no object. -/
inductive Piece where
  | mark (m : Mark)
  | value (d : Document)

/-- What may stand between the pieces of a text. -/
def isBlank (c : Char) : Bool := c = ' ' || c = '\t' || c = '\n' || c = '\r'

/-- The mark that a character is, if it is one. -/
def mark? (c : Char) : Option Mark :=
  if c = '[' then some .openList
  else if c = ']' then some .closeList
  else if c = '{' then some .openObject
  else if c = '}' then some .closeObject
  else if c = ',' then some .comma
  else if c = ':' then some .colon
  else none

/-- A character that can stand in a word. -/
def isWordCharacter (c : Char) : Bool := c.isAlphanum || c = '+' || c = '-' || c = '.'

/-- The pieces of a text. -/
def pieces? : List Char → Option (List Piece)
  | [] => some []
  | c :: cs =>
    if isBlank c then pieces? cs
    else match mark? c with
      | some m => (pieces? cs).map (.mark m :: ·)
      | none =>
        if c = '"' then
          match _h : scanString cs with
          | some (codes, rest) =>
            (text? codes).bind fun t => (pieces? rest).map (.value (.text t) :: ·)
          | none => none
        else
          (word? (c :: cs.takeWhile isWordCharacter)).bind fun d =>
            (pieces? (cs.dropWhile isWordCharacter)).map (.value d :: ·)
termination_by cs => cs.length
decreasing_by
  all_goals simp only [List.length_cons]
  · omega
  · omega
  · have := length_scanString _h
    omega
  · have := (List.dropWhile_sublist (l := cs) isWordCharacter).length_le
    omega

/-! ## Documents -/

/-- What is open: a list after some of its elements, or an object after some of its entries
and the key of the next. -/
inductive Frame where
  | list (before : List Document)
  | object (before : List (Text × Document)) (key : Text)

/-- What may come next. -/
inductive Wanted where
  | value
  /-- The first element of a list, or the end of it. -/
  | element
  /-- The first key of an object, or the end of it. -/
  | entry
  | key (before : List (Text × Document))
  | colon (before : List (Text × Document)) (key : Text)
  /-- A comma after the value, or the end of what is open around it. -/
  | after (value : Document)

/-- A place among the pieces of a text; of what is open there the innermost is first. -/
structure Place where
  frames : List Frame
  wanted : Wanted

namespace Place

/-- Take the first piece of a value. -/
def begin? (frames : List Frame) : Piece → Option Place
  | .value d => some ⟨frames, .after d⟩
  | .mark .openList => some ⟨frames, .element⟩
  | .mark .openObject => some ⟨frames, .entry⟩
  | _ => none

/-- Take a piece. -/
def step? : Place → Piece → Option Place
  | ⟨frames, .value⟩, p => begin? frames p
  | ⟨frames, .element⟩, .mark .closeList => some ⟨frames, .after (.list [])⟩
  | ⟨frames, .element⟩, p => begin? (.list [] :: frames) p
  | ⟨frames, .entry⟩, .mark .closeObject => some ⟨frames, .after (.ofPairs [])⟩
  | ⟨frames, .entry⟩, .value (.text key) => some ⟨frames, .colon [] key⟩
  | ⟨frames, .key before⟩, .value (.text key) => some ⟨frames, .colon before key⟩
  | ⟨frames, .colon before key⟩, .mark .colon => some ⟨.object before key :: frames, .value⟩
  | ⟨.list before :: frames, .after d⟩, .mark .comma =>
    some ⟨.list (before ++ [d]) :: frames, .value⟩
  | ⟨.list before :: frames, .after d⟩, .mark .closeList =>
    some ⟨frames, .after (.list (before ++ [d]))⟩
  | ⟨.object before key :: frames, .after d⟩, .mark .comma =>
    some ⟨frames, .key (before ++ [(key, d)])⟩
  | ⟨.object before key :: frames, .after d⟩, .mark .closeObject =>
    some ⟨frames, .after (.ofPairs (before ++ [(key, d)]))⟩
  | _, _ => none

/-- Take pieces, one after the other. -/
def steps? : Place → List Piece → Option Place
  | place, [] => some place
  | place, p :: ps => (place.step? p).bind (steps? · ps)

/-- The document that has been read when the pieces end. -/
def result? : Place → Option Document
  | ⟨[], .after d⟩ => some d
  | _ => none

end Place

/-- The document that a text in JSON stands for. -/
def read? (cs : List Char) : Option Document := do
  let ps ← pieces? cs
  let place ← Place.steps? ⟨[], .value⟩ ps
  place.result?

end ProtoSchema.Json
