import ProtoSchema.Number.Numeral
import ProtoSchema.Text.Basic

/-!
# Command line arguments

How the words of a command line are told apart: options, which start with a dash and may take
a value, and operands. Options may be abbreviated as long as one name fits, a value may be
joined to its option, and short options without values may be strung together. After a double
dash all words are operands. Operands are taken where they first stand; operands after a gap
belong to nothing.

There are two ways to read what is joined to an option, an earlier and a later one; `Dialect`
says which.
-/
namespace ProtoSchema.CommandLine

/-- Why no command is run. -/
inductive Refusal where
  /-- The words make no sense; the usage is shown. -/
  | usage
  /-- Help was asked for. -/
  | help
  deriving DecidableEq, Repr

/-- How what is joined to an option is read. -/
inductive Dialect where
  /-- A double dash that is joined to an option is no value. An equals sign is nothing special
  behind short options that are strung together, and a name among them that is not known is
  refused. -/
  | early
  /-- What is joined to an option is its value. An equals sign behind short options that are
  strung together starts the value of the last, and names from one on that is not known belong
  to nothing. -/
  | late
  deriving DecidableEq, Repr

/-- How many operands are taken. -/
inductive Operands where
  | atMostOne
  | any
  /-- A command's name and everything behind it, options too. -/
  | command
  deriving DecidableEq, Repr

/-- The options of a command, the operands it takes, and what each of them does to the
settings read so far. -/
structure Synopsis (σ : Type) (Switch : Type) where
  options : List (Text × Switch)
  takesValue : Switch → Bool
  /-- Carry out an option; one that takes a value is given it if there is one. -/
  act : Switch → Option Text → σ → Except Refusal σ
  operands : Operands
  /-- Take the operands. -/
  fill : List Text → σ → Except Refusal σ

/-- What options start with. -/
private def dash : Glyph := .char '-'

/-- What ends the options. -/
private def doubleDash : Text := [dash, dash]

/-- What joins a value to its option. -/
private def equalsSign : Glyph := .char '='

/-- What is joined to an option. -/
structure Joined where
  text : Text
  /-- Is it joined by an equals sign? -/
  byEquals : Bool

/-- What a word that looks like an option says: which option, under which name, and what is
joined to it. -/
structure GivenOption (Switch : Type) where
  switch : Switch
  name : Text
  joined : Option Joined

/-- What an option is carried out with. -/
inductive Supply where
  /-- All it takes was given with it. -/
  | complete (value : Option Text)
  /-- Its value is the next word. -/
  | nextWord

/-- A value that is joined to its option. -/
def Supply.joined (dialect : Dialect) (value : Text) : Supply :=
  .complete (if dialect = .early ∧ value = doubleDash then none else some value)

/-- The options that one word gives, and whether a part of the word belongs to nothing. -/
structure Strung (Switch : Type) where
  given : List (Switch × Supply)
  extra : Bool

/-- What a word of a command line is. -/
inductive Word (Switch : Type) where
  | operand
  | marker
  | known (given : GivenOption Switch)
  | unknown

/-- A text up to a glyph and behind it, if it holds the glyph. -/
def splitOnce (g : Glyph) (t : Text) : Option (Text × Text) :=
  let before := t.takeWhile (· ≠ g)
  match t.drop before.length with
  | _ :: after => some (before, after)
  | [] => none

private def isDigit : Glyph → Bool
  | .char c => (Text.decimalDigit? c).isSome
  | .stray _ => false

/-- Digits, with a point among or before them or not; one newline may follow. -/
def isUnsignedNumber (t : Text) : Bool :=
  let body := if t.getLast? = some (.char '\n') then t.dropLast else t
  match (body.dropWhile isDigit) with
  | [] => !body.isEmpty
  | g :: fraction => g = .char '.' && !fraction.isEmpty && fraction.all isDigit

/-- The options of a word with their values, the last of which may be the next word, and
whether it is. -/
def withValue (given : List (Switch × Supply)) (next : Option (Text × Word Switch)) :
    Except Refusal (List (Switch × Option Text) × Bool) :=
  match given with
  | [] => .ok ([], false)
  | (switch, .complete value) :: rest =>
    (withValue rest next).map fun (given, taken) => ((switch, value) :: given, taken)
  | (switch, .nextWord) :: _ =>
    match next with
    | some (value, .operand) => .ok ([(switch, some value)], true)
    | _ => .error .usage

namespace Synopsis

variable {σ Switch : Type} (s : Synopsis σ Switch)

/-- The option of a full name. -/
def option? (name : Text) : Option Switch := (s.options.find? fun o => o.1 = name).map (·.2)

/-- The options that a word may abbreviate. Long names are compared up to an equals sign; to a
short name the rest of the word is joined as its value. -/
def candidates (word : Text) : List (GivenOption Switch) :=
  if word.take 2 = doubleDash then
    let (name, joined) := match splitOnce equalsSign word with
      | some (name, value) => (name, some (⟨value, true⟩ : Joined))
      | none => (word, none)
    s.options.filterMap fun (option, switch) =>
      if name.isPrefixOf option then some ⟨switch, option, joined⟩ else none
  else
    s.options.filterMap fun (option, switch) =>
      if option = word.take 2 then some ⟨switch, option, some ⟨word.drop 2, false⟩⟩
      else if word.isPrefixOf option then some ⟨switch, option, none⟩
      else none

/-- An option given under its full name, with a value joined to it by an equals sign or
without. -/
def inFull? (word : Text) : Option (GivenOption Switch) :=
  match s.option? word with
  | some switch => some ⟨switch, word, none⟩
  | none =>
    match splitOnce equalsSign word with
    | some (name, value) =>
      (s.option? name).map fun switch => ⟨switch, name, some ⟨value, true⟩⟩
    | none => none

/-- What a word is, before a double dash. Negative numbers and words with spaces are operands
unless an option fits them. -/
def classify (word : Text) : Except Refusal (Word Switch) :=
  if word.head? ≠ some dash ∨ (s.option? word).isNone ∧ word.length = 1 then .ok .operand
  else match s.inFull? word with
    | some given => .ok (.known given)
    | none =>
      match s.candidates word with
      | [given] => .ok (.known given)
      | _ :: _ :: _ => .error .usage
      | [] =>
        if isUnsignedNumber (word.drop 1) ∨ word.contains (.char ' ') then .ok .operand
        else .ok .unknown

/-- All words with what they are. -/
def classifyAll : List Text → Except Refusal (List (Text × Word Switch))
  | [] => .ok []
  | word :: rest =>
    if word = doubleDash then .ok ((word, .marker) :: rest.map fun w => (w, .operand))
    else do
      let kind ← s.classify word
      return (word, kind) :: (← classifyAll rest)

/-- An option to which nothing is joined: its value is the next word if it takes one. -/
def bare (switch : Switch) : Switch × Supply :=
  (switch, if s.takesValue switch then .nextWord else .complete none)

/-- The options that a short one and what is joined to it give: the value of the first that
takes one, and before it an option for each character. -/
def strung (dialect : Dialect) (switch : Switch) (byEquals : Bool) :
    (joined : Text) → Except Refusal (Strung Switch)
  | [] =>
    if s.takesValue switch then .ok ⟨[(switch, .joined dialect [])], false⟩ else .error .usage
  | g :: rest =>
    if s.takesValue switch then .ok ⟨[(switch, .joined dialect (g :: rest))], false⟩
    else if dialect = .late ∧ (byEquals ∨ g = dash) then .error .usage
    else match s.option? [dash, g], rest with
      | none, _ =>
        if dialect = .early then .error .usage else .ok ⟨[(switch, .complete none)], true⟩
      | some next, [] => .ok ⟨[(switch, .complete none), s.bare next], false⟩
      | some next, h :: others =>
        let behind :=
          if dialect = .late ∧ h = equalsSign then strung dialect next true others
          else strung dialect next false (h :: others)
        behind.map fun b => { b with given := (switch, .complete none) :: b.given }

/-- The options that one word gives. What is joined to a long option can be its value only. -/
def optionsOf (dialect : Dialect) (given : GivenOption Switch) :
    Except Refusal (Strung Switch) :=
  match given.joined with
  | none => .ok ⟨[s.bare given.switch], false⟩
  | some joined =>
    if given.name.take 2 ≠ doubleDash then
      s.strung dialect given.switch joined.byEquals joined.text
    else if s.takesValue given.switch then
      .ok ⟨[(given.switch, .joined dialect joined.text)], false⟩
    else .error .usage

/-- How many of the words are taken as operands here, if they can be. -/
def operandCount (words : List (Text × Word Switch)) : Option Nat :=
  let isPlain : Text × Word Switch → Bool := fun
    | (_, .operand) => true
    | (_, .marker) => true
    | _ => false
  let isMarker : Text × Word Switch → Bool := fun
    | (_, .marker) => true
    | _ => false
  let markers := (words.takeWhile isMarker).length
  let behind := words.drop markers
  match s.operands with
  | .any => some (words.takeWhile isPlain).length
  | .atMostOne =>
    match behind with
    | (_, .operand) :: rest => some (markers + 1 + (rest.takeWhile isMarker).length)
    | _ => some markers
  | .command =>
    match behind with
    | (_, .operand) :: _ => some words.length
    | _ => none

/-- Carry out options in order. -/
def actAll : List (Switch × Option Text) → σ → Except Refusal σ
  | [], settings => .ok settings
  | (switch, value) :: rest, settings => do actAll rest (← s.act switch value settings)

/-- Operands without the first double dash among them. A command keeps its own. -/
def withoutMarker (words : List Text) : List Text :=
  match s.operands with
  | .command => words
  | _ => words.erase doubleDash

/-- Go through the words. `filled` says whether operands were taken, `extra` whether there was
a word that belongs to nothing. -/
def run (dialect : Dialect) (filled extra : Bool) :
    List (Text × Word Switch) → σ → Except Refusal (σ × Bool)
  | [], settings =>
    if filled ∨ s.operands = .command then .ok (settings, extra)
    else (s.fill [] settings).map (·, extra)
  | (_, .unknown) :: rest, settings => run dialect filled true rest settings
  | (_, .known given) :: rest, settings => do
    let options ← s.optionsOf dialect given
    let (valued, taken) ← withValue options.given rest.head?
    let settings ← s.actAll valued settings
    run dialect filled (extra || options.extra) (rest.drop (if taken then 1 else 0)) settings
  | word :: rest, settings =>
    if filled then run dialect filled true rest settings
    else match s.operandCount (word :: rest) with
      | none => run dialect filled true rest settings
      | some n => do
        let words := ((word :: rest).take n).map (·.1)
        let settings ← s.fill (s.withoutMarker words) settings
        run dialect true extra (rest.drop (n - 1)) settings
termination_by words => words.length
decreasing_by all_goals (simp only [List.length_drop, List.length_cons]; omega)

/-- Read a command line from given settings on: the settings after it, and whether a word
belongs to nothing. -/
def read (dialect : Dialect) (words : List Text) (settings : σ) :
    Except Refusal (σ × Bool) := do
  s.run dialect false false (← s.classifyAll words) settings

end Synopsis

end ProtoSchema.CommandLine
