import ProtoSchema.CommandLine.Arguments

/-!
# Invocations

What a command line asks for: to parse schemas, to list the tokens of one, or nothing.
-/
namespace ProtoSchema.CommandLine

/-- What is asked for as the indent. -/
inductive IndentRequest where
  | unasked
  | spaces (n : Int)
  /-- The option is there, but what is joined to it is no value. -/
  | blank
  deriving DecidableEq, Repr

/-- What the parse command is to do. -/
structure ParseRequest where
  inputs : List Text
  output : Option Text
  positions : Bool
  indent : IndentRequest
  sortKeys : Bool
  deriving DecidableEq

/-- A command with what it is to do. -/
inductive Request where
  | parse (request : ParseRequest)
  | tokens (input : Text)
  deriving DecidableEq

namespace Request

/-- The names of the inputs, in order. -/
def inputs : Request → List Text
  | parse r => r.inputs
  | tokens input => [input]

/-- Where the result goes, if not to the standard output. -/
def output? : Request → Option Text
  | parse r => r.output
  | tokens _ => none

end Request

/-- What a whole command line says. -/
structure Invocation where
  /-- Is what is logged shown? -/
  verbose : Bool
  request : Option Request
  deriving DecidableEq

/-- The name of the standard input among the inputs. -/
def standardInput : Text := [.char '-']

/-! ## The commands -/

namespace ParseRequest

/-- What is parsed, and how, if nothing else is asked for. -/
def initial : ParseRequest := ⟨[standardInput], none, true, .unasked, false⟩

/-- What the options of the parse command set. -/
inductive Switch where
  | help
  | output
  | noPositions
  | indent
  | sortKeys
  deriving DecidableEq

/-- A later option takes the place of an earlier one of its kind. -/
def act (switch : Switch) (value : Option Text) (r : ParseRequest) :
    Except Refusal ParseRequest :=
  match switch with
  | .help => .error .help
  | .output => .ok { r with output := value }
  | .noPositions => .ok { r with positions := false }
  | .indent =>
    match value with
    | none => .ok { r with indent := .blank }
    | some value =>
      match Numeral.readInteger 10 value with
      | .ok n => .ok { r with indent := .spaces n }
      | .error _ => .error .usage
  | .sortKeys => .ok { r with sortKeys := true }

/-- The parse command takes any number of inputs. -/
def synopsis : Synopsis ParseRequest Switch where
  options := [("-h", .help), ("--help", .help), ("--output", .output), ("-o", .output),
    ("--no-positions", .noPositions), ("--indent", .indent), ("--sort-keys", .sortKeys)]
  takesValue switch := switch = .output || switch = .indent
  act := act
  operands := .any
  fill inputs r := .ok (if inputs.isEmpty then r else { r with inputs := inputs })

end ParseRequest

/-- The command that lists tokens knows no option but the one for help. -/
def tokensSynopsis : Synopsis Text Unit where
  options := [("-h", ()), ("--help", ())]
  takesValue _ := false
  act _ _ _ := .error .help
  operands := .atMostOne
  fill inputs input := .ok (inputs.head?.getD input)

/-! ## The whole line -/

namespace Invocation

/-- The settings read so far, and whether a word of a command belongs to nothing. -/
structure Draft where
  invocation : Invocation
  extra : Bool

inductive Switch where
  | help
  | verbose
  deriving DecidableEq

def act (switch : Switch) (_ : Option Text) (d : Draft) : Except Refusal Draft :=
  match switch with
  | .help => .error .help
  | .verbose => .ok { d with invocation := { d.invocation with verbose := true } }

/-- Read the words of a command, its name first. -/
def command (dialect : Dialect) (words : List Text) (d : Draft) : Except Refusal Draft :=
  match words with
  | [] => .error .usage
  | name :: rest =>
    if name = Text.ofString "parse" then do
      let (request, extra) ← ParseRequest.synopsis.read dialect rest ParseRequest.initial
      return ⟨{ d.invocation with request := some (.parse request) }, d.extra || extra⟩
    else if name = Text.ofString "tokens" then do
      let (input, extra) ← tokensSynopsis.read dialect rest standardInput
      return ⟨{ d.invocation with request := some (.tokens input) }, d.extra || extra⟩
    else .error .usage

def synopsis (dialect : Dialect) : Synopsis Draft Switch where
  options := [("-h", .help), ("--help", .help), ("-v", .verbose), ("--verbose", .verbose)]
  takesValue _ := false
  act := act
  operands := .command
  fill := command dialect

/-- Read a command line. A word that belongs to nothing is refused when all others have been
read. -/
def ofWords (dialect : Dialect) (words : List Text) : Except Refusal Invocation := do
  let (d, extra) ← (synopsis dialect).read dialect words ⟨⟨false, none⟩, false⟩
  if d.extra || extra then .error .usage else return d.invocation

end Invocation

end ProtoSchema.CommandLine
