import ProtoSchema.CommandLine.Invocation
import ProtoSchema.Diagnostic
import ProtoSchema.Document.OfTree
import ProtoSchema.Host
import ProtoSchema.Settings
import ProtoSchema.Source.Newline
import ProtoSchema.Text.Utf8

/-!
# Commands

What the program does with a command line, as a function from the files, the standard input
and a setting to what is written where. Inputs are taken one after the other, and nothing is
written before all of them have been read. The files are those of any host; where none is
named, they are files and directories alone.
-/
namespace ProtoSchema

/-- What a command may look at. -/
structure World (σ : Type := FileSystem) where
  files : σ
  /-- The bytes of the standard input. -/
  input : List UInt8
  /-- The setting of the indent, if there is one. -/
  indentSetting : Option Text
  deriving DecidableEq

/-- How much a logged line matters. -/
inductive LogLevel where
  | debug
  | info
  deriving DecidableEq, Repr

/-- The name of a level in the log. -/
def LogLevel.name : LogLevel → String
  | debug => "DEBUG"
  | info => "INFO"

/-- A line for the person who runs a command; what is logged is written with the time in
front. -/
inductive Notice where
  | message (t : Text)
  | logged (level : LogLevel) (t : Text)
  deriving DecidableEq

/-- The line as it is written, by the time of writing. -/
def Notice.line (time : Text) : Notice → Text
  | message t => t ++ [.char '\n']
  | logged level t =>
    time ++ Text.ofString " - " ++ Text.ofString level.name ++ Text.ofString " - " ++ t ++
      [.char '\n']

/-- A failure that no command handles. -/
inductive Crash (ε : Type := OsError) where
  | undecodable (e : Utf8.Error)
  | os (e : ε)
  /-- A path holds the character zero, at which the system would take it to end. -/
  | unnameable
  | layout (e : Document.LayoutError)
  | parse (e : ParseFailure)
  deriving DecidableEq

/-- How a run ends. -/
inductive Ending (ε : Type := OsError) where
  | finished
  /-- Something could not be done, and a message says what. -/
  | failed
  | refused (r : CommandLine.Refusal)
  | crashed (c : Crash ε)
  deriving DecidableEq

/-- The number that the system is told. -/
def Ending.status {ε : Type} : Ending ε → Nat
  | finished => 0
  | failed => 1
  | refused .help => 0
  | refused .usage => 2
  | crashed _ => 1

/-- What a run leaves behind: how it ends, what goes to the standard output, what is told to
the person, and the files. -/
structure Report (σ : Type := FileSystem) (ε : Type := OsError) where
  ending : Ending ε
  output : Text
  notices : List Notice
  files : σ
  deriving DecidableEq

/-- Why an input gives no schema. -/
inductive InputError (ε : Type := OsError) where
  | unreadable (name : Text) (e : ε)
  | faulty (d : Diagnostic)
  | crashed (c : Crash ε)
  deriving DecidableEq

section

variable {σ ε : Type}

namespace InputError

/-- A failure to read the schema of a source that goes by a name in messages. A list of tokens
that was read from a source gives no other failure than a complaint about a token. -/
def ofSchemaError (source : Text) : SchemaError → InputError ε
  | .lexical e => .faulty ⟨source, .lexical e⟩
  | .parse (.unexpected e) => .faulty ⟨source, .unexpected e⟩
  | .parse e => .crashed (.parse e)

/-- What is said of an input that gives none, or that no command handles the failure. -/
def outcome [SystemError ε] : InputError ε → Except (Crash ε) Text
  | unreadable name e =>
    .ok (Text.ofString "Error reading " ++ name ++ Text.ofString ": " ++
      SystemError.message e)
  | faulty d => .ok (Text.ofString "Error: " ++ d.message)
  | crashed c => .error c

end InputError

/-- The characters of a file. -/
def decodeSource (bytes : List UInt8) : Except (InputError ε) (List Char) :=
  match Utf8.decodeStrict bytes with
  | .ok cs => .ok (normalizeNewlines cs)
  | .error e => .error (.crashed (.undecodable e))

/-- The name of an input in messages and documents. -/
def displayName (name : Text) : Text :=
  if name = CommandLine.standardInput then "<stdin>" else name

namespace World

/-- A run that ends without having written anything. -/
def stop (w : World σ) (ending : Ending ε) (notices : List Notice) : Report σ ε :=
  ⟨ending, [], notices, w.files⟩

/-- A run that could not do what was asked, and says why. -/
def complain (w : World σ) (notices : List Notice) (message : Text) : Report σ ε :=
  w.stop .failed (notices ++ [.message message])

/-- A run that ends with an input. -/
def rejectInput [SystemError ε] (w : World σ) (notices : List Notice) (e : InputError ε) :
    Report σ ε :=
  match e.outcome with
  | .ok message => w.complain notices message
  | .error crash => w.stop (.crashed crash) notices

variable [Host σ ε]

/-! ## Inputs -/

/-- The bytes of a file, which goes by a name in messages. -/
def readFile (w : World σ) (name : Text) (p : Path) : Except (InputError ε) (List UInt8) :=
  if p.isNameable then (Host.read w.files p).mapError (.unreadable name)
  else .error (.crashed .unnameable)

/-- The characters of an input. -/
def source (w : World σ) (name : Text) : Except (InputError ε) (List Char) := do
  let bytes ←
    if name = CommandLine.standardInput then .ok w.input
    else w.readFile name (Path.ofText name)
  decodeSource bytes

/-- The tokens of an input. -/
def tokensOf (w : World σ) (name : Text) : Except (InputError ε) (List Token) := do
  let source ← w.source name
  (tokenize source).mapError fun e => .ofSchemaError (displayName name) (.lexical e)

/-- The schema of an input, and how many tokens it has. -/
def schemaOf (w : World σ) (name : Text) : Except (InputError ε) (Schema × Nat) := do
  let tokens ← w.tokensOf name
  let schema ← (Schema.ofTokens tokens).mapError fun e =>
    .ofSchemaError (displayName name) (.parse e)
  return (schema, tokens.length)

/-- The schema of a file, which is named in messages by its path as it is written out. -/
def schemaOfFile (w : World σ) (p : Path) : Except (InputError ε) Schema := do
  let source ← decodeSource (← w.readFile p.text p)
  (Schema.ofSource source).mapError (.ofSchemaError p.text)

/-! ## Listing tokens -/

/-- One line of a listing: position, kind and quoted text. -/
def listed (t : Token) : Text :=
  Text.ofString s!"{t.position.line}:{t.position.column} {t.kind.name} " ++
    Text.ofChars t.text.quoted ++ [.char '\n']

/-- List the tokens of an input, one line each. -/
def listTokens [SystemError ε] (w : World σ) (name : Text) : Report σ ε :=
  match w.tokensOf name with
  | .error e => w.rejectInput [] e
  | .ok tokens => ⟨.finished, tokens.flatMap listed, [], w.files⟩

/-! ## Parsing -/

/-- The names that stand in a list more than once, each of them once and in order. -/
def repeatedNames (names : List Text) : List Text :=
  ((names.filter fun name => 1 < names.count name).eraseDups).mergeSort fun a b =>
    !b.precedes a

/-- What is logged of a schema that was parsed. -/
def parsedNotice (name : Text) (schema : Schema) (tokenCount : Nat) : Notice :=
  .logged .debug (Text.ofString "Parsed " ++ displayName name ++
    Text.ofString s!": {tokenCount} tokens, {schema.elements.length} top-level elements")

/-- Read the inputs in order: their documents by name, and what is logged. -/
def documentsOf (w : World σ) (positions : Bool) :
    List Text → Except (InputError ε) (List (Text × Document)) × List Notice
  | [] => (.ok [], [])
  | name :: rest =>
    match w.schemaOf name with
    | .error e => (.error e, [])
    | .ok (schema, tokenCount) =>
      let (others, notices) := documentsOf w positions rest
      let entry := (displayName name, schema.toDocument positions)
      (others.map (entry :: ·), parsedNotice name schema tokenCount :: notices)

/-- One input gives its own document, several give one entry each. -/
def combine : List (Text × Document) → Document
  | [(_, d)] => d
  | entries => .ofPairs entries

/-- Write a text to a path, making the directories on the way: what went wrong, if anything,
and the files after it. -/
def writeFile (w : World σ) (p : Path) (text : Text) : Option (Crash ε) × σ :=
  if !p.parent.isNameable then (some .unnameable, w.files)
  else match Host.ensureDirectories w.files p.parent with
  | (some e, files) => (some (.os e), files)
  | (none, files) =>
    if !p.isNameable then (some .unnameable, files)
    else
      let (e, files) := Host.write files p (Utf8.encode text)
      (e.map .os, files)

/-- Bring a text to where it was asked for. -/
def deliver (w : World σ) (output : Option Text) (notices : List Notice) (text : Text) :
    Report σ ε :=
  match output with
  | none => ⟨.finished, text, notices, w.files⟩
  | some name =>
    let p := Path.ofText name
    match w.writeFile p text with
    | (none, files) =>
      ⟨.finished, [], notices ++ [.logged .info (Text.ofString "Wrote " ++ p.text)], files⟩
    | (some crash, files) => ⟨.crashed crash, [], notices, files⟩

/-- The options that a request asks for, `none` if it asks for a blank indent. -/
def emitOptions (w : World σ) (r : CommandLine.ParseRequest) :
    Except IndentError (Option EmitOptions) :=
  match r.indent with
  | .unasked => (EmitOptions.resolve r.positions none r.sortKeys w.indentSetting).map some
  | .spaces n =>
    (EmitOptions.resolve r.positions (some n) r.sortKeys w.indentSetting).map some
  | .blank => .ok none

/-- The text of a document, if there are options to set it out by. -/
def setOutIn (memory : Document.Memory) (options : Option EmitOptions) (d : Document) :
    Except Document.LayoutError (List Char) :=
  match options with
  | some options => d.setOut options.style memory
  | none => .error .blankIndent

/-- Write the documents of the inputs. Repeated inputs and the settings are checked before any
input is read, and nothing is written if one of them gives no schema. That an indent cannot be
used comes to light when the text is made. -/
def parse [SystemError ε] (w : World σ) (r : CommandLine.ParseRequest) : Report σ ε :=
  match repeatedNames r.inputs with
  | _ :: _ =>
    w.complain [] (Text.ofString "Error: Input given more than once: " ++
      Text.join ", " (repeatedNames r.inputs))
  | [] =>
    match w.emitOptions r with
    | .error e => w.complain [] (Text.ofString "Error: " ++ e.message)
    | .ok options =>
      match w.documentsOf r.positions r.inputs with
      | (.error e, notices) => w.rejectInput notices e
      | (.ok entries, notices) =>
        match setOutIn (Host.memory σ) options (combine entries) with
        | .error e => w.stop (.crashed (.layout e)) notices
        | .ok text => w.deliver r.output notices (Text.ofChars text ++ [.char '\n'])

/-! ## The whole program -/

/-- What is said when no command is given. -/
def hints : List Notice :=
  [.message "Usage: protoast <command> [options]", .message "Commands: parse, tokens",
    .message "Use 'protoast <command> --help' for more information"]

/-- Notices that are shown: logged ones only if that was asked for. -/
def shown (verbose : Bool) (notices : List Notice) : List Notice :=
  notices.filter fun
    | .message _ => true
    | .logged .. => verbose

/-- Do what a command line asks for. -/
def request [SystemError ε] (w : World σ) : Option CommandLine.Request → Report σ ε
  | none => w.stop .failed hints
  | some (.parse r) => w.parse r
  | some (.tokens name) => w.listTokens name

/-- Run a command line. -/
def run [SystemError ε] (w : World σ) (words : List Text) : Report σ ε :=
  match CommandLine.Invocation.ofWords (Host.dialect σ) words with
  | .error r => w.stop (.refused r) []
  | .ok invocation =>
    let report := w.request invocation.request
    { report with notices := shown invocation.verbose report.notices }

end World

end

end ProtoSchema
