import ProtoSchema.Command
import Std.Time.Format

/-!
# The program

What stands between `World.run` and the system. Before the run, what the system has along the
named paths is put on record; after it, what the report has made or changed there is carried
out. Links are not followed by name: two points lead to the directory above, as in
`FileSystem`.
-/
namespace ProtoSchema.Program

/-- The text as the system is given it. -/
def spelled (t : Text) : String := t.toString?.getD ""

/-- What the system has at a path; of a file, only that it is there. -/
def entryAt (p : Path) : IO (Option Entry) := do
  try
    let _ ← IO.FS.Handle.mk (spelled p.text ++ "/.") .read
    return some .directory
  catch
    | .noFileOrDirectory .. => return none
    | .inappropriateType .. => return some (.file [])
    | .permissionDenied .. => return some .directory
    | e => throw e

/-- Put on record what the system has along a path. -/
def explore (fs : FileSystem) (p : Path) : IO FileSystem :=
  (List.range p.names.length).foldlM (fun fs n => do
    let here : Path := { p with names := p.names.take (n + 1) }
    match fs.resolve here with
    | .ok (.absent place) =>
      match ← entryAt here with
      | some entry => return fs.put place entry
      | none => return fs
    | _ => return fs) fs

/-- Put the bytes of an input on record. -/
def load (fs : FileSystem) (p : Path) : IO FileSystem := do
  match fs.resolve p with
  | .ok (.file place _) =>
    return fs.put place (.file (← IO.FS.readBinFile (spelled p.text)).toList)
  | _ => return fs

/-- The files that a command names. -/
def filesOf (request : CommandLine.Request) : IO FileSystem := do
  let inputs := (request.inputs.filter (· ≠ CommandLine.standardInput)).map Path.ofText
  let explored ← (inputs ++ request.output?.toList.map Path.ofText).foldlM explore .empty
  inputs.foldlM load explored

/-- What a command line can look at. -/
def worldOf (words : List Text) : IO World := do
  let setting ← IO.getEnv "PROTOAST_INDENT"
  match CommandLine.Invocation.ofWords (Host.dialect FileSystem) words with
  | .ok ⟨_, some request⟩ =>
    let input ←
      if request.inputs.contains CommandLine.standardInput then
        (← IO.getStdin).readBinToEnd
      else pure .empty
    return ⟨← filesOf request, input.toList, setting.map Text.ofString⟩
  | _ => return ⟨.empty, [], setting.map Text.ofString⟩

/-- Make the directories that were not there, and write the files that differ. -/
def carryOut (before after : FileSystem) : IO Unit := do
  for (place, entry) in after.entries do
    let path := spelled (FileSystem.pathTo place).text
    match entry with
    | .directory => if before.lookup? place = none then IO.FS.createDir path
    | .file _ => pure ()
  for (place, bytes) in FileSystem.changedFiles before after do
    IO.FS.writeBinFile (spelled (FileSystem.pathTo place).text) ⟨bytes.toArray⟩

/-- Write a text as UTF-8. -/
def put (stream : IO.FS.Stream) (t : Text) : IO Unit := do
  stream.write ⟨(Utf8.encode t).toArray⟩
  stream.flush

/-- The time, as it stands in front of what is logged. -/
def timeStamp : IO Text :=
  return Text.ofString ((← Std.Time.PlainDateTime.now).format "yyyy-MM-dd HH:mm:ss,SSS")

/-- What is said of an ending beyond the notices. -/
def remarks : Ending → List Notice
  | .finished | .failed | .refused .help => []
  | .refused .usage => World.hints
  | .crashed (.os e) => [.message (Text.ofString "Error: " ++ e.message)]
  | .crashed (.undecodable e) => [.message (Text.ofString "Error: " ++ e.message)]
  | .crashed .unnameable => [.message "Error: A path holds the character zero"]
  | .crashed (.layout .blankIndent) => [.message "Error: The indent is no number"]
  | .crashed (.layout _) => [.message "Error: The indent is out of range"]
  | .crashed (.parse _) => [.message "Error: No schema can be read"]

/-- Run a command line on the system; the result is its exit status. -/
def run (words : List Text) : IO UInt32 := do
  let w ← worldOf words
  let report := w.run words
  carryOut w.files report.files
  for notice in report.notices ++ remarks report.ending do
    put (← IO.getStderr) (notice.line (← timeStamp))
  let output ← IO.getStdout
  if report.ending = .refused .help then
    for notice in World.hints do
      put output (notice.line [])
  put output report.output
  return UInt32.ofNat report.ending.status

end ProtoSchema.Program

/-- Run the command line of the process. -/
def main (args : List String) : IO UInt32 :=
  ProtoSchema.Program.run (args.map ProtoSchema.Text.ofString)
