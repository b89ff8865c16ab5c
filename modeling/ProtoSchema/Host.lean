import ProtoSchema.CommandLine.Arguments
import ProtoSchema.Document.Writer
import ProtoSchema.FileSystem

/-!
# Hosts

What a program runs on: files, a memory, and a way to read its arguments. A host may refuse to
read or to write anything, and for any reason that it has; what it refuses may leave a trace.
Files and directories alone, which refuse nothing without need, are one host.
-/
namespace ProtoSchema

/-- Reasons to refuse an operation, with what is said of them. -/
class SystemError (ε : Type) where
  message : ε → Text

/-- What a program runs on. The states of its files are `σ`, and its reasons to refuse an
operation are `ε`. -/
class Host (σ : Type) (ε : outParam Type) where
  /-- The bytes that are read at a path. -/
  read : σ → Path → Except ε (List UInt8)
  /-- Make a directory and the missing ones on the way to it: what went wrong, if anything,
  and the files after it. -/
  ensureDirectories : σ → Path → Option ε × σ
  /-- Write bytes to a path: what went wrong, if anything, and the files after it. -/
  write : σ → Path → List UInt8 → Option ε × σ
  memory : Document.Memory
  dialect : CommandLine.Dialect

instance : SystemError OsError where
  message := OsError.message

/-- The host of files and directories. -/
instance : Host FileSystem OsError where
  read := FileSystem.read
  ensureDirectories := FileSystem.ensureDirectories
  write files p bytes :=
    match files.write p bytes with
    | .ok after => (none, after)
    | .error e => (some e, files)
  memory := .usual
  dialect := .early

end ProtoSchema
