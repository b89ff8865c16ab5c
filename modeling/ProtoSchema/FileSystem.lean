import ProtoSchema.Path
import ProtoSchema.Text.Quoted
import ProtoSchema.Text.Utf8

/-!
# File systems

Files and directories, as far as reading and writing schemas has to know them. What is on
record is keyed by its place: the names that lead to it from the working directory, two points
only in front. The working directory, all directories above it and the root are there without
being on record.
-/
namespace ProtoSchema

/-- Why the system refuses an operation. -/
inductive OsFault where
  | missing
  | exists
  | notDirectory
  | isDirectory
  | nameTooLong
  deriving DecidableEq, Repr

/-- A refusal, with the path that it is about. -/
structure OsError where
  fault : OsFault
  path : Path
  deriving DecidableEq

namespace OsFault

/-- The number of a fault, as the system has it. -/
def number : OsFault → Nat
  | missing => 2
  | «exists» => 17
  | notDirectory => 20
  | isDirectory => 21
  | nameTooLong => 36

/-- The words for a fault. -/
def wording : OsFault → String
  | missing => "No such file or directory"
  | «exists» => "File exists"
  | notDirectory => "Not a directory"
  | isDirectory => "Is a directory"
  | nameTooLong => "File name too long"

end OsFault

/-- What is told of an error: number, words and path. -/
def OsError.message (e : OsError) : Text :=
  Text.ofString s!"[Errno {e.fault.number}] {e.fault.wording}: " ++
    Text.ofChars e.path.text.quoted

/-- What can be on record at a place. -/
inductive Entry where
  | file (bytes : List UInt8)
  | directory
  deriving DecidableEq

/-- The names that lead to a file or directory from the working directory, or from the root,
which then comes first. -/
abbrev Place := List Text

/-- The entries on record. A place has one entry. -/
structure FileSystem where
  entries : List (Place × Entry)
  deriving DecidableEq

namespace FileSystem

/-- Nothing is on record. -/
def empty : FileSystem := ⟨[]⟩

/-- The name that leads to the directory above. -/
private def up : Text := [.char '.', .char '.']

/-- The place of the root, whatever is below it. -/
def root : Place := [[.char '/']]

/-- A path that leads to a place. -/
def pathTo (place : Place) : Path :=
  if place.head? = root.head? then ⟨1, place.tail⟩ else ⟨0, place⟩

/-- Is a place a directory that needs no record? -/
def isGiven (place : Place) : Bool := place.all (· = up) || place = root

/-- What is at a place, if anything. -/
def lookup? (fs : FileSystem) (place : Place) : Option Entry :=
  if isGiven place then some .directory
  else (fs.entries.find? fun e => e.1 = place).map (·.2)

/-- Put an entry on record in place of the one that was there. -/
def put (fs : FileSystem) (place : Place) (entry : Entry) : FileSystem :=
  ⟨(fs.entries.filter fun e => e.1 ≠ place) ++ [(place, entry)]⟩

/-- The place above a directory; nothing is above the root. -/
def above (place : Place) : Place :=
  if place = root then root
  else if place.getLast?.all (· = up) then place ++ [up]
  else place.dropLast

/-- What a path leads to: an entry that is there, or the place of one that is not, in a
directory that is. -/
inductive Target where
  | file (place : Place) (bytes : List UInt8)
  | directory (place : Place)
  | absent (place : Place)
  deriving DecidableEq

/-- The greatest number of bytes of a name. -/
def nameLimit : Nat := 255

/-- The greatest number of bytes of a path. -/
def pathLimit : Nat := 4095

/-- Go on to a name. -/
def follow (fs : FileSystem) (name : Text) : Target → Except OsFault Target
  | .file .. => .error .notDirectory
  | .absent _ => .error .missing
  | .directory place =>
    if name = up then .ok (.directory (above place))
    else if nameLimit < (Utf8.encode name).length then .error .nameTooLong
    else
      let next := place ++ [name]
      match fs.lookup? next with
      | some (.file bytes) => .ok (.file next bytes)
      | some .directory => .ok (.directory next)
      | none => .ok (.absent next)

/-- Follow a path from the working directory or the root. -/
def resolve (fs : FileSystem) (p : Path) : Except OsFault Target :=
  if pathLimit < (Utf8.encode p.text).length then .error .nameTooLong
  else p.names.foldlM (fun target name => fs.follow name target)
    (.directory (if p.slashes = 0 then [] else root))

/-- The bytes of a file. -/
def read (fs : FileSystem) (p : Path) : Except OsError (List UInt8) :=
  match fs.resolve p with
  | .ok (.file _ bytes) => .ok bytes
  | .ok (.directory _) => .error ⟨.isDirectory, p⟩
  | .ok (.absent _) => .error ⟨.missing, p⟩
  | .error fault => .error ⟨fault, p⟩

/-- Write a file, new or in place of the one that is there. -/
def write (fs : FileSystem) (p : Path) (bytes : List UInt8) : Except OsError FileSystem :=
  match fs.resolve p with
  | .ok (.file place _) => .ok (fs.put place (.file bytes))
  | .ok (.absent place) => .ok (fs.put place (.file bytes))
  | .ok (.directory _) => .error ⟨.isDirectory, p⟩
  | .error fault => .error ⟨fault, p⟩

/-- Is there a directory where the path leads? -/
def isDirectory (fs : FileSystem) (p : Path) : Bool :=
  match fs.resolve p with
  | .ok (.directory _) => true
  | _ => false

/-- Make one directory, in a directory that is there. -/
def makeDirectory (fs : FileSystem) (p : Path) : Except OsFault FileSystem :=
  match fs.resolve p with
  | .ok (.absent place) => .ok (fs.put place .directory)
  | .ok _ => .error .exists
  | .error fault => .error fault

/-- Make one directory unless it is there: what went wrong, if anything, and the files after
it. -/
def ensureDirectory (fs : FileSystem) (p : Path) : Option OsError × FileSystem :=
  match fs.makeDirectory p with
  | .ok made => (none, made)
  | .error .missing => (some ⟨.missing, p⟩, fs)
  | .error fault => (if fs.isDirectory p then none else some ⟨fault, p⟩, fs)

/-- Make the directory of the first `n` names of a path, and before it the missing ones on the
way. -/
def ensureDirectoriesTo (fs : FileSystem) (p : Path) : (n : Nat) → Option OsError × FileSystem
  | 0 => fs.ensureDirectory { p with names := [] }
  | n + 1 =>
    let here := { p with names := p.names.take (n + 1) }
    match fs.makeDirectory here with
    | .error .missing =>
      match fs.ensureDirectoriesTo p n with
      | (none, made) => made.ensureDirectory here
      | (some e, made) => (some e, made)
    | _ => fs.ensureDirectory here

/-- Make a directory and the missing ones on the way to it. What was made stays when a later
step is refused. -/
def ensureDirectories (fs : FileSystem) (p : Path) : Option OsError × FileSystem :=
  fs.ensureDirectoriesTo p p.names.length

/-- The files that differ from an earlier state: new ones and ones with other bytes. -/
def changedFiles (before after : FileSystem) : List (Place × List UInt8) :=
  after.entries.filterMap fun
    | (place, .file bytes) =>
      if before.lookup? place = some (.file bytes) then none else some (place, bytes)
    | (_, .directory) => none

end FileSystem

end ProtoSchema
