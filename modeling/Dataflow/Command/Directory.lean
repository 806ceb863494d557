/-
# Runs in a directory

The command run against a directory that holds files and no other directories.  A path is followed
name by name.  The directory lies two levels below the root, where the devices and the directories
of the system are too; nothing else is there, but files can be made.
-/
import Dataflow.Command.Run

namespace Dataflow
namespace Command

/-! ## 1. Places -/

/-- A directory that a path can lead through. -/
inductive Folder where
  /-- The directory that the command runs in. -/
  | here
  /-- The directory above it. -/
  | above
  /-- The directory that absolute paths start from. -/
  | root
  /-- The directory of the devices. -/
  | devices
  /-- Any other directory of the system. -/
  | system
  deriving DecidableEq

/-- A device that can be written to. -/
inductive Device where
  /-- Takes any text and keeps none. -/
  | null
  /-- Has room for no text. -/
  | full
  /-- The output stream of the command. -/
  | stdout
  /-- The error stream of the command. -/
  | stderr
  deriving DecidableEq

/-- Where a path leads. -/
inductive Place where
  | folder (f : Folder)
  | device (d : Device)
  /-- A name in the directory that the command runs in, whether there is a file or not. -/
  | entry (name : String)
  /-- A name in another directory that nothing there has. -/
  | vacant
  deriving DecidableEq

/-- Why a file cannot be read or written. -/
inductive FileError where
  | notFound
  | notDirectory
  | isDirectory
  | noSpace
  | nameTooLong
  deriving DecidableEq

/-- The text of a file error, with its number. -/
def FileError.text : FileError → String
  | .notFound => "No such file or directory (os error 2)"
  | .notDirectory => "Not a directory (os error 20)"
  | .isDirectory => "Is a directory (os error 21)"
  | .noSpace => "No space left on device (os error 28)"
  | .nameTooLong => "File name too long (os error 36)"

/-- The directory above a directory.  The root is above itself. -/
def Folder.parent : Folder → Folder
  | .here => .above
  | .above | .root | .devices | .system => .root

/-- The names of the system's directories in the root, but for the devices. -/
def systemFolders : List String :=
  ["bin", "boot", "etc", "home", "lib", "lib64", "media", "mnt", "opt", "proc", "root", "run",
   "sbin", "srv", "sys", "tmp", "usr", "var"]

/-- The device of a name. -/
def Device.ofName? : String → Option Device
  | "null" => some .null
  | "full" => some .full
  | "stdout" => some .stdout
  | "stderr" => some .stderr
  | _ => none

/-- Where a name leads in a directory. -/
def Folder.lookup (f : Folder) (name : String) : Place :=
  match f with
  | .here => .entry name
  | .above | .system => .vacant
  | .root =>
    if name = "dev" then .folder .devices
    else if systemFolders.contains name then .folder .system
    else .vacant
  | .devices => ((Device.ofName? name).map Place.device).getD .vacant

/-! ## 2. Paths -/

/-- The files of a directory: names and contents. -/
abbrev Directory := List (String × String)

namespace Directory

/-- The content of a file. -/
def file? (dir : Directory) (name : String) : Option String :=
  (dir.find? fun e => e.1 == name).map Prod.snd

/-- The bytes that a path may have. -/
def pathLimit : Nat := 4095

/-- The bytes that a name in a path may have. -/
def nameLimit : Nat := 255

/-- Take one step of a path.  Only a directory leads further, even if the step stays where it
is. -/
def step (dir : Directory) (place : Place) (name : String) : Except FileError Place :=
  match place with
  | .folder f =>
    if name = "." then .ok place
    else if name = ".." then .ok (.folder f.parent)
    else if nameLimit < name.utf8ByteSize then .error .nameTooLong
    else .ok (f.lookup name)
  | .device _ => .error .notDirectory
  | .entry file => if (dir.file? file).isSome then .error .notDirectory else .error .notFound
  | .vacant => .error .notFound

/-- The steps of a path.  Slashes separate them, however many. -/
def steps (path : String) : List String := (path.splitOn "/").filter fun s => !s.isEmpty

/-- Where a path starts. -/
def start (path : String) : Place := .folder (if path.startsWith "/" then .root else .here)

/-- Follow a path. -/
def follow (dir : Directory) (path : String) : Except FileError Place :=
  if pathLimit < path.utf8ByteSize then .error .nameTooLong
  else (steps path).foldlM dir.step (start path)

/-- True of a path that says itself to lead to a directory. -/
def slashed (path : String) : Bool := path.endsWith "/"

/-- The content of the file at a path.  Devices have nothing to read. -/
def read (dir : Directory) (path : String) : Except FileError String := do
  let content ← match ← dir.follow path with
    | .folder _ => .error .isDirectory
    | .device _ => pure ""
    | .entry name => match dir.file? name with
      | some content => pure content
      | none => .error .notFound
    | .vacant => .error .notFound
  if slashed path then .error .notDirectory else return content

/-- Where a text written to a path goes.  With a slash at its end a path is refused as a directory
as soon as its last name would be looked up. -/
def target (dir : Directory) (path : String) : Except FileError Place := do
  if slashed path && path.utf8ByteSize ≤ pathLimit then
    let _ ← ((steps path).dropLast ++ ["."]).foldlM dir.step (start path)
    .error .isDirectory
  else match ← dir.follow path with
    | .folder _ => .error .isDirectory
    | .device .full => .error .noSpace
    | place => return place

/-- The directory with a text in one of its files. -/
def put (dir : Directory) (name content : String) : Directory :=
  (name, content) :: dir.filter fun e => e.1 ≠ name

end Directory

/-! ## 3. Runs -/

/-- Why a path cannot be written. -/
def Directory.refusal? (dir : Directory) (path : String) : Option String :=
  match dir.target path with
  | .error e => some e.text
  | .ok _ => none

/-- A run and the directory after a text was written to a place. -/
def Outcome.write (outcome : Outcome) (dir : Directory) (content : String) :
    Place → Outcome × Directory
  | .entry name => (outcome, dir.put name content)
  | .device .stdout => ({ outcome with stdout := outcome.stdout ++ content }, dir)
  | .device .stderr => ({ outcome with stderr := outcome.stderr ++ content }, dir)
  | _ => (outcome, dir)

/-- Run the command in a directory.  Gives what the caller sees, and the directory afterwards. -/
def runIn (dir : Directory) (arguments : List String) : Outcome × Directory :=
  match answer? (parse arguments) with
  | .error outcome => (outcome, dir)
  | .ok o =>
    let source := (dir.read o.input).mapError FileError.text
    let outcome := conclude o (process o source) dir.refusal?
    match outcome.written with
    | none => (outcome, dir)
    | some (path, content) =>
      match dir.target path with
      | .error _ => (outcome, dir)
      | .ok place => outcome.write dir content place

end Command
end Dataflow
