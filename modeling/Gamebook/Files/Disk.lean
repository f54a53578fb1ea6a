import Gamebook.Document.Table
import Gamebook.Text.Pieces
import Gamebook.Text.Quoted
import Gamebook.Text.Utf8

/-!
Files and folders. Opening walks down the parts of a path: all but the last must
be folders, two dots go up, and a slash at the end asks for a folder.
-/
namespace Gamebook

/-- Why a file cannot be opened. -/
inductive Refused where
  | missing
  | isFolder
  | notFolder
  | longName
  | nullByte
  | noName
  deriving DecidableEq, Repr

def Refused.message (path : String) : Refused → String
  | missing => s!"[Errno 2] No such file or directory: {quoted path}"
  | isFolder => s!"[Errno 21] Is a directory: {quoted path}"
  | notFolder => s!"[Errno 20] Not a directory: {quoted path}"
  | longName => s!"[Errno 36] File name too long: {quoted path}"
  | nullByte => "embedded null byte"
  | noName => "expected str, bytes or os.PathLike object, not list"

/-- A place on a disk is told by the names on the way to it from the root. -/
structure Disk where
  files : Table (List String) (List UInt8) := .empty
  folders : List (List String) := []
  /-- The folder that paths without a root begin in. -/
  here : List String := []

namespace Disk

def isFolder (d : Disk) (route : List String) : Bool := route.isEmpty || d.folders.contains route

/-- Make a folder, with all folders on the way to it. -/
def makeFolder (d : Disk) (route : List String) : Disk :=
  { d with folders := d.folders ++ (List.range (route.length + 1)).map route.take }

/-- Put a file where it belongs, with all folders on the way to it. -/
def makeFile (d : Disk) (route : List String) (bytes : List UInt8) : Disk :=
  { d.makeFolder route.dropLast with files := d.files.insert route bytes }

/-- The parts of a path, and whether it ends with a slash. -/
structure Path where
  rooted : Bool
  parts : List String
  slash : Bool

def pathOf (text : String) : Path where
  rooted := text.toList.head? == some '/'
  parts := ((pieces '/' text.toList).filter (· ≠ [])).map String.ofList
  slash := text.toList.getLast? == some '/'

/-- Go from a folder to a folder. -/
def enter (d : Disk) (route : List String) (part : String) : Except Refused (List String) :=
  if part = "." then .ok route
  else if part = ".." then .ok route.dropLast
  else if 255 < part.utf8ByteSize then .error .longName
  else if d.isFolder (route ++ [part]) then .ok (route ++ [part])
  else if d.files.contains (route ++ [part]) then .error .notFolder
  else .error .missing

/-- The folder of a path, and its last part if that is a name. -/
def locate (d : Disk) (text : String) : Except Refused (List String × Option String) :=
  let path := pathOf text
  if text.toList.contains '\x00' then .error .nullByte
  else if 4095 < text.utf8ByteSize then .error .longName
  else if text = "" then .error .missing
  else do
    let start := if path.rooted then [] else d.here
    let folder ← path.parts.dropLast.foldlM d.enter start
    match path.parts.getLast? with
    | none | some "." | some ".." => return (folder, none)
    | some name => if 255 < name.utf8ByteSize then .error .longName else return (folder, some name)

def read (d : Disk) (text : String) : Except Refused (List UInt8) := do
  match ← d.locate text with
  | (_, none) => .error .isFolder
  | (folder, some name) =>
    let route := folder ++ [name]
    if d.isFolder route then .error .isFolder
    else match d.files.get? route with
      | none => .error .missing
      | some bytes => if (pathOf text).slash then .error .notFolder else return bytes

/-- Where writing to the path puts a file. -/
def target (d : Disk) (text : String) : Except Refused (List String) := do
  match ← d.locate text with
  | (_, none) => .error .isFolder
  | (folder, some name) =>
    let route := folder ++ [name]
    if (pathOf text).slash || d.isFolder route then .error .isFolder else return route

/-- Put the content of a file, whatever was there before. -/
def put (d : Disk) (route : List String) (bytes : List UInt8) : Disk :=
  { d with files := d.files.insert route bytes }

/-- Add to the end of a file. -/
def append (d : Disk) (route : List String) (bytes : List UInt8) : Disk :=
  { d with files := d.files.update route [] (· ++ bytes) }

end Disk
end Gamebook
