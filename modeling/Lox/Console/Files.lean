/-!
# Files and directories

* `SystemError`: why the system refuses a file, with the wording of its message;
* `FileTree`: files and directories, `Place`: one of them together with the directories around it;
* `Place.step`, `Place.find`: what stands under a name and under a path;
* `File`, `Place.open`: what comes of opening a path and reading what stands there.
-/

namespace Lox.Console

/-! ## What the system says -/

/-- Why the system refuses a file: its wording and its number. -/
structure SystemError where
  wording : String
  number : Nat
  deriving DecidableEq, Repr

namespace SystemError

/-- Nothing stands under the path. -/
def noSuchFile : SystemError := ⟨"No such file or directory", 2⟩

/-- The path goes on behind a file. -/
def notDirectory : SystemError := ⟨"Not a directory", 20⟩

/-- A directory has no text. -/
def isDirectory : SystemError := ⟨"Is a directory", 21⟩

/-- A name or a path is longer than any that can exist. -/
def nameTooLong : SystemError := ⟨"File name too long", 36⟩

/-- The message of an error. -/
def message (e : SystemError) : String := e.wording ++ " (os error " ++ toString e.number ++ ")"

end SystemError

/-- What was found under a file name. -/
inductive File where
  | cannotOpen (error : SystemError)
  | cannotRead (error : SystemError)
  | contents (bytes : List UInt8)
  deriving DecidableEq, Repr

/-! ## Paths -/

/-- Files and directories. -/
inductive FileTree where
  | file (bytes : List UInt8)
  | directory (entries : List (String × FileTree))

/-- A file or directory together with the directories around it, the innermost one first. -/
structure Place where
  here : FileTree
  around : List FileTree

namespace Place

/-- The most bytes that a name may have. -/
def maxNameBytes : Nat := 255

/-- The most bytes that a path may have. -/
def maxPathBytes : Nat := 4095

/-- The name that stands for the directory itself. -/
def self : String := "."

/-- The name that stands for the directory around it. -/
def parent : String := ".."

/-- The directory around a place. Nothing lies around the root. -/
def outward (p : Place) : Place :=
  match p.around with
  | [] => p
  | outer :: rest => ⟨outer, rest⟩

/-- The directory around all others. -/
def root (p : Place) : Place := ⟨p.around.getLastD p.here, []⟩

/-- What stands under a name. Only a directory has anything under it; the empty name, which stands
between two slashes, is the directory itself. -/
def step (p : Place) (name : String) : Except SystemError Place :=
  match p.here with
  | .file _ => .error .notDirectory
  | .directory entries =>
    if name.isEmpty || name == self then .ok p
    else if name == parent then .ok p.outward
    else if maxNameBytes < name.utf8ByteSize then .error .nameTooLong
    else
      match entries.lookup name with
      | some found => .ok ⟨found, p.here :: p.around⟩
      | none => .error .noSuchFile

/-- What stands under a path, name after name; one that begins with a slash begins at the root. -/
def find (p : Place) (path : String) : Except SystemError Place :=
  if path.isEmpty then .error .noSuchFile
  else if maxPathBytes < path.utf8ByteSize then .error .nameTooLong
  else (path.splitOn "/").foldlM step (if path.startsWith "/" then p.root else p)

/-- Open a path and read what stands there. A directory can be opened but not read. -/
def «open» (p : Place) (path : String) : File :=
  match p.find path with
  | .error e => .cannotOpen e
  | .ok ⟨.directory _, _⟩ => .cannotRead .isDirectory
  | .ok ⟨.file bytes, _⟩ => .contents bytes

end Place

end Lox.Console
