/-!
What the commands need of a file system: reading a file, or being told why it
cannot be read. A directory of files in memory is one such file system.
-/

namespace Animation.CommandLine

/-- Why a file cannot be read. -/
inductive FileFault where
  | notFound
  /-- Something before the last part of a path is no directory. -/
  | notDirectory
  | isDirectory
  | nameTooLong
  | other (text : String)
  deriving DecidableEq, Repr

def FileFault.message : FileFault → String
  | .notFound => "No such file or directory (os error 2)"
  | .notDirectory => "Not a directory (os error 20)"
  | .isDirectory => "Is a directory (os error 21)"
  | .nameTooLong => "File name too long (os error 36)"
  | .other text => text

/-- Files by path. The parts of a path are separated by slashes. -/
structure Directory where
  files : List (List String × ByteArray)

namespace Directory

def parts (path : String) : List String := path.splitOn "/"

def ofFiles (files : List (String × ByteArray)) : Directory :=
  ⟨files.map fun (path, content) => (parts path, content)⟩

def file? (directory : Directory) (path : List String) : Option ByteArray :=
  (directory.files.find? fun (other, _) => other == path).map (·.2)

/-- The directory itself, and everything on the way to one of its files. -/
def isFolder (directory : Directory) (path : List String) : Bool :=
  path.isEmpty || directory.files.any fun (other, _) => path.isPrefixOf other && path != other

/-- A place outside of the directory, of which nothing is known. -/
def outside : Directory := ⟨[]⟩

/-- The longest name of a file, and the length from which on a path is too
long, in bytes. -/
def nameLimit : Nat := 255
def pathLimit : Nat := 4096

/-- Follows a path from a folder of the directory. An empty part and a single
dot stay where they are, so a path may end with a slash only if it leads to a
folder; two dots go back one step. -/
def follow (directory : Directory) (here : List String) :
    List String → Except FileFault ByteArray
  | [] =>
    match directory.file? here with
    | some content => .ok content
    | none => .error (if directory.isFolder here then .isDirectory else .notFound)
  | part :: rest =>
    if directory.isFolder here then
      if nameLimit < part.utf8ByteSize then .error .nameTooLong
      else if part = "" ∨ part = "." then directory.follow here rest
      else if part ≠ ".." then directory.follow (here ++ [part]) rest
      else if here.isEmpty then outside.follow [] rest
      else directory.follow here.dropLast rest
    else .error (if (directory.file? here).isSome then .notDirectory else .notFound)

/-- Reads a file. Paths that begin with a slash lead outside. -/
def read (directory : Directory) (path : String) : Except FileFault ByteArray :=
  if pathLimit ≤ path.utf8ByteSize then .error .nameTooLong
  else if path.startsWith "/" then outside.follow [] (parts path)
  else directory.follow [] (parts path)

end Directory

end Animation.CommandLine
