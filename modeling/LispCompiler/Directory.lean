import LispCompiler.Text.Bytes

/-!
A working directory and the paths that are looked up in it. A path is followed name by name, and
every name needs a directory to start from, even an empty one, so a file's name may not end with a
slash. Of what surrounds the working directory no more is known than that it consists of
directories.
-/

namespace LispCompiler

structure Directory where
  files : List (List String × List UInt8)
  deriving DecidableEq, Repr

namespace Directory

/-- A file, a directory at or below the working directory, or a directory elsewhere. -/
inductive Place where
  | file (contents : List UInt8)
  | within (names : List String)
  | elsewhere
  deriving DecidableEq, Repr

def parts : List Char → List (List Char)
  | [] => [[]]
  | c :: rest =>
    if c = '/' then [] :: parts rest
    else
      match parts rest with
      | [] => [[c]]
      | part :: behind => (c :: part) :: behind

def names (path : String) : List String :=
  (parts path.toList).map String.ofList

def empty : Directory :=
  ⟨[]⟩

def ofFiles (files : List (String × List UInt8)) : Directory :=
  ⟨files.map fun (path, contents) => (names path, contents)⟩

def nameLimit : Nat :=
  255

def pathLimit : Nat :=
  4095

def find (directory : Directory) (names : List String) : Except SystemError Place :=
  match directory.files.lookup names with
  | some contents => .ok (.file contents)
  | none =>
    if directory.files.any fun (path, _) => names.isPrefixOf path then .ok (.within names)
    else .error .notFound

def follow (directory : Directory) (place : Place) (name : String) : Except SystemError Place :=
  match place with
  | .file _ => .error .notDirectory
  | .within names =>
    if name = "" ∨ name = "." then .ok place
    else if name = ".." then .ok (if names.isEmpty then .elsewhere else .within names.dropLast)
    else if nameLimit < name.utf8ByteSize then .error .nameTooLong
    else directory.find (names ++ [name])
  | .elsewhere =>
    if name = "" ∨ name = "." ∨ name = ".." then .ok place
    else if nameLimit < name.utf8ByteSize then .error .nameTooLong
    else .error .notFound

/-- What a path leads to. A slash at its start leaves the working directory. -/
def locate (directory : Directory) (path : String) : Except SystemError Place :=
  if path.isEmpty then .error .notFound
  else if pathLimit < path.utf8ByteSize then .error .nameTooLong
  else
    let start := if path.toList.head? = some '/' then .elsewhere else .within []
    (names path).foldlM directory.follow start

def read (directory : Directory) (path : String) : Except SystemError String :=
  match directory.locate path with
  | .ok (.file contents) => Bytes.toText contents
  | .ok _ => .error .isDirectory
  | .error error => .error error

/-- Why a program that is not installed cannot be started. A name without a slash is sought
elsewhere, among the installed programs. What is found is no program and may not be executed. -/
def refusal (directory : Directory) (program : String) : SystemError :=
  let found :=
    if program.isEmpty ∨ '/' ∈ program.toList then directory.locate program
    else directory.follow .elsewhere program
  match found with
  | .ok _ => .permissionDenied
  | .error error => error

end Directory

end LispCompiler
