import Lox.CommandLine

/-!
# A directory of known files

The files that the command finds when it works in a directory of which the whole
content is known.  A path is walked part by part, and the first part that leads
nowhere decides the fault.  Of the rest of the file system, only the directories
above the known one and a few places that every system has are known.
-/

namespace Lox.CommandLine

structure Entry where
  name : String
  bytes : List UInt8

namespace Directory

/-! ### Paths -/

abbrev Part := List Char

def parts : List Char → List Part
  | [] => [[]]
  | '/' :: rest => [] :: parts rest
  | c :: rest =>
    match parts rest with
    | [] => [[c]]
    | part :: more => (c :: part) :: more

def staysPut (part : Part) : Bool := part = [] || part = ['.']

def upward : Part := ['.', '.']

/-- The parts of a path that go somewhere. -/
def steps (path : List Char) : List Part := (parts path).filter (!staysPut ·)

/-- The number of bytes that a name may have in its directory. -/
def nameLimit : Nat := 255

def pathLimit : Nat := 4095

/-! ### Places -/

inductive Place where
  /-- A directory in the known one, by the names that lead to it. -/
  | inside (names : List Part)
  /-- A directory above the known one, of which nothing else is known. -/
  | above
  /-- A directory of the system, by the names that lead to it from the root. -/
  | system (names : List Part)
  | file (bytes : List UInt8)
  deriving DecidableEq, Repr

def isWithin (outer inner : List Part) : Bool :=
  outer.isPrefixOf inner && outer.length < inner.length

/-- What names lead to in the known directory; a directory is there if a file is within it. -/
def lookInside (entries : List Entry) (names : List Part) : Except FileFault Place :=
  match entries.find? fun entry => steps entry.name.toList = names with
  | some entry => .ok (.file entry.bytes)
  | none =>
    if entries.any fun entry => isWithin names (steps entry.name.toList) then .ok (.inside names)
    else .error .missing

def systemDirectories : List (List Part) :=
  ["/bin", "/dev", "/etc", "/lib", "/tmp", "/usr", "/var"].map fun path => steps path.toList

def devices : List (List Part) :=
  ["/dev/full", "/dev/null", "/dev/random", "/dev/stdin", "/dev/urandom", "/dev/zero"].map
    fun path => steps path.toList

/-- What names lead to from the root; a device has no size, and so its content is empty. -/
def lookInSystem (names : List Part) : Except FileFault Place :=
  if names ∈ systemDirectories then .ok (.system names)
  else if names ∈ devices then .ok (.file [])
  else .error .missing

/-! ### Walks -/

/-- Where the next part of a path leads to; only from a directory does it lead anywhere. -/
def step (entries : List Entry) (place : Place) (part : Part) : Except FileFault Place :=
  match place with
  | .file _ => .error .notADirectory
  | directory =>
    if staysPut part then .ok directory
    else if part = upward then .ok (parent directory)
    else if nameLimit < (String.ofList part).utf8ByteSize then .error .nameTooLong
    else child directory
where
  /-- The directory above; the root is above itself. -/
  parent : Place → Place
    | .inside [] => .above
    | .inside names => .inside names.dropLast
    | .system names => .system names.dropLast
    | place => place
  /-- What the name leads to. -/
  child : Place → Except FileFault Place
    | .inside names => lookInside entries (names ++ [part])
    | .system names => lookInSystem (names ++ [part])
    | _ => .error .missing

def start (path : List Char) : Place :=
  if path.head? = some '/' then .system [] else .inside []

def walk (entries : List Entry) (path : List Char) : Except FileFault Place :=
  (parts path).foldlM (step entries) (start path)

def find (entries : List Entry) (path : String) : Except FileFault (List UInt8) :=
  if path.isEmpty then .error .missing
  else if pathLimit < path.utf8ByteSize then .error .nameTooLong
  else
    match walk entries path.toList with
    | .ok (.file bytes) => .ok bytes
    | .ok _ => .error .isDirectory
    | .error fault => .error fault

example : find [⟨"a", [49]⟩, ⟨"d/b", [50]⟩] "d/.././a" = .ok [49] := by cbv

example : find [⟨"a", [49]⟩] "./.." = .error .isDirectory ∧
    find [⟨"a", [49]⟩] "a/.." = .error .notADirectory ∧
    find [⟨"a", [49]⟩] "b/.." = .error .missing := by cbv

end Directory

end Lox.CommandLine
