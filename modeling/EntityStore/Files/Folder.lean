import EntityStore.OrderedMap.Basic
import EntityStore.Files.Program
import EntityStore.Text.Split

/-!
# Folders

A working directory as a value: text files by name, and no directories below it. A path is walked
name by name. It may climb to the directories above, where files can be written too; nothing that
was there before is known, so a path that goes down again leads nowhere.
-/

namespace EntityStore

/-- The files of a working directory by name, and those above it by the path that climbs to them. -/
abbrev Folder := OrderedMap String

namespace Folder

/-- A directory that can be passed through: the root, or the one so many levels above the working
directory. -/
inductive Level where
  | root
  | above (levels : Nat)
  deriving DecidableEq

def Level.here : Level := .above 0

/-- The directory that holds a directory. The root holds itself. -/
def Level.parent : Level → Level
  | root => root
  | above levels => above (levels + 1)

def Level.key (name : String) : Level → String
  | root => "/" ++ name
  | above levels => String.join (List.replicate levels "../") ++ name

inductive Place where
  | directory
  /-- A name in a directory, under which there may be a file. -/
  | entry (level : Level) (name : String)
  deriving DecidableEq

/-- The number of bytes from which on a path is too long. -/
def pathLimit : Nat := 4096

def nameLimit : Nat := 255

/-- What stands between the slashes of a path, without the empty parts. -/
def segments (path : String) : List String :=
  (Text.splitAll '/' path.toList).filterMap fun part =>
    if part.isEmpty then none else some (String.ofList part)

def start (path : String) : Level :=
  if path.toList.head? = some '/' then .root else .here

/-- Whether a path ends in a slash, so that its last name can only be that of a directory. -/
def endsInSlash (path : String) : Bool := path.toList.getLast? = some '/'

def lookUp (f : Folder) (level : Level) (name : String) : Except FileFault String :=
  if nameLimit < name.utf8ByteSize then .error .nameTooLong
  else
    match f.find? (level.key name) with
    | some contents => .ok contents
    | none => .error .notFound

/-- Takes one step of a walk. A name leads nowhere, since it is that of a file at best. -/
def enter (f : Folder) (level : Level) (segment : String) : Except FileFault Level :=
  if segment = "." then .ok level
  else if segment = ".." then .ok level.parent
  else
    match f.lookUp level segment with
    | .ok _ => .error .notADirectory
    | .error fault => .error fault

/-- Finds what a path leads to. Every segment but the last is entered. -/
def resolve (f : Folder) (path : String) : Except FileFault Place :=
  if path.toList.contains '\x00' then .error .nulInName
  else if path = "" then .error .notFound
  else if pathLimit ≤ path.utf8ByteSize then .error .nameTooLong
  else
    match (segments path).dropLast.foldlM f.enter (start path) with
    | .error fault => .error fault
    | .ok level =>
      match (segments path).getLast? with
      | none | some "." | some ".." => .ok .directory
      | some name => .ok (.entry level name)

def read (f : Folder) (path : String) : Except FileFault FileContents :=
  match f.resolve path with
  | .error fault => .error fault
  | .ok .directory => .ok .unreadable
  | .ok (.entry level name) =>
    match f.lookUp level name with
    | .error fault => .error fault
    | .ok contents => if endsInSlash path then .error .notADirectory else .ok (.text contents)

/-- Writes a file, which may exist already. That a path ends in a slash is found out before the last
name is looked at. -/
def write (f : Folder) (path contents : String) : Except FileFault Folder :=
  match f.resolve path with
  | .error fault => .error fault
  | .ok .directory => .error .isADirectory
  | .ok (.entry level name) =>
    if endsInSlash path then .error .isADirectory
    else if nameLimit < name.utf8ByteSize then .error .nameTooLong
    else .ok (f.insert (level.key name) contents)

def run {α : Type} (f : Folder) : FileProgram α → α × Folder
  | .done value => (value, f)
  | .read path next => run f (next (f.read path))
  | .write path contents next =>
    match f.write path contents with
    | .error fault => run f (next (.error fault))
    | .ok written => run written (next (.ok ()))

end Folder

end EntityStore
