import EntityStore.Text.Quoted

/-!
# Programs over files

What a tool does to files, as data: it reads a file or writes one, and goes on with what came of it.
The same program can be run on real files or on a folder that is only a value.
-/

namespace EntityStore

inductive FileFault where
  | notFound
  | notADirectory
  | isADirectory
  | permissionDenied
  | nameTooLong
  /-- The path holds a character that no name can hold, so the system was not asked at all. -/
  | nulInName
  | other (message : String)
  deriving DecidableEq, Repr

namespace FileFault

def kind : FileFault → String
  | notFound => "NotFound"
  | notADirectory => "NotADirectory"
  | isADirectory => "IsADirectory"
  | permissionDenied => "PermissionDenied"
  | nameTooLong => "InvalidFilename"
  | nulInName => "InvalidInput"
  | other _ => "Other"

def code? : FileFault → Option Nat
  | notFound => some 2
  | notADirectory => some 20
  | isADirectory => some 21
  | permissionDenied => some 13
  | nameTooLong => some 36
  | nulInName | other _ => none

def text : FileFault → String
  | notFound => "No such file or directory"
  | notADirectory => "Not a directory"
  | isADirectory => "Is a directory"
  | permissionDenied => "Permission denied"
  | nameTooLong => "File name too long"
  | nulInName => "file name contained an unexpected NUL byte"
  | other message => message

def message (f : FileFault) : String :=
  match f.code? with
  | some code => s!"{f.text} (os error {code})"
  | none => f.text

def describe (f : FileFault) : String :=
  match f.code? with
  | some code =>
    s!"Os \x7b code: {code}, kind: {f.kind}, message: {Text.quote f.text} \x7d"
  | none => s!"Error \x7b kind: {f.kind}, message: {Text.quote f.text} \x7d"

end FileFault

inductive FileContents where
  | text (contents : String)
  /-- What was opened does not yield text: a directory, or bytes that are not UTF-8. -/
  | unreadable
  deriving DecidableEq

/-- A program that reads and writes files. -/
inductive FileProgram (α : Type) where
  | done (value : α)
  | read (path : String) (next : Except FileFault FileContents → FileProgram α)
  | write (path contents : String) (next : Except FileFault Unit → FileProgram α)

namespace FileProgram

variable {ε α β : Type}

/-- Goes on with a second program if the first succeeds. -/
def andThen : FileProgram (Except ε α) → (α → FileProgram (Except ε β)) →
    FileProgram (Except ε β)
  | done (.ok value), f => f value
  | done (.error err), _ => done (.error err)
  | read path next, f => read path fun contents => (next contents).andThen f
  | write path contents next, f => write path contents fun outcome => (next outcome).andThen f

def map (f : α → β) : FileProgram α → FileProgram β
  | done value => done (f value)
  | read path next => read path fun contents => (next contents).map f
  | write path contents next => write path contents fun outcome => (next outcome).map f

end FileProgram

end EntityStore
