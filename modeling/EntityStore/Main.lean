import EntityStore.CommandLine.Basic

/-!
# The program

Runs the command line on real files. All decisions are made by `CommandLine.run`; here its wishes
are carried out.
-/

namespace EntityStore

def FileFault.ofError : IO.Error → FileFault
  | .noFileOrDirectory .. => .notFound
  | .inappropriateType _ code _ => if code = 21 then .isADirectory else .notADirectory
  | .permissionDenied .. => .permissionDenied
  | .invalidArgument _ 36 _ => .nameTooLong
  | err => .other (toString err)

def readOpened (handle : IO.FS.Handle) : IO FileContents := do
  try
    let bytes ← handle.readBinToEnd
    return (String.fromUTF8? bytes).elim .unreadable .text
  catch _ => return .unreadable

def readContents (path : String) : IO (Except FileFault FileContents) := do
  try
    let handle ← IO.FS.Handle.mk path .read
    return .ok (← readOpened handle)
  catch err => return .error (FileFault.ofError err)

def writeContents (path contents : String) : IO (Except FileFault Unit) := do
  try
    IO.FS.writeFile path contents
    return .ok ()
  catch err => return .error (FileFault.ofError err)

def FileProgram.perform {α : Type} : FileProgram α → IO α
  | .done value => return value
  | .read path next => do (next (← readContents path)).perform
  | .write path contents next => do (next (← writeContents path contents)).perform

end EntityStore

open EntityStore in
/-- Runs the command line, prints what it leaves and ends with its exit code. -/
def main (words : List String) : IO UInt32 := do
  let outcome ← (CommandLine.run words).perform
  IO.print outcome.output
  match outcome.error with
  | some err => IO.eprintln s!"Error: {err.describe}"
  | none =>
    if outcome.exitCode = 2 then IO.eprintln "error: the commands are inspect, apply and version"
  return outcome.exitCode.toUInt32
