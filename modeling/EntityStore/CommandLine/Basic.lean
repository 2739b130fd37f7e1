import EntityStore.CommandLine.Reading
import EntityStore.Snapshot.Inspection

/-!
# The command line

What is done for each request, what is printed in answer, and how the run ends.
-/

namespace EntityStore

/-- What a run leaves behind. -/
structure Outcome where
  exitCode : Nat
  output : String
  error : Option ToolError
  deriving DecidableEq

namespace CommandLine

/-- The version of the tool and of what it is built on. -/
def versionNumber : String := "0.4.0"

def versionReport : String :=
  s!"Refstore CLI v{versionNumber}\nRefstore Core v{versionNumber}\n"

def toolVersionLine : String := s!"{Topic.toolName} {versionNumber}\n"

def failed (err : ToolError) : Outcome := ⟨1, "", some err⟩

def succeeded (report : String) : Outcome := ⟨0, report, none⟩

def conclude {α : Type} (report : α → String) : Except ToolError α → Outcome
  | .ok value => succeeded (report value)
  | .error err => failed err

/-- Runs a command on the snapshot in a file, which must have been named. -/
def withPath (path : Option String) (command : String) (run : String → FileProgram Outcome) :
    FileProgram Outcome :=
  match path with
  | none => .done (failed (.request s!"Snapshot path required for {command}"))
  | some path => run path

def serve : Request → FileProgram Outcome
  | .inspect path format =>
    withPath path "inspect" fun path =>
      (Inspection.run path).map (conclude (Inspection.report format))
  | .apply path options =>
    withPath path "apply" fun path => (Apply.run path options).map (conclude Apply.report)
  | .version => .done (succeeded versionReport)
  | .help topic => .done (succeeded topic.render)
  | .toolVersion => .done (succeeded toolVersionLine)

/-- Does what the words of a command line ask for. Words that make no sense end the run at once. -/
def run (words : List String) : FileProgram Outcome :=
  match parse? words with
  | none => .done ⟨2, "", none⟩
  | some request => serve request

end CommandLine

end EntityStore
