/-!
# Options and commands

The words that the command line knows: its commands, and the options of each, in the order in which
help lists them. The path of the snapshot and the wish for more messages belong to every command
and may be given before it too; the rest belongs to a command.
-/

namespace EntityStore.CommandLine

/-- What can be asked about the tool itself. -/
inductive Question where
  | help
  | version
  deriving DecidableEq, Repr

inductive Switch where
  | snapshot
  | verbose
  | format
  | delete
  | set
  | output
  | noIntegrity
  | help
  | version
  deriving DecidableEq, Repr

namespace Switch

def letter? : Switch → Option Char
  | snapshot => some 's'
  | verbose => some 'v'
  | format => some 'f'
  | delete => some 'd'
  | set | noIntegrity => none
  | output => some 'o'
  | help => some 'h'
  | version => some 'V'

def name : Switch → String
  | snapshot => "snapshot"
  | verbose => "verbose"
  | format => "format"
  | delete => "delete"
  | set => "set"
  | output => "output"
  | noIntegrity => "no-integrity"
  | help => "help"
  | version => "version"

def about : Switch → String
  | snapshot => "Path to the snapshot file"
  | verbose => "Enable verbose output"
  | format => "Output format (text, json) [default: text]"
  | delete => "Id to delete (repeatable)"
  | set => "Field assignment `id.field=value`, `null` clears (repeatable)"
  | output => "Write the resulting snapshot here"
  | noIntegrity => "Commit without repairing dangling references"
  | help => "Print help"
  | version => "Print version"

def takesValue : Switch → Bool
  | snapshot | format | delete | set | output => true
  | verbose | noIntegrity | help | version => false

def repeats : Switch → Bool
  | delete | set => true
  | snapshot | verbose | format | output | noIntegrity | help | version => false

/-- Whether the value of an option is a path, which must not be empty. -/
def isPath : Switch → Bool
  | snapshot | output => true
  | verbose | format | delete | set | noIntegrity | help | version => false

/-- The question that an option puts. It is answered as soon as the option is read. -/
def question? : Switch → Option Question
  | help => some .help
  | version => some .version
  | snapshot | verbose | format | delete | set | output | noIntegrity => none

end Switch

inductive Command where
  | inspect
  | apply
  | version
  deriving DecidableEq, Repr

namespace Command

def all : List Command := [inspect, apply, version]

def name : Command → String
  | inspect => "inspect"
  | apply => "apply"
  | version => "version"

def about : Command → String
  | inspect => "Display entity counts and dangling references"
  | apply => "Apply deletions and field updates, printing the committed change set"
  | version => "Show version information"

def ofName? (word : String) : Option Command := all.find? fun c => c.name = word

def switches : Command → List Switch
  | inspect => [.format, .snapshot, .verbose, .help]
  | apply => [.delete, .snapshot, .set, .verbose, .output, .noIntegrity, .help]
  | version => [.snapshot, .verbose, .help]

end Command

/-- The options that may stand before a command. -/
def toolSwitches : List Switch := [.snapshot, .verbose, .help, .version]

def helpWord : String := "help"

end EntityStore.CommandLine
