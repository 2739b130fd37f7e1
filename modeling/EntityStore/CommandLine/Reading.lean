import EntityStore.CommandLine.Help
import EntityStore.Snapshot.Apply

/-!
# Reading the command line

Which words on the command line ask for what. An option that takes a value takes it from the same
word or from the next one. The words are read from the left, options before the command first and
those of the command after them; a question about the tool ends the reading where it stands.
-/

namespace EntityStore

/-- What the command line asks for. -/
inductive Request where
  | inspect (path : Option String) (format : String)
  | apply (path : Option String) (options : ApplyOptions)
  | version
  | help (topic : CommandLine.Topic)
  /-- The version of the tool alone, after its name. -/
  | toolVersion
  deriving DecidableEq

namespace CommandLine

/-- Why the reading of options ends early. -/
inductive Halt where
  | misuse
  | asked (question : Question)
  deriving DecidableEq

/-- An option as it was given. Options without a value have none. -/
abbrev Given := Switch × Option String

/-- Whether an option may be given on top of those before it. -/
def admissible (before : List Given) (switch : Switch) (value : Option String) : Bool :=
  (switch.repeats || !(before.any fun g => g.1 = switch)) &&
    !(switch.isPath && value == some "")

def accept (before : List Given) (switch : Switch) (value : Option String) :
    Except Halt (List Given) :=
  if admissible before switch value then .ok (before ++ [(switch, value)]) else .error .misuse

/-- The option that was read last, if it is not accepted yet. -/
inductive Pending where
  | nothing
  | wants (switch : Switch)
  /-- Its value was a word of its own. It is accepted with the next option, or at the end. -/
  | holds (switch : Switch) (value : String)
  deriving DecidableEq

structure Reading where
  given : List Given
  pending : Pending
  deriving DecidableEq

namespace Reading

def start : Reading := ⟨[], .nothing⟩

/-- The options that were given, with the last one accepted. An option whose value is still to come
never gets it. -/
def settle (r : Reading) : Except Halt (List Given) :=
  match r.pending with
  | .nothing => .ok r.given
  | .wants _ => .error .misuse
  | .holds switch value => accept r.given switch (some value)

/-- Reads an option that takes no value, or that brings its value along. -/
def add (r : Reading) (switch : Switch) (value : Option String) : Except Halt Reading := do
  let given ← r.settle
  match switch.question? with
  | some question => .error (.asked question)
  | none =>
    let given ← accept given switch value
    return ⟨given, .nothing⟩

def await (r : Reading) (switch : Switch) : Except Halt Reading := do
  let given ← r.settle
  return ⟨given, .wants switch⟩

/-- Reads the letters after a single dash. What follows the letter of an option with a value is that
value, and an equals sign before it is not. -/
def addLetters (switches : List Switch) : List Char → Reading → Except Halt Reading
  | [], r => .ok r
  | letter :: rest, r =>
    match switches.find? fun s => s.letter? = some letter with
    | none => .error .misuse
    | some switch =>
      if switch.takesValue then
        match rest with
        | [] => r.await switch
        | '=' :: value => r.add switch (some (String.ofList value))
        | value => r.add switch (some (String.ofList value))
      else do addLetters switches rest (← r.add switch none)

def addName (switches : List Switch) (word : List Char) (r : Reading) : Except Halt Reading :=
  let (name, value) := match Text.splitFirst '=' word with
    | none => (String.ofList word, none)
    | some (name, value) => (String.ofList name, some (String.ofList value))
  match switches.find? fun s => s.name = name with
  | none => .error .misuse
  | some switch =>
    if switch.takesValue then
      match value with
      | none => r.await switch
      | some _ => r.add switch value
    else if value.isSome then .error .misuse
    else r.add switch none

end Reading

/-- Whether a word is no option, so that it can be the value of one. -/
def isPlain (word : String) : Bool := word = "-" || word.toList.head? ≠ some '-'

/-- Reads words up to the first plain one that is not the value of an option. What comes back is
that word and those after it. -/
def readOptions (switches : List Switch) :
    List String → Reading → Except Halt (Reading × List String)
  | [], r => .ok (r, [])
  | word :: rest, r =>
    match isPlain word, r.pending with
    | true, .wants switch => readOptions switches rest ⟨r.given, .holds switch word⟩
    | true, _ => .ok (r, word :: rest)
    | false, _ =>
      match word.toList.drop 1 with
      | ['-'] => if rest.isEmpty then .ok (r, []) else .error .misuse
      | '-' :: name => do readOptions switches rest (← r.addName switches name)
      | letters => do readOptions switches rest (← r.addLetters switches letters)

def valuesOf (switch : Switch) (given : List Given) : List String :=
  given.filterMap fun g => if g.1 = switch then g.2 else none

def valueOf? (switch : Switch) (given : List Given) : Option String :=
  (valuesOf switch given).getLast?

def isGiven (switch : Switch) (given : List Given) : Bool := given.any fun g => g.1 = switch

/-- What a command asks for under the options before it and its own. Of a shared option the value
after the command counts. -/
def request (command : Command) (before own : List Given) : Request :=
  let path := (valueOf? .snapshot own).or (valueOf? .snapshot before)
  match command with
  | .inspect => .inspect path ((valueOf? .format own).getD "text")
  | .apply =>
    .apply path
      { deletes := valuesOf .delete own
        sets := valuesOf .set own
        output := valueOf? .output own
        skipIntegrity := isGiven .noIntegrity own }
  | .version => .version

/-- What a question asks for where the given page of help is the one at hand. -/
def Question.request (topic : Topic) : Question → Request
  | help => .help topic
  | version => .toolVersion

/-- What the words after a command ask for. The last option before the command is accepted only
after them. -/
def parseCommand (command : Command) (before : Reading) (words : List String) :
    Except Halt Request := do
  let (own, extra) ← readOptions command.switches words .start
  if extra.isEmpty then return request command (← before.settle) (← own.settle)
  else throw .misuse

def Halt.request? (topic : Topic) : Halt → Option Request
  | misuse => none
  | asked question => some (question.request topic)

/-- What the words of a command line ask for, if they make sense. -/
def parse? (words : List String) : Option Request :=
  match readOptions toolSwitches words .start with
  | .error halt => halt.request? .tool
  | .ok (_, []) => none
  | .ok (before, word :: rest) =>
    if word = helpWord then (Topic.ofWords? rest).map .help
    else
      match Command.ofName? word with
      | none => none
      | some command =>
        match parseCommand command before rest with
        | .error halt => halt.request? (.command command)
        | .ok request => some request

end CommandLine

end EntityStore
