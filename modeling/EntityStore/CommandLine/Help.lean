import EntityStore.CommandLine.Switch

/-!
# Help

The pages that help consists of. Each says what it is about, how the words are put together, and
what the words mean, in tables whose columns are as wide as their widest entry.
-/

namespace EntityStore.CommandLine

/-- What there is a page of help on. -/
inductive Topic where
  | tool
  | command (command : Command)
  | help
  deriving DecidableEq, Repr

namespace Topic

def toolName : String := "refstore"

def aboutHelp : String := "Print this message or the help of the given subcommand(s)"

def about : Topic → String
  | tool => "CLI tools for refstore snapshots"
  | command c => c.about
  | help => aboutHelp

def usage : Topic → String
  | tool => toolName ++ " [OPTIONS] <COMMAND>"
  | command c => toolName ++ " " ++ c.name ++ " [OPTIONS]"
  | help => toolName ++ " " ++ helpWord ++ " [COMMAND]..."

/-- An option as it is written, with a place for its value. Names stand below one another whether
there is a letter or not. -/
def form (switch : Switch) : String :=
  let letter := match switch.letter? with
    | some letter => "-" ++ letter.toString ++ ", "
    | none => "    "
  let value := if switch.takesValue then " <" ++ switch.name.map Char.toUpper ++ ">" else ""
  letter ++ "--" ++ switch.name ++ value

structure Table where
  heading : String
  rows : List (String × String)

def optionTable (switches : List Switch) : Table :=
  ⟨"Options", switches.map fun s => (form s, s.about)⟩

/-- The commands, and the request for help among them. -/
def commandTable : Table :=
  ⟨"Commands", Command.all.map (fun c => (c.name, c.about)) ++ [(helpWord, aboutHelp)]⟩

def tables : Topic → List Table
  | tool => [commandTable, optionTable toolSwitches]
  | command c => [optionTable c.switches]
  | help => [⟨"Arguments", [("[COMMAND]...", "Print help for the subcommand(s)")]⟩]

def renderRow (width : Nat) (row : String × String) : String :=
  let padding := String.ofList (List.replicate (width - row.1.length) ' ')
  "  " ++ row.1 ++ padding ++ "  " ++ row.2 ++ "\n"

def Table.render (t : Table) : String :=
  let width := (t.rows.map fun row => row.1.length).foldl max 0
  t.heading ++ ":\n" ++ String.join (t.rows.map (renderRow width))

def render (topic : Topic) : String :=
  topic.about ++ "\n\nUsage: " ++ topic.usage ++ "\n" ++
    String.join (topic.tables.map fun t => "\n" ++ t.render)

/-- The topic of the words after the request for help. -/
def ofWords? : List String → Option Topic
  | [] => some .tool
  | [word] => if word = helpWord then some .help else (Command.ofName? word).map .command
  | _ => none

end Topic

end EntityStore.CommandLine
