/-!
# Command-line options

Arguments are read left to right: a help or version request answers at once, an option given
twice is an error, and after `--` every argument is positional.
-/

namespace TreeQuery.Command

inductive Mode where
  | bool
  | first
  | unique
  | all
deriving DecidableEq, Repr

def Mode.choices : List Mode := [.bool, .first, .unique, .all]

def Mode.name : Mode → String
  | .bool => "bool"
  | .first => "first"
  | .unique => "unique"
  | .all => "all"

def Mode.ofName? (s : String) : Option Mode := Mode.choices.find? (·.name == s)

/-- The options of a run. -/
structure Options where
  tree : Option String := none
  selector : Option String := none
  mode : Mode := .all
  modeGiven : Bool := false
  json : Bool := false
  pseudos : Bool := false
  chain : Bool := false
deriving DecidableEq, Repr

/-- What the command line asks for. -/
inductive Request where
  | run (options : Options)
  | summary
  | help
  | version
deriving DecidableEq, Repr

/-- Why a command line was refused. -/
inductive ArgumentError where
  | unexpected (arg : String)
  | invalidMode (value : String)
  | missingMode
  | repeated (option : String)
  | missing (names : List String)
deriving DecidableEq, Repr

def usage : String := "Usage: thicket [OPTIONS] [TREE] [SELECTOR]"

def moreInformation : String := "For more information, try '--help'."

def possibleModes : String :=
  "  [possible values: " ++ ", ".intercalate (Mode.choices.map Mode.name) ++ "]"

/-- The text printed for a refused command line. -/
def ArgumentError.message : ArgumentError → String
  | .unexpected arg =>
    let tip :=
      if arg.startsWith "-" then "  tip: to pass '" ++ arg ++ "' as a value, use '-- " ++ arg ++ "'\n\n"
      else ""
    "error: unexpected argument '" ++ arg ++ "' found\n\n" ++ tip ++ usage ++ "\n\n" ++
      moreInformation ++ "\n"
  | .invalidMode value =>
    "error: invalid value '" ++ value ++ "' for '--mode <MODE>'\n" ++ possibleModes ++ "\n\n" ++
      moreInformation ++ "\n"
  | .missingMode =>
    "error: a value is required for '--mode <MODE>' but none was supplied\n" ++ possibleModes ++
      "\n\n" ++ moreInformation ++ "\n"
  | .repeated option =>
    "error: the argument '" ++ option ++ "' cannot be used multiple times\n\n" ++ usage ++ "\n\n" ++
      moreInformation ++ "\n"
  | .missing names =>
    "error: the following required arguments were not provided:\n" ++
      String.join (names.map fun n => "  " ++ n ++ "\n") ++
      "\nUsage: thicket <TREE> <SELECTOR>\n\n" ++ moreInformation ++ "\n"

def looksLikeOption (arg : String) : Bool := arg.startsWith "-" && arg != "-"

def Options.withMode (o : Options) (value : String) : Except ArgumentError Options :=
  if o.modeGiven then .error (.repeated "--mode <MODE>")
  else
    match Mode.ofName? value with
    | some m => .ok { o with mode := m, modeGiven := true }
    | none => .error (.invalidMode value)

def Options.withPositional (o : Options) (arg : String) : Except ArgumentError Options :=
  match o.tree, o.selector with
  | none, _ => .ok { o with tree := some arg }
  | some _, none => .ok { o with selector := some arg }
  | some _, some _ => .error (.unexpected arg)

def setFlag (given : Bool) (option : String) (set : Unit → Options) :
    Except ArgumentError Options :=
  if given then .error (.repeated option) else .ok (set ())

/-- The request once every argument is read: the tree and the selector are required unless
the pseudo-selectors are listed. -/
def Options.finish (o : Options) : Except ArgumentError Request :=
  if o.pseudos then .ok (.run o)
  else
    match o.tree, o.selector with
    | some _, some _ => .ok (.run o)
    | none, _ => .error (.missing ["<TREE>", "<SELECTOR>"])
    | some _, none => .error (.missing ["<SELECTOR>"])

def Options.readPositionals (o : Options) : List String → Except ArgumentError Request
  | [] => o.finish
  | arg :: rest => do
    let o ← o.withPositional arg
    o.readPositionals rest

def attachedValue (arg : String) : String :=
  let v := arg.drop 2
  if v.startsWith "=" then (v.drop 1).toString else v.toString

/-- Read the arguments left to right. -/
def Options.read (o : Options) : List String → Except ArgumentError Request
  | [] => o.finish
  | arg :: rest =>
    if arg = "--" then o.readPositionals rest
    else if arg = "-h" then .ok .summary
    else if arg = "--help" then .ok .help
    else if arg = "-V" ∨ arg = "--version" then .ok .version
    else if arg = "--json" then
      (setFlag o.json "--json" fun _ => { o with json := true }) >>= (·.read rest)
    else if arg = "--pseudos" then
      (setFlag o.pseudos "--pseudos" fun _ => { o with pseudos := true }) >>= (·.read rest)
    else if arg = "--chain" then
      (setFlag o.chain "--chain" fun _ => { o with chain := true }) >>= (·.read rest)
    else if arg = "--mode" ∨ arg = "-m" then
      match rest with
      | value :: more =>
        if looksLikeOption value then .error .missingMode
        else o.withMode value >>= (·.read more)
      | [] => .error .missingMode
    else if arg.startsWith "--mode=" then o.withMode (arg.drop 7).toString >>= (·.read rest)
    else if arg.startsWith "-m" then o.withMode (attachedValue arg) >>= (·.read rest)
    else if looksLikeOption arg then .error (.unexpected arg)
    else o.withPositional arg >>= (·.read rest)

def Request.ofArgs (args : List String) : Except ArgumentError Request := Options.read {} args

def versionText : String := "thicket 0.1.0\n"

def examplesText : List String :=
  ["EXAMPLES:",
   "    # Every button below a box",
   "    thicket ui.json 'Box .Button'",
   "",
   "    # The only visible entry, as JSON",
   "    thicket ui.json 'Entry:visible' --mode unique --json",
   "",
   "    # The box holding the OK button, read from stdin",
   "    cat ui.json | thicket - '!Box > Button[label=\"OK\"]'",
   "",
   "    # Show how a selector was understood",
   "    thicket ui.json 'A>B:NTH-CHILD(odd)' --chain",
   "",
   "    # List the custom pseudo-selectors",
   "    thicket --pseudos"]

def summaryText : String :=
  "\n".intercalate
    (["Thicket: query JSON object trees with CSS-like selectors",
      "",
      usage,
      "",
      "Arguments:",
      "  [TREE]      JSON tree description, or `-` for stdin",
      "  [SELECTOR]  Selector to run",
      "",
      "Options:",
      "  -m, --mode <MODE>  What to report [default: all] [possible values: bool, first, unique, all]",
      "      --json         Print matches as JSON instead of paths",
      "      --pseudos      List the registered custom pseudo-selectors",
      "      --chain        Print the canonical form of the parsed selector before the results",
      "  -h, --help         Print help (see more with '--help')",
      "  -V, --version      Print version",
      ""] ++ examplesText) ++ "\n"

def helpText : String :=
  "\n".intercalate
    (["Thicket: query JSON object trees with CSS-like selectors",
      "",
      usage,
      "",
      "Arguments:",
      "  [TREE]",
      "          JSON tree description, or `-` for stdin",
      "",
      "  [SELECTOR]",
      "          Selector to run",
      "",
      "Options:",
      "  -m, --mode <MODE>",
      "          What to report",
      "",
      "          Possible values:",
      "          - bool:   Test the root node only",
      "          - first:  First match in document order",
      "          - unique: The match, if there is exactly one",
      "          - all:    Every match in document order",
      "",
      "          [default: all]",
      "",
      "      --json",
      "          Print matches as JSON instead of paths",
      "",
      "      --pseudos",
      "          List the registered custom pseudo-selectors",
      "",
      "      --chain",
      "          Print the canonical form of the parsed selector before the results",
      "",
      "  -h, --help",
      "          Print help (see a summary with '-h')",
      "",
      "  -V, --version",
      "          Print version",
      ""] ++ examplesText) ++ "\n"

end TreeQuery.Command
