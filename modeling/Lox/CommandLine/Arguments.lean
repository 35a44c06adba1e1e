/-!
# The arguments of the command

A subcommand comes first, flags stand anywhere among the arguments, and behind
`--` everything is a file name.  `--log` is accepted before and behind the
subcommand, `--json` only behind `tokenize`.  A flag is not given twice in the
same place.  A request for help or for the version is answered as soon as it is
reached, and so is the first mistake.
-/

namespace Lox.CommandLine

inductive Command where
  /-- Runs a file, or else what is typed line by line. -/
  | run (file? : Option String)
  | tokenize (file : String) (json : Bool)
  | parse (file : String)
  deriving DecidableEq, Repr

inductive Request where
  | command (command : Command) (log : Bool)
  | version
  | help
  | misuse
  deriving DecidableEq, Repr

inductive Subcommand where
  | run
  | tokenize
  | parse
  deriving DecidableEq, Repr

namespace Subcommand

def ofName? : String → Option Subcommand
  | "run" => some run
  | "tokenize" => some tokenize
  | "parse" => some parse
  | _ => none

end Subcommand

inductive Argument where
  /-- The two dashes alone. -/
  | separator
  /-- Two dashes and a name. -/
  | long (name : String)
  /-- A dash and letters; the first letter decides. -/
  | short (letter : Char)
  | plain (text : String)
  deriving DecidableEq, Repr

namespace Argument

/-- The shape of an argument; a dash alone is plain. -/
def ofString (text : String) : Argument :=
  match text.toList with
  | '-' :: '-' :: [] => separator
  | '-' :: '-' :: name => long (String.ofList name)
  | '-' :: letter :: _ => short letter
  | _ => plain text

end Argument

structure Given where
  file? : Option String := none
  json : Bool := false
  log : Bool := false

namespace Given

/-- Takes a file name; there is at most one, and it is not empty. -/
def addFile (given : Given) (file : String) : Option Given :=
  if given.file?.isSome || file.isEmpty then none else some { given with file? := some file }

def request (given : Given) (log : Bool) : Subcommand → Request
  | .run => .command (.run given.file?) (log || given.log)
  | .tokenize =>
    match given.file? with
    | some file => .command (.tokenize file given.json) (log || given.log)
    | none => .misuse
  | .parse =>
    match given.file? with
    | some file => .command (.parse file) (log || given.log)
    | none => .misuse

end Given

def readFiles (given : Given) : List String → Option Given
  | [] => some given
  | file :: rest => (given.addFile file).bind (readFiles · rest)

def readBehind (subcommand : Subcommand) (log : Bool) (given : Given) : List String → Request
  | [] => given.request log subcommand
  | argument :: rest =>
    match Argument.ofString argument with
    | .separator =>
      match readFiles given rest with
      | some given => given.request log subcommand
      | none => .misuse
    | .long "help" | .short 'h' => .help
    | .long "log" =>
      if given.log then .misuse
      else readBehind subcommand log { given with log := true } rest
    | .long "json" =>
      if subcommand ≠ .tokenize || given.json then .misuse
      else readBehind subcommand log { given with json := true } rest
    | .long _ | .short _ => .misuse
    | .plain file =>
      match given.addFile file with
      | some given => readBehind subcommand log given rest
      | none => .misuse

/-- Reads the names behind `help`, which are those of at most one subcommand. -/
def readHelp : List String → Request
  | [] => .help
  | [name] => if (Subcommand.ofName? name).isSome || name = "help" then .help else .misuse
  | _ => .misuse

/-- Reads all arguments; `log` tells whether `--log` was given already. -/
def readArguments (log : Bool) : List String → Request
  | [] => .misuse
  | argument :: rest =>
    match Argument.ofString argument with
    | .long "help" | .short 'h' => .help
    | .long "version" | .short 'V' => .version
    | .long "log" => if log then .misuse else readArguments true rest
    | .plain "help" => readHelp rest
    | .plain name =>
      match Subcommand.ofName? name with
      | some subcommand => readBehind subcommand log {} rest
      | none => .misuse
    | .separator | .long _ | .short _ => .misuse

namespace Request

def ofArguments (arguments : List String) : Request := readArguments false arguments

end Request

end Lox.CommandLine
