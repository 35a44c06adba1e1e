import Lox.CommandLine.Arguments
import Lox.Session
import Lox.Text.Blank
import Lox.Text.Utf8
import Lox.Token.Json
import Lox.Tree.Printer

/-!
# The command

What the command answers, as texts for its two streams and an exit status.  The
contents of files are asked of a function, so that everything here is a function
of its arguments.
-/

namespace Lox.CommandLine

def versionText : String := "rox 0.2.0\n"

def helpText : String :=
  "Lox language interpreter\n\nUsage: rox [--log] <COMMAND>\n\nCommands:\n"
    ++ "  tokenize <FILENAME> [--json]  List the tokens of a file\n"
    ++ "  parse <FILENAME>              Show the trees of a file\n"
    ++ "  run [FILENAME]                Run a file, or the lines typed\n"

structure Report where
  exitCode : Nat
  stdout : String
  stderr : String
  deriving DecidableEq, Repr

inductive FileFault where
  | missing
  | notADirectory
  | isDirectory
  /-- A name has more bytes than a directory can hold, or the path has too many. -/
  | nameTooLong
  | denied
  deriving DecidableEq, Repr

namespace FileFault

def message (name : String) : FileFault → String × String
  | missing =>
    ("Failed to open file " ++ Text.quotedName name, "No such file or directory (os error 2)")
  | notADirectory =>
    ("Failed to open file " ++ Text.quotedName name, "Not a directory (os error 20)")
  | isDirectory =>
    ("Failed to map file " ++ Text.quotedName name, "No such device (os error 19)")
  | nameTooLong =>
    ("Failed to open file " ++ Text.quotedName name, "File name too long (os error 36)")
  | denied =>
    ("Failed to open file " ++ Text.quotedName name, "Permission denied (os error 13)")

end FileFault

abbrev Files := String → Except FileFault (List UInt8)

/-! ### Reports -/

def lines (texts : List String) : String := String.join (texts.map (· ++ "\n"))

def failure (step reason : String) : String :=
  "Error: " ++ step ++ "\n\nCaused by:\n    " ++ reason ++ "\n"

def readSource (files : Files) (name : String) : Except Report String :=
  match files name with
  | .error fault =>
    let (step, reason) := fault.message name
    .error ⟨1, "", failure step reason⟩
  | .ok bytes =>
    match Text.Utf8.decode bytes with
    | .ok source => .ok source
    | .error fault =>
      .error ⟨1, "", failure ("File " ++ Text.quotedName name ++ " is not valid UTF-8") fault.message⟩

def diagnosticLines (errors : List Diagnostic) : String := lines (errors.map Diagnostic.text)

def outcomeLines (outcome : Outcome) : String :=
  match outcome with
  | .failed .unflushed => Diagnostic.unflushed.message ++ "\n[line 0]\n"
  | other => diagnosticLines other.diagnostics

/-- Lists the tokens of a source; errors go to the other stream and do not stop the listing. -/
def tokenize (source : String) (json : Bool) : Report :=
  let items := Item.scan source
  let tokens := Item.tokens items
  let errors := (Item.errors items).map Diagnostic.lexical
  let listing := if json then Token.listJson tokens ++ "\n" else lines (tokens.map Token.listing)
  ⟨if errors.isEmpty then 0 else 65, listing, diagnosticLines errors⟩

def parse (source : String) : Report :=
  match (Program.parse source 0).1 with
  | .ok statements => ⟨0, lines (statements.map Stmt.print), ""⟩
  | .error errors => ⟨65, "", diagnosticLines errors⟩

def run (rules : Rules) (fuel : Nat) (source : String) : Report :=
  let (outcome, session) := (Session.initial .unlimited).run rules fuel source
  ⟨outcome.exitCode, session.machine.sink.accepted, outcomeLines outcome⟩

/-! ### The prompt -/

def prompt : String := "> "

/-- The answer to a line: what is written, and the exit status if it was the last one. -/
structure Reply where
  stdout : String
  stderr : String
  exit? : Option Nat

/-- Answers a line, which is empty only at the end of input. -/
def reply (rules : Rules) (fuel : Nat) (session : Session) (line : List UInt8) :
    Reply × Session :=
  match Text.Utf8.decode line with
  | .error _ =>
    (⟨"", failure "Failed to read from stdin" "stream did not contain valid UTF-8", some 1⟩,
      session)
  | .ok source =>
    if source.isEmpty || Text.trim source.toList = "exit".toList then (⟨"", "", some 0⟩, session)
    else
      let start := session.machine.sink.size
      let (outcome, session) := session.run rules fuel source
      (⟨session.machine.sink.outputFrom start, outcomeLines outcome, none⟩, session)

/-- The lines of a stream, each with the line break that ends it. -/
def splitLines : List UInt8 → List (List UInt8)
  | [] => []
  | byte :: rest =>
    if byte = 10 then [byte] :: splitLines rest
    else
      match splitLines rest with
      | [] => [[byte]]
      | line :: more => (byte :: line) :: more

/-- Answers lines one after the other, and the end of input behind them. -/
def converse (rules : Rules) (fuel : Nat) (session : Session) : List (List UInt8) → Report
  | [] =>
    let (answer, _) := reply rules fuel session []
    ⟨answer.exit?.getD 0, prompt ++ answer.stdout, answer.stderr⟩
  | line :: rest =>
    let (answer, session) := reply rules fuel session line
    match answer.exit? with
    | some code => ⟨code, prompt ++ answer.stdout, answer.stderr⟩
    | none =>
      let later := converse rules fuel session rest
      ⟨later.exitCode, prompt ++ answer.stdout ++ later.stdout, answer.stderr ++ later.stderr⟩

/-! ### The whole command -/

def execute (rules : Rules) (fuel : Nat) (files : Files) (stdin : List UInt8) :
    Command → Report
  | .run none => converse rules fuel (Session.initial .unlimited) (splitLines stdin)
  | .run (some file) => onSource file fun source => run rules fuel source
  | .tokenize file json => onSource file fun source => tokenize source json
  | .parse file => onSource file parse
where
  onSource (file : String) (use : String → Report) : Report :=
    match readSource files file with
    | .ok source => use source
    | .error report => report

def answer (rules : Rules) (fuel : Nat) (files : Files) (stdin : List UInt8)
    (arguments : List String) : Report :=
  match Request.ofArguments arguments with
  | .command command _ => execute rules fuel files stdin command
  | .version => ⟨0, versionText, ""⟩
  | .help => ⟨0, helpText, ""⟩
  | .misuse => ⟨64, "", helpText⟩

end Lox.CommandLine
