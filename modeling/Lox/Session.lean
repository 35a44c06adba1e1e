import Lox.Evaluator
import Lox.Program

/-!
# Sessions

A session runs one source after the other on the same machine.  What a source
defines at top level is there for the next one.  A source that is rejected
leaves no trace but the identities that its occurrences used up.
-/

namespace Lox

inductive Outcome where
  | ok
  | rejected (errors : List Diagnostic)
  | failed (error : Diagnostic)
  /-- The bound on the depth of the recursion was reached. -/
  | unfinished

namespace Outcome

def exitCode : Outcome → Nat
  | ok => 0
  | rejected _ => 65
  | failed _ | unfinished => 70

def diagnostics : Outcome → List Diagnostic
  | rejected errors => errors
  | failed error => [error]
  | ok | unfinished => []

end Outcome

/-- A machine, and the next unused identity of an occurrence. -/
structure Session where
  machine : Machine
  nextId : NodeId

namespace Session

def initial (sink : Sink) : Session := ⟨.initial sink, 0⟩

/--
Executes statements and then passes on what they wrote.  If this fails, it is
reported in place of any error of the statements.
-/
def interpret (rules : Rules) (fuel : Nat) (statements : List Stmt) (m : Machine) :
    Outcome × Machine :=
  match Exec.interpret rules fuel statements m with
  | .error .outOfFuel m => (.unfinished, m)
  | .error (.error e) m => (.failed (if m.sink.flushFails then .unflushed else .runtime e), m)
  | .ok () m => (if m.sink.flushFails then .failed .unflushed else .ok, m)

def execute (rules : Rules) (fuel : Nat) (program : Program) (m : Machine) : Outcome × Machine :=
  interpret rules fuel program.statements (m.learn program.distances)

def run (rules : Rules) (fuel : Nat) (source : String) (session : Session) : Outcome × Session :=
  match Program.compile source session.nextId with
  | (.error errors, nextId) => (.rejected errors, { session with nextId := nextId })
  | (.ok program, nextId) =>
    let (outcome, machine) := execute rules fuel program session.machine
    (outcome, ⟨machine, nextId⟩)

end Session

end Lox
