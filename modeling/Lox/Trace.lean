import Lox.Session

/-!
# Traces

A trace executes the statements of a program one by one and shows what each of
them yields.  Neither an error nor a flow that would leave the program ends it.
-/

namespace Lox

inductive StepResult where
  | value (value : Value)
  | flow (flow : Flow)
  | error (error : RuntimeError)
  /-- The bound on the depth of the recursion was reached. -/
  | unfinished

structure Step where
  result : StepResult
  output : String

namespace Trace

def finish {α : Type} (yields : α → StepResult) :
    EStateM.Result Interrupt Machine α → StepResult × Machine
  | .ok a m => (yields a, m)
  | .error (.error e) m => (.error e, m)
  | .error .outOfFuel m => (.unfinished, m)

/-- Executes one statement; that of an expression yields the expression's value. -/
def step (rules : Rules) (fuel : Nat) (statement : Stmt) (m : Machine) : StepResult × Machine :=
  match statement with
  | .expression value => finish .value (Exec.evaluate rules fuel value m)
  | other => finish .flow (Exec.execute rules fuel other m)

def run (rules : Rules) (fuel : Nat) : List Stmt → Machine → List Step
  | [], _ => []
  | s :: rest, m =>
    let start := m.sink.size
    let (result, m) := step rules fuel s m
    ⟨result, m.sink.outputFrom start⟩ :: run rules fuel rest m

end Trace

end Lox
