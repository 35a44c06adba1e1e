import Lox.Session

/-!
# Runs of several sources

A session runs one source after the other.  What is seen of each run is how it ended and
what it wrote.
-/

namespace Lox

/-- Only a run that went well exits with zero. -/
theorem Outcome.eq_ok_of_exitCode {outcome : Outcome} (h : outcome.exitCode = 0) :
    outcome = .ok := by
  cases outcome with
  | ok => rfl
  | _ => cases h

/-- What is seen of the run of a source. -/
structure Run where
  source : String
  outcome : Outcome
  output : String

namespace Session

def seen (rules : Rules) (fuel : Nat) (source : String) (session : Session) : Run :=
  ⟨source, (session.run rules fuel source).1,
    (session.run rules fuel source).2.machine.sink.outputFrom session.machine.sink.size⟩

/-- What is seen of the runs of sources, and the session behind them. -/
def runEach (rules : Rules) (fuel : Nat) : List String → Session → List Run × Session
  | [], session => ([], session)
  | source :: rest, session =>
    let (runs, final) := runEach rules fuel rest (session.run rules fuel source).2
    (session.seen rules fuel source :: runs, final)

end Session

end Lox
