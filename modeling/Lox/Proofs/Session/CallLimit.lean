import Lox.Proofs.Execution.Calls
import Lox.Proofs.Session.Outcomes
import Lox.Proofs.Session.Runs
import Lox.Proofs.Session.Signals

/-!
# The limit of calls

In every run the machine counts the calls under way, and they are never more than the
limit.  A run is stopped by an overflow exactly when it attempts a call while as many
calls as the limit allows are under way.  A run that is not stopped in this way is the
same with every greater limit.
-/

namespace Lox

open Exec

variable {units : List Program} {session : Session} {source : String} {program : Program}
  {n : NodeId} {rules : Rules} {fuel : Nat}

/-- Between two runs no call is under way. -/
theorem Reached.depth {sink : Sink} (h : Reached sink units session) :
    session.machine.depth = 0 := by
  induction h with
  | initial => rfl
  | rejected _ _ ih | ran _ _ ih => exact (Session.restored_run _ _ _ _).2.trans ih

/-- A run whose calls do not overflow is the same with a greater limit. -/
theorem Session.run_limit (hcompile : Program.compile source session.nextId = (.ok program, n))
    {limit : Nat} (hlimit : rules.callLimit ≤ limit)
    (h : ∀ line, ¬ (session.start fuel program).Fails rules ⟨.stackOverflow, line⟩) :
    session.run (rules.limit limit) fuel source = session.run rules fuel source := by
  have hsame : Exec.executeEach (rules.limit limit) fuel program.statements
      (session.machine.learn program.distances) =
      Exec.executeEach rules fuel program.statements
        (session.machine.learn program.distances) := by
    rcases (related_limit fuel hlimit).executeEach program.statements
      (session.machine.learn program.distances) with ⟨interrupt, m', hstopped, hoverflow⟩ | heq
    · cases interrupt with
      | outOfFuel => cases hoverflow
      | error e =>
        obtain ⟨cause, line⟩ := e
        cases hoverflow
        exact absurd ⟨m', hstopped⟩ (h line)
    · exact heq
  unfold Session.run
  rw [hcompile]
  simp only [Session.execute, Session.interpret, Exec.interpret, EStateM.bind, Bind.bind, hsame]

/--
In every run of a source that compiles, the counter is the number of calls under way, at
the beginning and at the end of every task, and at most the limit.  A task raises an
overflow exactly when it attempts a call that could be made, at the line of its closing
parenthesis, while as many calls as the limit allows are under way; and this is when the
run fails with an overflow.  A run that does not is the same, with its outcome and all it
leaves behind, under every greater limit.
-/
theorem Reached.calls_limited {sink : Sink} (h : Reached sink units session)
    (hcompile : Program.compile source session.nextId = (.ok program, n)) (rules : Rules)
    (fuel : Nat) :
    (∀ x, Passes rules (session.start fuel program) x ↔
      ∃ calls, UnderWay rules (session.start fuel program) calls x) ∧
    (∀ calls x, UnderWay rules (session.start fuel program) calls x →
      x.machine.depth = calls.length ∧ (x.final rules).depth = calls.length ∧
        calls.length ≤ rules.callLimit) ∧
    (∀ calls x line, UnderWay rules (session.start fuel program) calls x →
      (x.Raises rules ⟨.stackOverflow, line⟩ ↔
        ∃ callee values paren m, Attempts rules x callee values paren m ∧
          callee.arity? = some values.length ∧ calls.length = rules.callLimit ∧
            line = paren.line)) ∧
    (∀ line, (session.start fuel program).Fails rules ⟨.stackOverflow, line⟩ ↔
      ∃ x, Passes rules (session.start fuel program) x ∧
        x.Raises rules ⟨.stackOverflow, line⟩) ∧
    (∀ line, (session.run rules fuel source).1 = .failed (.runtime ⟨.stackOverflow, line⟩) ↔
      (session.start fuel program).Fails rules ⟨.stackOverflow, line⟩ ∧
        (session.run rules fuel source).2.machine.sink.flushFails = false) ∧
    ∀ limit, rules.callLimit ≤ limit →
      (∀ line, ¬ (session.start fuel program).Fails rules ⟨.stackOverflow, line⟩) →
      session.run (rules.limit limit) fuel source = session.run rules fuel source := by
  have hdepth : (session.start fuel program).machine.depth = 0 := h.depth
  refine ⟨fun x => passes_iff_underWay, ?_, ?_, ?_, ?_, ?_⟩
  · -- The counter counts the calls under way.
    intro calls x hcalls
    obtain ⟨hcounted, hlimit⟩ := hcalls.counted hdepth
    exact ⟨hcounted, (x.depth_final rules).trans hcounted, hlimit⟩
  · -- At the limit an attempted call is refused, and no other error is an overflow.
    intro calls x line hcalls
    obtain ⟨hcounted, hlimit⟩ := hcalls.counted hdepth
    rw [Moment.raises_overflow_iff]
    constructor
    · rintro ⟨callee, values, paren, m, hattempts, harity, hfull, hline⟩
      rw [hattempts.depth, hcounted] at hfull
      exact ⟨callee, values, paren, m, hattempts, harity, Nat.le_antisymm hlimit hfull, hline⟩
    · rintro ⟨callee, values, paren, m, hattempts, harity, hfull, hline⟩
      refine ⟨callee, values, paren, m, hattempts, harity, ?_, hline⟩
      exact Nat.le_of_eq (hfull.symm.trans (hcounted.symm.trans hattempts.depth.symm))
  · -- An overflow that stops the run is raised somewhere in it.
    intro line
    simp only [Moment.raises_overflow_iff]
    exact Moment.fails_overflow_iff
  · -- What a run reports is the error that stops it, unless the last flush fails.
    intro line
    exact Session.failed_iff hcompile rules fuel _
  · -- Without an overflow a larger limit changes nothing.
    intro limit hlimit hfails
    exact Session.run_limit hcompile hlimit hfails

/-- A function that calls another one. -/
def twoDeep : String := "fun f() \x7b \x7d fun g() \x7b f(); \x7d g();"

theorem twoDeep_limited :
    ((Session.initial .unlimited).run ⟨1, .byDistance, fun _ => 0⟩ 20 twoDeep).1.diagnostics =
      [.runtime ⟨.stackOverflow, 1⟩] ∧
    ((Session.initial .unlimited).run ⟨2, .byDistance, fun _ => 0⟩ 20 twoDeep).1 = .ok ∧
    ∀ limit, 2 ≤ limit →
      (Session.initial .unlimited).run ⟨limit, .byDistance, fun _ => 0⟩ 20 twoDeep =
        (Session.initial .unlimited).run ⟨2, .byDistance, fun _ => 0⟩ 20 twoDeep := by
  have hok : ((Session.initial .unlimited).run ⟨2, .byDistance, fun _ => 0⟩ 20 twoDeep).1 = .ok :=
    Outcome.eq_ok_of_exitCode (by decide +kernel)
  obtain ⟨program, n, hcompile⟩ : Program.Compiles twoDeep := .of_isOk (by decide +kernel)
  refine ⟨by decide +kernel, hok, ?_⟩
  intro limit hlimit
  refine (Reached.calls_limited .initial hcompile ⟨2, .byDistance, fun _ => 0⟩ 20).2.2.2.2.2 limit
    hlimit ?_
  intro line hfails
  obtain ⟨flow, m, hends⟩ := Session.ends_of_run hcompile hok
  exact hfails.not_ok hends

end Lox
