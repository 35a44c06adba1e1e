import Lox.Proofs.Execution.Failures
import Lox.Proofs.Likeness.Runs
import Lox.Proofs.Session.StaticScopes

/-!
# How runs end

A run of a source that compiles ends as the execution of its statements does.  The error
that stops it is never one of a missing binding, so runs that look alike and keep the lines
of errors end in the same way.
-/

namespace Lox

open Exec

variable {sink : Sink} {units : List Program} {session : Session} {source : String}
  {program : Program} {rules : Rules} {fuel : Nat} {n : NodeId}

theorem Session.run_eq (hcompile : Program.compile source session.nextId = (.ok program, n))
    (rules : Rules) (fuel : Nat) :
    session.run rules fuel source =
      ((Session.execute rules fuel program session.machine).1,
        ⟨(Session.execute rules fuel program session.machine).2, n⟩) := by
  unfold Session.run
  rw [hcompile]

/-- The errors of runs are harmless. -/
theorem Reached.harmless (h : Reached sink units session)
    (hcompile : Program.compile source session.nextId = (.ok program, n)) (rules : Rules)
    (fuel : Nat) :
    ∀ error, (session.run rules fuel source).1 = .failed (.runtime error) →
      error.cause.Harmless := by
  rw [Session.run_eq hcompile]
  exact (h.steady.keeps hcompile rules fuel).interpret.2

/-- The error that ends a run is that of its statements, unless the output is lost. -/
theorem Session.failed_iff (hcompile : Program.compile source session.nextId = (.ok program, n))
    (rules : Rules) (fuel : Nat) (e : RuntimeError) :
    (session.run rules fuel source).1 = .failed (.runtime e) ↔
      (session.start fuel program).Fails rules e ∧
        (session.run rules fuel source).2.machine.sink.flushFails = false := by
  unfold Session.run
  rw [hcompile]
  simp only [Session.execute, Session.interpret, Exec.interpret, Moment.Fails, Session.start]
  cases hrun : Exec.executeEach rules fuel program.statements
      (session.machine.learn program.distances) with
  -- The statements ran to the end, so only the last flush can fail.
  | ok flow m =>
    rw [bind_of_ok hrun]
    constructor
    · intro h
      change (if m.sink.flushFails then Outcome.failed .unflushed else .ok) = _ at h
      split at h <;> cases h
    · rintro ⟨h, -⟩
      exact absurd hrun h.not_ok
  | error interrupt m =>
    rw [bind_of_error hrun]
    cases interrupt with
    -- A run out of fuel reports no error.
    | outOfFuel =>
      constructor
      · simp
      · rintro ⟨⟨m', h⟩, -⟩
        cases hrun.symm.trans h
    -- An error is reported, if the flush behind it does not fail itself.
    | error e' =>
      constructor
      · intro h
        cases hflush : m.sink.flushFails with
        | true =>
          simp only [hflush, if_true] at h
          cases h
        | false =>
          simp only [hflush, Bool.false_eq_true, if_false] at h
          cases h
          exact ⟨⟨m, hrun⟩, rfl⟩
      · rintro ⟨⟨m', h⟩, hflush⟩
        cases hrun.symm.trans h
        simp only at hflush
        simp only [hflush, Bool.false_eq_true, if_false]

theorem CauseLike.eq {cause cause' : RuntimeCause} (h : CauseLike cause cause')
    (hharmless : cause.Harmless) : cause' = cause := by
  cases h with
  | same => rfl
  | unresolved => exact absurd hharmless id

/-- Runs that end alike, at the same lines and without a missing binding, end in the same way. -/
theorem OutcomeLike.eq {outcome outcome' : Outcome} (h : OutcomeLike Eq outcome outcome')
    (hharmless : ∀ error, outcome = .failed (.runtime error) → error.cause.Harmless) :
    outcome' = outcome := by
  cases h with
  | @runtime error error' herror =>
    obtain ⟨cause', line'⟩ := error'
    cases herror.cause.eq (hharmless error rfl)
    cases herror.line
    rfl
  | _ => rfl

/-- Runs that end alike without a runtime error end in the same way. -/
theorem OutcomeLike.eq_of_ne {line : Nat → Nat → Prop} {outcome outcome' : Outcome}
    (h : OutcomeLike line outcome outcome')
    (hne : ∀ error, outcome ≠ .failed (.runtime error)) : outcome' = outcome := by
  cases h with
  | runtime => exact absurd rfl (hne _)
  | _ => rfl

end Lox
