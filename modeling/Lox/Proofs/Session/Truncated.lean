import Lox.Proofs.Execution.Inside
import Lox.Proofs.Execution.Truncated
import Lox.Proofs.Session.Outcomes
import Lox.Proofs.Session.StaticScopes

/-!
# Runs that a full sink truncates

A sink that gets full only truncates a run.  Where nothing is written past its bound, the
run is the same as on a sink that accepts everything.  Otherwise it stops at the first
write that is refused, with an error at the closing parenthesis of the call that prints,
and what it has written until then is a prefix of what is written without the bound.
-/

namespace Lox

open Exec

def Session.capped (full : String → Nat → Bool) (session : Session) : Session :=
  { session with machine := session.machine.capped full }

/-- What a bound on the sink does to the run of a source. -/
structure Truncates (full : String → Nat → Bool) (rules : Rules) (fuel : Nat) (source : String)
    (program : Program) (session : Session) : Prop where
  /-- Where nothing is written past the bound, outcome and machine are the same. -/
  same : (∀ x, Passes rules (session.start fuel program) x → ¬ x.WritesPast full) →
    (session.capped full).run rules fuel source =
      ((session.run rules fuel source).1, (session.run rules fuel source).2.capped full)
  /--
  Otherwise the run fails at the first write past the bound, which is the last thing it
  does, and its output is what is written before.
  -/
  refused : (∃ x, Passes rules (session.start fuel program) x ∧ x.WritesPast full) →
    ∃ before x after line sink,
      (session.start fuel program).course rules = before ++ x :: after ∧
      (∀ y ∈ before, ¬ y.WritesPast full) ∧ x.Refuses full line sink ∧
      ((session.capped full).start fuel program).course rules =
        (before ++ [x]).map (Moment.capped full) ∧
      (∃ y callee paren arguments, Passes rules (session.start fuel program) y ∧
        y.task = .evaluate (.call callee paren arguments) ∧ Leads rules y x ∧
        line = paren.line) ∧
      (∃ cause detail, RuntimeCause.message cause = "Output error: " ++ detail ∧
        ((session.capped full).run rules fuel source).1 = .failed (.runtime ⟨cause, line⟩)) ∧
      ((session.capped full).run rules fuel source).2.machine.sink = sink.capped full ∧
      sink.accepted.toList <+:
        (session.run rules fuel source).2.machine.sink.accepted.toList

variable {full : String → Nat → Bool} {rules : Rules} {fuel : Nat} {source : String}
  {program : Program} {session : Session} {n : NodeId}

/-- A run on a bounded sink is that of the same statements on the bounded machine. -/
theorem Session.run_capped (hcompile : Program.compile source session.nextId = (.ok program, n))
    (full : String → Nat → Bool) (rules : Rules) (fuel : Nat) :
    (session.capped full).run rules fuel source =
      let ended := Session.ended (Exec.executeEach rules fuel program.statements
        ((session.machine.learn program.distances).capped full))
      (ended.1, ⟨ended.2, n⟩) := by
  have hcompile' : Program.compile source (session.capped full).nextId = (.ok program, n) :=
    hcompile
  rw [Session.run_eq hcompile', Session.execute, Session.interpret_eq]
  rfl

/-- A bound on the sink does not matter for how a run is concluded. -/
theorem Session.ended_mapMachine (result : EStateM.Result Interrupt Machine Flow) :
    Session.ended (mapMachine (Machine.capped full) result) =
      ((Session.ended result).1, (Session.ended result).2.capped full) := by
  cases result with
  | ok flow m => rfl
  | error e m => cases e <;> rfl

theorem Session.ended_machine (result : EStateM.Result Interrupt Machine Flow) :
    (Session.ended result).2 = endOf result := by
  cases result with
  | ok flow m => rfl
  | error e m => cases e <;> rfl

theorem Sink.Grows.flushFails {sink sink' : Sink} (h : sink.Grows sink') :
    sink'.flushFails = sink.flushFails := by
  obtain ⟨text, rfl⟩ := h
  rfl

/-- What is refused is written by a call of the program. -/
theorem Moment.Refuses.of_call {start x : Moment} {line : Nat} {sink : Sink}
    (h : x.Refuses full line sink) (hpasses : Passes rules start x) (hstart : start.task.IsCode) :
    ∃ y callee paren arguments, Passes rules start y ∧
      y.task = .evaluate (.call callee paren arguments) ∧ Leads rules y x ∧ line = paren.line := by
  cases hpasses with
  | start => cases h <;> exact hstart.elim
  | @step y _ hy hleads =>
    cases h <;> cases hleads <;> exact ⟨_, _, _, _, hy, rfl, .call ‹_› ‹_› ‹_›, rfl⟩

/-- A bound on the sink only truncates the run of a source. -/
theorem Session.truncates (haccepts : session.machine.sink.AcceptsAll)
    (hflush : session.machine.sink.flushFails = false)
    (hcompile : Program.compile source session.nextId = (.ok program, n))
    (full : String → Nat → Bool) (rules : Rules) (fuel : Nat) :
    Truncates full rules fuel source program session := by
  have hm : (session.machine.learn program.distances).sink.AcceptsAll := haccepts
  obtain ⟨hgrows, hcut⟩ := (cutsAt full rules fuel).executeEach hm program.statements
  rw [List.flatMap_singleton, List.flatMap_singleton] at hcut
  have hrun := Session.run_eq hcompile rules fuel
  rw [Session.execute, Session.interpret_eq] at hrun
  have hcapped := Session.run_capped hcompile full rules fuel
  cases hcut with
  -- No write was refused, so the runs are the same.
  | same hfree hcourse hresult =>
    constructor
    · intro _
      rw [hcapped, hrun, hresult, Session.ended_mapMachine]
      rfl
    · rintro ⟨x, hpasses, hpast⟩
      exact absurd hpast (hfree x (Moment.mem_course_iff.mpr hpasses))
  -- A write was refused, at the moment where the course is split.
  | @refused before after x line sink m' hsplit hfree hrefuses hleft hcourse hresult hsink =>
    have hpasses : Passes rules (session.start fuel program) x := by
      refine Moment.mem_course_iff.mp ?_
      rw [Session.start, hsplit]
      exact List.mem_append_right _ List.mem_cons_self
    constructor
    · intro hnone
      exact absurd ⟨line, sink, hrefuses⟩ (hnone x hpasses)
    · intro _
      refine ⟨before, x, after, line, sink, hsplit, hfree, hrefuses, hcourse,
        hrefuses.of_call hpasses trivial, ⟨.outputRefused, "sink full", rfl, ?_⟩, ?_, ?_⟩
      · -- The error is reported: a sink that grows does not begin to fail its flush.
        have hflushes : m'.sink.flushFails = false := by
          rw [hsink]
          exact hleft.flushFails.symm.trans (hgrows.flushFails.trans hflush)
        rw [hcapped, hresult]
        simp only [Session.ended, hflushes, Bool.false_eq_true, if_false]
      · -- The output is what the sink had accepted.
        rw [hcapped, hresult]
        exact hsink
      · rw [hrun]
        simp only [Session.ended_machine]
        exact hleft.isPrefix

/-- A function that writes two lines, the second of them past a bound of one. -/
def twoLines : String := "fun f() \x7b print(\"a\"); print(\"b\"); \x7d f();"

/-- The moment is a call of `print` whose text is refused. -/
def Moment.refusesText (full : String → Nat → Bool) : Moment → Bool
  | ⟨_ + 1, .call (.native .print) arguments _, m⟩ =>
    (m.sink.capped full).refuses (arguments.headD .nil).display
  | _ => false

theorem Moment.writesPast_of_refusesText {x : Moment} (h : x.refusesText full = true) :
    x.WritesPast full := by
  unfold refusesText at h
  split at h
  · exact ⟨_, _, .text h⟩
  · cases h

theorem twoLines_truncates :
    Sink.unlimited.AcceptsAll ∧ Sink.unlimited.flushFails = false ∧
      ∃ program n, Program.compile twoLines 0 = (.ok program, n) ∧
        Truncates (Sink.limited 1 false).full ⟨1024, .byDistance, fun _ => 0⟩ 12 twoLines program
          (Session.initial .unlimited) ∧
        ∃ x, Passes ⟨1024, .byDistance, fun _ => 0⟩ ((Session.initial .unlimited).start 12 program)
          x ∧ x.WritesPast (Sink.limited 1 false).full := by
  have hruns : (Program.compile twoLines 0).1.toOption.any (fun program =>
      (((Session.initial .unlimited).start 12 program).course
        ⟨1024, .byDistance, fun _ => 0⟩).any
          (Moment.refusesText (Sink.limited 1 false).full)) = true := by decide +kernel
  have haccepts : Sink.unlimited.AcceptsAll := fun _ _ => rfl
  have hsession : (Session.initial .unlimited).machine.sink.AcceptsAll := haccepts
  obtain ⟨program, n, hcompile, hwrites⟩ := Program.exists_of_any hruns
  obtain ⟨x, hx, hrefused⟩ := List.any_eq_true.mp hwrites
  exact ⟨haccepts, rfl, program, n, hcompile, Session.truncates hsession rfl hcompile _ _ _, x,
    Moment.mem_course_iff.mp hx, Moment.writesPast_of_refusesText hrefused⟩

end Lox
