import Lox.Proofs.Execution.Course
import Lox.Proofs.Execution.Signals
import Lox.Proofs.Session.StaticScopes

/-!
# Signals stay within their construct

In a program that compiles, `break` and `continue` end a turn of the loop around them,
and `return` ends the call around it.  So the statements of a program are executed to
the last one unless an error stops them, and a body ends the call it is the body of and
nothing else.
-/

namespace Lox

/-- The statements of a run are all executed, and each of them ends normally. -/
def EachExecuted (rules : Rules) (start : Moment) (statements : List Stmt) : Prop :=
  ∀ before s after, statements = before ++ s :: after →
    ∃ k m₁ m₂, Passes rules start ⟨k + 1, .executeEach (s :: after), m₁⟩ ∧
      Exec.execute rules k s m₁ = .ok .normal m₂

variable {units : List Program} {session : Session} {source : String} {program : Program}
  {n : NodeId} {rules : Rules} {fuel : Nat}

/-- A run that ends without an error has executed the statements of the program. -/
theorem Session.ends_of_run (hcompile : Program.compile source session.nextId = (.ok program, n))
    (h : (session.run rules fuel source).1 = .ok) :
    ∃ flow m, (session.start fuel program).Ends rules flow m := by
  unfold Session.run at h
  rw [hcompile] at h
  simp only [Session.execute, Session.interpret, Exec.interpret] at h
  cases hrun : Exec.executeEach rules fuel program.statements
      (session.machine.learn program.distances) with
  | ok flow m => exact ⟨flow, m, hrun⟩
  | error e m =>
    rw [Exec.bind_of_error hrun] at h
    cases e <;> cases h

/--
In every run of a source that compiles: the program ends normally, with all its
statements executed; a body ends normally or with a `return`, which in an initializer
yields `nil`; and every signal is taken by the loop or call that it belongs to.
-/
theorem Reached.signals_taken {sink : Sink} (h : Reached sink units session)
    (hcompile : Program.compile source session.nextId = (.ok program, n)) (rules : Rules)
    (fuel : Nat) :
    (∀ flow m, (session.start fuel program).Ends rules flow m →
      flow = .normal ∧ EachExecuted rules (session.start fuel program) program.statements) ∧
    ((session.run rules fuel source).1 = .ok →
      EachExecuted rules (session.start fuel program) program.statements) ∧
    (∀ x y f arguments line flow m, Passes rules (session.start fuel program) x →
      x.task = .callFunction f arguments line → Leads rules x y → y.Ends rules flow m →
      flow = .normal ∨
        ∃ value, flow = .returning value ∧ (f.isInitializer = true → value = .nil)) ∧
    (∀ y flow m, Passes rules (session.start fuel program) y → y.Ends rules flow m →
      Taken rules (session.start fuel program) y flow) := by
  have hsteady := h.steady
  have hstart : (session.start fuel program).Ok (Visited (program :: units)) :=
    ⟨hsteady.learn hcompile, {}, hsteady.current, Program.stmtEachOk hcompile⟩
  have hnormal : ∀ flow m, (session.start fuel program).Ends rules flow m → flow = .normal := by
    intro flow m hends
    have hflow := (Keeps.of_ok (hsteady.keeps hcompile rules fuel) hends).2
    -- No loop and no routine is around the statements of a program.
    cases flow with
    | normal => rfl
    | breaking | continuing => exact absurd rfl hflow
    | returning value => exact absurd rfl hflow.1
  have heach : ∀ flow m, (session.start fuel program).Ends rules flow m →
      EachExecuted rules (session.start fuel program) program.statements := by
    intro flow m hends before s after hstatements
    rw [hnormal flow m hends] at hends
    simp only [Session.start, hstatements] at hends ⊢
    exact Exec.each_executed hends
  refine ⟨?_, ?_, ?_, ?_⟩
  · intro flow m hends
    exact ⟨hnormal flow m hends, heach flow m hends⟩
  · intro hok
    obtain ⟨flow, m, hends⟩ := Session.ends_of_run hcompile hok
    exact heach flow m hends
  · intro x y f arguments line flow m hpasses hcall hleads hends
    exact (hstart.passes hpasses).body_ends hcall hleads hends
  · intro y flow m hpasses hends
    exact hstart.taken hnormal hpasses hends

/-- Loops within a function within a loop, and an initializer that returns early. -/
def nestedLoops : String :=
  "class A \x7b init(n) \x7b while (true) \x7b if (n > 3) return; n = n + 1; \x7d \x7d \x7d " ++
  "while (true) \x7b fun f() \x7b while (true) \x7b if (A(1) == nil) continue; break; \x7d " ++
  "return 1; \x7d f(); break; \x7d"

def Moment.isBreak : Moment → Bool
  | ⟨_ + 1, .execute (.breaking _), _⟩ => true
  | _ => false

def Moment.isBareReturn : Moment → Bool
  | ⟨_ + 1, .execute (.returning _ none), _⟩ => true
  | _ => false

theorem Moment.ends_of_isBreak {x : Moment} (h : x.isBreak = true) :
    x.Ends rules .breaking x.machine := by
  unfold isBreak at h
  split at h
  · rfl
  · cases h

theorem Moment.ends_of_isBareReturn {x : Moment} (h : x.isBareReturn = true) :
    x.Ends rules (.returning .nil) x.machine := by
  unfold isBareReturn at h
  split at h
  · rfl
  · cases h

theorem nestedLoops_signals_taken :
    ∃ program n, Program.compile nestedLoops 0 = (.ok program, n) ∧
      (∀ fuel y flow m,
        Passes ⟨1024, .byDistance, fun _ => 0⟩
          ((Session.initial .unlimited).start fuel program) y →
        y.Ends ⟨1024, .byDistance, fun _ => 0⟩ flow m →
        Taken ⟨1024, .byDistance, fun _ => 0⟩
          ((Session.initial .unlimited).start fuel program) y flow) ∧
      (∃ y m, Passes ⟨1024, .byDistance, fun _ => 0⟩
          ((Session.initial .unlimited).start 40 program) y ∧
        y.Ends ⟨1024, .byDistance, fun _ => 0⟩ .breaking m) ∧
      ∃ y value m, Passes ⟨1024, .byDistance, fun _ => 0⟩
          ((Session.initial .unlimited).start 40 program) y ∧
        y.Ends ⟨1024, .byDistance, fun _ => 0⟩ (.returning value) m := by
  have hruns : (Program.compile nestedLoops 0).1.toOption.any (fun program =>
      let course := ((Session.initial .unlimited).start 40 program).course
        ⟨1024, .byDistance, fun _ => 0⟩
      course.any Moment.isBreak && course.any Moment.isBareReturn) = true := by
    decide +kernel
  obtain ⟨program, n, hcompile, hsignals⟩ := Program.exists_of_any hruns
  obtain ⟨hbreak, hreturn⟩ := Bool.and_eq_true_iff.mp hsignals
  obtain ⟨y, hy, hbreaks⟩ := List.any_eq_true.mp hbreak
  obtain ⟨z, hz, hreturns⟩ := List.any_eq_true.mp hreturn
  refine ⟨program, n, hcompile, ?_, ?_, ?_⟩
  · intro fuel
    exact (Reached.signals_taken .initial hcompile ⟨1024, .byDistance, fun _ => 0⟩ fuel).2.2.2
  · exact ⟨y, y.machine, Moment.mem_course_iff.mp hy, Moment.ends_of_isBreak hbreaks⟩
  · exact ⟨z, .nil, z.machine, Moment.mem_course_iff.mp hz, Moment.ends_of_isBareReturn hreturns⟩

end Lox
