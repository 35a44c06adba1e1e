import Lox.Proofs.Execution.Finals
import Lox.Proofs.Session.StaticScopes

/-!
# The history of a session

A session passes through machines in an order: those at the beginnings and the ends of
the tasks of one run, and those of one run after another.  A machine that comes later
extends the one before: no frame is moved, and what stands for an instance or for a
superclass goes on to do so.
-/

namespace Lox

open Exec

/-- A moment of the run of a program, in a session with this sink. -/
def Happens (sink : Sink) (rules : Rules) (x : Moment) : Prop :=
  ∃ units session source program n fuel, Reached sink units session ∧
    Program.compile source session.nextId = (.ok program, n) ∧
    Passes rules (session.start fuel program) x

/--
One machine is the same as the other or comes later: a task begins before its parts and
ends behind them, the parts follow one another, and so do the runs of a session.
-/
inductive Later (sink : Sink) (m : Machine) : Machine → Prop where
  | same : Later sink m m
  | begins {rules : Rules} {x y : Moment} : Later sink m x.machine → Happens sink rules x →
      Leads rules x y → Later sink m y.machine
  | ends {rules : Rules} {x : Moment} : Later sink m x.machine → Happens sink rules x →
      Later sink m (x.final rules)
  | behind {rules : Rules} {x y : Moment} : Later sink m (y.final rules) → Happens sink rules x →
      Leads rules x y → Later sink m (x.final rules)
  /-- Most parts begin where the one before has ended; a call is counted in between. -/
  | called {rules : Rules} {fuel : Nat} {callee : Expr} {paren : Token} {arguments : List Expr}
      {value : Value} {values : List Value} {m₀ m₁ m₂ m₃ : Machine} : Later sink m m₂ →
      Happens sink rules ⟨fuel + 1, .evaluate (.call callee paren arguments), m₀⟩ →
      Exec.evaluate rules fuel callee m₀ = .ok value m₁ →
      Exec.evaluateEach rules fuel arguments m₁ = .ok values m₂ →
      checkCall rules value values.length paren.line m₂ = .ok () m₃ →
      Later sink m { m₃ with depth := m₃.depth + 1 }
  /-- A run starts where the one before has ended, with the distances of its program. -/
  | learns {units : List Program} {session : Session} {source : String} {program : Program}
      {n : NodeId} : Later sink m session.machine → Reached sink units session →
      Program.compile source session.nextId = (.ok program, n) →
      Later sink m (session.machine.learn program.distances)

variable {sink : Sink} {rules : Rules} {x y : Moment} {m m' : Machine}

theorem Happens.of_passes {units : List Program} {session : Session} {source : String}
    {program : Program} {n : NodeId} {fuel : Nat} (h : Reached sink units session)
    (hcompile : Program.compile source session.nextId = (.ok program, n))
    (hpasses : Passes rules (session.start fuel program) x) : Happens sink rules x :=
  ⟨units, session, source, program, n, fuel, h, hcompile, hpasses⟩

theorem Happens.leads (h : Happens sink rules x) (hleads : Leads rules x y) :
    Happens sink rules y := by
  obtain ⟨units, session, source, program, n, fuel, hreached, hcompile, hpasses⟩ := h
  exact ⟨units, session, source, program, n, fuel, hreached, hcompile, hpasses.step hleads⟩

/-- The first moment of a run is as it should be. -/
theorem Reached.start_ok {units : List Program} {session : Session} (h : Reached sink units session)
    {source : String} {program : Program} {n : NodeId}
    (hcompile : Program.compile source session.nextId = (.ok program, n)) (fuel : Nat) :
    (session.start fuel program).Ok (Visited (program :: units)) :=
  ⟨h.steady.learn hcompile, {}, h.steady.current, Program.stmtEachOk hcompile⟩

/-- What happens in a session is as it should be. -/
theorem Happens.ok (h : Happens sink rules x) : ∃ V, x.Ok V := by
  obtain ⟨units, session, source, program, n, fuel, hreached, hcompile, hpasses⟩ := h
  exact ⟨_, (hreached.start_ok hcompile fuel).passes hpasses⟩

/-- A program that is new has distances for new occurrences only. -/
theorem Steady.extends_learn {units : List Program} {session : Session} {source : String}
    {program : Program} {n : NodeId} (h : Steady units session)
    (hcompile : Program.compile source session.nextId = (.ok program, n)) :
    Extends session.machine (session.machine.learn program.distances) := by
  refine ⟨.refl _, ?_⟩
  intro id d hd
  rw [Program.learned_old hcompile (h.distances_lt id d hd)]
  exact hd

/-- A machine that comes later extends the one before. -/
theorem Later.extends (h : Later sink m m') : Extends m m' := by
  induction h with
  | same => exact .refl _
  | begins _ hx hleads ih =>
    obtain ⟨V, hok⟩ := hx.ok
    exact ih.trans (hok.led hleads).extends
  | ends _ hx ih =>
    obtain ⟨V, hok⟩ := hx.ok
    exact ih.trans hok.extends_final
  | behind _ hx hleads ih =>
    obtain ⟨V, hok⟩ := hx.ok
    exact ih.trans (hok.extends_behind hleads)
  | @called rules fuel callee paren arguments value values m₀ m₁ m₂ m₃ _ hx hcallee hvalues
      hcheck ih =>
    have hchecked := extends_checkCall rules value values.length paren.line m₂
    rw [hcheck] at hchecked
    exact (ih.trans hchecked).trans (.of_eq rfl rfl)
  | learns _ hreached hcompile ih => exact ih.trans (hreached.steady.extends_learn hcompile)

/-- A run ends where its first moment does. -/
theorem Session.machine_run {source : String} {session : Session} {program : Program} {n : NodeId}
    (hcompile : Program.compile source session.nextId = (.ok program, n)) (rules : Rules)
    (fuel : Nat) :
    (session.run rules fuel source).2.machine = (session.start fuel program).final rules := by
  unfold Session.run
  rw [hcompile]
  simp only [Session.execute, Session.interpret, Exec.interpret, Moment.final, Session.start]
  cases hrun : Exec.executeEach rules fuel program.statements
      (session.machine.learn program.distances) with
  | ok flow m =>
    rw [Exec.bind_of_ok hrun]
    rfl
  | error e m =>
    rw [Exec.bind_of_error hrun]
    cases e <;> rfl

end Lox
