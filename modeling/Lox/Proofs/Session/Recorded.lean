import Lox.Proofs.Execution.Chronicled
import Lox.Proofs.Execution.Succession
import Lox.Proofs.Session.History

/-!
# Sessions with their events

The history of a session is the traces of its runs, one behind the other.  It is a
chronicle, so every field is what was last assigned to it, and every value is in a census
that only grows.  Its ends are nested, and each event extends those in front of it.
-/

namespace Lox

open Exec

/-- The sessions that runs of sources lead to, with the events on the way. -/
inductive Recorded (sink : Sink) : List Program → List Event → Session → Prop where
  | initial : Recorded sink [] [] (Session.initial sink)
  | rejected {units : List Program} {events : List Event} {session : Session} {rules : Rules}
      {fuel : Nat} {source : String} {errors : List Diagnostic} {n : NodeId} :
      Recorded sink units events session →
      Program.compile source session.nextId = (.error errors, n) →
      Recorded sink units events (session.run rules fuel source).2
  | ran {units : List Program} {events : List Event} {session : Session} {rules : Rules}
      {fuel : Nat} {source : String} {program : Program} {n : NodeId} :
      Recorded sink units events session →
      Program.compile source session.nextId = (.ok program, n) →
      Recorded sink (program :: units) (events ++ (session.start fuel program).trace rules)
        (session.run rules fuel source).2

/-- Every session that can be reached has a history. -/
theorem Reached.recorded {sink : Sink} {units : List Program} {session : Session}
    (h : Reached sink units session) : ∃ events, Recorded sink units events session := by
  induction h with
  | initial => exact ⟨[], .initial⟩
  | rejected _ hcompile ih =>
    obtain ⟨events, hevents⟩ := ih
    exact ⟨events, .rejected hevents hcompile⟩
  | ran _ hcompile ih =>
    obtain ⟨events, hevents⟩ := ih
    exact ⟨_, .ran hevents hcompile⟩

/-- A source that is rejected leaves the machine as it is. -/
theorem Session.machine_run_of_error {session : Session} {source : String}
    {errors : List Diagnostic} {n : NodeId}
    (hcompile : Program.compile source session.nextId = (.error errors, n)) (rules : Rules)
    (fuel : Nat) : (session.run rules fuel source).2.machine = session.machine := by
  unfold Session.run
  rw [hcompile]

variable {sink : Sink} {units : List Program} {events : List Event} {session : Session}

namespace Recorded

/-- The history of a session in which one source was run. -/
theorem first (sink : Sink) {source : String} {program : Program} {n : NodeId}
    (hcompile : Program.compile source 0 = (.ok program, n)) (rules : Rules) (fuel : Nat) :
    Recorded sink [program] (((Session.initial sink).start fuel program).trace rules)
      ((Session.initial sink).run rules fuel source).2 :=
  .ran .initial hcompile

theorem reached (h : Recorded sink units events session) : Reached sink units session := by
  induction h with
  | initial => exact .initial
  | rejected _ hcompile ih => exact .rejected ih hcompile
  | ran _ hcompile ih => exact .ran ih hcompile

/-- A history is a chronicle that has come to the machine of the session. -/
theorem chronicle (h : Recorded sink units events session) :
    ∃ g, Chronicle (.initial sink) g events session.machine := by
  induction h with
  | initial => exact ⟨.empty, .start⟩
  | rejected _ hcompile ih =>
    rw [Session.machine_run_of_error hcompile]
    exact ih
  | @ran units events session rules fuel source program n _ hcompile ih =>
    obtain ⟨g, hg⟩ := ih
    have hlearned : Chronicle (.initial sink) g events (session.machine.learn program.distances) :=
      hg.of_eq rfl rfl rfl
    obtain ⟨g', -, hg', -⟩ :=
      (continuesAt (.initial sink) rules fuel).executeEach program.statements hlearned
    rw [List.flatMap_singleton] at hg'
    rw [Session.machine_run hcompile]
    exact ⟨g', hg'⟩

/-- In front of the end of a task stands the rest of its trace. -/
theorem nested (h : Recorded sink units events session) : Event.Nested events := by
  induction h with
  | initial => exact .nil
  | rejected _ _ ih => exact ih
  | ran _ _ ih => exact ih.append (.trace _ _)

/-- What begins in a history happens. -/
theorem happens (h : Recorded sink units events session) {rules : Rules} {x : Moment}
    (hx : .begins rules x ∈ events) : Happens sink rules x := by
  induction h with
  | initial => cases hx
  | rejected _ _ ih => exact ih hx
  | @ran units events session rules' fuel source program n h hcompile ih =>
    rcases List.mem_append.mp hx with hx | hx
    · exact ih hx
    · obtain ⟨rfl, hpasses⟩ := Moment.begins_mem_trace_iff.mp hx
      exact .of_passes h.reached hcompile hpasses

/-- Each event of a history extends those in front of it. -/
theorem along (h : Recorded sink units events session) :
    Along (Machine.initial sink) events session.machine := by
  induction h with
  | initial => exact .nil (.refl _)
  | rejected _ hcompile ih =>
    rw [Session.machine_run_of_error hcompile]
    exact ih
  | @ran units events session rules fuel source program n h hcompile ih =>
    have hok := h.reached.start_ok hcompile fuel
    have hlearns := h.reached.steady.extends_learn hcompile
    rw [Session.machine_run hcompile]
    exact ih.append (hok.along.after hlearns)

/-- Behind each part of a task that has ended stand the parts behind it. -/
theorem behind_part (h : Recorded sink units events session) {before behind : List Event}
    {rules : Rules} {x y : Moment} {ys zs : List Moment}
    (hevents : events = before ++ .ends rules x :: behind)
    (hparts : x.parts rules = ys ++ y :: zs) :
    ∃ front g, before = front ++ zs.flatMap (Moment.trace rules) ∧ .ends rules y ∈ front ∧
      Chronicle (.initial sink) g front (y.final rules) := by
  obtain ⟨start, hstart⟩ := h.nested before rules x behind hevents
  rw [hparts, List.flatMap_append, List.flatMap_cons, Moment.trace_eq rules y] at hstart
  have hbefore : before = (start ++ .begins rules x :: (ys.flatMap (Moment.trace rules) ++
      .begins rules y :: (y.parts rules).flatMap (Moment.trace rules)) ++ [.ends rules y]) ++
      zs.flatMap (Moment.trace rules) := by
    rw [hstart]
    simp only [List.append_assoc, List.cons_append]
  rw [hbefore, List.append_assoc, List.append_assoc _ [_], List.singleton_append] at hevents
  obtain ⟨g, hg⟩ := h.chronicle
  obtain ⟨g', -, hchronicle⟩ := hg.upTo hevents
  exact ⟨_, g', hbefore, List.mem_append_right _ List.mem_cons_self, hchronicle⟩

/-- When a property is read, the instance is in the census. -/
theorem read_object (h : Recorded sink units events session) {before behind : List Event}
    {rules : Rules} {fuel : Nat} {object : Expr} {name : Token} {m m₁ : Machine}
    {owner : Instance}
    (hevents : events = before ++ .ends rules ⟨fuel + 1, .evaluate (.get object name), m⟩ :: behind)
    (hobject : Exec.evaluate rules fuel object m = .ok (.object owner) m₁) :
    ∃ g, Chronicle (.initial sink) g before m₁ ∧ (Value.object owner).In g := by
  have hparts : Moment.parts rules ⟨fuel + 1, .evaluate (.get object name), m⟩ =
      [] ++ ⟨fuel, .evaluate object, m⟩ :: [] := rfl
  obtain ⟨front, g, hbefore, hends, hchronicle⟩ := h.behind_part hevents hparts
  rw [List.flatMap_nil, List.append_nil] at hbefore
  subst hbefore
  have hfinal : Moment.final rules ⟨fuel, .evaluate object, m⟩ = m₁ := by
    simp only [Moment.final, hobject, endOf]
  have hyielded : Value.object owner ∈ (Event.ends rules ⟨fuel, .evaluate object, m⟩).values := by
    simp [Event.values, Moment.yielded, hobject, yieldOf]
  rw [hfinal] at hchronicle
  exact ⟨g, hchronicle, hchronicle.shown _ hends _ (.handled hyielded)⟩

/-- What has ended in a history had begun in it. -/
theorem begins_of_ends (h : Recorded sink units events session) {rules : Rules} {x : Moment}
    (hx : .ends rules x ∈ events) : .begins rules x ∈ events := by
  obtain ⟨before, behind, hevents⟩ := List.append_of_mem hx
  obtain ⟨front, rfl⟩ := h.nested before rules x behind hevents
  rw [hevents]
  simp

end Recorded

end Lox
