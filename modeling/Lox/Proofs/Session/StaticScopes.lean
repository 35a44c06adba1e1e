import Lox.Proofs.Execution.Moments
import Lox.Proofs.Session.Reached

/-!
# Static scopes mirror run-time frames

Wherever a run looks up a name, the chain of frames from the current one out to the
global one matches the scopes that resolution had open at this occurrence, and each
frame binds every name that could be read in its scope.  So nothing that resolution
has found is ever missing at run time.
-/

namespace Lox

open Resolution

/--
The occurrence is one of a program of the session, the frames mirror the scopes that
were open at it, the machine has its distance, and a name that is read is there.
-/
structure Matched (units : List Program) (kind : OccurrenceKind) (place : Occurrence)
    (m : Machine) : Prop where
  visit : ∃ unit ∈ units, ∃ v ∈ Stmt.visitsEach unit.statements {}, v.kind = kind ∧
    v.place = place ∧ Mirrors m.frames v.state.scopes m.current ∧
    m.distances[place.id]? = Resolution.distance? v.state.scopes place.name
  found : kind ≠ .assign → ∀ d, m.distances[place.id]? = some d →
    ∃ value, ∀ line, m.frames.getAt m.current d place.name line = .ok value

variable {units : List Program} {kind : OccurrenceKind} {place : Occurrence} {m : Machine}
  {scopes : List Scope}

/-- A name that is read is there at its distance. -/
theorem PlaceOk.found (h : PlaceOk (Visited units) scopes kind place)
    (hsound : Sound (Visited units) m) (hhere : Here m scopes) (hkind : kind ≠ .assign) {d : Nat}
    (hd : m.distances[place.id]? = some d) :
    ∃ value, ∀ line, m.frames.getAt m.current d place.name line = .ok value := by
  cases kind with
  | read =>
    obtain ⟨f, value, hf, hvalue⟩ := h.read_found hsound hhere hd
    exact ⟨value, Frames.getAt_of_found hf hvalue⟩
  | assign => exact absurd rfl hkind
  | this =>
    obtain ⟨d', f, owner, hd', hf, howner⟩ := h.this_found hsound hhere
    rw [hd', Option.some.injEq] at hd
    subst hd
    exact ⟨_, Frames.getAt_of_found hf howner⟩
  | super =>
    have hname : place.name = "super" := by
      obtain ⟨r, -, -, -, hvisited⟩ := h
      exact (hsound.recorded _ hvisited).fits
    obtain ⟨d', f, parent, g, owner, hd', hf, hparent, -, -⟩ := h.super_found hsound hhere
    rw [hd', Option.some.injEq] at hd
    subst hd
    rw [hname]
    exact ⟨_, Frames.getAt_of_found hf hparent⟩

theorem PlaceOk.matched (h : PlaceOk (Visited units) scopes kind place)
    (hsound : Sound (Visited units) m) (hhere : Here m scopes) : Matched units kind place m := by
  constructor
  · have hdistance := h.distance hsound
    obtain ⟨r, hscopes, -, -, unit, hunit, hv⟩ := h
    subst hscopes
    exact ⟨unit, hunit, _, hv, rfl, rfl, hhere, hdistance⟩
  · intro hkind d hd
    exact h.found hsound hhere hkind hd

/-- The first moment of the run of a program. -/
def Session.start (fuel : Nat) (program : Program) (session : Session) : Moment :=
  ⟨fuel, .executeEach program.statements, session.machine.learn program.distances⟩

/--
In every run of a source that compiles, frames match scopes wherever a name is looked
up, initializers find their instance, and no error speaks of a missing binding.
-/
theorem Reached.scopes_mirrored {sink : Sink} {session : Session} (h : Reached sink units session)
    {source : String} {program : Program} {n : NodeId}
    (hcompile : Program.compile source session.nextId = (.ok program, n)) (rules : Rules)
    (fuel : Nat) :
    (∀ x kind place m, Passes rules (session.start fuel program) x →
      Looks rules x kind place m → Matched (program :: units) kind place m) ∧
    (∀ x f m, Passes rules (session.start fuel program) x → Returns rules x f m →
      f.isInitializer = true →
      ∃ owner, ∀ line, m.frames.getAt f.closure 0 "this" line = .ok (.object owner)) ∧
    (∀ error, (session.run rules fuel source).1 = .failed (.runtime error) →
      (∀ name d, error.cause ≠ .unresolvedBinding name d) ∧ error.cause ≠ .superUnavailable) := by
  have hsteady := h.steady
  have hstart : (session.start fuel program).Ok (Visited (program :: units)) :=
    ⟨hsteady.learn hcompile, {}, hsteady.current, Program.stmtEachOk hcompile⟩
  refine ⟨?_, ?_, ?_⟩
  · -- A lookup reads its place in frames that mirror the scopes.
    intro x kind place m hpasses hlooks
    obtain ⟨hsound, scopes, hhere, hplace⟩ := (hstart.passes hpasses).looks hlooks
    exact hplace.matched hsound hhere
  · -- A call of an initializer gives back the instance that its closure binds.
    intro x f m hpasses hreturns hinit
    obtain ⟨owner, howner⟩ := (hstart.passes hpasses).returns hreturns hinit
    exact ⟨owner, Frames.getAt_of_found rfl howner⟩
  · -- An error that a session reports is a harmless one, and these two are not.
    intro error herror
    have hharmless := (hsteady.keeps hcompile rules fuel).interpret.2
    unfold Session.run at herror
    rw [hcompile] at herror
    have hcause := hharmless error herror
    constructor
    · intro name d heq
      rw [heq] at hcause
      exact hcause
    · intro heq
      rw [heq] at hcause
      exact hcause

/-- A closure that is called behind its block, over an instance of a class with `super`. -/
def closureOverInstance : String :=
  "class A \x7b init() \x7b this.n = 1; \x7d \x7d class B < A \x7b init() \x7b super.init(); \x7d \x7d " ++
  "fun make() \x7b var b = B(); fun get() \x7b return b.n; \x7d return get; \x7d print(make()());"

theorem closureOverInstance_mirrored :
    ∃ program n, Program.compile closureOverInstance 0 = (.ok program, n) ∧
      ∀ fuel x kind place m,
        Passes ⟨1024, .byDistance, fun _ => 0⟩
          ((Session.initial .unlimited).start fuel program) x →
        Looks ⟨1024, .byDistance, fun _ => 0⟩ x kind place m → Matched [program] kind place m := by
  have hok : (Program.compile closureOverInstance 0).1.isOk = true := by decide +kernel
  cases hcompile : Program.compile closureOverInstance 0 with
  | mk compiled n =>
    rw [hcompile] at hok
    cases compiled with
    | error errors => cases hok
    | ok program =>
      refine ⟨program, n, rfl, ?_⟩
      intro fuel
      exact (Reached.scopes_mirrored .initial hcompile ⟨1024, .byDistance, fun _ => 0⟩ fuel).1

end Lox
