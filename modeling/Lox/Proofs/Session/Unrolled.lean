import Lox.Proofs.Inset.Execution
import Lox.Proofs.Inset.Loops
import Lox.Proofs.Inset.Reflexive
import Lox.Proofs.Likeness.Runs
import Lox.Proofs.Likeness.Sources
import Lox.Proofs.Session.Outcomes
import Lox.Proofs.Session.Runs

/-!
# Loops in the long form run alike

The `for` loops of a program can be written with `while`, at any places of its tree: the
tokens of the new tree are parsed and resolved without an error, and in every session the
one program ends if the other one does, in the same way, and having printed the same.  The
new loops run in more scopes, so that the distances of their occurrences are others.
-/

namespace Lox

open Resolution

/-! ### Ends of runs -/

/-- The executions that correspond to that of a run end it in the same way. -/
structure EndsAlike (x : Exec.End Flow) (y : Nat → Exec.End Flow) : Prop where
  outcome : ∀ j, (Session.ended (y j)).1 ≠ .unfinished →
    (Session.ended (y j)).1 = (Session.ended x).1
  sink : ∀ j, (Session.ended (y j)).1 ≠ .unfinished →
    (Session.ended (y j)).2.sink = (Session.ended x).2.sink
  finishes : ∃ j, (Session.ended (y j)).1 ≠ .unfinished

/-- Nothing else leaves a run unfinished. -/
theorem Session.ended_eq_unfinished_iff {x : Exec.End Flow} :
    (Session.ended x).1 = .unfinished ↔ x.IsUnfinished := by
  constructor
  · intro h
    cases x with
    | ok a m =>
      simp only [Session.ended] at h
      split at h <;> cases h
    | error e m =>
      cases e with
      | outOfFuel => exact ⟨m, rfl⟩
      | error e => cases h
  · rintro ⟨m, rfl⟩
    rfl

theorem Arrives.endsAlike {x r : Exec.End Flow} {y : Nat → Exec.End Flow} (h : Arrives y r)
    (hfinished : (Session.ended x).1 ≠ .unfinished)
    (houtcome : (Session.ended r).1 = (Session.ended x).1)
    (hsink : (Session.ended r).2.sink = (Session.ended x).2.sink) : EndsAlike x y := by
  have honly : ∀ j, (Session.ended (y j)).1 ≠ .unfinished → y j = r :=
    fun j hj => (h.only j).resolve_left fun hout => hj (Session.ended_eq_unfinished_iff.mpr hout)
  refine ⟨?_, ?_, ?_⟩
  · intro j hj
    rw [honly j hj, houtcome]
  · intro j hj
    rw [honly j hj, hsink]
  · obtain ⟨k, hk⟩ := h.settles
    refine ⟨k, ?_⟩
    rwa [hk k (Nat.le_refl k), houtcome]

variable {D D' : Distances} {image : Nat → Nat} {m m' : Machine} {x : Exec.End Flow}
  {y : Nat → Exec.End Flow}

/-- A run without harmful errors is unfinished only if the other one is with this bound. -/
theorem Matches.endsAlike {fuel : Nat} (h : Matches D D' fuel image m m' (FlowEmbedded D D') x y)
    (hharmless : ∀ e m₁, x = .error (.error e) m₁ → e.cause.Harmless) :
    (Session.ended x).1 = .unfinished ∧ (Session.ended (y fuel)).1 = .unfinished ∨
      (Session.ended x).1 ≠ .unfinished ∧ EndsAlike x y := by
  cases h with
  | @ok _ m₁ m₁' a a' _ harrives _ hm _ =>
    have hfinished : (Session.ended (.ok a m₁)).1 ≠ .unfinished := by
      intro hout
      obtain ⟨m₂, hout⟩ := Session.ended_eq_unfinished_iff.mp hout
      cases hout
    refine .inr ⟨hfinished, harrives.endsAlike hfinished ?_ hm.sink⟩
    simp only [Session.ended, hm.sink]
  | @error m₁ m₁' e _ harrives hsink =>
    have hfinished : (Session.ended (.error (.error e) m₁)).1 ≠ .unfinished := by
      intro hout
      cases hout
    refine .inr ⟨hfinished, harrives.endsAlike hfinished ?_ hsink⟩
    simp only [Session.ended, hsink]
  | unfinished hout =>
    exact .inl ⟨rfl, Session.ended_eq_unfinished_iff.mpr (hout fuel (Nat.le_refl fuel))⟩
  | harmful he => exact absurd (hharmless _ _ rfl) he

/-! ### The program with long forms -/

/-- Tokens that are parsed, and the tree of which is resolved without an error. -/
structure Program.Read (tokens : List Token) (a : NodeId) (program : Program) (n : NodeId) :
    Prop where
  parse : Parser.parse tokens a = (.ok program.statements, n)
  run : Resolution.run program.statements = .ok program.distances

variable {sink : Sink} {units : List Program} {session : Session} {source : String}
  {program program' : Program} {n n' : NodeId} {rules : Rules} {statements : List Stmt}

/-- A program that does not use the old identities adds nothing for them. -/
theorem getElem?_learn_of_lt {distances : Distances} {a id : NodeId}
    (h : ∀ id d : Nat, distances[id]? = some d → a ≤ id) (hid : id < a) (m : Machine) :
    (m.learn distances).distances[id]? = m.distances[id]? := by
  have hnone : distances[id]? = none := by
    apply Option.eq_none_iff_forall_ne_some.mpr
    intro d hd
    exact Nat.not_le_of_lt hid (h id d hd)
  rw [getElem?_learn, hnone, Option.none_or]

/-- There are tokens for the tree with long forms. -/
theorem Program.exists_tokens_unrolled {a : NodeId}
    (hcompile : Program.compile source a = (.ok program, n))
    (hloops : StmtEachReplaced Grammar.Unrolls program.statements statements) :
    ∃ tokens, Grammar.Program .nearest statements tokens := by
  obtain ⟨w, last, -, hlast, hderives, -, -⟩ := Program.derives_of_compile hcompile
  obtain ⟨w', hderives'⟩ := hloops.serves Grammar.Unrolls.serves hderives
  exact ⟨w' ++ [last], .mk hderives' hlast⟩

namespace Reached

variable (h : Reached sink units session)
  (hcompile : Program.compile source session.nextId = (.ok program, n))
  (hloops : StmtEachReplaced Grammar.Unrolls program.statements statements)

include h hcompile hloops

/-- The tree with long forms is resolved without an error, and is an inset of the old one. -/
theorem resolved_unrolled :
    ∃ distances, Resolution.run (Stmt.numberedEach session.nextId statements) = .ok distances ∧
      StmtEachInset (InPlace (session.machine.learn program.distances).distances
        (session.machine.learn distances).distances) .flush 0 none program.statements
        (Stmt.numberedEach session.nextId statements) ∧
      MachineEmbedded (session.machine.learn program.distances).distances
        (session.machine.learn distances).distances id
        (session.machine.learn program.distances) (session.machine.learn distances) := by
  have hshaped := (Program.wellMade_of_compile hcompile).shaped
  have hsound := h.steady.learn hcompile
  have hids := Stmt.idsBetween_numberedEach session.nextId statements
  -- The statements are inset as they are spelled, whatever their identities,
  have hspelled : StmtEachInset Spelled .flush 0 none program.statements statements :=
    hloops.inset hshaped rfl 0
  -- and the walk of the second program tells where its names stand.
  have htells := (hspelled.numbered Spelled.anonymous session.nextId).tells
    (fun v hv => ⟨hsound.recorded v hv, trivial⟩) beside_initial (Program.stmtEachOk hcompile)
    (.none _ _ _)
  generalize Stmt.numberedEach session.nextId statements = ss at hids htells ⊢
  have hrun : Resolution.run ss = .ok (Stmt.resolveEach ss {}).distances := by
    rw [Resolution.run, htells.clean]
    rfl
  refine ⟨_, hrun, htells.placed _ ?_, ?_⟩
  · -- The recorded distances are those of the walk.
    intro v hv
    rw [h.steady.learned_new (hids.bounds _ (Program.place_of_visit hv)).1]
    exact getElem?_of_run hrun hids.nodup hv
  · -- The machine itself knows older distances only, and keeps them.
    have hnew : ∀ id d : Nat, (Stmt.resolveEach ss {}).distances[id]? = some d →
        session.nextId ≤ id := by
      intro id d hd
      obtain ⟨v, hv, rfl⟩ := List.mem_map.mp (mem_visits_of_getElem? hrun hd)
      exact (hids.bounds _ (Program.place_of_visit hv)).1
    apply h.steady.sound.embedded_self
    intro v hv
    have hid := h.steady.visits_lt v hv
    rw [getElem?_learn_of_lt hnew hid, Program.learned_old hcompile hid]

/-- With the same bound both runs are unfinished, or else the second one ends like the first. -/
theorem endsAlike_unrolled (hrules : rules.lookup = .byDistance) :
    ∃ distances, Resolution.run (Stmt.numberedEach session.nextId statements) = .ok distances ∧
      ∀ fuel, (Session.execute rules fuel program session.machine).1 = .unfinished ∧
          (Session.execute rules fuel ⟨Stmt.numberedEach session.nextId statements, distances⟩
            session.machine).1 = .unfinished ∨
        (Session.execute rules fuel program session.machine).1 ≠ .unfinished ∧
          EndsAlike (Exec.executeEach rules fuel program.statements
              (session.machine.learn program.distances))
            fun j => Exec.executeEach rules j (Stmt.numberedEach session.nextId statements)
              (session.machine.learn distances) := by
  obtain ⟨distances, hrun, hinset, hmachine⟩ := h.resolved_unrolled hcompile hloops
  refine ⟨distances, hrun, ?_⟩
  intro fuel
  simp only [Session.execute, Session.interpret_eq]
  have hmatches := (matchesAt _ _ hrules fuel).executeEach_plain hmachine
    (.same h.steady.current_lt) hinset
  apply hmatches.endsAlike
  intro e m₁ herror
  have hkeeps := h.steady.keeps hcompile rules fuel
  rw [herror] at hkeeps
  exact hkeeps.2

/--
In any places of a program `for` loops can be replaced by their long form, if no name of the
increment is declared inside the body.  There are tokens for the new tree, and whatever they
are, they compile; and in every session the new program ends if and as the old one does,
having printed the same.
-/
theorem run_unrolled (hrules : rules.lookup = .byDistance) :
    (∃ tokens, Grammar.Program .nearest statements tokens) ∧
    ∃ program' n', (∀ tokens, Grammar.Program .nearest statements tokens →
        Program.Read tokens session.nextId program' n') ∧
      ((∃ fuel, (Session.execute rules fuel program session.machine).1 ≠ .unfinished) ↔
        ∃ fuel, (Session.execute rules fuel program' session.machine).1 ≠ .unfinished) ∧
      ∀ fuel fuel', (Session.execute rules fuel program session.machine).1 ≠ .unfinished →
        (Session.execute rules fuel' program' session.machine).1 ≠ .unfinished →
        (Session.execute rules fuel' program' session.machine).1 =
            (Session.execute rules fuel program session.machine).1 ∧
          (Session.execute rules fuel' program' session.machine).2.sink =
            (Session.execute rules fuel program session.machine).2.sink := by
  obtain ⟨distances, hrun, hends⟩ := h.endsAlike_unrolled hcompile hloops hrules
  refine ⟨Program.exists_tokens_unrolled hcompile hloops,
    ⟨Stmt.numberedEach session.nextId statements, distances⟩,
    session.nextId + Stmt.drawnEach statements, ?_, ⟨?_, ?_⟩, ?_⟩
  · -- What is derived from the tokens is read as the statements numbered anew.
    intro tokens htokens
    exact ⟨Parser.parse_eq_numbered htokens _, hrun⟩
  · -- If the program finishes, the unrolled one does, with enough fuel of its own.
    rintro ⟨fuel, hfinished⟩
    rcases hends fuel with ⟨hout, -⟩ | ⟨-, halike⟩
    · exact absurd hout hfinished
    · obtain ⟨fuel', hfinished'⟩ := halike.finishes
      refine ⟨fuel', ?_⟩
      rwa [Session.execute, Session.interpret_eq]
  · -- If the unrolled one finishes, so does the program: it is unfinished only if the other is.
    rintro ⟨fuel, hfinished⟩
    rcases hends fuel with ⟨-, hout⟩ | ⟨hfinished', -⟩
    · exact absurd hout hfinished
    · exact ⟨fuel, hfinished'⟩
  · -- If both finish, they end alike.
    intro fuel fuel' hfinished hfinished'
    rcases hends fuel with ⟨hout, -⟩ | ⟨-, halike⟩
    · exact absurd hout hfinished
    · simp only [Session.execute, Session.interpret_eq] at hfinished' ⊢
      exact ⟨halike.outcome fuel' hfinished', halike.sink fuel' hfinished'⟩

end Reached

/-- A loop with a `continue`, and with a function in its body that captures the loop variable. -/
def counting : String :=
  "for (var s = \"\"; s != \"aaa\"; s = s + \"a\") \x7b fun g() \x7b return s; \x7d
    if (s == \"a\") continue; print(g()); \x7d"

/-- The long form has a second copy of the increment, and prints the same. -/
theorem counting_unrolled :
    ∃ program, (Program.compile counting 0).1 = .ok program ∧
      Stmt.drawnEach program.statements = 8 ∧
      Stmt.drawnEach (program.statements.map Stmt.unrolled) = 11 ∧
      ∃ tokens program' n', Grammar.Program .nearest (program.statements.map Stmt.unrolled) tokens ∧
        Program.Read tokens 0 program' n' ∧
        ∃ fuel, (Session.execute ⟨1024, .byDistance, fun _ => 0⟩ fuel program'
            (.initial .unlimited)).1 = .ok ∧
          (Session.execute ⟨1024, .byDistance, fun _ => 0⟩ fuel program'
            (.initial .unlimited)).2.sink.outputFrom 0 = "\naa\n" := by
  have hcompiles : Program.Compiles counting := .of_isOk (by decide +kernel)
  obtain ⟨program, n, hcompile⟩ := hcompiles
  have hdrawn : ((Program.compile counting 0).1.toOption.map fun program =>
      (Stmt.drawnEach program.statements,
        Stmt.drawnEach (program.statements.map Stmt.unrolled))) = some (8, 11) := by decide +kernel
  have hok : ((Session.initial .unlimited).run ⟨1024, .byDistance, fun _ => 0⟩ 40 counting).1 =
      .ok := Outcome.eq_ok_of_exitCode (by decide +kernel)
  have hprinted : ((Session.initial .unlimited).run ⟨1024, .byDistance, fun _ => 0⟩ 40
      counting).2.machine.sink.outputFrom 0 = "\naa\n" := by decide +kernel
  rw [Session.run_eq hcompile] at hok hprinted
  rw [hcompile, Except.toOption, Option.map_some, Option.some.injEq, Prod.mk.injEq] at hdrawn
  have hreached : Reached .unlimited [] (Session.initial .unlimited) := .initial
  have hrules : (⟨1024, .byDistance, fun _ => 0⟩ : Rules).lookup = .byDistance := rfl
  obtain ⟨⟨tokens, htokens⟩, program', n', hread, hfinishes, hsame⟩ :=
    hreached.run_unrolled hcompile (Stmt.replaced_map_unrolled _) hrules
  have hfinished : (Session.execute ⟨1024, .byDistance, fun _ => 0⟩ 40 program
      (.initial .unlimited)).1 ≠ .unfinished := by
    intro hout
    cases hok.symm.trans hout
  obtain ⟨fuel, hfinished'⟩ := hfinishes.mp ⟨40, hfinished⟩
  obtain ⟨houtcome, hsink⟩ := hsame 40 fuel hfinished hfinished'
  refine ⟨program, congrArg Prod.fst hcompile, hdrawn.1, hdrawn.2, tokens, program', n', htokens,
    hread tokens htokens, fuel, houtcome.trans hok, ?_⟩
  exact (congrArg (Sink.outputFrom · 0) hsink).trans hprinted

end Lox
