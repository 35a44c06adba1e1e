import Lox.Proofs.Execution.Agreement
import Lox.Proofs.Likeness.Runs
import Lox.Proofs.Session.Outcomes

/-!
# Runs that look names up by search

The distances that resolution finds say more than the names in the frames: a search for a
name can end in another frame, at a binding that was made later or that hides the one that
is meant.  In an orderly program neither can happen, and it makes no difference whether
variables are looked up at their distances or by search.
-/

namespace Lox

variable {source : String} {program : Program} {n : NodeId}

/-- The places of a program tell its visits apart. -/
theorem Program.sole {session : Session}
    (hcompile : compile source session.nextId = (.ok program, n)) :
    ∀ v ∈ Stmt.visitsEach program.statements {}, Sole (Visited [program]) v := by
  rintro v hv v' ⟨unit, hunit, hv'⟩ hplace
  cases List.mem_singleton.mp hunit
  have hnodup := nodup_visitsEach (wellMade_of_compile hcompile).ids.nodup {}
  exact List.inj_on_of_nodup_map hnodup hv' hv (congrArg Occurrence.id hplace)

/-- An orderly program is seen from the top level. -/
theorem Program.seen {session : Session}
    (hcompile : compile source session.nextId = (.ok program, n))
    (horderly : Mention.Orderly program.mentions) :
    Stmt.SeenEach (Visited [program]) program.statements [] := by
  have horder := horderly.pairwise
  rw [← List.append_nil program.mentions] at horder
  exact Stmt.seenEach _ (wellMade_of_compile hcompile).shaped .top (sole hcompile) horder

/-- The machine of a new session is confined, as it has no frame but the global one. -/
theorem confined_initial {sink : Sink} {V : Visit → Prop} {distances : Distances}
    (hsound : Sound V ((Machine.initial sink).learn distances)) (L : Limits) :
    Confined V L ((Machine.initial sink).learn distances) := by
  refine ⟨hsound, ?_, ?_, ?_⟩
  · intro f name value hfound
    apply Or.inl
    apply Nat.eq_zero_of_not_pos
    intro hpos
    have hsize : Machine.initialFrames.size = 1 := by decide
    change Machine.initialFrames.findIn? f name = some value at hfound
    rw [Frames.findIn?_of_le (hsize ▸ hpos)] at hfound
    cases hfound
  · intro f name value hfound
    obtain ⟨native, rfl⟩ := Machine.findIn?_initialFrames hfound
    trivial
  · intro i bindings hbindings
    simp [Machine.learn, Machine.initial] at hbindings

/--
In a new session an orderly program runs in the same way if its variables are read and
assigned where a search from the current frame outwards first finds them: it has the same
outcome, and leaves the same machine behind, with the same output.  A program is orderly if
no two of its declarations are of one name, and if every variable whose name is declared in
a local scope is used behind that declaration.
-/
theorem Session.run_bySearch (rules : Rules) (sink : Sink)
    (hcompile : Program.compile source (Session.initial sink).nextId = (.ok program, n))
    (horderly : Mention.Orderly program.mentions) (fuel : Nat) :
    (Session.initial sink).run rules.bySearch fuel source =
      (Session.initial sink).run rules.byDistance fuel source := by
  have hsteady := steady_initial sink
  have hsound := hsteady.learn hcompile
  have hplaced : Placed (Visited [program]) (fun _ => [])
      ((Session.initial sink).machine.learn program.distances) [] [] :=
    ⟨confined_initial hsound _, hsteady.current, hsteady.current⟩
  have hagrees := (agreesAt (Visited [program]) rules fuel).executeEach hplaced
    (Program.stmtEachOk hcompile) (Program.seen hcompile horderly)
  rw [run_eq hcompile, run_eq hcompile, execute, execute, interpret_eq, interpret_eq, hagrees.1]

/-- A closure that assigns a variable of its own, in a loop. -/
def counter : String :=
  "var g = 1; fun count(i) \x7b fun next() \x7b i = i + g; return i; \x7d return next; \x7d " ++
  "var c = count(1); while (c() < 3) print(c());"

theorem counter_bySearch :
    ∃ program n, Program.compile counter 0 = (.ok program, n) ∧
      Mention.Orderly program.mentions ∧
      ∀ fuel, (Session.initial .unlimited).run ⟨1024, .bySearch, fun _ => 0⟩ fuel counter =
        (Session.initial .unlimited).run ⟨1024, .byDistance, fun _ => 0⟩ fuel counter := by
  have horderly : ((Program.compile counter 0).1.toOption.map fun program =>
      decide (Mention.Orderly program.mentions)) = some true := by decide +kernel
  cases hcompile : Program.compile counter 0 with
  | mk compiled n =>
    rw [hcompile] at horderly
    cases compiled with
    | error errors => cases horderly
    | ok program =>
      have hprogram := of_decide_eq_true (Option.some.inj horderly)
      exact ⟨program, n, rfl, hprogram,
        Session.run_bySearch ⟨1024, .byDistance, fun _ => 0⟩ .unlimited hcompile hprogram⟩

end Lox
