import Lox.Proofs.Session.Outcomes
import Lox.Proofs.Session.Tokens

/-!
# The lines of errors

The error that ends a run is raised at a token, and has the line of this token.  The token
is one of the source that is run if the code at this moment comes from the program itself,
and one of an earlier source if the code comes from an earlier function.  With blank lines
in front of the source the same error is raised at the same moment.  Its line moves down
with the source in the one case, and stays in the other.
-/

namespace Lox

open Exec

variable {sink : Sink} {units : List Program} {session : Session} {source : String}
  {program : Program} {rules : Rules} {fuel : Nat} {n : NodeId}

/-! ### Blank lines in front of a source -/

/-- The line stays, or moves down. -/
def Alongside (lines a b : Nat) : Prop := b = a ∨ b = a + lines

theorem Sound.like_alongside {V : Visit → Prop} {m : Machine} (h : Sound V m) (lines : Nat) :
    MachineLike (.moved (Alongside lines) fun _ => True) (Alongside lines) .same m m :=
  h.like_self (Likeness.moved_reflexive fun _ => .inl rfl) (fun _ _ => trivial)
    (Likeness.moved_faithful fun _ _ => rfl)

/-- A source that moves down runs alike, and its error stays where it is or moves down as well. -/
theorem Reached.run_blankLines (h : Reached sink units session)
    (hrules : rules.lookup = .byDistance)
    (hcompile : Program.compile source session.nextId = (.ok program, n)) (lines fuel : Nat) :
    ∃ program', Program.compile (Item.blankLines lines ++ source) session.nextId =
        (.ok program', n) ∧
      StmtEachLike (.moved (fun a b => b = a + lines) fun _ => True) .top program.statements
        program'.statements ∧
      MomentLike (.moved (Alongside lines) fun _ => True) (Alongside lines)
        (session.start fuel program) (session.start fuel program') ∧
      OutcomeLike (Alongside lines) (session.run rules fuel source).1
        (session.run rules fuel (Item.blankLines lines ++ source)).1 := by
  obtain ⟨program', hcompile', hdistances, hlike⟩ := Program.compile_blankLines hcompile lines
  have hm := (h.steady.learn hcompile).like_alongside lines
  have hfollows : Follows .same (session.machine.learn program.distances).frames .top
      (session.machine.learn program.distances).current := .same h.steady.current_lt
  have hle : (Likeness.moved (fun a b => b = a + lines) fun _ => True).Le
      (.moved (Alongside lines) fun _ => True) :=
    Likeness.moved_le (fun _ _ hb => .inr hb) fun _ hid => hid
  refine ⟨program', hcompile', hlike, ?_, ?_⟩
  · unfold Session.start
    rw [hdistances]
    exact .mk hm (.executeEach hfollows (hlike.mono hle))
  · rw [Session.run_eq hcompile, Session.run_eq hcompile', Session.execute, Session.execute,
      hdistances]
    exact (hm.interpret hrules fuel hfollows (hlike.mono hle)).1

/-! ### Where an error is raised -/

/--
The run of the source raises the error at this token: at some moment of the run a task is
stopped by the error and no part of this task is, and its code has this origin.
-/
def Session.RaisesFrom (rules : Rules) (fuel : Nat) (source : String) (session : Session)
    (origin : Origin) (t : Token) (e : RuntimeError) : Prop :=
  ∃ program n x, Program.compile source session.nextId = (.ok program, n) ∧
    CodeOf rules (session.start fuel program) origin x ∧ x.RaisesAt rules t e

theorem Task.isCode_of_token? {task : Task} {t : Token} (h : task.token? = some t) :
    task.IsCode := by
  cases task with
  | call | callFunction => cases h
  | _ => trivial

/-- The error that ends a run is raised somewhere. -/
theorem Reached.exists_raisesFrom (h : Reached sink units session)
    (hcompile : Program.compile source session.nextId = (.ok program, n)) {e : RuntimeError}
    (hrun : (session.run rules fuel source).1 = .failed (.runtime e)) :
    ∃ origin t, session.RaisesFrom rules fuel source origin t e := by
  have hharmless := h.harmless hcompile rules fuel e hrun
  obtain ⟨hfails, -⟩ := (Session.failed_iff hcompile rules fuel e).mp hrun
  obtain ⟨x, t, hx, hraises⟩ := hfails.exists_raisesAt hharmless id
  obtain ⟨g, hmade⟩ := h.madeOf
  obtain ⟨g', hg', hstart⟩ := hmade.start h hcompile rules fuel
  obtain ⟨origin, hcode⟩ :=
    CodeOf.exists_of_passes hg' rfl hstart.ok hx (Task.isCode_of_token? hraises.token)
  exact ⟨origin, t, program, n, x, hcompile, hcode, hraises⟩

section

variable {origin : Origin} {t : Token} {e : RuntimeError} (h : Reached sink units session)
  (hraises : session.RaisesFrom rules fuel source origin t e)

include h hraises

/-- An error is raised at a token of the source, or at one of those that earlier code is made of. -/
theorem Session.RaisesFrom.token {Q : Token → Prop} {g : Census} (hmade : session.MadeOf Q g) :
    origin.Tokens source Q t := by
  obtain ⟨program, n, x, hcompile, hcode, hat⟩ := hraises
  obtain ⟨g', hg', hstart⟩ := hmade.start h hcompile rules fuel
  obtain ⟨-, -, htoken⟩ := (hcode.madeOf hstart hg').token?
    (fun _ _ ht => ht.2) (fun _ _ _ hp => hp.2.1) hat.token
  exact htoken

variable (hrun : (session.run rules fuel source).1 = .failed (.runtime e))

include hrun

/-- The error of a run has the line of the token at which it is raised. -/
theorem Session.RaisesFrom.line : e.line = t.line := by
  obtain ⟨program, n, x, hcompile, -, hat⟩ := hraises
  exact hat.line (h.harmless hcompile rules fuel e hrun)

/-- How far the tokens of this origin move when the source moves down. -/
def Origin.shift (lines : Nat) : Origin → Nat
  | .program => lines
  | .earlier => 0

/--
When a source moves down, its error is the same, and has the line of the token at which it
is raised, which has moved down if the code is that of the source.
-/
theorem Session.RaisesFrom.run_blankLines (hrules : rules.lookup = .byDistance) (lines : Nat) :
    (session.run rules fuel (Item.blankLines lines ++ source)).1 =
      .failed (.runtime ⟨e.cause, t.line + origin.shift lines⟩) := by
  obtain ⟨program, n, x, hcompile, hcode, hat⟩ := hraises
  obtain ⟨program', hcompile', hlike, hmoment, houtcome⟩ :=
    h.run_blankLines hrules hcompile lines fuel
  obtain ⟨g, hmade⟩ := h.madeOf
  obtain ⟨g₁, hg₁, hstart₁⟩ := hmade.start h hcompile rules fuel
  obtain ⟨g₂, hg₂, -⟩ := hmade.start h hcompile' rules fuel
  -- Code of each origin moves as its tokens do; the earlier functions are the same in both runs.
  have hstart : StartLike (.moved (Alongside lines) fun _ => True) (Alongside lines)
      (fun origin => .moved (fun a b => b = a + origin.shift lines) fun _ => True) g₁ g₂
      (session.start fuel program) (session.start fuel program') := by
    refine ⟨hmoment, .executeEach hlike, ?_, fun _ _ _ ht => ht.lexeme⟩
    intro f f' hf hf' hid hlt
    have hsame := (hf.of_within hg₁.within hmade.machine hlt).eq_of_id
      (hf'.of_within hg₂.within hmade.machine (hid ▸ hlt)) hid
    subst hsame
    have hstays : (Likeness.moved (fun a b => b = a + 0) fun _ => True).Reflexive fun _ => True :=
      Likeness.moved_reflexive fun _ => rfl
    exact ⟨.top, f'.declaration.like_self hstays fun _ _ => trivial⟩
  obtain ⟨x', hx', hxs, hcodes⟩ := hcode.like hstart hrules hg₁ hg₂
  obtain ⟨t', e', hat', herror, hmoved⟩ := hat.like hxs hrules hcodes
    (T := fun t t' => t'.line = t.line + origin.shift lines)
    (fun _ _ ht => ht.line) (fun _ _ _ hp => hp.2.2.2.line)
  -- The error that is raised there is the one that ends the second run.
  rw [hrun] at houtcome
  generalize hend : (session.run rules fuel (Item.blankLines lines ++ source)).1 = outcome
    at houtcome
  cases houtcome with
  | runtime _ =>
    obtain ⟨hfails, -⟩ := (Session.failed_iff hcompile' rules fuel _).mp hend
    cases hfails.unique (hx'.fails hat'.fails)
    have hharmless := h.harmless hcompile rules fuel e hrun
    have hline := hat'.line (h.harmless hcompile' rules fuel _ hend)
    obtain ⟨cause', line'⟩ := e'
    cases herror.cause.eq hharmless
    rw [← hmoved, ← hline]

end

end Lox
