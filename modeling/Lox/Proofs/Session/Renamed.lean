import Lox.Proofs.Likeness.Exchanged
import Lox.Proofs.Likeness.Sources
import Lox.Proofs.Session.Outcomes

/-!
# Renaming a variable of a scope

A variable or parameter of a local scope can be given any name that the source does not
use.  What changes in the source is the declaration, and the occurrences that the scope is
recorded for; the new source compiles, has the same distances, and runs like the old one.
-/

namespace Lox

open Resolution

/-- The program in which the scope with this number calls a variable by another name. -/
def Program.respell (program : Program) (k : Nat) (x y : String) : Program :=
  ⟨Stmt.respellEach program.distances program.statements (.only k (.exchange x y)) .top,
    program.distances⟩

variable {source : String} {program : Program} {k : Nat} {scope : LocalScope} {t : Token}
  {y : String}

/-- The source does not use the name. -/
def Item.Unused (source name : String) : Prop :=
  ∀ t ∈ Item.tokens (Item.scan source), t.lexeme ≠ name

namespace Program

variable {a n : NodeId}

/-- The names that a variable can have. -/
theorem isName_of_reads (hy : Piece.Reads (.token .identifier) y.toList) : IsName y := by
  have hname := TokenKind.isName_of_ofWord hy.ofWord_eq
  rwa [String.ofList_toList] at hname

theorem isName_of_mem (hcompile : compile source a = (.ok program, n))
    (hscope : (Stmt.localScopesEach program.statements)[k]? = some scope) (ht : ⟨true, t⟩ ∈ scope) :
    IsName t.lexeme :=
  Stmt.namedEach _ (wellMade_of_compile hcompile).shaped scope (List.mem_of_getElem? hscope) _ ht

/-- The trees of a program before and after a variable is renamed. -/
theorem like_respell (hcompile : compile source a = (.ok program, n))
    (hscope : (Stmt.localScopesEach program.statements)[k]? = some scope) (ht : ⟨true, t⟩ ∈ scope)
    (hunused : Item.Unused source y) :
    StmtEachLike ((Likeness.respelled (.exchange t.lexeme y) program.distances).restrict
      (fun u => u.lexeme ≠ y) (fun id => a ≤ id)) .top program.statements
      (program.respell k t.lexeme y).statements := by
  have hdistinct := Resolution.distinct_of_run (compile_eq_ok_iff.mp hcompile).2.2
  have hids := (wellMade_of_compile hcompile).ids
  exact Stmt.like_respellEach program.statements (madeOf hcompile hunused)
    (Surroundings.of_top _)
    (suits_only hdistinct hscope ht fun _ h => h) (fun _ _ _ _ => rfl)
    fun o ho => (hids.bounds o ho).1

/-- The program with the new name is that of a source with the new name. -/
theorem compile_respell (hcompile : compile source a = (.ok program, n))
    (hscope : (Stmt.localScopesEach program.statements)[k]? = some scope) (ht : ⟨true, t⟩ ∈ scope)
    (hy : Piece.Reads (.token .identifier) y.toList) (hunused : Item.Unused source y) :
    ∃ source', Item.Respelled t.lexeme y source source' ∧
      compile source' a = (.ok (program.respell k t.lexeme y), n) := by
  have hlike := like_respell hcompile hscope ht hunused
  obtain ⟨herrors, -, hrun⟩ := compile_eq_ok_iff.mp hcompile
  obtain ⟨w, last, htokens, hlast, hderives, hnumbered, hnext⟩ := derives_of_compile hcompile
  have hrespelling : Grammar.Respelling ((Likeness.respelled (.exchange t.lexeme y)
      program.distances).restrict (fun u => u.lexeme ≠ y) (fun id => a ≤ id))
      (Token.Respelled t.lexeme y) := Likeness.respelled_respelling fun _ h => h
  obtain ⟨w', hw, hderives'⟩ := hderives.carried hrespelling _ _ hlike
  have hall : List.Forall₂ (Token.Respelled t.lexeme y) (Item.tokens (Item.scan source))
      (w' ++ [last]) := by
    rw [htokens]
    exact List.rel_append hw (.cons (.inl rfl) .nil)
  obtain ⟨source', hsource, herrors', htokens'⟩ := Item.exists_respelled herrors hy hall
  have hstatic : ((Likeness.respelled (.exchange t.lexeme y) program.distances).restrict
      (fun u => u.lexeme ≠ y) (fun id => a ≤ id)).Static (· = y)
      fun v => v.Recorded program.distances :=
    Likeness.respelled_static (Renaming.exchange_exchanges _ _) (fun _ h => h)
      ⟨fun hthis => (isName_of_reads hy).1 hthis.symm, fun hsuper => (isName_of_reads hy).2 hsuper.symm⟩
  have hrun' := hlike.run_eq hstatic Likeness.respelled_keepsIds (fun _ => recorded hcompile) hrun
  refine ⟨source', hsource, compile_eq_ok_iff.mpr ⟨herrors', ?_, hrun'⟩⟩
  rw [htokens', Parser.parse_of_derives hderives' hlast, hlike.drawn_eq, ← hnext,
    hlike.numbered_eq Likeness.respelled_keepsIds hnumbered]

end Program

/-! ### Runs -/

variable {sink : Sink} {units : List Program} {session : Session} {n : NodeId} {rules : Rules}

/-- Programs before and after a variable is renamed run alike. -/
theorem Reached.run_respell_like (h : Reached sink units session)
    (hrules : rules.lookup = .byDistance)
    (hcompile : Program.compile source session.nextId = (.ok program, n))
    (hscope : (Stmt.localScopesEach program.statements)[k]? = some scope) (ht : ⟨true, t⟩ ∈ scope)
    (hunused : Item.Unused source y) {source' : String}
    (hcompile' : Program.compile source' session.nextId = (.ok (program.respell k t.lexeme y), n))
    (fuel : Nat) :
    OutcomeLike Eq (session.run rules fuel source).1 (session.run rules fuel source').1 ∧
      (session.run rules fuel source').2.machine.sink =
        (session.run rules fuel source).2.machine.sink := by
  have hlike := Program.like_respell hcompile hscope ht hunused
  have hsound := h.steady.learn hcompile
  have hmachine := hsound.like_self (Likeness.respelled_reflexive (.exchange t.lexeme y) _)
    (fun _ _ => trivial) (Likeness.respelled_faithful _ _)
  obtain ⟨hends, W, -, hbehind⟩ := hmachine.interpret hrules fuel (.same h.steady.current_lt)
    (hlike.mono (Likeness.respelled_le fun _ hid => h.steady.learned_new hid _))
  rw [Session.run_eq hcompile, Session.run_eq hcompile']
  exact ⟨hends, hbehind.sink⟩

/--
A variable or parameter of any local scope can be given a name that the source does not use:
the declaration and the occurrences that the resolution finds in this scope are renamed, and
nothing else.  The source that comes of it compiles, every occurrence is at the same distance,
and in every session the run of the one ends if and as that of the other does, having printed
the same.
-/
theorem Reached.run_respell (h : Reached sink units session) (hrules : rules.lookup = .byDistance)
    (hcompile : Program.compile source session.nextId = (.ok program, n))
    (hscope : (Stmt.localScopesEach program.statements)[k]? = some scope) (ht : ⟨true, t⟩ ∈ scope)
    (hy : Piece.Reads (.token .identifier) y.toList) (hunused : Item.Unused source y) :
    (∀ name, name ≠ y →
      Renaming.exchange t.lexeme y name = if name = t.lexeme then y else name) ∧
    Stmt.localScopesEach (program.respell k t.lexeme y).statements =
      (Stmt.localScopesEach program.statements).modify k
        (List.map (Declaration.respell (.exchange t.lexeme y))) ∧
    ∃ source', Item.Respelled t.lexeme y source source' ∧
      Program.compile source' session.nextId = (.ok (program.respell k t.lexeme y), n) ∧
      ∀ fuel, (session.run rules fuel source').1 = (session.run rules fuel source).1 ∧
        (session.run rules fuel source').2.machine.sink =
          (session.run rules fuel source).2.machine.sink := by
  refine ⟨?_, ?_, ?_⟩
  · intro name hname
    have hx := Program.isName_of_mem hcompile hscope ht
    rw [Renaming.exchange_apply hx (Program.isName_of_reads hy), if_neg hname]
  · rw [Program.respell, Stmt.localScopesEach_respell, LocalScope.respellEach_only]
  · obtain ⟨source', hsource, hcompile'⟩ := Program.compile_respell hcompile hscope ht hy hunused
    refine ⟨source', hsource, hcompile', ?_⟩
    intro fuel
    obtain ⟨hends, hsink⟩ := h.run_respell_like hrules hcompile hscope ht hunused hcompile' fuel
    exact ⟨hends.eq (h.harmless hcompile rules fuel), hsink⟩

/-- A parameter, and a variable of the same name in a block of the function. -/
def shadowing : String := "fun f(x) \x7b \x7b var x = 2; print(x); \x7d return x; \x7d print(f(1));"

/-- The parameter can be renamed, and the variable stays. -/
theorem shadowing_respell :
    ∃ program n, Program.compile shadowing 0 = (.ok program, n) ∧
      (Stmt.localScopesEach program.statements)[0]? = some [⟨true, ⟨.identifier, "x", 1⟩⟩] ∧
      ∃ source', Item.Respelled "x" "y" shadowing source' ∧
        Program.compile source' 0 = (.ok (program.respell 0 "x" "y"), n) ∧
        ∀ fuel, ((Session.initial .unlimited).run ⟨1024, .byDistance, fun _ => 0⟩ fuel source').1 =
          ((Session.initial .unlimited).run ⟨1024, .byDistance, fun _ => 0⟩ fuel shadowing).1 := by
  have hcompiles : Program.Compiles shadowing := .of_isOk (by decide +kernel)
  obtain ⟨program, n, hcompile⟩ := hcompiles
  have hscopes : ((Program.compile shadowing 0).1.toOption.bind fun program =>
      (Stmt.localScopesEach program.statements)[0]?) = some [⟨true, ⟨.identifier, "x", 1⟩⟩] := by
    decide +kernel
  rw [hcompile] at hscopes
  have hreached : Reached .unlimited [] (Session.initial .unlimited) := .initial
  have hrules : (⟨1024, .byDistance, fun _ => 0⟩ : Rules).lookup = .byDistance := rfl
  have hword : TokenKind.ofWord ['y'] = .identifier := by decide +kernel
  have hy : Piece.Reads (.token .identifier) "y".toList :=
    hword ▸ @Piece.Reads.of_ofWord 'y' [] rfl (List.forall_mem_nil _)
  have hunused : Item.Unused shadowing "y" := by
    unfold Item.Unused
    decide +kernel
  obtain ⟨-, -, source', hsource, hcompile', hruns⟩ :=
    hreached.run_respell hrules hcompile hscopes List.mem_cons_self hy hunused
  exact ⟨program, n, hcompile, hscopes, source', hsource, hcompile', fun fuel => (hruns fuel).1⟩

end Lox
