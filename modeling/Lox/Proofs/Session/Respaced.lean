import Lox.Proofs.Session.LineByLine
import Lox.Proofs.Token.Respaced

/-!
# Layout without meaning

Apart from the semicolons that it supplies, the layout of a source means nothing.  With one
space between its tokens and all semicolons written out, a source is scanned to the same
tokens, compiles to the same tree with the same distances, and runs in the same way; only
lines are others.
-/

namespace Lox

open Grammar
open Item (respaced scan_respaced tokens scan errors)

/-! ### Tokens -/

theorem Token.writtenOut_of_ne {t : Token} (h : t.kind ≠ .semicolon) : t.writtenOut = t.lexeme := by
  simp [writtenOut, isSupplied, h]

/-- What a token denotes does not depend on how it is laid out. -/
theorem Token.literal?_rewritten (line : Nat → Nat) (t : Token) :
    (t.rewritten line).literal? = t.literal? := by
  by_cases h : t.kind = .semicolon
  · simp [literal?, rewritten, h]
  · simp only [literal?, rewritten, content, writtenOut_of_ne h]

/-- Tokens that are not semicolons stay as they are, except for their lines. -/
theorem Likeness.moved_rewritten (known : NodeId → Prop) (line : Nat → Nat) :
    Respelling (moved (fun a b => b = line a) known) (fun t t' => t' = t.rewritten line) := by
  have hmoved : ∀ t t' : Token, t.kind ≠ .semicolon → t.Moved (fun a b => b = line a) t' →
      t' = t.rewritten line := by
    rintro t ⟨kind, lexeme, n⟩ hkind ⟨rfl, rfl, rfl⟩
    rw [Token.rewritten, Token.writtenOut_of_ne hkind]
  refine ⟨?_, ?_, hmoved, fun _ t t' hkind h => hmoved t t' hkind h.2,
    fun _ p p' hkind h => hmoved p.token p'.token hkind h.2.2.2⟩
  · rintro t t' rfl
    rfl
  · intro t
    exact ⟨_, rfl, fun hkind => Token.writtenOut_of_ne hkind⟩

/-! ### Trees -/

variable {source : String} {program program' : Program} {a n : NodeId}

/-- With one space between its tokens, a source compiles to the same tree, except for lines. -/
theorem Program.compile_respaced (h : compile source a = (.ok program, n)) :
    ∃ program', compile (respaced source) a = (.ok program', n) ∧
      program'.distances = program.distances ∧
      StmtEachLike .lineless .top program.statements program'.statements := by
  obtain ⟨w, last, htokens, hlast, hderives, -, hnext⟩ := derives_of_compile h
  obtain ⟨herrors, body, last₁, last', line, hbody, htokens'⟩ := scan_respaced source
  have hsame : w = body := List.append_inj_left' (htokens.symm.trans hbody) rfl
  have htotal : ∀ n, ∃ n', n' = line n := fun n => ⟨line n, rfl⟩
  obtain ⟨ss', hlike⟩ := Stmt.exists_likeEach (Likeness.moved_total htotal) program.statements
  obtain ⟨w', hw, hderives'⟩ :=
    hderives.carried (Likeness.moved_rewritten (fun _ => True) line) _ _ hlike
  have hnew : List.Forall₂ Eq w' (w.map (Token.rewritten line)) :=
    List.forall₂_map_right_iff.mpr hw.flip
  rw [List.forall₂_eq_eq_eq] at hnew
  rw [hnew, hsame] at hderives'
  obtain ⟨program', hcompile, hlike', hdistances⟩ :=
    compile_like h herrors htokens' rfl hderives' hlike a
  have hle : (Likeness.moved (fun a b => b = line a) fun _ => True).Le .lineless :=
    Likeness.moved_le (fun _ _ _ => trivial) fun _ hid => hid
  exact ⟨program', hnext ▸ hcompile, hdistances rfl,
    (hlike'.mono (Likeness.renumbered_moved_le _ a)).mono hle⟩

/-! ### Runs -/

variable {sink : Sink} {units : List Program} {session : Session} {rules : Rules}

def Outcome.atLine (line : Nat) : Outcome → Outcome
  | .failed (.runtime error) => .failed (.runtime ⟨error.cause, line⟩)
  | outcome => outcome

/-- Runs that end alike without a missing binding differ in the line of their error only. -/
theorem OutcomeLike.exists_atLine {line : Nat → Nat → Prop} {outcome outcome' : Outcome}
    (h : OutcomeLike line outcome outcome')
    (hharmless : ∀ error, outcome = .failed (.runtime error) → error.cause.Harmless) :
    ∃ n, outcome' = outcome.atLine n := by
  cases h with
  | @runtime error error' herror =>
    have hcause := herror.cause.eq (hharmless error rfl)
    exact ⟨error'.line, by rw [Outcome.atLine, ← hcause]⟩
  | _ => exact ⟨0, rfl⟩

/-- Programs that are equal except for lines run alike. -/
theorem Reached.run_lineless {source' : String} (h : Reached sink units session)
    (hrules : rules.lookup = .byDistance)
    (hcompile : Program.compile source session.nextId = (.ok program, n))
    (hcompile' : Program.compile source' session.nextId = (.ok program', n))
    (hdistances : program'.distances = program.distances)
    (hlike : StmtEachLike .lineless .top program.statements program'.statements) (fuel : Nat) :
    OutcomeLike (fun _ _ => True) (session.run rules fuel source).1
        (session.run rules fuel source').1 ∧
      (session.run rules fuel source').2.machine.sink =
        (session.run rules fuel source).2.machine.sink := by
  have hsound := h.steady.learn hcompile
  have hmachine : MachineLike .lineless (fun _ _ => True) .same
      (session.machine.learn program.distances) (session.machine.learn program.distances) :=
    hsound.like_self (Likeness.moved_reflexive fun _ => trivial) (fun _ _ => trivial)
      (Likeness.moved_faithful fun _ _ => rfl)
  obtain ⟨hends, W, -, hbehind⟩ := hmachine.interpret hrules fuel (.same h.steady.current_lt) hlike
  rw [Session.run_eq hcompile, Session.run_eq hcompile', Session.execute, Session.execute, hdistances]
  exact ⟨hends, hbehind.sink⟩

/--
The layout of a source means nothing but its supplied semicolons.  Its tokens with one space
between them, and with these semicolons written, are scanned without errors to tokens of the
same kinds that denote the same.  If the source compiles,
its tokens compile to the same tree, except for lines, with the same distances, and in every
session both run in the same way, except for the line of an error.
-/
theorem Session.run_respaced (source : String) :
    errors (scan (respaced source)) = [] ∧
    (tokens (scan (respaced source))).map (fun t => (t.kind, t.literal?)) =
      (tokens (scan source)).map (fun t => (t.kind, t.literal?)) ∧
    ∀ a program n, Program.compile source a = (.ok program, n) →
      (∃ program', Program.compile (respaced source) a = (.ok program', n) ∧
        program'.distances = program.distances ∧
        StmtEachLike .lineless .top program.statements program'.statements) ∧
      ∀ rules : Rules, rules.lookup = .byDistance →
      ∀ sink units session, Reached sink units session → ∀ fuel,
        (∃ line, (session.run rules fuel (respaced source)).1 =
          (session.run rules fuel source).1.atLine line) ∧
        (session.run rules fuel (respaced source)).2.machine.sink =
          (session.run rules fuel source).2.machine.sink := by
  obtain ⟨herrors', body, last, last', line, htokens, htokens'⟩ := scan_respaced source
  refine ⟨herrors', ?_, ?_⟩
  · rw [htokens, htokens', List.map_append, List.map_append, List.map_map]
    congr 1
    apply List.map_congr_left
    intro t _
    exact congrArg (t.kind, ·) (t.literal?_rewritten line)
  · intro a program n hcompile
    refine ⟨Program.compile_respaced hcompile, ?_⟩
    intro rules hrules sink units session h fuel
    obtain ⟨program₁, n₁, hcompile₁⟩ := Program.compile_of_compile hcompile session.nextId
    obtain ⟨program', hcompile', hdistances, hlike⟩ := Program.compile_respaced hcompile₁
    obtain ⟨hends, hsink⟩ := h.run_lineless hrules hcompile₁ hcompile' hdistances hlike fuel
    exact ⟨hends.exists_atLine (h.harmless hcompile₁ rules fuel), hsink⟩

/-- Three lines, the last of which fails. -/
def threeLines : String := "var n = 1\nprint(n) // one\nprint(-nil)"

theorem threeLines_respaced :
    respaced threeLines = "var n = 1 ; print ( n ) ; print ( - nil ) ;" ∧
    ∃ program n, Program.compile threeLines 0 = (.ok program, n) ∧
      (∃ program', Program.compile (respaced threeLines) 0 = (.ok program', n) ∧
        program'.distances = program.distances) ∧
      ∀ fuel, ∃ line,
        ((Session.initial .unlimited).run ⟨1024, .byDistance, fun _ => 0⟩ fuel
          (respaced threeLines)).1 =
        ((Session.initial .unlimited).run ⟨1024, .byDistance, fun _ => 0⟩ fuel
          threeLines).1.atLine line := by
  have hcompiles : Program.Compiles threeLines := .of_isOk (by decide +kernel)
  obtain ⟨program, n, hcompile⟩ := hcompiles
  have hreached : Reached .unlimited [] (Session.initial .unlimited) := .initial
  obtain ⟨-, -, hall⟩ := Session.run_respaced threeLines
  obtain ⟨⟨program', hcompile', hdistances, -⟩, hruns⟩ := hall 0 program n hcompile
  refine ⟨by decide +kernel, program, n, hcompile, ⟨program', hcompile', hdistances⟩, ?_⟩
  intro fuel
  exact (hruns ⟨1024, .byDistance, fun _ => 0⟩ rfl _ _ _ hreached fuel).1

end Lox
