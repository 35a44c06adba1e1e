import Lox.Proofs.Parser.Acceptance
import Lox.Proofs.Tree.Limited

/-!
# Errors in place

Wrong targets of assignments and entries of lists that are too long are noted while their
statement is read on.  Of tokens that the relaxed grammar derives exactly the errors of the
derivation are reported: one for each such place, and no other.
-/

namespace Lox

namespace Grammar.Relaxed

/-! ### What the errors of a derivation are -/

/-- The error is one of a target, at an equals sign, or of an entry of a list, where it starts. -/
inductive InPlace (e : GrammarError) : Prop where
  | target : e.cause.message = "Invalid assignment target." → e.token.kind = .equal → InPlace e
  | parameter : e.cause.message = "Can't have more than 255 parameters." →
    e.token.kind = .identifier → InPlace e
  | argument : e.cause.message = "Can't have more than 255 arguments." →
    e.token.kind ∈ expressionStarts → InPlace e

def AllInPlace (es : List GrammarError) : Prop := ∀ e ∈ es, InPlace e

@[simp]
theorem allInPlace_nil : AllInPlace [] := by
  intro e he
  cases he

@[simp]
theorem allInPlace_append {es es' : List GrammarError} :
    AllInPlace (es ++ es') ↔ AllInPlace es ∧ AllInPlace es' := by
  simp [AllInPlace, or_imp, forall_and]

theorem allInPlace_singleton {e : GrammarError} (h : InPlace e) : AllInPlace [e] := by
  intro e' he'
  rwa [List.mem_singleton.mp he']

theorem allInPlace_misplaced (left : Expr) {equals : Token} (h : equals.kind = .equal) :
    AllInPlace (misplaced left equals) := by
  unfold misplaced
  split
  · exact allInPlace_nil
  · exact allInPlace_singleton (.target rfl h)

theorem allInPlace_argument (before : Nat) {first : Token} (h : first.kind ∈ expressionStarts) :
    AllInPlace (excess .arguments before first) := by
  unfold excess
  split
  · exact allInPlace_nil
  · exact allInPlace_singleton (.argument rfl h)

theorem allInPlace_parameter (before : Nat) {name : Token} (h : name.kind = .identifier) :
    AllInPlace (excess .parameters before name) := by
  unfold excess
  split
  · exact allInPlace_nil
  · exact allInPlace_singleton (.parameter rfl h)

theorem ExprDerives.allInPlace {phrase : ExprPhrase} {w : List Token} {es : List GrammarError}
    (h : ExprDerives phrase w es) : AllInPlace es := by
  induction h with
  | assignment _ hequals _ ih ih' => simp [ih, ih', allInPlace_misplaced _ hequals]
  | operation _ ih => exact ih
  | binary _ _ ih ih' => simp [ih, ih']
  | binaryEnd | callEnd | simple => exact allInPlace_nil
  | binaryMore _ _ _ ih ih' => simp [ih, ih']
  | prefixed _ _ ih => exact ih
  | unprefixed _ ih => exact ih
  | call _ _ ih ih' => simp [ih, ih']
  | callEmpty _ _ _ ih => exact ih
  | callWith _ _ _ _ ih ih' => simp [ih, ih']
  | property _ _ _ ih => exact ih
  | argument h ih =>
    obtain ⟨_, _, ⟨⟩, hfirst⟩ := h.starts id
    simp [ih, allInPlace_argument _ hfirst]
  | argumentsMore h _ _ ih ih' =>
    obtain ⟨_, _, ⟨⟩, hfirst⟩ := h.starts id
    simp [ih, ih', allInPlace_argument _ hfirst]
  | group _ _ _ ih => exact ih

theorem OptionalExpr.allInPlace {found : Option Expr} {w : List Token} {es : List GrammarError}
    (h : OptionalExpr found w es) : AllInPlace es := by
  cases h with
  | absent => exact allInPlace_nil
  | present he => exact he.allInPlace

theorem ExprStmt.allInPlace {s : Stmt} {w : List Token} {es : List GrammarError}
    (h : ExprStmt s w es) : AllInPlace es := by
  cases h with
  | mk he => exact he.allInPlace

theorem VarDecl.allInPlace {s : Stmt} {w : List Token} {es : List GrammarError}
    (h : VarDecl s w es) : AllInPlace es := by
  cases h with
  | plain => exact allInPlace_nil
  | initialized _ _ _ he => exact he.allInPlace

theorem ForInit.allInPlace {initializer : Option Stmt} {w : List Token} {es : List GrammarError}
    (h : ForInit initializer w es) : AllInPlace es := by
  cases h with
  | var hvar => exact hvar.allInPlace
  | expression he => exact he.allInPlace
  | absent => exact allInPlace_nil

theorem Parameters.allInPlace {before : Nat} {names w : List Token} {es : List GrammarError}
    (h : Parameters before names w es) : AllInPlace es := by
  induction h with
  | one hname => exact allInPlace_parameter _ hname
  | more hname _ _ ih => simp [ih, allInPlace_parameter _ hname]

theorem OptionalParameters.allInPlace {names w : List Token} {es : List GrammarError}
    (h : OptionalParameters names w es) : AllInPlace es := by
  cases h with
  | absent => exact allInPlace_nil
  | present hnames => exact hnames.allInPlace

theorem StmtDerives.allInPlace {attachment : Attachment} {phrase : StmtPhrase} {w : List Token}
    {es : List GrammarError} (h : StmtDerives attachment phrase w es) : AllInPlace es := by
  induction h with
  | classDecl _ _ _ _ _ _ ih => exact ih
  | funDecl _ _ ih => exact ih
  | varDecl hvar => exact hvar.allInPlace
  | plain _ ih => exact ih
  | declarationsEnd | functionsEnd | breakStmt | continueStmt => exact allInPlace_nil
  | declarationsMore _ _ ih ih' => simp [ih, ih']
  | function _ _ hparameters _ _ _ _ ih => simp [ih, hparameters.allInPlace]
  | functionsMore _ _ ih ih' => simp [ih, ih']
  | exprStmt he => exact he.allInPlace
  | forStmt _ _ hinit hcondition _ hincrement _ _ ih =>
    simp [ih, hinit.allInPlace, hcondition.allInPlace, hincrement.allInPlace]
  | ifStmt _ _ hcondition _ _ ih => simp [ih, hcondition.allInPlace]
  | ifElseStmt _ _ hcondition _ _ _ _ _ ih ih' => simp [ih, ih', hcondition.allInPlace]
  | returnStmt _ hvalue => exact hvalue.allInPlace
  | whileStmt _ _ hcondition _ _ ih => simp [ih, hcondition.allInPlace]
  | block _ _ _ ih => exact ih

end Grammar.Relaxed

namespace Parser

open Grammar

/-! ### What is reported -/

def reported : Except (List GrammarError) (List Stmt) → List GrammarError
  | .ok _ => []
  | .error es => es

/-- What is noted while declarations are read up to the end of input is reported. -/
theorem reported_of_reads {nextId : NodeId} {w : List Token} {es : List GrammarError}
    {post : List Stmt → NodeId → Prop} {last : Token}
    (h : ReadsFrom nextId (fun fuel => declarations fuel [.eof]) w es (· ∈ [TokenKind.eof]) post)
    (hlast : last.kind = .eof) : reported (parse (w ++ [last]) nextId).1 = es := by
  obtain ⟨program, n, hrun, -⟩ := h [last] [] (List.mem_singleton.mpr hlast)
  rw [parse_of_settles hrun]
  cases es <;> rfl

/-- The errors of a derivation are reported, and none but these. -/
theorem reported_of_relaxed {tokens : List Token} {es : List GrammarError}
    (h : Relaxed.Program .free es tokens) (nextId : NodeId) :
    reported (parse tokens nextId).1 = es ∧
      ((∃ program, (parse tokens nextId).1 = .ok program) ↔ es = []) := by
  cases Relaxed.program_nearest h with
  | mk hderives hlast =>
    obtain ⟨program, n, hparse, -⟩ := parse_of_relaxed hderives hlast nextId
    rw [hparse]
    cases es with
    | nil => exact ⟨rfl, fun _ => rfl, fun _ => ⟨program, rfl⟩⟩
    | cons e es =>
      refine ⟨rfl, ?_, ?_⟩
      · rintro ⟨_, ⟨⟩⟩
      · rintro ⟨⟩

/-- The statements that a parse returns have no list that is too long. -/
theorem limited_of_parse {tokens : List Token} {nextId : NodeId} {program : List Stmt}
    (h : (parse tokens nextId).1 = .ok program) : Stmt.LimitedEach program := by
  unfold parse at h
  split at h
  · rename_i ss s hrun
    by_cases hclean : s.errors = []
    · simp only [hclean, List.isEmpty_nil, if_true, Except.ok.injEq] at h
      subst h
      obtain ⟨htook, -⟩ := (stmtSound _).declarations [.eof] _ ss s hrun
      obtain ⟨-, w, -, hderives⟩ := htook hclean
      exact hderives.limited
    · simp [hclean] at h
  · cases h

/--
Of tokens that the relaxed grammar derives, a parse reports exactly the errors in place: one
for each assignment to neither a name nor a property access, and one for each parameter and
each argument that its list has no place for.  It succeeds if there are none.  The lists of
what any parse returns have at most the greatest length, and the superclasses are names.
-/
theorem parse_reports_in_place :
    (∀ tokens es nextId, Relaxed.Program .free es tokens →
      (∀ e ∈ es, Relaxed.InPlace e) ∧ reported (parse tokens nextId).1 = es ∧
      ((∃ program, (parse tokens nextId).1 = .ok program) ↔ es = [])) ∧
    ∀ tokens nextId program, (parse tokens nextId).1 = .ok program →
      Stmt.LimitedEach program := by
  constructor
  · intro tokens es nextId h
    refine ⟨?_, reported_of_relaxed h nextId⟩
    cases h with
    | mk hderives => exact hderives.allInPlace
  · intro tokens nextId program h
    exact limited_of_parse h

/-- An assignment to a name in parentheses, on the first line. -/
def parenthesizedTarget : List Token :=
  [⟨.leftParen, "(", 1⟩, nameToken "a", ⟨.rightParen, ")", 1⟩, ⟨.equal, "=", 1⟩, nameToken "b",
   ⟨.semicolon, ";", 1⟩, .endOfInput 1]

theorem parenthesizedTarget_derived :
    Relaxed.Program .free [⟨.invalidTarget, ⟨.equal, "=", 1⟩⟩] parenthesizedTarget := by
  have ha := Relaxed.unbroken_expr (derives_name 0 (t := nameToken "a") rfl)
  have hb := Relaxed.unbroken_expr (derives_name 1 (t := nameToken "b") rfl)
  have hgroup := @Relaxed.ExprDerives.group _ ⟨.leftParen, "(", 1⟩ ⟨.rightParen, ")", 1⟩ _ _ rfl
    ha rfl
  have hleft := (Relaxed.ExprDerives.call hgroup .callEnd).logicOr_of_call
  have hassign := @Relaxed.ExprDerives.assignment _ _ ⟨.equal, "=", 1⟩ _ _ _ _ hleft rfl hb
  have hstmt := @Relaxed.ExprStmt.mk _ _ _ ⟨.semicolon, ";", 1⟩ hassign rfl
  exact .mk (.declarationsMore (.plain (.exprStmt hstmt)) .declarationsEnd) rfl

/-- A name and a semicolon, on the first line. -/
def nameStatement : List Token := [nameToken "a", ⟨.semicolon, ";", 1⟩, .endOfInput 1]

theorem nameStatement_parsed :
    (parse nameStatement 0).1 = .ok [.expression (.read ⟨0, nameToken "a"⟩)] := by
  have ha : ExprStmt (.expression (.read ⟨0, nameToken "a"⟩)) [nameToken "a", ⟨.semicolon, ";", 1⟩] :=
    .mk (derives_name 0 rfl) rfl
  have hderives : StmtDerives .nearest (.declarations [_]) (_ ++ []) :=
    .declarationsMore (.plain (.exprStmt ha)) .declarationsEnd
  exact congrArg Prod.fst (@parse_of_derives _ _ (.endOfInput 1) hderives rfl 0)

theorem parenthesizedTarget_reported :
    reported (parse parenthesizedTarget 0).1 = [⟨.invalidTarget, ⟨.equal, "=", 1⟩⟩] ∧
      Stmt.LimitedEach [.expression (.read ⟨0, nameToken "a"⟩)] :=
  ⟨(parse_reports_in_place.1 _ _ 0 parenthesizedTarget_derived).2.1,
    parse_reports_in_place.2 nameStatement 0 _ nameStatement_parsed⟩

end Parser

end Lox
