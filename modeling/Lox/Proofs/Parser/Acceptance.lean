import Lox.Proofs.Grammar.DanglingElse
import Lox.Proofs.Grammar.Unbroken
import Lox.Proofs.Parser.StatementComplete

/-!
# The parser accepts exactly the grammar

A token sequence is parsed without an error if and only if it is derived from
`program`.  The statements are then the tree of the derivation that gives every
`else` to the nearest `if`, with the identities in the order of reading.
-/

namespace Lox.Parser

open Lox.Grammar

/-- What the parser makes of the tokens of a derivation, with the errors in them. -/
theorem parse_of_relaxed {tree : List Stmt} {w : List Token} {es : List GrammarError}
    {last : Token} (h : Relaxed.StmtDerives .nearest (.declarations tree) w es)
    (hlast : last.kind = .eof) (nextId : NodeId) :
    ∃ program n, parse (w ++ [last]) nextId =
        (if es.isEmpty then .ok program else .error es, n) ∧
      (es = [] → program = Stmt.numberedEach nextId tree ∧ n = nextId + Stmt.drawnEach tree) := by
  obtain ⟨program, n, hrun, hexact⟩ := readsStmt h nextId [.eof] (by decide) [last] []
    (List.mem_singleton.mpr hlast)
  exact ⟨program, n, parse_of_settles hrun, hexact trivial⟩

/-- A derivation of the tokens before the end of input is a successful parse. -/
theorem parse_of_derives {tree : List Stmt} {w : List Token} {last : Token}
    (h : StmtDerives .nearest (.declarations tree) w) (hlast : last.kind = .eof) (nextId : Nat) :
    parse (w ++ [last]) nextId =
      (.ok (Stmt.numberedEach nextId tree), nextId + Stmt.drawnEach tree) := by
  obtain ⟨program, n, hparse, hexact⟩ := parse_of_relaxed (Relaxed.unbroken h) hlast nextId
  obtain ⟨rfl, rfl⟩ := hexact rfl
  exact hparse

/-- What is left when the declarations end is the end of input alone. -/
theorem eq_snoc_of_endsWithOnlyEof {tokens w rest : List Token} (h : EndsWithOnlyEof tokens)
    (hsplit : tokens = w ++ rest) (hw : NoEof w) (hrest : nextKind rest = .eof) :
    ∃ last, tokens = w ++ [last] ∧ last.kind = .eof := by
  obtain ⟨body, last, rfl, hlast, hbody⟩ := h
  cases rest with
  | nil =>
    rw [List.append_nil] at hsplit
    have hmem : last ∈ w := by
      rw [← hsplit]
      exact List.mem_append_right body List.mem_cons_self
    exact absurd hlast (hw last hmem)
  | cons t rest =>
    -- Only the last token ends the input, so `t` is the last one.
    have hnil : rest = [] := by
      rcases List.eq_nil_or_concat rest with rfl | ⟨front, final, rfl⟩
      · rfl
      · have hassoc : body ++ [last] = (w ++ t :: front) ++ [final] := by
          rw [hsplit, List.append_assoc, List.concat_eq_append]
          rfl
        have hparts := List.append_inj_left' hassoc rfl
        have hmem : t ∈ body := by
          rw [hparts]
          exact List.mem_append_right w List.mem_cons_self
        exact absurd hrest (hbody t hmem)
    rw [hnil] at hsplit
    exact ⟨t, hsplit, hrest⟩

/-- A successful parse follows a derivation. -/
theorem derives_of_parse {tokens : List Token} {nextId : Nat} {program : List Stmt}
    (h : EndsWithOnlyEof tokens) (hparse : (parse tokens nextId).1 = .ok program) :
    Grammar.Program .nearest program tokens := by
  unfold parse at hparse
  split at hparse
  · rename_i ss s hrun
    by_cases hclean : s.errors = []
    · simp only [hclean, List.isEmpty_nil, if_true, Except.ok.injEq] at hparse
      subst hparse
      obtain ⟨htook, hending⟩ := (stmtSound _).declarations [.eof] _ ss s hrun
      obtain ⟨-, w, hw, hderives⟩ := htook hclean
      have hahead : nextKind s.rest = .eof := List.mem_singleton.mp hending
      obtain ⟨last, rfl, hlast⟩ := eq_snoc_of_endsWithOnlyEof h hw hderives.noEof hahead
      exact .mk hderives hlast
    · simp [hclean] at hparse
  · cases hparse

/-- Tokens whose program passes a test are parsed to such a program. -/
theorem exists_of_any {tokens : List Token} {nextId : Nat} {test : List Stmt → Bool}
    (h : (parse tokens nextId).1.toOption.any test = true) :
    ∃ program, (parse tokens nextId).1 = .ok program ∧ test program = true := by
  cases hparse : (parse tokens nextId).1 with
  | error errors =>
    rw [hparse] at h
    cases h
  | ok program =>
    rw [hparse] at h
    exact ⟨program, rfl, h⟩

/-- The trees of one token sequence differ in their identities only. -/
theorem parse_eq_numbered {tree : List Stmt} {tokens : List Token}
    (h : Grammar.Program .nearest tree tokens) (nextId : Nat) :
    parse tokens nextId = (.ok (Stmt.numberedEach nextId tree), nextId + Stmt.drawnEach tree) := by
  cases h with
  | mk hderives hlast => exact parse_of_derives hderives hlast nextId

/-- Only the last token of a program is the end of input. -/
theorem endsWithOnlyEof_of_program {attachment : Attachment} {tree : List Stmt}
    {tokens : List Token} (h : Grammar.Program attachment tree tokens) :
    EndsWithOnlyEof tokens := by
  cases h with
  | mk hderives hlast => exact ⟨_, _, rfl, hlast, hderives.noEof⟩

/-- Without errors in place, what the relaxed grammar derives is a program. -/
theorem program_of_relaxed {tokens : List Token} (h : EndsWithOnlyEof tokens)
    (hrelaxed : Relaxed.Program .free [] tokens) :
    ∃ tree, Grammar.Program .nearest tree tokens := by
  cases Relaxed.program_nearest hrelaxed with
  | mk hderives hlast =>
    obtain ⟨program, n, hparse, -⟩ := parse_of_relaxed hderives hlast 0
    exact ⟨program, derives_of_parse h (congrArg Prod.fst hparse)⟩

theorem program_nearest_of_free {tree : List Stmt} {tokens : List Token}
    (h : Grammar.Program .free tree tokens) : ∃ tree', Grammar.Program .nearest tree' tokens := by
  refine program_of_relaxed (endsWithOnlyEof_of_program h) ?_
  cases h with
  | mk hderives hlast => exact .mk (Relaxed.unbroken hderives) hlast

theorem program_free_of_nearest {tree : List Stmt} {tokens : List Token}
    (h : Grammar.Program .nearest tree tokens) : Grammar.Program .free tree tokens := by
  cases h with
  | mk hderives hlast => exact .mk hderives.free hlast

/--
The parser accepts exactly the token sequences that the grammar derives, and
returns the tree whose every `else` belongs to the nearest `if`.
-/
theorem parse_ok_iff_derives (tokens : List Token) (nextId : Nat) (h : EndsWithOnlyEof tokens) :
    ((∃ program, (parse tokens nextId).1 = .ok program) ↔
      ∃ tree, Grammar.Program .free tree tokens) ∧
    ∀ program, (parse tokens nextId).1 = .ok program ↔
      ∃ tree, Grammar.Program .nearest tree tokens ∧
        program = Stmt.numberedEach nextId tree := by
  constructor
  · constructor
    · rintro ⟨program, hparse⟩
      exact ⟨program, program_free_of_nearest (derives_of_parse h hparse)⟩
    · rintro ⟨tree, hfree⟩
      obtain ⟨tree', hnearest⟩ := program_nearest_of_free hfree
      exact ⟨_, by rw [parse_eq_numbered hnearest nextId]⟩
  · intro program
    constructor
    · intro hparse
      have hnearest := derives_of_parse h hparse
      refine ⟨program, hnearest, ?_⟩
      rw [parse_eq_numbered hnearest nextId] at hparse
      exact (Except.ok.inj hparse).symm
    · rintro ⟨tree, hnearest, rfl⟩
      rw [parse_eq_numbered hnearest nextId]

theorem derives_operand {rule : BinaryRule} {e : Expr} {w : List Token}
    (h : ExprDerives (rule.operand e) w) : ExprDerives (.binary rule e) w := by
  have hrule := ExprDerives.binary h .binaryEnd
  rwa [List.append_nil] at hrule

/-- A name by itself is an expression. -/
theorem derives_name (id : Nat) {t : Token} (h : t.kind = .identifier) :
    ExprDerives (.expression (.read ⟨id, t⟩)) [t] := by
  have hunary : ExprDerives (.unary (.read ⟨id, t⟩)) [t] := .unprefixed (.call (.name h) .callEnd)
  have hfactor := @derives_operand .factor _ _ hunary
  have hterm := @derives_operand .term _ _ hfactor
  have hcomparison := @derives_operand .comparison _ _ hterm
  have hequality := @derives_operand .equality _ _ hcomparison
  have hand := @derives_operand .logicAnd _ _ hequality
  exact .operation (@derives_operand .logicOr _ _ hand)

def nameToken (name : String) : Token := ⟨.identifier, name, 1⟩

/-- The tokens of `if (a) if (b) c; else d;`. -/
def danglingElse : List Token :=
  [⟨.kwIf, "if", 1⟩, ⟨.leftParen, "(", 1⟩, nameToken "a", ⟨.rightParen, ")", 1⟩,
   ⟨.kwIf, "if", 1⟩, ⟨.leftParen, "(", 1⟩, nameToken "b", ⟨.rightParen, ")", 1⟩,
   nameToken "c", ⟨.semicolon, ";", 1⟩, ⟨.kwElse, "else", 1⟩,
   nameToken "d", ⟨.semicolon, ";", 1⟩, .endOfInput 1]

def danglingElseTree : List Stmt :=
  [.conditional (.read ⟨0, nameToken "a"⟩)
    (.conditional (.read ⟨1, nameToken "b"⟩) (.expression (.read ⟨2, nameToken "c"⟩))
      (some (.expression (.read ⟨3, nameToken "d"⟩)))) none]

theorem danglingElse_derived : Grammar.Program .nearest danglingElseTree danglingElse := by
  have hc : ExprStmt (.expression (.read ⟨2, nameToken "c"⟩)) [nameToken "c", ⟨.semicolon, ";", 1⟩] :=
    .mk (derives_name 2 rfl) rfl
  have hd : ExprStmt (.expression (.read ⟨3, nameToken "d"⟩)) [nameToken "d", ⟨.semicolon, ";", 1⟩] :=
    .mk (derives_name 3 rfl) rfl
  have ha := derives_name 0 (t := nameToken "a") rfl
  have hb := derives_name 1 (t := nameToken "b") rfl
  have hinner := @StmtDerives.ifElseStmt .nearest ⟨.kwIf, "if", 1⟩ ⟨.leftParen, "(", 1⟩
    ⟨.rightParen, ")", 1⟩ ⟨.kwElse, "else", 1⟩ _ _ _ _ _ _ _ _ rfl rfl
    hb rfl (.exprStmt hc) (fun _ => rfl) rfl (.exprStmt hd)
  have houter := @StmtDerives.ifStmt .nearest ⟨.kwIf, "if", 1⟩ ⟨.leftParen, "(", 1⟩
    ⟨.rightParen, ")", 1⟩ _ _ _ _ _ rfl rfl ha rfl hinner
  exact .mk (.declarationsMore (.plain houter) .declarationsEnd) rfl

theorem danglingElse_accepted :
    EndsWithOnlyEof danglingElse ∧ (parse danglingElse 0).1 = .ok danglingElseTree := by
  have honly : EndsWithOnlyEof danglingElse :=
    ⟨danglingElse.dropLast, .endOfInput 1, rfl, rfl, by decide⟩
  exact ⟨honly, ((parse_ok_iff_derives danglingElse 0 honly).2 danglingElseTree).mpr
    ⟨danglingElseTree, danglingElse_derived, rfl⟩⟩

end Lox.Parser
