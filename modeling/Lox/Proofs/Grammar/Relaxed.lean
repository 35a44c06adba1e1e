import Lox.Diagnostic
import Lox.Proofs.Grammar.Heads

/-!
# The grammar without its checks in place

Two rules are such that the parser finds them broken only when it has read what breaks
them, and goes on reading: left of an equals sign stands a name or a property access, and
a list of parameters or arguments has a limited length.  Here the grammar is relaxed by
both of them,

```text
assignment     → logicOr "=" assignment | logicOr ;
```

and each phrase comes with the errors that are found in it, in the order of reading.  An
assignment to anything else is wrong at the equals sign, when both of its sides were read;
an entry of a list that has its full length already is wrong at its first token, before it
is read.  The phrases of the grammar as it is are those without errors.
-/

namespace Lox

def Expr.isTarget : Expr → Bool
  | .read _ => true
  | .get _ _ => true
  | _ => false

namespace Grammar.Relaxed

/-! ### Errors in place -/

/-- What an assignment stands for; without a target it is only what stands on its left. -/
def assigned (left value : Expr) : Expr :=
  match left with
  | .read place => .assign place value
  | .get object name => .set object name value
  | other => other

/-- The error in an assignment to neither a name nor a property access. -/
def misplaced (left : Expr) (equals : Token) : List GrammarError :=
  if left.isTarget then [] else [⟨.invalidTarget, equals⟩]

/-- The error in an entry, with its first token, behind `before` others of a list. -/
def excess (list : LimitedList) (before : Nat) (first : Token) : List GrammarError :=
  if before < longestList then [] else [⟨.tooMany list, first⟩]

/-! ### Expressions -/

/-- The phrases of which expressions consist; arguments stand behind others of their list. -/
inductive ExprPhrase where
  | expression (tree : Expr)
  | binary (rule : BinaryRule) (tree : Expr)
  | binaryRest (rule : BinaryRule) (left tree : Expr)
  | unary (tree : Expr)
  | call (tree : Expr)
  | callRest (callee tree : Expr)
  | arguments (before : Nat) (trees : List Expr)
  | primary (tree : Expr)

def operand : BinaryRule → Expr → ExprPhrase
  | .logicOr => .binary .logicAnd
  | .logicAnd => .binary .equality
  | .equality => .binary .comparison
  | .comparison => .binary .term
  | .term => .binary .factor
  | .factor => .unary

/-- Which tokens form which expressions, and the errors in them. -/
inductive ExprDerives : ExprPhrase → List Token → List GrammarError → Prop where
  -- assignment → logicOr "=" assignment | logicOr
  | assignment {left value : Expr} {equals : Token} {w₁ w₂ : List Token}
      {es₁ es₂ : List GrammarError} :
      ExprDerives (.binary .logicOr left) w₁ es₁ → equals.kind = .equal →
      ExprDerives (.expression value) w₂ es₂ →
      ExprDerives (.expression (assigned left value)) (w₁ ++ equals :: w₂)
        (es₁ ++ (es₂ ++ misplaced left equals))
  | operation {e : Expr} {w : List Token} {es : List GrammarError} :
      ExprDerives (.binary .logicOr e) w es → ExprDerives (.expression e) w es
  -- rule → operand ( operator operand )*
  | binary {rule : BinaryRule} {left e : Expr} {w₁ w₂ : List Token}
      {es₁ es₂ : List GrammarError} :
      ExprDerives (operand rule left) w₁ es₁ → ExprDerives (.binaryRest rule left e) w₂ es₂ →
      ExprDerives (.binary rule e) (w₁ ++ w₂) (es₁ ++ es₂)
  | binaryEnd {rule : BinaryRule} {left : Expr} : ExprDerives (.binaryRest rule left left) [] []
  | binaryMore {rule : BinaryRule} {left right e : Expr} {operator : Token}
      {w₁ w₂ : List Token} {es₁ es₂ : List GrammarError} :
      operator.kind ∈ rule.operators → ExprDerives (operand rule right) w₁ es₁ →
      ExprDerives (.binaryRest rule (rule.node left operator right) e) w₂ es₂ →
      ExprDerives (.binaryRest rule left e) (operator :: (w₁ ++ w₂)) (es₁ ++ es₂)
  -- unary → ( "!" | "-" ) unary | call
  | prefixed {operator : Token} {e : Expr} {w : List Token} {es : List GrammarError} :
      operator.kind = .bang ∨ operator.kind = .minus → ExprDerives (.unary e) w es →
      ExprDerives (.unary (.unary operator e)) (operator :: w) es
  | unprefixed {e : Expr} {w : List Token} {es : List GrammarError} :
      ExprDerives (.call e) w es → ExprDerives (.unary e) w es
  -- call → primary ( "(" arguments? ")" | "." IDENT )*
  | call {callee e : Expr} {w₁ w₂ : List Token} {es₁ es₂ : List GrammarError} :
      ExprDerives (.primary callee) w₁ es₁ → ExprDerives (.callRest callee e) w₂ es₂ →
      ExprDerives (.call e) (w₁ ++ w₂) (es₁ ++ es₂)
  | callEnd {callee : Expr} : ExprDerives (.callRest callee callee) [] []
  | callEmpty {callee e : Expr} {opening closing : Token} {w : List Token}
      {es : List GrammarError} :
      opening.kind = .leftParen → closing.kind = .rightParen →
      ExprDerives (.callRest (.call callee closing []) e) w es →
      ExprDerives (.callRest callee e) (opening :: closing :: w) es
  | callWith {callee e : Expr} {arguments : List Expr} {opening closing : Token}
      {w₁ w₂ : List Token} {es₁ es₂ : List GrammarError} :
      opening.kind = .leftParen → ExprDerives (.arguments 0 arguments) w₁ es₁ →
      closing.kind = .rightParen →
      ExprDerives (.callRest (.call callee closing arguments) e) w₂ es₂ →
      ExprDerives (.callRest callee e) (opening :: (w₁ ++ closing :: w₂)) (es₁ ++ es₂)
  | property {callee e : Expr} {dot name : Token} {w : List Token} {es : List GrammarError} :
      dot.kind = .dot → name.kind = .identifier →
      ExprDerives (.callRest (.get callee name) e) w es →
      ExprDerives (.callRest callee e) (dot :: name :: w) es
  -- arguments → expression ( "," expression )*, of any length
  | argument {before : Nat} {e : Expr} {first : Token} {w : List Token}
      {es : List GrammarError} :
      ExprDerives (.expression e) (first :: w) es →
      ExprDerives (.arguments before [e]) (first :: w) (excess .arguments before first ++ es)
  | argumentsMore {before : Nat} {e : Expr} {trees : List Expr} {first comma : Token}
      {w₁ w₂ : List Token} {es₁ es₂ : List GrammarError} :
      ExprDerives (.expression e) (first :: w₁) es₁ → comma.kind = .comma →
      ExprDerives (.arguments (before + 1) trees) w₂ es₂ →
      ExprDerives (.arguments before (e :: trees)) (first :: w₁ ++ comma :: w₂)
        (excess .arguments before first ++ (es₁ ++ es₂))
  -- primary, where only an expression in parentheses contains others
  | simple {e : Expr} {w : List Token} :
      Grammar.ExprDerives (.primary e) w → (∀ inner, e ≠ .group inner) →
      ExprDerives (.primary e) w []
  | group {e : Expr} {opening closing : Token} {w : List Token} {es : List GrammarError} :
      opening.kind = .leftParen → ExprDerives (.expression e) w es →
      closing.kind = .rightParen →
      ExprDerives (.primary (.group e)) (opening :: (w ++ [closing])) es

inductive OptionalExpr : Option Expr → List Token → List GrammarError → Prop where
  | absent : OptionalExpr none [] []
  | present {e : Expr} {w : List Token} {es : List GrammarError} :
      ExprDerives (.expression e) w es → OptionalExpr (some e) w es

/-! ### Statements and declarations -/

/-- `exprStmt → expression ";"` -/
inductive ExprStmt : Stmt → List Token → List GrammarError → Prop where
  | mk {e : Expr} {w : List Token} {es : List GrammarError} {semicolon : Token} :
      ExprDerives (.expression e) w es → semicolon.kind = .semicolon →
      ExprStmt (.expression e) (w ++ [semicolon]) es

/-- `varDecl → "var" IDENT ( "=" expression )? ";"` -/
inductive VarDecl : Stmt → List Token → List GrammarError → Prop where
  | plain {keyword name semicolon : Token} :
      keyword.kind = .kwVar → name.kind = .identifier → semicolon.kind = .semicolon →
      VarDecl (.var name none) [keyword, name, semicolon] []
  | initialized {keyword name equals semicolon : Token} {e : Expr} {w : List Token}
      {es : List GrammarError} :
      keyword.kind = .kwVar → name.kind = .identifier → equals.kind = .equal →
      ExprDerives (.expression e) w es → semicolon.kind = .semicolon →
      VarDecl (.var name (some e)) (keyword :: name :: equals :: (w ++ [semicolon])) es

/-- The first clause of a `for` loop: `varDecl | exprStmt | ";"`. -/
inductive ForInit : Option Stmt → List Token → List GrammarError → Prop where
  | var {s : Stmt} {w : List Token} {es : List GrammarError} :
      VarDecl s w es → ForInit (some s) w es
  | expression {s : Stmt} {w : List Token} {es : List GrammarError} :
      ExprStmt s w es → ForInit (some s) w es
  | absent {semicolon : Token} : semicolon.kind = .semicolon → ForInit none [semicolon] []

/-- `parameters → IDENT ( "," IDENT )*`, of any length, behind `before` others. -/
inductive Parameters : Nat → List Token → List Token → List GrammarError → Prop where
  | one {before : Nat} {name : Token} :
      name.kind = .identifier → Parameters before [name] [name] (excess .parameters before name)
  | more {before : Nat} {name comma : Token} {names w : List Token} {es : List GrammarError} :
      name.kind = .identifier → comma.kind = .comma → Parameters (before + 1) names w es →
      Parameters before (name :: names) (name :: comma :: w)
        (excess .parameters before name ++ es)

/-- `parameters?` -/
inductive OptionalParameters : List Token → List Token → List GrammarError → Prop where
  | absent : OptionalParameters [] [] []
  | present {names w : List Token} {es : List GrammarError} :
      Parameters 0 names w es → OptionalParameters names w es

/-- Which tokens form which statements and declarations, and the errors in them. -/
inductive StmtDerives (attachment : Attachment) :
    StmtPhrase → List Token → List GrammarError → Prop where
  -- declaration → classDecl | funDecl | varDecl | statement
  | classDecl {keyword name opening closing : Token} {superclass : Option Occurrence}
      {methods : List FunctionDecl} {w₁ w₂ : List Token} {es : List GrammarError} :
      keyword.kind = .kwClass → name.kind = .identifier → Superclass superclass w₁ →
      opening.kind = .leftBrace → StmtDerives attachment (.functions methods) w₂ es →
      closing.kind = .rightBrace →
      StmtDerives attachment (.declaration (.class name superclass methods))
        (keyword :: name :: (w₁ ++ opening :: (w₂ ++ [closing]))) es
  | funDecl {keyword : Token} {d : FunctionDecl} {w : List Token} {es : List GrammarError} :
      keyword.kind = .kwFun → StmtDerives attachment (.function d) w es →
      StmtDerives attachment (.declaration (.function d)) (keyword :: w) es
  | varDecl {s : Stmt} {w : List Token} {es : List GrammarError} :
      VarDecl s w es → StmtDerives attachment (.declaration s) w es
  | plain {ending : Ending} {s : Stmt} {w : List Token} {es : List GrammarError} :
      StmtDerives attachment (.statement ending s) w es →
      StmtDerives attachment (.declaration s) w es
  -- declaration*
  | declarationsEnd : StmtDerives attachment (.declarations []) [] []
  | declarationsMore {s : Stmt} {ss : List Stmt} {w₁ w₂ : List Token}
      {es₁ es₂ : List GrammarError} :
      StmtDerives attachment (.declaration s) w₁ es₁ →
      StmtDerives attachment (.declarations ss) w₂ es₂ →
      StmtDerives attachment (.declarations (s :: ss)) (w₁ ++ w₂) (es₁ ++ es₂)
  -- function → IDENT "(" parameters? ")" block
  | function {name leftParen rightParen opening closing : Token} {parameters : List Token}
      {body : List Stmt} {w₁ w₂ : List Token} {es₁ es₂ : List GrammarError} :
      name.kind = .identifier → leftParen.kind = .leftParen →
      OptionalParameters parameters w₁ es₁ → rightParen.kind = .rightParen →
      opening.kind = .leftBrace → StmtDerives attachment (.declarations body) w₂ es₂ →
      closing.kind = .rightBrace →
      StmtDerives attachment (.function ⟨name, parameters, body⟩)
        (name :: leftParen :: (w₁ ++ rightParen :: opening :: (w₂ ++ [closing]))) (es₁ ++ es₂)
  -- function*
  | functionsEnd : StmtDerives attachment (.functions []) [] []
  | functionsMore {d : FunctionDecl} {ds : List FunctionDecl} {w₁ w₂ : List Token}
      {es₁ es₂ : List GrammarError} :
      StmtDerives attachment (.function d) w₁ es₁ →
      StmtDerives attachment (.functions ds) w₂ es₂ →
      StmtDerives attachment (.functions (d :: ds)) (w₁ ++ w₂) (es₁ ++ es₂)
  -- statement → exprStmt | forStmt | ifStmt | returnStmt | whileStmt
  --           | breakStmt | continueStmt | block
  | exprStmt {s : Stmt} {w : List Token} {es : List GrammarError} :
      ExprStmt s w es → StmtDerives attachment (.statement .closed s) w es
  | forStmt {keyword leftParen semicolon rightParen : Token} {initializer : Option Stmt}
      {condition increment : Option Expr} {ending : Ending} {body : Stmt}
      {w₁ w₂ w₃ w₄ : List Token} {es₁ es₂ es₃ es₄ : List GrammarError} :
      keyword.kind = .kwFor → leftParen.kind = .leftParen → ForInit initializer w₁ es₁ →
      OptionalExpr condition w₂ es₂ → semicolon.kind = .semicolon →
      OptionalExpr increment w₃ es₃ → rightParen.kind = .rightParen →
      StmtDerives attachment (.statement ending body) w₄ es₄ →
      StmtDerives attachment (.statement ending (forTree initializer condition increment body))
        (keyword :: leftParen :: (w₁ ++ (w₂ ++ semicolon :: (w₃ ++ rightParen :: w₄))))
        (es₁ ++ (es₂ ++ (es₃ ++ es₄)))
  | ifStmt {keyword leftParen rightParen : Token} {condition : Expr} {ending : Ending}
      {thenBranch : Stmt} {w₁ w₂ : List Token} {es₁ es₂ : List GrammarError} :
      keyword.kind = .kwIf → leftParen.kind = .leftParen →
      ExprDerives (.expression condition) w₁ es₁ → rightParen.kind = .rightParen →
      StmtDerives attachment (.statement ending thenBranch) w₂ es₂ →
      StmtDerives attachment (.statement .opened (.conditional condition thenBranch none))
        (keyword :: leftParen :: (w₁ ++ rightParen :: w₂)) (es₁ ++ es₂)
  | ifElseStmt {keyword leftParen rightParen kwElse : Token} {condition : Expr}
      {thenEnding elseEnding : Ending} {thenBranch elseBranch : Stmt} {w₁ w₂ w₃ : List Token}
      {es₁ es₂ es₃ : List GrammarError} :
      keyword.kind = .kwIf → leftParen.kind = .leftParen →
      ExprDerives (.expression condition) w₁ es₁ → rightParen.kind = .rightParen →
      StmtDerives attachment (.statement thenEnding thenBranch) w₂ es₂ →
      (attachment = .nearest → thenEnding = .closed) → kwElse.kind = .kwElse →
      StmtDerives attachment (.statement elseEnding elseBranch) w₃ es₃ →
      StmtDerives attachment
        (.statement elseEnding (.conditional condition thenBranch (some elseBranch)))
        (keyword :: leftParen :: (w₁ ++ rightParen :: (w₂ ++ kwElse :: w₃)))
        (es₁ ++ (es₂ ++ es₃))
  | returnStmt {keyword semicolon : Token} {value : Option Expr} {w : List Token}
      {es : List GrammarError} :
      keyword.kind = .kwReturn → OptionalExpr value w es → semicolon.kind = .semicolon →
      StmtDerives attachment (.statement .closed (.returning keyword value))
        (keyword :: (w ++ [semicolon])) es
  | whileStmt {keyword leftParen rightParen : Token} {condition : Expr} {ending : Ending}
      {body : Stmt} {w₁ w₂ : List Token} {es₁ es₂ : List GrammarError} :
      keyword.kind = .kwWhile → leftParen.kind = .leftParen →
      ExprDerives (.expression condition) w₁ es₁ → rightParen.kind = .rightParen →
      StmtDerives attachment (.statement ending body) w₂ es₂ →
      StmtDerives attachment (.statement ending (.loop condition body none))
        (keyword :: leftParen :: (w₁ ++ rightParen :: w₂)) (es₁ ++ es₂)
  | breakStmt {keyword semicolon : Token} :
      keyword.kind = .kwBreak → semicolon.kind = .semicolon →
      StmtDerives attachment (.statement .closed (.breaking keyword)) [keyword, semicolon] []
  | continueStmt {keyword semicolon : Token} :
      keyword.kind = .kwContinue → semicolon.kind = .semicolon →
      StmtDerives attachment (.statement .closed (.continuing keyword)) [keyword, semicolon] []
  | block {opening closing : Token} {body : List Stmt} {w : List Token}
      {es : List GrammarError} :
      opening.kind = .leftBrace → StmtDerives attachment (.declarations body) w es →
      closing.kind = .rightBrace →
      StmtDerives attachment (.statement .closed (.block body)) (opening :: (w ++ [closing])) es

/-- `program → declaration* EOF`, with all errors in the program. -/
inductive Program (attachment : Attachment) : List GrammarError → List Token → Prop where
  | mk {program : List Stmt} {w : List Token} {es : List GrammarError} {eof : Token} :
      StmtDerives attachment (.declarations program) w es → eof.kind = .eof →
      Program attachment es (w ++ [eof])

/-! ### How phrases start -/

/-- The phrases that stand behind another one and may be empty. -/
def ExprPhrase.IsRest : ExprPhrase → Prop
  | .binaryRest _ _ _ => True
  | .callRest _ _ => True
  | _ => False

theorem not_isRest_operand (rule : BinaryRule) (e : Expr) : ¬ (operand rule e).IsRest := by
  cases rule <;> exact id

theorem ExprDerives.starts {phrase : ExprPhrase} {w : List Token} {es : List GrammarError}
    (h : ExprDerives phrase w es) (hphrase : ¬ phrase.IsRest) : StartsWith expressionStarts w := by
  induction h with
  | assignment _ _ _ ih => exact (ih id).append _
  | operation _ ih => exact ih id
  | binary _ _ ih => exact (ih (not_isRest_operand _ _)).append _
  | binaryEnd => exact absurd trivial hphrase
  | binaryMore => exact absurd trivial hphrase
  | prefixed hoperator =>
    rcases hoperator with hbang | hminus
    · exact startsWith_cons hbang (by decide)
    · exact startsWith_cons hminus (by decide)
  | unprefixed _ ih => exact ih id
  | call _ _ ih => exact (ih id).append _
  | callEnd => exact absurd trivial hphrase
  | callEmpty => exact absurd trivial hphrase
  | callWith => exact absurd trivial hphrase
  | property => exact absurd trivial hphrase
  | argument _ ih => exact ih id
  | argumentsMore _ _ _ ih => exact (ih id).append _
  | simple hprimary => exact hprimary.starts id
  | group hkind => exact startsWith_cons hkind (by decide)

/-- A call starts like an expression, but with no prefix operator. -/
theorem ExprDerives.call_starts {e : Expr} {w : List Token} {es : List GrammarError}
    (h : ExprDerives (.call e) w es) :
    ∃ t w', w = t :: w' ∧ t.kind ∉ [TokenKind.bang, .minus] := by
  cases h with
  | call hprimary _ =>
    cases hprimary with
    | simple hprimary =>
      have hcall := (Grammar.ExprDerives.call hprimary .callEnd).call_starts
      obtain ⟨t, w', hsplit, hkind⟩ := hcall
      rw [List.append_nil] at hsplit
      exact ⟨t, w' ++ _, by rw [hsplit]; rfl, hkind⟩
    | group hkind => exact ⟨_, _, rfl, by rw [hkind]; decide⟩

/-- What follows an operand of a level is empty or starts with an operator of the level. -/
theorem ExprDerives.binaryRest_starts {rule : BinaryRule} {left e : Expr} {w : List Token}
    {es : List GrammarError} (h : ExprDerives (.binaryRest rule left e) w es) :
    w = [] ∨ StartsWith rule.operators w := by
  cases h with
  | binaryEnd => exact .inl rfl
  | binaryMore hoperator => exact .inr ⟨_, _, rfl, hoperator⟩

theorem ExprStmt.starts {s : Stmt} {w : List Token} {es : List GrammarError}
    (h : ExprStmt s w es) : StartsWith expressionStarts w := by
  cases h with
  | mk he _ => exact (he.starts id).append _

theorem VarDecl.starts {s : Stmt} {w : List Token} {es : List GrammarError}
    (h : VarDecl s w es) : StartsWith [.kwVar] w := by
  cases h with
  | plain hkind => exact startsWith_cons hkind (by decide)
  | initialized hkind => exact startsWith_cons hkind (by decide)

theorem Parameters.starts {before : Nat} {names w : List Token} {es : List GrammarError}
    (h : Parameters before names w es) : StartsWith [.identifier] w := by
  cases h with
  | one hname => exact startsWith_cons hname (by decide)
  | more hname => exact startsWith_cons hname (by decide)

theorem StmtDerives.statement_starts {attachment : Attachment} {ending : Ending} {s : Stmt}
    {w : List Token} {es : List GrammarError}
    (h : StmtDerives attachment (.statement ending s) w es) : StartsWith statementStarts w := by
  cases h with
  | exprStmt he => exact he.starts.mono (by decide)
  | forStmt hkind => exact startsWith_cons hkind (by decide)
  | ifStmt hkind => exact startsWith_cons hkind (by decide)
  | ifElseStmt hkind => exact startsWith_cons hkind (by decide)
  | returnStmt hkind => exact startsWith_cons hkind (by decide)
  | whileStmt hkind => exact startsWith_cons hkind (by decide)
  | breakStmt hkind => exact startsWith_cons hkind (by decide)
  | continueStmt hkind => exact startsWith_cons hkind (by decide)
  | block hkind => exact startsWith_cons hkind (by decide)

theorem StmtDerives.declaration_starts {attachment : Attachment} {s : Stmt} {w : List Token}
    {es : List GrammarError} (h : StmtDerives attachment (.declaration s) w es) :
    StartsWith declarationStarts w := by
  cases h with
  | classDecl hkind => exact startsWith_cons hkind (by decide)
  | funDecl hkind => exact startsWith_cons hkind (by decide)
  | varDecl hvar => exact hvar.starts.mono (by decide)
  | plain hstmt => exact hstmt.statement_starts.mono (by decide)

theorem StmtDerives.function_starts {attachment : Attachment} {d : FunctionDecl} {w : List Token}
    {es : List GrammarError} (h : StmtDerives attachment (.function d) w es) :
    StartsWith [.identifier] w := by
  cases h with
  | function hname => exact startsWith_cons hname (by decide)

end Grammar.Relaxed

end Lox
