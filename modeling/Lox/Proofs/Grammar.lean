import Lox.Number
import Lox.Token.Item
import Lox.Tree

/-!
# The grammar of the language

Which token sequences are programs, and which trees they stand for.  The rules
are those of the usual notation, one constructor for each alternative:

```text
program        → declaration* EOF ;
declaration    → classDecl | funDecl | varDecl | statement ;
classDecl      → "class" IDENT ( "<" IDENT )? "{" function* "}" ;
funDecl        → "fun" function ;
function       → IDENT "(" parameters? ")" block ;
varDecl        → "var" IDENT ( "=" expression )? ";" ;
statement      → exprStmt | forStmt | ifStmt | returnStmt | whileStmt
               | breakStmt | continueStmt | block ;
exprStmt       → expression ";" ;
forStmt        → "for" "(" ( varDecl | exprStmt | ";" )
                 expression? ";" expression? ")" statement ;
ifStmt         → "if" "(" expression ")" statement ( "else" statement )? ;
returnStmt     → "return" expression? ";" ;
breakStmt      → "break" ";" ;
continueStmt   → "continue" ";" ;
whileStmt      → "while" "(" expression ")" statement ;
block          → "{" declaration* "}" ;
parameters     → IDENT ( "," IDENT )* ;
expression     → assignment ;
assignment     → ( call "." )? IDENT "=" assignment | logicOr ;
logicOr        → logicAnd ( "or" logicAnd )* ;
logicAnd       → equality  ( "and" equality )* ;
equality       → comparison ( ( "!=" | "==" ) comparison )* ;
comparison     → term ( ( ">" | ">=" | "<" | "<=" ) term )* ;
term           → factor ( ( "-" | "+" ) factor )* ;
factor         → unary ( ( "/" | "*" | "%" ) unary )* ;
unary          → ( "!" | "-" ) unary | call ;
call           → primary ( "(" arguments? ")" | "." IDENT )* ;
arguments      → expression ( "," expression )* ;
primary        → NUMBER | STRING | "true" | "false" | "nil" | "this"
               | IDENT | "(" expression ")" | "super" "." IDENT ;
```

A repetition `( … )*` behind an operand is a phrase of its own, which says what
the operand becomes when the repetition is joined to it; so all operators of one
level group to the left.  Identities of occurrences are not part of the grammar:
a rule holds of every identity.
-/

namespace Lox.Grammar

/-! ### Expressions -/

/-- The levels of operators between two operands, from loose to tight. -/
inductive BinaryRule where
  | logicOr
  | logicAnd
  | equality
  | comparison
  | term
  | factor
  deriving DecidableEq, Repr

namespace BinaryRule

def operators : BinaryRule → List TokenKind
  | logicOr => [.kwOr]
  | logicAnd => [.kwAnd]
  | equality => [.bangEqual, .equalEqual]
  | comparison => [.greater, .greaterEqual, .less, .lessEqual]
  | term => [.minus, .plus]
  | factor => [.slash, .star, .percent]

def node : BinaryRule → Expr → Token → Expr → Expr
  | logicOr, left, operator, right => .logical left operator right
  | logicAnd, left, operator, right => .logical left operator right
  | equality, left, operator, right => .binary left operator right
  | comparison, left, operator, right => .binary left operator right
  | term, left, operator, right => .binary left operator right
  | factor, left, operator, right => .binary left operator right

end BinaryRule

/-- The phrases of which expressions consist, each with the tree it stands for. -/
inductive ExprPhrase where
  | expression (tree : Expr)
  | binary (rule : BinaryRule) (tree : Expr)
  /-- What `left` becomes by the operators of a level behind it. -/
  | binaryRest (rule : BinaryRule) (left tree : Expr)
  | unary (tree : Expr)
  | call (tree : Expr)
  /-- What `callee` becomes by the calls and property accesses behind it. -/
  | callRest (callee tree : Expr)
  | arguments (trees : List Expr)
  | primary (tree : Expr)

def BinaryRule.operand : BinaryRule → Expr → ExprPhrase
  | logicOr => .binary logicAnd
  | logicAnd => .binary equality
  | equality => .binary comparison
  | comparison => .binary term
  | term => .binary factor
  | factor => .unary

def longestList : Nat := 255

/-- Which tokens form which expressions. -/
inductive ExprDerives : ExprPhrase → List Token → Prop where
  -- assignment → ( call "." )? IDENT "=" assignment | logicOr
  | assign {id : NodeId} {name equals : Token} {value : Expr} {w : List Token} :
      name.kind = .identifier → equals.kind = .equal →
      ExprDerives (.expression value) w →
      ExprDerives (.expression (.assign ⟨id, name⟩ value)) (name :: equals :: w)
  | set {object value : Expr} {dot name equals : Token} {w₁ w₂ : List Token} :
      ExprDerives (.call object) w₁ →
      dot.kind = .dot → name.kind = .identifier → equals.kind = .equal →
      ExprDerives (.expression value) w₂ →
      ExprDerives (.expression (.set object name value)) (w₁ ++ dot :: name :: equals :: w₂)
  | operation {e : Expr} {w : List Token} :
      ExprDerives (.binary .logicOr e) w → ExprDerives (.expression e) w
  -- rule → operand ( operator operand )*
  | binary {rule : BinaryRule} {left e : Expr} {w₁ w₂ : List Token} :
      ExprDerives (rule.operand left) w₁ → ExprDerives (.binaryRest rule left e) w₂ →
      ExprDerives (.binary rule e) (w₁ ++ w₂)
  | binaryEnd {rule : BinaryRule} {left : Expr} : ExprDerives (.binaryRest rule left left) []
  | binaryMore {rule : BinaryRule} {left right e : Expr} {operator : Token}
      {w₁ w₂ : List Token} :
      operator.kind ∈ rule.operators → ExprDerives (rule.operand right) w₁ →
      ExprDerives (.binaryRest rule (rule.node left operator right) e) w₂ →
      ExprDerives (.binaryRest rule left e) (operator :: (w₁ ++ w₂))
  -- unary → ( "!" | "-" ) unary | call
  | prefixed {operator : Token} {e : Expr} {w : List Token} :
      operator.kind = .bang ∨ operator.kind = .minus → ExprDerives (.unary e) w →
      ExprDerives (.unary (.unary operator e)) (operator :: w)
  | unprefixed {e : Expr} {w : List Token} :
      ExprDerives (.call e) w → ExprDerives (.unary e) w
  -- call → primary ( "(" arguments? ")" | "." IDENT )*
  | call {callee e : Expr} {w₁ w₂ : List Token} :
      ExprDerives (.primary callee) w₁ → ExprDerives (.callRest callee e) w₂ →
      ExprDerives (.call e) (w₁ ++ w₂)
  | callEnd {callee : Expr} : ExprDerives (.callRest callee callee) []
  | callEmpty {callee e : Expr} {opening closing : Token} {w : List Token} :
      opening.kind = .leftParen → closing.kind = .rightParen →
      ExprDerives (.callRest (.call callee closing []) e) w →
      ExprDerives (.callRest callee e) (opening :: closing :: w)
  | callWith {callee e : Expr} {arguments : List Expr} {opening closing : Token}
      {w₁ w₂ : List Token} :
      opening.kind = .leftParen → ExprDerives (.arguments arguments) w₁ →
      arguments.length ≤ longestList → closing.kind = .rightParen →
      ExprDerives (.callRest (.call callee closing arguments) e) w₂ →
      ExprDerives (.callRest callee e) (opening :: (w₁ ++ closing :: w₂))
  | property {callee e : Expr} {dot name : Token} {w : List Token} :
      dot.kind = .dot → name.kind = .identifier →
      ExprDerives (.callRest (.get callee name) e) w →
      ExprDerives (.callRest callee e) (dot :: name :: w)
  -- arguments → expression ( "," expression )*
  | argument {e : Expr} {w : List Token} :
      ExprDerives (.expression e) w → ExprDerives (.arguments [e]) w
  | argumentsMore {e : Expr} {es : List Expr} {comma : Token} {w₁ w₂ : List Token} :
      ExprDerives (.expression e) w₁ → comma.kind = .comma → ExprDerives (.arguments es) w₂ →
      ExprDerives (.arguments (e :: es)) (w₁ ++ comma :: w₂)
  -- primary → NUMBER | STRING | "true" | "false" | "nil" | "this"
  --         | IDENT | "(" expression ")" | "super" "." IDENT
  | number {t : Token} :
      t.kind = .number →
      ExprDerives (.primary (.literal (.number (Number.ofLexeme t.lexeme.toList)))) [t]
  | string {t : Token} :
      t.kind = .string → ExprDerives (.primary (.literal (.string t.content))) [t]
  | kwTrue {t : Token} : t.kind = .kwTrue → ExprDerives (.primary (.literal (.bool true))) [t]
  | kwFalse {t : Token} : t.kind = .kwFalse → ExprDerives (.primary (.literal (.bool false))) [t]
  | kwNil {t : Token} : t.kind = .kwNil → ExprDerives (.primary (.literal .nil)) [t]
  | kwThis {id : NodeId} {t : Token} :
      t.kind = .kwThis → ExprDerives (.primary (.this ⟨id, t⟩)) [t]
  | name {id : NodeId} {t : Token} :
      t.kind = .identifier → ExprDerives (.primary (.read ⟨id, t⟩)) [t]
  | group {e : Expr} {opening closing : Token} {w : List Token} :
      opening.kind = .leftParen → ExprDerives (.expression e) w → closing.kind = .rightParen →
      ExprDerives (.primary (.group e)) (opening :: (w ++ [closing]))
  | kwSuper {id : NodeId} {keyword dot method : Token} :
      keyword.kind = .kwSuper → dot.kind = .dot → method.kind = .identifier →
      ExprDerives (.primary (.super ⟨id, keyword⟩ method)) [keyword, dot, method]

inductive OptionalExpr : Option Expr → List Token → Prop where
  | absent : OptionalExpr none []
  | present {e : Expr} {w : List Token} :
      ExprDerives (.expression e) w → OptionalExpr (some e) w

/-! ### Statements and declarations -/

/-- `exprStmt → expression ";"` -/
inductive ExprStmt : Stmt → List Token → Prop where
  | mk {e : Expr} {w : List Token} {semicolon : Token} :
      ExprDerives (.expression e) w → semicolon.kind = .semicolon →
      ExprStmt (.expression e) (w ++ [semicolon])

/-- `varDecl → "var" IDENT ( "=" expression )? ";"` -/
inductive VarDecl : Stmt → List Token → Prop where
  | plain {keyword name semicolon : Token} :
      keyword.kind = .kwVar → name.kind = .identifier → semicolon.kind = .semicolon →
      VarDecl (.var name none) [keyword, name, semicolon]
  | initialized {keyword name equals semicolon : Token} {e : Expr} {w : List Token} :
      keyword.kind = .kwVar → name.kind = .identifier → equals.kind = .equal →
      ExprDerives (.expression e) w → semicolon.kind = .semicolon →
      VarDecl (.var name (some e)) (keyword :: name :: equals :: (w ++ [semicolon]))

/-- The first clause of a `for` loop: `varDecl | exprStmt | ";"`. -/
inductive ForInit : Option Stmt → List Token → Prop where
  | var {s : Stmt} {w : List Token} : VarDecl s w → ForInit (some s) w
  | expression {s : Stmt} {w : List Token} : ExprStmt s w → ForInit (some s) w
  | absent {semicolon : Token} : semicolon.kind = .semicolon → ForInit none [semicolon]

/-- `parameters → IDENT ( "," IDENT )*` -/
inductive Parameters : List Token → List Token → Prop where
  | one {name : Token} : name.kind = .identifier → Parameters [name] [name]
  | more {name comma : Token} {names w : List Token} :
      name.kind = .identifier → comma.kind = .comma → Parameters names w →
      Parameters (name :: names) (name :: comma :: w)

/-- `parameters?`, of limited length. -/
inductive OptionalParameters : List Token → List Token → Prop where
  | absent : OptionalParameters [] []
  | present {names w : List Token} :
      Parameters names w → names.length ≤ longestList → OptionalParameters names w

/-- The superclass in a class declaration: `( "<" IDENT )?`. -/
inductive Superclass : Option Occurrence → List Token → Prop where
  | absent : Superclass none []
  | present {id : NodeId} {less name : Token} :
      less.kind = .less → name.kind = .identifier → Superclass (some ⟨id, name⟩) [less, name]

/--
What a `for` loop stands for: a loop that carries the increment, whose condition
is `true` unless given, in a block of its own if there is an initializer.
-/
def forTree (initializer : Option Stmt) (condition increment : Option Expr) (body : Stmt) :
    Stmt :=
  let loop := Stmt.loop (condition.getD (.literal (.bool true))) body increment
  match initializer with
  | some first => .block [first, loop]
  | none => loop

/-- Whether an `else` behind a statement could belong to an `if` at its end. -/
inductive Ending where
  | closed
  | opened
  deriving DecidableEq, Repr

/-- To which `if` an `else` may belong. -/
inductive Attachment where
  /-- To any that the rules allow: these are the rules as they are written. -/
  | free
  /-- Only to the nearest one that has no `else` yet. -/
  | nearest
  deriving DecidableEq, Repr

/-- The phrases of which programs consist, each with the tree it stands for. -/
inductive StmtPhrase where
  | declaration (tree : Stmt)
  | declarations (trees : List Stmt)
  | function (tree : FunctionDecl)
  | functions (trees : List FunctionDecl)
  | statement (ending : Ending) (tree : Stmt)

/-- Which tokens form which statements and declarations. -/
inductive StmtDerives (attachment : Attachment) : StmtPhrase → List Token → Prop where
  -- declaration → classDecl | funDecl | varDecl | statement
  | classDecl {keyword name opening closing : Token} {superclass : Option Occurrence}
      {methods : List FunctionDecl} {w₁ w₂ : List Token} :
      keyword.kind = .kwClass → name.kind = .identifier → Superclass superclass w₁ →
      opening.kind = .leftBrace → StmtDerives attachment (.functions methods) w₂ →
      closing.kind = .rightBrace →
      StmtDerives attachment (.declaration (.class name superclass methods))
        (keyword :: name :: (w₁ ++ opening :: (w₂ ++ [closing])))
  | funDecl {keyword : Token} {d : FunctionDecl} {w : List Token} :
      keyword.kind = .kwFun → StmtDerives attachment (.function d) w →
      StmtDerives attachment (.declaration (.function d)) (keyword :: w)
  | varDecl {s : Stmt} {w : List Token} :
      VarDecl s w → StmtDerives attachment (.declaration s) w
  | plain {ending : Ending} {s : Stmt} {w : List Token} :
      StmtDerives attachment (.statement ending s) w → StmtDerives attachment (.declaration s) w
  -- declaration*
  | declarationsEnd : StmtDerives attachment (.declarations []) []
  | declarationsMore {s : Stmt} {ss : List Stmt} {w₁ w₂ : List Token} :
      StmtDerives attachment (.declaration s) w₁ → StmtDerives attachment (.declarations ss) w₂ →
      StmtDerives attachment (.declarations (s :: ss)) (w₁ ++ w₂)
  -- function → IDENT "(" parameters? ")" block
  | function {name leftParen rightParen opening closing : Token} {parameters : List Token}
      {body : List Stmt} {w₁ w₂ : List Token} :
      name.kind = .identifier → leftParen.kind = .leftParen →
      OptionalParameters parameters w₁ → rightParen.kind = .rightParen →
      opening.kind = .leftBrace → StmtDerives attachment (.declarations body) w₂ →
      closing.kind = .rightBrace →
      StmtDerives attachment (.function ⟨name, parameters, body⟩)
        (name :: leftParen :: (w₁ ++ rightParen :: opening :: (w₂ ++ [closing])))
  -- function*
  | functionsEnd : StmtDerives attachment (.functions []) []
  | functionsMore {d : FunctionDecl} {ds : List FunctionDecl} {w₁ w₂ : List Token} :
      StmtDerives attachment (.function d) w₁ → StmtDerives attachment (.functions ds) w₂ →
      StmtDerives attachment (.functions (d :: ds)) (w₁ ++ w₂)
  -- statement → exprStmt | forStmt | ifStmt | returnStmt | whileStmt
  --           | breakStmt | continueStmt | block
  | exprStmt {s : Stmt} {w : List Token} :
      ExprStmt s w → StmtDerives attachment (.statement .closed s) w
  | forStmt {keyword leftParen semicolon rightParen : Token} {initializer : Option Stmt}
      {condition increment : Option Expr} {ending : Ending} {body : Stmt}
      {w₁ w₂ w₃ w₄ : List Token} :
      keyword.kind = .kwFor → leftParen.kind = .leftParen → ForInit initializer w₁ →
      OptionalExpr condition w₂ → semicolon.kind = .semicolon → OptionalExpr increment w₃ →
      rightParen.kind = .rightParen → StmtDerives attachment (.statement ending body) w₄ →
      StmtDerives attachment (.statement ending (forTree initializer condition increment body))
        (keyword :: leftParen :: (w₁ ++ (w₂ ++ semicolon :: (w₃ ++ rightParen :: w₄))))
  | ifStmt {keyword leftParen rightParen : Token} {condition : Expr} {ending : Ending}
      {thenBranch : Stmt} {w₁ w₂ : List Token} :
      keyword.kind = .kwIf → leftParen.kind = .leftParen →
      ExprDerives (.expression condition) w₁ → rightParen.kind = .rightParen →
      StmtDerives attachment (.statement ending thenBranch) w₂ →
      StmtDerives attachment (.statement .opened (.conditional condition thenBranch none))
        (keyword :: leftParen :: (w₁ ++ rightParen :: w₂))
  | ifElseStmt {keyword leftParen rightParen kwElse : Token} {condition : Expr}
      {thenEnding elseEnding : Ending} {thenBranch elseBranch : Stmt} {w₁ w₂ w₃ : List Token} :
      keyword.kind = .kwIf → leftParen.kind = .leftParen →
      ExprDerives (.expression condition) w₁ → rightParen.kind = .rightParen →
      StmtDerives attachment (.statement thenEnding thenBranch) w₂ →
      (attachment = .nearest → thenEnding = .closed) → kwElse.kind = .kwElse →
      StmtDerives attachment (.statement elseEnding elseBranch) w₃ →
      StmtDerives attachment
        (.statement elseEnding (.conditional condition thenBranch (some elseBranch)))
        (keyword :: leftParen :: (w₁ ++ rightParen :: (w₂ ++ kwElse :: w₃)))
  | returnStmt {keyword semicolon : Token} {value : Option Expr} {w : List Token} :
      keyword.kind = .kwReturn → OptionalExpr value w → semicolon.kind = .semicolon →
      StmtDerives attachment (.statement .closed (.returning keyword value))
        (keyword :: (w ++ [semicolon]))
  | whileStmt {keyword leftParen rightParen : Token} {condition : Expr} {ending : Ending}
      {body : Stmt} {w₁ w₂ : List Token} :
      keyword.kind = .kwWhile → leftParen.kind = .leftParen →
      ExprDerives (.expression condition) w₁ → rightParen.kind = .rightParen →
      StmtDerives attachment (.statement ending body) w₂ →
      StmtDerives attachment (.statement ending (.loop condition body none))
        (keyword :: leftParen :: (w₁ ++ rightParen :: w₂))
  | breakStmt {keyword semicolon : Token} :
      keyword.kind = .kwBreak → semicolon.kind = .semicolon →
      StmtDerives attachment (.statement .closed (.breaking keyword)) [keyword, semicolon]
  | continueStmt {keyword semicolon : Token} :
      keyword.kind = .kwContinue → semicolon.kind = .semicolon →
      StmtDerives attachment (.statement .closed (.continuing keyword)) [keyword, semicolon]
  | block {opening closing : Token} {body : List Stmt} {w : List Token} :
      opening.kind = .leftBrace → StmtDerives attachment (.declarations body) w →
      closing.kind = .rightBrace →
      StmtDerives attachment (.statement .closed (.block body)) (opening :: (w ++ [closing]))

/-- `program → declaration* EOF` -/
inductive Program (attachment : Attachment) : List Stmt → List Token → Prop where
  | mk {program : List Stmt} {w : List Token} {eof : Token} :
      StmtDerives attachment (.declarations program) w → eof.kind = .eof →
      Program attachment program (w ++ [eof])

def EndsWithOnlyEof (tokens : List Token) : Prop :=
  ∃ (body : List Token) (last : Token),
    tokens = body ++ [last] ∧ last.kind = .eof ∧ ∀ t ∈ body, t.kind ≠ .eof

end Lox.Grammar
