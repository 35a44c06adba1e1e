import Lox.Token

/-!
# Programs as trees

A program is a list of statements.  Every place where a name is looked up at run
time is an `Occurrence`: it carries the token and an identity of its own, since
two occurrences of one name may lie at different distances from the scope that
declares it.  The `for` loop has no node: it is a `while` loop that carries its
increment, so that the increment runs after the body and after `continue`.
-/

namespace Lox

/-- The identity of an occurrence within all programs of a session. -/
abbrev NodeId := Nat

/-- A name at a place where it is looked up. -/
structure Occurrence where
  id : NodeId
  token : Token
  deriving DecidableEq, Repr

namespace Occurrence

def name (occurrence : Occurrence) : String := occurrence.token.lexeme

def line (occurrence : Occurrence) : Nat := occurrence.token.line

end Occurrence

inductive Expr where
  | literal (value : Literal)
  | unary (operator : Token) (operand : Expr)
  | binary (left : Expr) (operator : Token) (right : Expr)
  /-- An operator that evaluates its right side only if the left one does not decide. -/
  | logical (left : Expr) (operator : Token) (right : Expr)
  | group (inner : Expr)
  | read (occurrence : Occurrence)
  | assign (occurrence : Occurrence) (value : Expr)
  /-- A call with its closing parenthesis, at whose line its errors are reported. -/
  | call (callee : Expr) (paren : Token) (arguments : List Expr)
  | get (object : Expr) (name : Token)
  | set (object : Expr) (name : Token) (value : Expr)
  | this (occurrence : Occurrence)
  | super (occurrence : Occurrence) (method : Token)
  deriving Repr, Inhabited

mutual

inductive Stmt where
  | expression (value : Expr)
  | var (name : Token) (initializer : Option Expr)
  | block (body : List Stmt)
  | conditional (condition : Expr) (thenBranch : Stmt) (elseBranch : Option Stmt)
  | loop (condition : Expr) (body : Stmt) (increment : Option Expr)
  | function (declaration : FunctionDecl)
  | returning (keyword : Token) (value : Option Expr)
  | breaking (keyword : Token)
  | continuing (keyword : Token)
  | class (name : Token) (superclass : Option Occurrence) (methods : List FunctionDecl)

structure FunctionDecl where
  name : Token
  parameters : List Token
  body : List Stmt

end

instance : Inhabited Stmt := ⟨.block []⟩

def initializerName : String := "init"

namespace FunctionDecl

def isInitializer (declaration : FunctionDecl) : Bool :=
  declaration.name.lexeme = initializerName

def arity (declaration : FunctionDecl) : Nat := declaration.parameters.length

end FunctionDecl

end Lox
