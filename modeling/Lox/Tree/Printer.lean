import Lox.Number
import Lox.Tree

/-!
# The printed form of a tree

Every node is written in parentheses with its operator or its kind first, so
that the shape of the tree can be read off the text.
-/

namespace Lox

namespace Literal

/-- The printed form of a literal; a string stands without quotes. -/
def print : Literal → String
  | number value => Number.treeText value
  | string text => text
  | bool true => "true"
  | bool false => "false"
  | nil => "nil"

end Literal

mutual

def Expr.print : Expr → String
  | .literal value => value.print
  | .unary operator operand => "(" ++ operator.lexeme ++ " " ++ operand.print ++ ")"
  | .binary left operator right | .logical left operator right =>
    "(" ++ operator.lexeme ++ " " ++ left.print ++ " " ++ right.print ++ ")"
  | .group inner => "(group " ++ inner.print ++ ")"
  | .read occurrence => occurrence.name
  | .assign occurrence value => "(= " ++ occurrence.name ++ " " ++ value.print ++ ")"
  | .call callee _ arguments => "(call " ++ callee.print ++ Expr.printEach arguments ++ ")"
  | .get object name => "(. " ++ object.print ++ " " ++ name.lexeme ++ ")"
  | .set object name value =>
    "(= (. " ++ object.print ++ " " ++ name.lexeme ++ ") " ++ value.print ++ ")"
  | .this _ => "this"
  | .super _ method => "(super " ++ method.lexeme ++ ")"
termination_by structural e => e

def Expr.printEach : List Expr → String
  | [] => ""
  | e :: rest => " " ++ e.print ++ Expr.printEach rest
termination_by structural es => es

end

mutual

def Stmt.print : Stmt → String
  | .expression value => "(; " ++ value.print ++ ")"
  | .var name none => "(var " ++ name.lexeme ++ ")"
  | .var name (some value) => "(var " ++ name.lexeme ++ " " ++ value.print ++ ")"
  | .block body => "(block" ++ Stmt.printEach body ++ ")"
  | .conditional condition thenBranch none =>
    "(if " ++ condition.print ++ " " ++ thenBranch.print ++ ")"
  | .conditional condition thenBranch (some elseBranch) =>
    "(if " ++ condition.print ++ " " ++ thenBranch.print ++ " " ++ elseBranch.print ++ ")"
  | .loop condition body none => "(while " ++ condition.print ++ " " ++ body.print ++ ")"
  | .loop condition body (some increment) =>
    "(while " ++ condition.print ++ " " ++ body.print ++ " " ++ increment.print ++ ")"
  | .function declaration => declaration.print "fun"
  | .returning _ none => "(return)"
  | .returning _ (some value) => "(return " ++ value.print ++ ")"
  | .breaking _ => "(break)"
  | .continuing _ => "(continue)"
  | .class name none methods => "(class " ++ name.lexeme ++ FunctionDecl.printEach methods ++ ")"
  | .class name (some superclass) methods =>
    "(class " ++ name.lexeme ++ " < " ++ superclass.name ++ FunctionDecl.printEach methods ++ ")"
termination_by structural s => s

def Stmt.printEach : List Stmt → String
  | [] => ""
  | s :: rest => " " ++ s.print ++ Stmt.printEach rest
termination_by structural ss => ss

def FunctionDecl.print (word : String) : FunctionDecl → String
  | ⟨name, parameters, body⟩ =>
    "(" ++ word ++ " " ++ name.lexeme ++ "(" ++ " ".intercalate (parameters.map Token.lexeme)
      ++ ") (block" ++ Stmt.printEach body ++ "))"
termination_by structural d => d

def FunctionDecl.printEach : List FunctionDecl → String
  | [] => ""
  | d :: rest => " " ++ d.print "method" ++ FunctionDecl.printEach rest
termination_by structural ds => ds

end

end Lox
