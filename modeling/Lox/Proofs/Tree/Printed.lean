import Lox.Proofs.Tree.Forms
import Lox.Tree.Printer

/-!
# Printed trees as forms

The printed form of a tree is the text of a form with one node for each node of the tree.
-/

namespace Lox

/-! ### What the printed form leaves out -/

def Token.bare (t : Token) : Token := ⟨t.kind, t.lexeme, 0⟩

def Occurrence.bare (p : Occurrence) : Occurrence := ⟨0, p.token.bare⟩

mutual

def Expr.bare : Expr → Expr
  | .literal value => .literal value
  | .unary operator operand => .unary operator.bare operand.bare
  | .binary left operator right => .binary left.bare operator.bare right.bare
  | .logical left operator right => .logical left.bare operator.bare right.bare
  | .group inner => .group inner.bare
  | .read place => .read place.bare
  | .assign place value => .assign place.bare value.bare
  | .call callee paren arguments => .call callee.bare paren.bare (Expr.bareEach arguments)
  | .get object name => .get object.bare name.bare
  | .set object name value => .set object.bare name.bare value.bare
  | .this place => .this place.bare
  | .super place method => .super place.bare method.bare
termination_by structural e => e

def Expr.bareEach : List Expr → List Expr
  | [] => []
  | e :: rest => e.bare :: Expr.bareEach rest
termination_by structural es => es

end

mutual

def Stmt.bare : Stmt → Stmt
  | .expression value => .expression value.bare
  | .var name initializer => .var name.bare (initializer.map Expr.bare)
  | .block body => .block (Stmt.bareEach body)
  | .conditional condition thenBranch none => .conditional condition.bare thenBranch.bare none
  | .conditional condition thenBranch (some elseBranch) =>
    .conditional condition.bare thenBranch.bare (some elseBranch.bare)
  | .loop condition body increment =>
    .loop condition.bare body.bare (increment.map Expr.bare)
  | .function declaration => .function declaration.bare
  | .returning keyword value => .returning keyword.bare (value.map Expr.bare)
  | .breaking keyword => .breaking keyword.bare
  | .continuing keyword => .continuing keyword.bare
  | .class name superclass methods =>
    .class name.bare (superclass.map Occurrence.bare) (FunctionDecl.bareEach methods)
termination_by structural s => s

def Stmt.bareEach : List Stmt → List Stmt
  | [] => []
  | s :: rest => s.bare :: Stmt.bareEach rest
termination_by structural ss => ss

def FunctionDecl.bare : FunctionDecl → FunctionDecl
  | ⟨name, parameters, body⟩ => ⟨name.bare, parameters.map Token.bare, Stmt.bareEach body⟩
termination_by structural d => d

def FunctionDecl.bareEach : List FunctionDecl → List FunctionDecl
  | [] => []
  | d :: rest => d.bare :: FunctionDecl.bareEach rest
termination_by structural ds => ds

end

/-! ### Forms -/

mutual

def Expr.form : Expr → Form
  | .literal value => .word value.print
  | .unary operator operand => .node operator.lexeme [operand.form]
  | .binary left operator right | .logical left operator right =>
    .node operator.lexeme [left.form, right.form]
  | .group inner => .node "group" [inner.form]
  | .read place => .word place.name
  | .assign place value => .node "=" [.word place.name, value.form]
  | .call callee _ arguments => .node "call" (callee.form :: Expr.formEach arguments)
  | .get object name => .node "." [object.form, .word name.lexeme]
  | .set object name value => .node "=" [.node "." [object.form, .word name.lexeme], value.form]
  | .this _ => .word "this"
  | .super _ method => .node "super" [.word method.lexeme]
termination_by structural e => e

def Expr.formEach : List Expr → List Form
  | [] => []
  | e :: rest => e.form :: Expr.formEach rest
termination_by structural es => es

end

mutual

def Stmt.form : Stmt → Form
  | .expression value => .node ";" [value.form]
  | .var name none => .node "var" [.word name.lexeme]
  | .var name (some value) => .node "var" [.word name.lexeme, value.form]
  | .block body => .node "block" (Stmt.formEach body)
  | .conditional condition thenBranch none => .node "if" [condition.form, thenBranch.form]
  | .conditional condition thenBranch (some elseBranch) =>
    .node "if" [condition.form, thenBranch.form, elseBranch.form]
  | .loop condition body none => .node "while" [condition.form, body.form]
  | .loop condition body (some increment) =>
    .node "while" [condition.form, body.form, increment.form]
  | .function declaration => declaration.form "fun"
  | .returning _ none => .node "return" []
  | .returning _ (some value) => .node "return" [value.form]
  | .breaking _ => .node "break" []
  | .continuing _ => .node "continue" []
  | .class name none methods => .node "class" (.word name.lexeme :: FunctionDecl.formEach methods)
  | .class name (some superclass) methods =>
    .node "class" (.word name.lexeme :: .word "<" :: .word superclass.name ::
      FunctionDecl.formEach methods)
termination_by structural s => s

def Stmt.formEach : List Stmt → List Form
  | [] => []
  | s :: rest => s.form :: Stmt.formEach rest
termination_by structural ss => ss

/-- The form of a function or method, with the word that says which it is. -/
def FunctionDecl.form (word : String) : FunctionDecl → Form
  | ⟨name, parameters, body⟩ =>
    .node word [.signature name.lexeme (parameters.map Token.lexeme),
      .node "block" (Stmt.formEach body)]
termination_by structural d => d

def FunctionDecl.formEach : List FunctionDecl → List Form
  | [] => []
  | d :: rest => d.form "method" :: FunctionDecl.formEach rest
termination_by structural ds => ds

end

mutual

theorem Expr.toList_print : (e : Expr) → e.print.toList = e.form.text
  | .literal _ | .read _ | .this _ => rfl
  | .unary _ operand => by
    simp [Expr.print, Expr.form, Form.text, Form.textEach, operand.toList_print]
  | .binary left _ right | .logical left _ right => by
    simp [Expr.print, Expr.form, Form.text, Form.textEach, left.toList_print, right.toList_print]
  | .group inner => by
    simp [Expr.print, Expr.form, Form.text, Form.textEach, inner.toList_print]
  | .assign _ value => by
    simp [Expr.print, Expr.form, Form.text, Form.textEach, value.toList_print]
  | .call callee _ arguments => by
    simp [Expr.print, Expr.form, Form.text, Form.textEach, callee.toList_print,
      Expr.toList_printEach arguments]
  | .get object _ => by
    simp [Expr.print, Expr.form, Form.text, Form.textEach, object.toList_print]
  | .set object _ value => by
    simp [Expr.print, Expr.form, Form.text, Form.textEach, object.toList_print, value.toList_print]
  | .super _ _ => by
    simp [Expr.print, Expr.form, Form.text, Form.textEach]
termination_by structural e => e

theorem Expr.toList_printEach : (es : List Expr) →
    (Expr.printEach es).toList = Form.textEach (Expr.formEach es)
  | [] => rfl
  | e :: rest => by
    simp [Expr.printEach, Expr.formEach, Form.textEach, e.toList_print, Expr.toList_printEach rest]
termination_by structural es => es

end

mutual

theorem Stmt.toList_print : (s : Stmt) → s.print.toList = s.form.text
  | .expression value | .returning _ (some value) | .var _ (some value) => by
    simp [Stmt.print, Stmt.form, Form.text, Form.textEach, value.toList_print]
  | .var _ none | .returning _ none | .breaking _ | .continuing _ => by
    simp [Stmt.print, Stmt.form, Form.text, Form.textEach]
  | .block body => by
    simp [Stmt.print, Stmt.form, Form.text, Stmt.toList_printEach body]
  | .conditional condition thenBranch none => by
    simp [Stmt.print, Stmt.form, Form.text, Form.textEach, condition.toList_print,
      thenBranch.toList_print]
  | .conditional condition thenBranch (some elseBranch) => by
    simp [Stmt.print, Stmt.form, Form.text, Form.textEach, condition.toList_print,
      thenBranch.toList_print, elseBranch.toList_print]
  | .loop condition body none => by
    simp [Stmt.print, Stmt.form, Form.text, Form.textEach, condition.toList_print,
      body.toList_print]
  | .loop condition body (some increment) => by
    simp [Stmt.print, Stmt.form, Form.text, Form.textEach, condition.toList_print,
      body.toList_print, increment.toList_print]
  | .function declaration => declaration.toList_print "fun"
  | .class _ none methods | .class _ (some _) methods => by
    simp [Stmt.print, Stmt.form, Form.text, Form.textEach, FunctionDecl.toList_printEach methods]
termination_by structural s => s

theorem Stmt.toList_printEach : (ss : List Stmt) →
    (Stmt.printEach ss).toList = Form.textEach (Stmt.formEach ss)
  | [] => rfl
  | s :: rest => by
    simp [Stmt.printEach, Stmt.formEach, Form.textEach, s.toList_print, Stmt.toList_printEach rest]
termination_by structural ss => ss

theorem FunctionDecl.toList_print (word : String) : (d : FunctionDecl) →
    (d.print word).toList = (d.form word).text
  | ⟨_, _, body⟩ => by
    simp [FunctionDecl.print, FunctionDecl.form, Form.text, Form.textEach, Stmt.toList_printEach body]
termination_by structural d => d

theorem FunctionDecl.toList_printEach : (ds : List FunctionDecl) →
    (FunctionDecl.printEach ds).toList = Form.textEach (FunctionDecl.formEach ds)
  | [] => rfl
  | d :: rest => by
    simp [FunctionDecl.printEach, FunctionDecl.formEach, Form.textEach, d.toList_print,
      FunctionDecl.toList_printEach rest]
termination_by structural ds => ds

end

end Lox
