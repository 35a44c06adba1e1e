import Std.Data.TreeMap
import Lox.Bindings
import Lox.Diagnostic
import Lox.Tree

/-!
# Resolution of names

Before a program runs, each of its occurrences is related to the scope that
declares its name.  The result is a distance: how many scopes lie between the
occurrence and that scope.  An occurrence without a distance means a global.  On
the way, the uses of `break`, `continue`, `return`, `this`, `super` and of names
under declaration are checked.

Resolution is a walk over the tree that changes a state.  The scopes of that
state are those open at the point the walk has reached, the innermost first; the
top level has none.
-/

namespace Lox

/-- How far each resolved occurrence is from the scope that declares its name. -/
abbrev Distances := Std.TreeMap NodeId Nat

/-- The names a scope declares so far, and whether each of them can be read already. -/
abbrev Scope := Bindings Bool

inductive EnclosingRoutine where
  | topLevel
  | function
  | method
  | initializer
  deriving DecidableEq, Repr

inductive EnclosingClass where
  | outside
  | base
  | derived
  deriving DecidableEq, Repr

structure Resolution where
  scopes : List Scope := []
  distances : Distances := ∅
  errors : List ScopeError := []
  routine : EnclosingRoutine := .topLevel
  enclosingClass : EnclosingClass := .outside
  /-- The number of loops around the code at hand within its routine. -/
  loopDepth : Nat := 0
  /-- The global variable whose initializer is being resolved. -/
  initializing? : Option String := none

namespace Resolution

/-! ### Scopes -/

def openScope (r : Resolution) : Resolution := { r with scopes := .empty :: r.scopes }

def closeScope (r : Resolution) : Resolution := { r with scopes := r.scopes.tail }

def report (cause : ScopeCause) (token : Token) (r : Resolution) : Resolution :=
  { r with errors := r.errors ++ [⟨cause, token⟩] }

def reportIf (condition : Bool) (cause : ScopeCause) (token : Token) (r : Resolution) :
    Resolution :=
  if condition then r.report cause token else r

def mark (name : String) (readable : Bool) (r : Resolution) : Resolution :=
  match r.scopes with
  | [] => r
  | scope :: outer => { r with scopes := scope.insert name readable :: outer }

def declaresInnermost (r : Resolution) (name : String) : Bool :=
  match r.scopes with
  | [] => false
  | scope :: _ => scope.contains name

/-- Declares a name that cannot be read yet; a scope declares a name only once. -/
def declare (token : Token) (r : Resolution) : Resolution :=
  (r.mark token.lexeme false).reportIf (r.declaresInnermost token.lexeme) .alreadyDeclared token

def define (token : Token) (r : Resolution) : Resolution := r.mark token.lexeme true

def distance? (scopes : List Scope) (name : String) : Option Nat :=
  scopes.findIdx? fun scope => scope.contains name

/-- Notes the distance of an occurrence; that of a global is not noted. -/
def locate (place : Occurrence) (r : Resolution) : Resolution :=
  match distance? r.scopes place.name with
  | some distance => { r with distances := r.distances.insert place.id distance }
  | none => r

/-! ### Occurrences -/

/-- What is wrong with reading a name here: its own declaration may not be complete yet. -/
def readFault? (r : Resolution) (name : String) : Option ScopeCause :=
  match r.scopes with
  | [] => if r.initializing? = some name then some .globalReadInInitializer else none
  | scope :: _ => if scope.find? name = some false then some .localReadInInitializer else none

def read (place : Occurrence) (r : Resolution) : Resolution :=
  match r.readFault? place.name with
  | some cause => (r.report cause place.token).locate place
  | none => r.locate place

def resolveThis (place : Occurrence) (r : Resolution) : Resolution :=
  match r.enclosingClass with
  | .outside => r.report .thisOutsideClass place.token
  | .base | .derived => r.locate place

def resolveSuper (place : Occurrence) (r : Resolution) : Resolution :=
  match r.enclosingClass with
  | .outside => r.report .superOutsideClass place.token
  | .base => r.report .superWithoutSuperclass place.token
  | .derived => r.locate place

/-! ### Surroundings -/

/-- Goes through the body of a routine: it has a scope of its own, and no loop is around it. -/
def inRoutine (routine : EnclosingRoutine) (walk : Resolution → Resolution) (r : Resolution) :
    Resolution :=
  let inner := (walk { r with routine := routine, loopDepth := 0 }.openScope).closeScope
  { inner with routine := r.routine, loopDepth := r.loopDepth }

def inLoop (walk : Resolution → Resolution) (r : Resolution) : Resolution :=
  let inner := walk { r with loopDepth := r.loopDepth + 1 }
  { inner with loopDepth := inner.loopDepth - 1 }

def inScope (walk : Resolution → Resolution) (r : Resolution) : Resolution :=
  (walk r.openScope).closeScope

def inScopeOf (name : String) (walk : Resolution → Resolution) (r : Resolution) : Resolution :=
  r.inScope fun r => walk (r.mark name true)

/-- Goes through the initializer of a variable; only that of a global is told apart by name. -/
def inInitializer (name : String) (walk : Resolution → Resolution) (r : Resolution) :
    Resolution :=
  match r.scopes with
  | [] => { walk { r with initializing? := some name } with initializing? := none }
  | _ :: _ => walk r

/-- Declares parameters, each of them readable at once. -/
def declareParameters (parameters : List Token) (r : Resolution) : Resolution :=
  parameters.foldl (fun r parameter => (r.declare parameter).define parameter) r

def enterClass (name : Token) (superclass : Option Occurrence) (r : Resolution) : Resolution :=
  let r := (({ r with enclosingClass := .base } : Resolution).declare name).define name
  match superclass with
  | none => r
  | some parent =>
    let r := r.reportIf (parent.name = name.lexeme) .inheritsFromItself parent.token
    ({ r with enclosingClass := .derived } : Resolution).read parent

/-- Goes through the methods of a class, which see `this`, and around it `super` if there is one. -/
def inClassBody (derived : Bool) (walk : Resolution → Resolution) (r : Resolution) :
    Resolution :=
  if derived then r.inScopeOf "super" fun r => r.inScopeOf "this" walk
  else r.inScopeOf "this" walk

end Resolution

/-! ### The walk -/

mutual

/-- Resolves an expression.  Values come before the places they are assigned to. -/
def Expr.resolve : Expr → Resolution → Resolution
  | .literal _, r => r
  | .unary _ operand, r => operand.resolve r
  | .binary left _ right, r | .logical left _ right, r => right.resolve (left.resolve r)
  | .group inner, r => inner.resolve r
  | .read place, r => r.read place
  | .assign place value, r => (value.resolve r).locate place
  | .call callee _ arguments, r => Expr.resolveEach arguments (callee.resolve r)
  | .get object _, r => object.resolve r
  | .set object _ value, r => object.resolve (value.resolve r)
  | .this place, r => r.resolveThis place
  | .super place _, r => r.resolveSuper place
termination_by structural e => e

def Expr.resolveEach : List Expr → Resolution → Resolution
  | [], r => r
  | e :: rest, r => Expr.resolveEach rest (e.resolve r)
termination_by structural es => es

end

namespace Expr

def resolveIn? : Option Expr → Resolution → Resolution
  | none, r => r
  | some e, r => e.resolve r

end Expr

mutual

def Stmt.resolve : Stmt → Resolution → Resolution
  | .expression value, r => value.resolve r
  | .var name none, r => (r.declare name).define name
  | .var name (some value), r =>
    ((r.declare name).inInitializer name.lexeme value.resolve).define name
  | .block body, r => r.inScope (Stmt.resolveEach body)
  | .conditional condition thenBranch none, r => thenBranch.resolve (condition.resolve r)
  | .conditional condition thenBranch (some elseBranch), r =>
    elseBranch.resolve (thenBranch.resolve (condition.resolve r))
  | .loop condition body increment, r =>
    Expr.resolveIn? increment ((condition.resolve r).inLoop body.resolve)
  | .function declaration, r =>
    declaration.resolve .function ((r.declare declaration.name).define declaration.name)
  | .returning keyword none, r => r.reportIf (r.routine = .topLevel) .returnAtTopLevel keyword
  | .returning keyword (some value), r =>
    let r := r.reportIf (r.routine = .topLevel) .returnAtTopLevel keyword
    value.resolve (r.reportIf (r.routine = .initializer) .returnValueFromInitializer keyword)
  | .breaking keyword, r => r.reportIf (r.loopDepth = 0) .breakOutsideLoop keyword
  | .continuing keyword, r => r.reportIf (r.loopDepth = 0) .continueOutsideLoop keyword
  | .class name superclass methods, r =>
    let inner := (r.enterClass name superclass).inClassBody superclass.isSome
      (FunctionDecl.resolveMethods methods)
    { inner with enclosingClass := r.enclosingClass }
termination_by structural s => s

def Stmt.resolveEach : List Stmt → Resolution → Resolution
  | [], r => r
  | s :: rest, r => Stmt.resolveEach rest (s.resolve r)
termination_by structural ss => ss

def FunctionDecl.resolve (routine : EnclosingRoutine) : FunctionDecl → Resolution → Resolution
  | ⟨_, parameters, body⟩, r =>
    r.inRoutine routine fun r => Stmt.resolveEach body (r.declareParameters parameters)
termination_by structural d => d

/-- Resolves methods in order; the one that prepares instances is an initializer. -/
def FunctionDecl.resolveMethods : List FunctionDecl → Resolution → Resolution
  | [], r => r
  | d :: rest, r =>
    FunctionDecl.resolveMethods rest
      (d.resolve (if d.isInitializer then .initializer else .method) r)
termination_by structural ds => ds

end

namespace Resolution

def run (program : List Stmt) : Except (List ScopeError) Distances :=
  let r := Stmt.resolveEach program {}
  if r.errors.isEmpty then .ok r.distances else .error r.errors

end Resolution

end Lox
