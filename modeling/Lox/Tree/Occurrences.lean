import Lox.Tree

/-!
# The occurrences in a tree

All places of a program where a name is looked up, in the order of the tree: a
node before its parts, and the parts from left to right.
-/

namespace Lox

inductive OccurrenceKind where
  | read
  | assign
  | this
  | super
  deriving DecidableEq, Repr

namespace OccurrenceKind

def name : OccurrenceKind → String
  | read => "Variable"
  | assign => "Assign"
  | this => "This"
  | super => "Super"

end OccurrenceKind

mutual

/-- The occurrences in an expression; an assignment comes before those in its value. -/
def Expr.occurrences : Expr → List (OccurrenceKind × Occurrence)
  | .literal _ => []
  | .unary _ operand => operand.occurrences
  | .binary left _ right | .logical left _ right => left.occurrences ++ right.occurrences
  | .group inner => inner.occurrences
  | .read occurrence => [(.read, occurrence)]
  | .assign occurrence value => (.assign, occurrence) :: value.occurrences
  | .call callee _ arguments => callee.occurrences ++ Expr.occurrencesEach arguments
  | .get object _ => object.occurrences
  | .set object _ value => object.occurrences ++ value.occurrences
  | .this occurrence => [(.this, occurrence)]
  | .super occurrence _ => [(.super, occurrence)]
termination_by structural e => e

def Expr.occurrencesEach : List Expr → List (OccurrenceKind × Occurrence)
  | [] => []
  | e :: rest => e.occurrences ++ Expr.occurrencesEach rest
termination_by structural es => es

end

namespace Expr

def occurrencesIn? : Option Expr → List (OccurrenceKind × Occurrence)
  | none => []
  | some e => e.occurrences

end Expr

mutual

/-- The occurrences in a statement; a superclass comes before the methods. -/
def Stmt.occurrences : Stmt → List (OccurrenceKind × Occurrence)
  | .expression value => value.occurrences
  | .var _ initializer => Expr.occurrencesIn? initializer
  | .block body => Stmt.occurrencesEach body
  | .conditional condition thenBranch none => condition.occurrences ++ thenBranch.occurrences
  | .conditional condition thenBranch (some elseBranch) =>
    condition.occurrences ++ thenBranch.occurrences ++ elseBranch.occurrences
  | .loop condition body increment =>
    condition.occurrences ++ body.occurrences ++ Expr.occurrencesIn? increment
  | .function declaration => declaration.occurrences
  | .returning _ value => Expr.occurrencesIn? value
  | .breaking _ | .continuing _ => []
  | .class _ none methods => FunctionDecl.occurrencesEach methods
  | .class _ (some superclass) methods =>
    (.read, superclass) :: FunctionDecl.occurrencesEach methods
termination_by structural s => s

def Stmt.occurrencesEach : List Stmt → List (OccurrenceKind × Occurrence)
  | [] => []
  | s :: rest => s.occurrences ++ Stmt.occurrencesEach rest
termination_by structural ss => ss

def FunctionDecl.occurrences : FunctionDecl → List (OccurrenceKind × Occurrence)
  | ⟨_, _, body⟩ => Stmt.occurrencesEach body
termination_by structural d => d

def FunctionDecl.occurrencesEach : List FunctionDecl → List (OccurrenceKind × Occurrence)
  | [] => []
  | d :: rest => d.occurrences ++ FunctionDecl.occurrencesEach rest
termination_by structural ds => ds

end

end Lox
