import Lox.Resolution
import Lox.Tree.Occurrences

/-!
# What the resolution sees on its way

A visit is an occurrence together with the state in which the walk relates it to
a scope.  The visits of a tree are listed in the order of the walk, so values come
before the places they are assigned to.  Their states are made by the walk itself.
-/

namespace Lox

/-- An occurrence, and the state of the resolution at it. -/
structure Visit where
  kind : OccurrenceKind
  place : Occurrence
  state : Resolution

namespace Resolution

/-! ### States on entering a part of a statement -/

def enterInitializer (name : String) (r : Resolution) : Resolution :=
  match r.scopes with
  | [] => { r with initializing? := some name }
  | _ :: _ => r

def enterLoop (r : Resolution) : Resolution := { r with loopDepth := r.loopDepth + 1 }

def enterRoutine (routine : EnclosingRoutine) (parameters : List Token) (r : Resolution) :
    Resolution :=
  ({ r with routine := routine, loopDepth := 0 } : Resolution).openScope.declareParameters
    parameters

def enterSuperclass (name : Token) (parent : Occurrence) (r : Resolution) : Resolution :=
  let r := (({ r with enclosingClass := .base } : Resolution).declare name).define name
  let r := r.reportIf (parent.name = name.lexeme) .inheritsFromItself parent.token
  { r with enclosingClass := .derived }

def enterClassBody (derived : Bool) (r : Resolution) : Resolution :=
  if derived then ((r.openScope.mark "super" true).openScope).mark "this" true
  else r.openScope.mark "this" true

end Resolution

open Resolution

/-! ### Visits -/

mutual

def Expr.visits : Expr → Resolution → List Visit
  | .literal _, _ => []
  | .unary _ operand, r => operand.visits r
  | .binary left _ right, r | .logical left _ right, r =>
    left.visits r ++ right.visits (left.resolve r)
  | .group inner, r => inner.visits r
  | .read place, r => [⟨.read, place, r⟩]
  | .assign place value, r => value.visits r ++ [⟨.assign, place, value.resolve r⟩]
  | .call callee _ arguments, r =>
    callee.visits r ++ Expr.visitsEach arguments (callee.resolve r)
  | .get object _, r => object.visits r
  | .set object _ value, r => value.visits r ++ object.visits (value.resolve r)
  | .this place, r => [⟨.this, place, r⟩]
  | .super place _, r => [⟨.super, place, r⟩]
termination_by structural e => e

def Expr.visitsEach : List Expr → Resolution → List Visit
  | [], _ => []
  | e :: rest, r => e.visits r ++ Expr.visitsEach rest (e.resolve r)
termination_by structural es => es

end

def Expr.visitsIn? : Option Expr → Resolution → List Visit
  | none, _ => []
  | some e, r => e.visits r

def Occurrence.visitsIn? (name : Token) : Option Occurrence → Resolution → List Visit
  | none, _ => []
  | some parent, r => [⟨.read, parent, r.enterSuperclass name parent⟩]

mutual

def Stmt.visits : Stmt → Resolution → List Visit
  | .expression value, r => value.visits r
  | .var _ none, _ => []
  | .var name (some value), r => value.visits ((r.declare name).enterInitializer name.lexeme)
  | .block body, r => Stmt.visitsEach body r.openScope
  | .conditional condition thenBranch none, r =>
    condition.visits r ++ thenBranch.visits (condition.resolve r)
  | .conditional condition thenBranch (some elseBranch), r =>
    condition.visits r ++ thenBranch.visits (condition.resolve r) ++
      elseBranch.visits (thenBranch.resolve (condition.resolve r))
  | .loop condition body increment, r =>
    condition.visits r ++ body.visits (condition.resolve r).enterLoop ++
      Expr.visitsIn? increment ((condition.resolve r).inLoop body.resolve)
  | .function declaration, r =>
    declaration.visits .function ((r.declare declaration.name).define declaration.name)
  | .returning _ none, _ => []
  | .returning keyword (some value), r =>
    let r := r.reportIf (r.routine = .topLevel) .returnAtTopLevel keyword
    value.visits (r.reportIf (r.routine = .initializer) .returnValueFromInitializer keyword)
  | .breaking _, _ | .continuing _, _ => []
  | .class name superclass methods, r =>
    Occurrence.visitsIn? name superclass r ++
      FunctionDecl.visitsMethods methods
        ((r.enterClass name superclass).enterClassBody superclass.isSome)
termination_by structural s => s

def Stmt.visitsEach : List Stmt → Resolution → List Visit
  | [], _ => []
  | s :: rest, r => s.visits r ++ Stmt.visitsEach rest (s.resolve r)
termination_by structural ss => ss

def FunctionDecl.visits (routine : EnclosingRoutine) : FunctionDecl → Resolution → List Visit
  | ⟨_, parameters, body⟩, r => Stmt.visitsEach body (r.enterRoutine routine parameters)
termination_by structural d => d

def FunctionDecl.visitsMethods : List FunctionDecl → Resolution → List Visit
  | [], _ => []
  | d :: rest, r =>
    let routine := if d.isInitializer then .initializer else .method
    d.visits routine r ++ FunctionDecl.visitsMethods rest (d.resolve routine r)
termination_by structural ds => ds

end

/-! ### Every occurrence is visited once -/

def Visit.entry (v : Visit) : OccurrenceKind × Occurrence := (v.kind, v.place)

mutual

theorem Expr.perm_visits (r : Resolution) :
    (e : Expr) → ((e.visits r).map Visit.entry).Perm e.occurrences
  | .literal _ => .refl _
  | .unary _ operand => operand.perm_visits r
  | .binary left _ right | .logical left _ right => by
    rw [Expr.visits, List.map_append, Expr.occurrences]
    exact (left.perm_visits r).append (right.perm_visits _)
  | .group inner => inner.perm_visits r
  | .read _ | .this _ | .super _ _ => .refl _
  | .assign place value => by
    rw [Expr.visits, List.map_append, Expr.occurrences]
    exact ((value.perm_visits r).append_right _).trans (List.perm_append_singleton _ _)
  | .call callee _ arguments => by
    rw [Expr.visits, List.map_append, Expr.occurrences]
    exact (callee.perm_visits r).append (Expr.perm_visitsEach _ arguments)
  | .get object _ => object.perm_visits r
  | .set object _ value => by
    rw [Expr.visits, List.map_append, Expr.occurrences]
    exact ((value.perm_visits r).append (object.perm_visits _)).trans List.perm_append_comm
termination_by structural e => e

theorem Expr.perm_visitsEach (r : Resolution) :
    (es : List Expr) → ((Expr.visitsEach es r).map Visit.entry).Perm (Expr.occurrencesEach es)
  | [] => .refl _
  | e :: rest => by
    rw [Expr.visitsEach, List.map_append, Expr.occurrencesEach]
    exact (e.perm_visits r).append (Expr.perm_visitsEach _ rest)
termination_by structural es => es

end

theorem Expr.perm_visitsIn? (r : Resolution) (e : Option Expr) :
    ((Expr.visitsIn? e r).map Visit.entry).Perm (Expr.occurrencesIn? e) := by
  cases e with
  | none => exact .refl _
  | some e => exact e.perm_visits r

mutual

theorem Stmt.perm_visits (r : Resolution) :
    (s : Stmt) → ((s.visits r).map Visit.entry).Perm s.occurrences
  | .expression value => value.perm_visits r
  | .var _ none => .refl _
  | .var _ (some value) => value.perm_visits _
  | .block body => Stmt.perm_visitsEach _ body
  | .conditional condition thenBranch none => by
    rw [Stmt.visits, List.map_append, Stmt.occurrences]
    exact (condition.perm_visits r).append (thenBranch.perm_visits _)
  | .conditional condition thenBranch (some elseBranch) => by
    rw [Stmt.visits, List.map_append, List.map_append, Stmt.occurrences]
    exact ((condition.perm_visits r).append (thenBranch.perm_visits _)).append
      (elseBranch.perm_visits _)
  | .loop condition body increment => by
    rw [Stmt.visits, List.map_append, List.map_append, Stmt.occurrences]
    exact ((condition.perm_visits r).append (body.perm_visits _)).append
      (Expr.perm_visitsIn? _ increment)
  | .function declaration => declaration.perm_visits _ _
  | .returning _ none => .refl _
  | .returning _ (some value) => value.perm_visits _
  | .breaking _ | .continuing _ => .refl _
  | .class _ none methods => FunctionDecl.perm_visitsMethods _ methods
  | .class _ (some _) methods => (FunctionDecl.perm_visitsMethods _ methods).cons _
termination_by structural s => s

theorem Stmt.perm_visitsEach (r : Resolution) :
    (ss : List Stmt) → ((Stmt.visitsEach ss r).map Visit.entry).Perm (Stmt.occurrencesEach ss)
  | [] => .refl _
  | s :: rest => by
    rw [Stmt.visitsEach, List.map_append, Stmt.occurrencesEach]
    exact (s.perm_visits r).append (Stmt.perm_visitsEach _ rest)
termination_by structural ss => ss

theorem FunctionDecl.perm_visits (routine : EnclosingRoutine) (r : Resolution) :
    (d : FunctionDecl) → ((d.visits routine r).map Visit.entry).Perm d.occurrences
  | ⟨_, _, body⟩ => Stmt.perm_visitsEach _ body
termination_by structural d => d

theorem FunctionDecl.perm_visitsMethods (r : Resolution) :
    (ds : List FunctionDecl) →
      ((FunctionDecl.visitsMethods ds r).map Visit.entry).Perm (FunctionDecl.occurrencesEach ds)
  | [] => .refl _
  | d :: rest => by
    rw [FunctionDecl.visitsMethods, List.map_append, FunctionDecl.occurrencesEach]
    exact (d.perm_visits _ r).append (FunctionDecl.perm_visitsMethods _ rest)
termination_by structural ds => ds

end

end Lox
