import Lox.Parser.Cursor
import Lox.Token.Item

/-!
# Parsing expressions

Operators bind in six levels, each of them grouping to the left; looser than all
of them is assignment, which groups to the right, and tighter are the prefix
operators, calls and property accesses.  Whether an assignment has a target is
found out after its left side was read as an expression: a name or a property
access becomes the target, anything else is an error that does not stop the
parser.
-/

namespace Lox

namespace Parser

/-- The levels of left-grouping operators, from loose to tight. -/
inductive Level where
  | disjunction
  | conjunction
  | equality
  | comparison
  | sum
  | product
  deriving DecidableEq, Repr

namespace Level

def all : List Level := [disjunction, conjunction, equality, comparison, sum, product]

def operators : Level → List TokenKind
  | disjunction => [.kwOr]
  | conjunction => [.kwAnd]
  | equality => [.bangEqual, .equalEqual]
  | comparison => [.greater, .greaterEqual, .less, .lessEqual]
  | sum => [.minus, .plus]
  | product => [.slash, .star, .percent]

def combine : Level → Expr → Token → Expr → Expr
  | disjunction | conjunction => .logical
  | _ => .binary

end Level

def assignTo (target : Expr) (equals : Token) (value : Expr) : Parser Expr :=
  match target with
  | .read place => return .assign (← occurrence place.token) value
  | .get object name => return .set object name value
  | other => do
    record .invalidTarget equals
    return other

mutual

def expression : Nat → Parser Expr
  | 0 => outOfFuel
  | fuel + 1 => do
    let target ← operation fuel Level.all
    match ← accept .equal with
    | none => return target
    | some equals =>
      let value ← expression fuel
      assignTo target equals value

def operation : Nat → List Level → Parser Expr
  | 0, _ => outOfFuel
  | fuel + 1, [] => unary fuel
  | fuel + 1, level :: tighter => do
    let left ← operation fuel tighter
    operationTail fuel level tighter left

def operationTail : Nat → Level → List Level → Expr → Parser Expr
  | 0, _, _, _ => outOfFuel
  | fuel + 1, level, tighter, left => do
    match ← acceptAny level.operators with
    | none => return left
    | some operator =>
      let right ← operation fuel tighter
      operationTail fuel level tighter (level.combine left operator right)

def unary : Nat → Parser Expr
  | 0 => outOfFuel
  | fuel + 1 => do
    match ← acceptAny [.bang, .minus] with
    | some operator => return .unary operator (← unary fuel)
    | none =>
      let callee ← primary fuel
      callTail fuel callee

def callTail : Nat → Expr → Parser Expr
  | 0, _ => outOfFuel
  | fuel + 1, callee => do
    match (← peek).kind with
    | .leftParen =>
      let _ ← advance
      let arguments ←
        if (← peek).kind = .rightParen then pure [] else argumentList fuel 0
      let paren ← expect .rightParen (.noMark .rightParen .afterArguments)
      callTail fuel (.call callee paren arguments)
    | .dot =>
      let _ ← advance
      let name ← expectName .propertyName
      callTail fuel (.get callee name)
    | _ => return callee

def argumentList : Nat → Nat → Parser (List Expr)
  | 0, _ => outOfFuel
  | fuel + 1, count => do
    checkLength .arguments count
    let argument ← expression fuel
    match ← accept .comma with
    | none => return [argument]
    | some _ => return argument :: (← argumentList fuel (count + 1))

def primary : Nat → Parser Expr
  | 0 => outOfFuel
  | fuel + 1 => do
    let token ← peek
    match token.literal?, token.kind with
    | some value, _ =>
      let _ ← advance
      return .literal value
    | none, .kwThis => return .this (← occurrence (← advance))
    | none, .kwSuper =>
      let keyword ← advance
      expectMark .dot .afterSuper
      let method ← expectName .superclassMethodName
      return .super (← occurrence keyword) method
    | none, .identifier => return .read (← occurrence (← advance))
    | none, .leftParen =>
      let _ ← advance
      let inner ← expression fuel
      expectMark .rightParen .afterExpression
      return .group inner
    | none, _ => fail .noExpression

end

end Parser

end Lox
