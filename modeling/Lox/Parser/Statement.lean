import Lox.Parser.Expression

/-!
# Parsing statements and declarations

The first token decides which statement follows.  A `for` loop is taken apart
while it is read: its initializer and the loop stand in a block of their own, its
condition is `true` unless given, and its increment stays with the loop.

A declaration that cannot be read is recorded, and reading goes on at the next
boundary of statements.
-/

namespace Lox

namespace Parser

def parameterList : Nat → Nat → Parser (List Token)
  | 0, _ => outOfFuel
  | fuel + 1, count => do
    checkLength .parameters count
    let parameter ← expectName .parameterName
    match ← accept .comma with
    | none => return [parameter]
    | some _ => return parameter :: (← parameterList fuel (count + 1))

def optionalExpression (fuel : Nat) (ending : TokenKind) : Parser (Option Expr) := do
  if (← peek).kind = ending then return none
  else return some (← expression fuel)

def expressionStatement (fuel : Nat) : Parser Stmt := do
  let value ← expression fuel
  expectMark .semicolon .afterExpression
  return .expression value

def varDeclaration (fuel : Nat) : Parser Stmt := do
  let name ← expectName .variableName
  let initializer ← match ← accept .equal with
    | some _ => some <$> expression fuel
    | none => pure none
  expectMark .semicolon .afterVariable
  return .var name initializer

/-- The first clause of a `for` loop, with its semicolon. -/
def forInitializer (fuel : Nat) : Parser (Option Stmt) := do
  match (← peek).kind with
  | .semicolon =>
    let _ ← advance
    return none
  | .kwVar =>
    let _ ← advance
    some <$> varDeclaration fuel
  | _ => some <$> expressionStatement fuel

def forLoop (initializer : Option Stmt) (condition : Option Expr) (increment : Option Expr)
    (body : Stmt) : Stmt :=
  let loop := Stmt.loop (condition.getD (.literal (.bool true))) body increment
  match initializer with
  | some first => .block [first, loop]
  | none => loop

mutual

/-- A declaration or statement, or nothing after an error. -/
def declaration : Nat → Parser (Option Stmt)
  | 0 => outOfFuel
  | fuel + 1 => recovering do
    match (← peek).kind with
    | .kwClass =>
      let _ ← advance
      classDeclaration fuel
    | .kwFun =>
      let _ ← advance
      return .function (← routine fuel .function)
    | .kwVar =>
      let _ ← advance
      varDeclaration fuel
    | _ => statement fuel

def declarations : Nat → List TokenKind → Parser (List Stmt)
  | 0, _ => outOfFuel
  | fuel + 1, endings => do
    if (← peek).kind ∈ endings then return []
    else
      match ← declaration fuel with
      | some first => return first :: (← declarations fuel endings)
      | none => declarations fuel endings

def block : Nat → Parser (List Stmt)
  | 0 => outOfFuel
  | fuel + 1 => do
    let body ← declarations fuel [.rightBrace, .eof]
    expectMark .rightBrace .afterBlock
    return body

def routine : Nat → Routine → Parser FunctionDecl
  | 0, _ => outOfFuel
  | fuel + 1, kind => do
    let name ← expectName (.routineName kind)
    expectMark .leftParen (.afterRoutineName kind)
    let parameters ←
      if (← peek).kind = .rightParen then pure [] else parameterList fuel 0
    expectMark .rightParen .afterParameters
    expectMark .leftBrace (.beforeRoutineBody kind)
    let body ← block fuel
    return ⟨name, parameters, body⟩

def methods : Nat → Parser (List FunctionDecl)
  | 0 => outOfFuel
  | fuel + 1 => do
    if (← peek).kind ∈ [TokenKind.rightBrace, .eof] then return []
    else
      let first ← routine fuel .method
      return first :: (← methods fuel)

def classDeclaration : Nat → Parser Stmt
  | 0 => outOfFuel
  | fuel + 1 => do
    let name ← expectName .className
    let superclass ← match ← accept .less with
      | some _ => some <$> (expectName .superclassName >>= occurrence)
      | none => pure none
    expectMark .leftBrace .beforeClassBody
    let body ← methods fuel
    expectMark .rightBrace .afterClassBody
    return .class name superclass body

def statement : Nat → Parser Stmt
  | 0 => outOfFuel
  | fuel + 1 => do
    match (← peek).kind with
    | .kwFor =>
      let _ ← advance
      expectMark .leftParen .afterFor
      let initializer ← forInitializer fuel
      let condition ← optionalExpression fuel .semicolon
      expectMark .semicolon .afterLoopCondition
      let increment ← optionalExpression fuel .rightParen
      expectMark .rightParen .afterForClauses
      let body ← statement fuel
      return forLoop initializer condition increment body
    | .kwIf =>
      let _ ← advance
      expectMark .leftParen .afterIf
      let condition ← expression fuel
      expectMark .rightParen .afterIfCondition
      let thenBranch ← statement fuel
      match ← accept .kwElse with
      | some _ => return .conditional condition thenBranch (some (← statement fuel))
      | none => return .conditional condition thenBranch none
    | .kwWhile =>
      let _ ← advance
      expectMark .leftParen .afterWhile
      let condition ← expression fuel
      expectMark .rightParen .afterWhileCondition
      let body ← statement fuel
      return .loop condition body none
    | .kwReturn =>
      let keyword ← advance
      let value ← optionalExpression fuel .semicolon
      expectMark .semicolon .afterReturnValue
      return .returning keyword value
    | .kwBreak =>
      let keyword ← advance
      expectMark .semicolon .afterBreak
      return .breaking keyword
    | .kwContinue =>
      let keyword ← advance
      expectMark .semicolon .afterContinue
      return .continuing keyword
    | .leftBrace =>
      let _ ← advance
      return .block (← block fuel)
    | _ => expressionStatement fuel

end

/--
A depth of recursion that no parse reaches: between two tokens that are stepped
over there are fewer than 32 nested calls.
-/
def enoughFuel (tokens : List Token) : Nat := 32 * (tokens.length + 1)

/--
The program that tokens form, or the errors in it, and the next unused identity.
The tokens end with the end of input.
-/
def parse (tokens : List Token) (nextId : NodeId) :
    Except (List GrammarError) (List Stmt) × NodeId :=
  match declarations (enoughFuel tokens) [.eof] ⟨tokens, [], nextId⟩ with
  | .ok program s => (if s.errors.isEmpty then .ok program else .error s.errors, s.nextId)
  | .error _ s => (.error s.errors, s.nextId)

end Parser

end Lox
