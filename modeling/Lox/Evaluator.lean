import Lox.Exec
import Lox.Operators

/-!
# Executing programs

Expressions yield values, statements yield a flow that says how execution goes
on behind them.  Everything is evaluated from left to right, and every change of
the machine remains when an error stops the execution, except that the current
frame and the number of calls are as before.

Programs need not end, so the functions take a bound on the depth of their
recursion.  An execution that reaches the bound is told apart from all others,
and with any larger bound an execution that did end gives the same result.
-/

namespace Lox

/-- How execution goes on behind a statement. -/
inductive Flow where
  | normal
  | breaking
  | continuing
  | returning (value : Value)

namespace Flow

def result : Flow → Value
  | returning value => value
  | _ => .nil

end Flow

namespace Exec

def callNative (rules : Rules) (native : Native) (arguments : List Value) (line : Nat) :
    Exec Value :=
  match native with
  | .clock => return .number (← readClock rules)
  | .print => do
    write (arguments.headD .nil).display line
    write "\n" line
    return .nil

def bindArguments (function : Function) (arguments : List Value) : Exec FrameId := do
  let frame ← newFrame function.closure
  let pairs := function.declaration.parameters.zip arguments
  pairs.forM fun (parameter, argument) => defineIn frame parameter.lexeme argument
  return frame

/-- What a call returns whose body ended with `flow`: an initializer returns its instance. -/
def callResult (function : Function) (flow : Flow) (line : Nat) : Exec Value := do
  if function.isInitializer then
    let m ← get
    lift (m.frames.getAt function.closure 0 "this" line)
  else
    return flow.result

def makeMethods (frame : FrameId) (declarations : List FunctionDecl) : Exec (Bindings Function) :=
  declarations.foldlM
    (fun methods declaration => do
      let method ← newFunction declaration frame declaration.isInitializer
      return methods.insert declaration.name.lexeme method)
    .empty

/-- The frame that methods see: with a superclass, one of their own that binds `super`. -/
def methodFrame (superclass : Option Class) : Exec FrameId := do
  match superclass with
  | some parent =>
    let frame ← newInnerFrame
    defineIn frame "super" (.class parent)
    return frame
  | none => return (← get).current

def expectClass (value : Value) (line : Nat) : Exec Class :=
  match value with
  | .class parent => return parent
  | _ => fail .superclassNotClass line

/-- Makes a class and binds its name, which is `nil` while the superclass is looked up. -/
def declareClass (rules : Rules) (name : Token) (superclass : Option Occurrence)
    (methods : List FunctionDecl) : Exec Unit := do
  define name.lexeme .nil
  let parent ← match superclass with
    | some place => some <$> (readVariable rules place >>= (expectClass · place.line))
    | none => pure none
  let frame ← methodFrame parent
  let own ← makeMethods frame methods
  let layer : ClassLayer := ⟨← newIdentity, name.lexeme, own⟩
  define name.lexeme (.class ⟨layer, (parent.map Class.chain).getD []⟩)

def checkCall (rules : Rules) (callee : Value) (count line : Nat) : Exec Unit := do
  match callee.arity? with
  | none => fail .notCallable line
  | some arity =>
    if count ≠ arity then fail (.wrongArgumentCount arity count) line
    if rules.callLimit ≤ (← get).depth then fail .stackOverflow line

mutual

def evaluate (rules : Rules) : Nat → Expr → Exec Value
  | 0, _ => outOfFuel
  | fuel + 1, e => do
    match e with
    | .literal value => return .ofLiteral value
    | .group inner => evaluate rules fuel inner
    | .unary operator operand =>
      let value ← evaluate rules fuel operand
      lift (Operator.unary operator value)
    | .binary left operator right =>
      let leftValue ← evaluate rules fuel left
      let rightValue ← evaluate rules fuel right
      lift (Operator.binary operator leftValue rightValue)
    | .logical left operator right =>
      let leftValue ← evaluate rules fuel left
      if Operator.decides operator leftValue then return leftValue
      else evaluate rules fuel right
    | .read place => readVariable rules place
    | .assign place value =>
      let value ← evaluate rules fuel value
      assignVariable rules place value
      return value
    | .call callee paren arguments =>
      let callee ← evaluate rules fuel callee
      let arguments ← evaluateEach rules fuel arguments
      checkCall rules callee arguments.length paren.line
      asCall (call rules fuel callee arguments paren.line)
    | .get object name =>
      match ← evaluate rules fuel object with
      | .object owner => getProperty owner name
      | _ => fail .noProperties name.line
    | .set object name value =>
      match ← evaluate rules fuel object with
      | .object owner =>
        let value ← evaluate rules fuel value
        setField owner name.lexeme value
        return value
      | _ => fail .noFields name.line
    | .this place => readResolved place
    | .super place method => getSuper place method

def evaluateEach (rules : Rules) : Nat → List Expr → Exec (List Value)
  | 0, _ => outOfFuel
  | _ + 1, [] => return []
  | fuel + 1, e :: rest => do
    let value ← evaluate rules fuel e
    return value :: (← evaluateEach rules fuel rest)

def call (rules : Rules) : Nat → Value → List Value → Nat → Exec Value
  | 0, _, _, _ => outOfFuel
  | fuel + 1, callee, arguments, line => do
    match callee with
    | .native native => callNative rules native arguments line
    | .function function => callFunction rules fuel function arguments line
    | .class c =>
      let owner ← newInstance c
      match c.initializer? with
      | some method =>
        let initializer ← bind method owner
        let _ ← callFunction rules fuel initializer arguments line
        return .object owner
      | none => return .object owner
    | _ => fail .notCallable line

def callFunction (rules : Rules) : Nat → Function → List Value → Nat → Exec Value
  | 0, _, _, _ => outOfFuel
  | fuel + 1, function, arguments, line => do
    let frame ← bindArguments function arguments
    let flow ← inFrame frame (executeEach rules fuel function.declaration.body)
    callResult function flow line

def execute (rules : Rules) : Nat → Stmt → Exec Flow
  | 0, _ => outOfFuel
  | fuel + 1, s => do
    match s with
    | .expression value =>
      let _ ← evaluate rules fuel value
      return .normal
    | .var name none =>
      define name.lexeme .nil
      return .normal
    | .var name (some value) =>
      let value ← evaluate rules fuel value
      define name.lexeme value
      return .normal
    | .block body =>
      let frame ← newInnerFrame
      inFrame frame (executeEach rules fuel body)
    | .conditional condition thenBranch elseBranch =>
      if (← evaluate rules fuel condition).isTruthy then execute rules fuel thenBranch
      else
        match elseBranch with
        | some elseBranch => execute rules fuel elseBranch
        | none => return .normal
    | .loop condition body increment => iterate rules fuel condition body increment
    | .function declaration =>
      let function ← newFunction declaration (← get).current false
      define declaration.name.lexeme (.function function)
      return .normal
    | .returning _ none => return .returning .nil
    | .returning _ (some value) => return .returning (← evaluate rules fuel value)
    | .breaking _ => return .breaking
    | .continuing _ => return .continuing
    | .class name superclass methods =>
      declareClass rules name superclass methods
      return .normal

def executeEach (rules : Rules) : Nat → List Stmt → Exec Flow
  | 0, _ => outOfFuel
  | _ + 1, [] => return .normal
  | fuel + 1, s :: rest => do
    match ← execute rules fuel s with
    | .normal => executeEach rules fuel rest
    | flow => return flow

/-- Executes a loop from the test of its condition on. -/
def iterate (rules : Rules) : Nat → Expr → Stmt → Option Expr → Exec Flow
  | 0, _, _, _ => outOfFuel
  | fuel + 1, condition, body, increment => do
    if (← evaluate rules fuel condition).isTruthy then
      match ← execute rules fuel body with
      | .breaking => return .normal
      | .returning value => return .returning value
      | .normal | .continuing =>
        match increment with
        | some step =>
          let _ ← evaluate rules fuel step
          iterate rules fuel condition body increment
        | none => iterate rules fuel condition body increment
    else return .normal

end

def interpret (rules : Rules) (fuel : Nat) (program : List Stmt) : Exec Unit := do
  let _ ← executeEach rules fuel program

end Exec

end Lox
