import Lox.Token

/-!
# What can be wrong with a program

Each stage has its own causes of failure, and each cause one wording.  A
diagnostic is a cause with the place it points at: a line, or a token.
-/

namespace Lox

/-! ### Characters that form no token -/

inductive LexicalCause where
  | unexpectedCharacter (c : Char)
  | unterminatedString
  deriving DecidableEq, Repr

namespace LexicalCause

def message : LexicalCause → String
  | unexpectedCharacter c => "Unexpected character: " ++ String.singleton c
  | unterminatedString => "Unterminated string."

end LexicalCause

structure LexicalError where
  cause : LexicalCause
  line : Nat
  deriving DecidableEq, Repr

/-! ### Tokens that form no program -/

inductive Routine where
  | function
  | method
  deriving DecidableEq, Repr

namespace Routine

def name : Routine → String
  | function => "function"
  | method => "method"

end Routine

/-- The places where the grammar wants a name. -/
inductive NameRole where
  | className
  | superclassName
  | routineName (routine : Routine)
  | parameterName
  | variableName
  | propertyName
  | superclassMethodName
  deriving DecidableEq, Repr

namespace NameRole

def description : NameRole → String
  | className => "class name"
  | superclassName => "superclass name"
  | routineName r => r.name ++ " name"
  | parameterName => "parameter name"
  | variableName => "variable name"
  | propertyName => "property name after '.'"
  | superclassMethodName => "superclass method name"

end NameRole

/-- The places where the grammar wants a particular mark. -/
inductive Place where
  | beforeClassBody
  | afterClassBody
  | afterRoutineName (routine : Routine)
  | afterParameters
  | beforeRoutineBody (routine : Routine)
  | afterVariable
  | afterBreak
  | afterContinue
  | afterFor
  | afterLoopCondition
  | afterForClauses
  | afterExpression
  | afterIf
  | afterIfCondition
  | afterWhile
  | afterWhileCondition
  | afterReturnValue
  | afterBlock
  | afterArguments
  | afterSuper
  deriving DecidableEq, Repr

namespace Place

def description : Place → String
  | beforeClassBody => "before class body"
  | afterClassBody => "after class body"
  | afterRoutineName r => "after " ++ r.name ++ " name"
  | afterParameters => "after parameters"
  | beforeRoutineBody r => "before " ++ r.name ++ " body"
  | afterVariable => "after variable declaration"
  | afterBreak => "after 'break'"
  | afterContinue => "after 'continue'"
  | afterFor => "after 'for'"
  | afterLoopCondition => "after loop condition"
  | afterForClauses => "after for clauses"
  | afterExpression => "after expression"
  | afterIf => "after 'if'"
  | afterIfCondition => "after if condition"
  | afterWhile => "after 'while'"
  | afterWhileCondition => "after condition"
  | afterReturnValue => "after return value"
  | afterBlock => "after block"
  | afterArguments => "after arguments"
  | afterSuper => "after 'super'"

end Place

inductive LimitedList where
  | parameters
  | arguments
  deriving DecidableEq, Repr

namespace LimitedList

def limit : Nat := 255

def name : LimitedList → String
  | parameters => "parameters"
  | arguments => "arguments"

end LimitedList

inductive GrammarCause where
  | noExpression
  | noName (role : NameRole)
  | noMark (mark : TokenKind) (place : Place)
  | tooMany (list : LimitedList)
  | invalidTarget
  deriving DecidableEq, Repr

namespace GrammarCause

def message : GrammarCause → String
  | noExpression => "Expected expression."
  | noName role => "Expected " ++ role.description ++ "."
  | noMark mark place => "Expected '" ++ mark.spelling ++ "' " ++ place.description ++ "."
  | tooMany list =>
    "Can't have more than " ++ toString LimitedList.limit ++ " " ++ list.name ++ "."
  | invalidTarget => "Invalid assignment target."

end GrammarCause

structure GrammarError where
  cause : GrammarCause
  token : Token
  deriving DecidableEq, Repr

/-! ### Programs that break the rules of scope -/

inductive ScopeCause where
  | breakOutsideLoop
  | continueOutsideLoop
  | returnAtTopLevel
  | returnValueFromInitializer
  | thisOutsideClass
  | superOutsideClass
  | superWithoutSuperclass
  | inheritsFromItself
  | alreadyDeclared
  | localReadInInitializer
  | globalReadInInitializer
  deriving DecidableEq, Repr

namespace ScopeCause

def message : ScopeCause → String
  | breakOutsideLoop => "Can't use 'break' outside of a loop."
  | continueOutsideLoop => "Can't use 'continue' outside of a loop."
  | returnAtTopLevel => "Can't return from top-level code."
  | returnValueFromInitializer => "Can't return a value from an initializer."
  | thisOutsideClass => "Can't use 'this' outside of a class."
  | superOutsideClass => "Can't use 'super' outside of a class."
  | superWithoutSuperclass => "Can't use 'super' in a class with no superclass."
  | inheritsFromItself => "A class can't inherit from itself."
  | alreadyDeclared => "Already a variable with this name in this scope."
  | localReadInInitializer => "Can't read local variable in its own initializer."
  | globalReadInInitializer => "Can't read variable in its own initializer."

end ScopeCause

structure ScopeError where
  cause : ScopeCause
  token : Token
  deriving DecidableEq, Repr

/-! ### Running programs that go wrong -/

inductive RuntimeCause where
  | undefinedVariable (name : String)
  | unresolvedBinding (name : String) (distance : Nat)
  | operandNotNumber
  | operandsNotNumbers
  | operandsNotStrings
  | operandsNotAddable
  | divisionByZero
  | invalidUnaryOperator
  | invalidBinaryOperator
  | notCallable
  | wrongArgumentCount (expected got : Nat)
  | stackOverflow
  | superclassNotClass
  | noProperties
  | noFields
  | undefinedProperty (name : String)
  | superUnavailable
  | outputRefused
  deriving DecidableEq, Repr

namespace RuntimeCause

def message : RuntimeCause → String
  | undefinedVariable name => "Undefined variable '" ++ name ++ "'."
  | unresolvedBinding name distance =>
    "Unresolved binding '" ++ name ++ "' at distance " ++ toString distance ++ "."
  | operandNotNumber => "Operand must be a number."
  | operandsNotNumbers => "Operands must be numbers."
  | operandsNotStrings => "Operands must be strings."
  | operandsNotAddable => "Operands must be two numbers or two strings."
  | divisionByZero => "Division by zero."
  | invalidUnaryOperator => "Invalid unary operator."
  | invalidBinaryOperator => "Invalid binary operator."
  | notCallable => "Can only call functions and classes."
  | wrongArgumentCount expected got =>
    "Expected " ++ toString expected ++ " arguments but got " ++ toString got ++ "."
  | stackOverflow => "Stack overflow."
  | superclassNotClass => "Superclass must be a class."
  | noProperties => "Only instances have properties."
  | noFields => "Only instances have fields."
  | undefinedProperty name => "Undefined property '" ++ name ++ "'."
  | superUnavailable => "Can't use 'super' here."
  | outputRefused => "Output error: sink full"

end RuntimeCause

structure RuntimeError where
  cause : RuntimeCause
  line : Nat
  deriving DecidableEq, Repr

/-! ### All stages together -/

inductive Diagnostic where
  | lexical (error : LexicalError)
  | grammar (error : GrammarError)
  | scope (error : ScopeError)
  | runtime (error : RuntimeError)
  /-- The sink did not accept the end of the output. -/
  | unflushed
  deriving DecidableEq, Repr

namespace Diagnostic

def message : Diagnostic → String
  | lexical e => e.cause.message
  | grammar e => e.cause.message
  | scope e => e.cause.message
  | runtime e => e.cause.message
  | unflushed => "flush failed"

def line? : Diagnostic → Option Nat
  | lexical e => some e.line
  | grammar e => some e.token.line
  | scope e => some e.token.line
  | runtime e => some e.line
  | unflushed => none

def near? : Diagnostic → Option String
  | grammar e => some e.token.near
  | scope e => some e.token.near
  | _ => none

/-- The diagnostic as one text: static ones start with their line, runtime ones end with it. -/
def text : Diagnostic → String
  | lexical e => "[line " ++ toString e.line ++ "] Error: " ++ e.cause.message
  | grammar e =>
    "[line " ++ toString e.token.line ++ "] Error at " ++ e.token.near ++ ": " ++ e.cause.message
  | scope e =>
    "[line " ++ toString e.token.line ++ "] Error at " ++ e.token.near ++ ": " ++ e.cause.message
  | runtime e => e.cause.message ++ "\n[line " ++ toString e.line ++ "]"
  | unflushed => message unflushed

end Diagnostic

end Lox
