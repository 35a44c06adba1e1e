import Lox.Diagnostic
import Lox.Tree

/-!
# Reading tokens one after the other

The parser looks at one token at a time and never goes back.  It collects errors
that do not stop it, and stops at the first one that does; what stops it is
caught at the next declaration, see `recovering`.
-/

namespace Lox

namespace Parser

/-- The tokens ahead, the errors so far, and the next unused identity. -/
structure State where
  rest : List Token
  errors : List GrammarError
  nextId : NodeId
  deriving Repr

inductive Stop where
  | error (error : GrammarError)
  /-- The bound on the depth of the recursion was reached. -/
  | outOfFuel
  deriving DecidableEq, Repr

end Parser

/-- A parser keeps its state also when it stops. -/
abbrev Parser (α : Type) : Type := EStateM Parser.Stop Parser.State α

namespace Parser

/-- The token ahead of a state; behind the last token the input has ended. -/
def State.ahead (s : State) : Token := s.rest.headD (.endOfInput 0)

def peek : Parser Token := fun s => .ok s.ahead s

/-- Steps over the token ahead and returns it; the end of input stays ahead. -/
def advance : Parser Token := fun s =>
  if s.ahead.kind = .eof then .ok s.ahead s
  else .ok s.ahead { s with rest := s.rest.tail }

def acceptAny (kinds : List TokenKind) : Parser (Option Token) := do
  if (← peek).kind ∈ kinds then
    return some (← advance)
  else
    return none

def accept (kind : TokenKind) : Parser (Option Token) := acceptAny [kind]

def fail {α : Type} (cause : GrammarCause) : Parser α := fun s =>
  .error (.error ⟨cause, s.ahead⟩) s

def expect (kind : TokenKind) (cause : GrammarCause) : Parser Token := do
  match ← accept kind with
  | some token => return token
  | none => fail cause

def expectMark (mark : TokenKind) (place : Place) : Parser Unit := do
  let _ ← expect mark (.noMark mark place)

def expectName (role : NameRole) : Parser Token := expect .identifier (.noName role)

def record (cause : GrammarCause) (token : Token) : Parser Unit :=
  modify fun s => { s with errors := s.errors ++ [⟨cause, token⟩] }

/-- Notes that the token ahead starts an entry too many of a list with `count` entries. -/
def checkLength (list : LimitedList) (count : Nat) : Parser Unit := do
  if LimitedList.limit ≤ count then
    record (.tooMany list) (← peek)

def occurrence (token : Token) : Parser Occurrence := fun s =>
  .ok ⟨s.nextId, token⟩ { s with nextId := s.nextId + 1 }

def outOfFuel {α : Type} : Parser α := throw .outOfFuel

/-! ### Going on behind an error -/

/-- The kinds of token that can only start a declaration or a statement. -/
def startsStatement : TokenKind → Bool
  | .kwClass | .kwFun | .kwVar | .kwFor | .kwIf | .kwWhile | .kwReturn => true
  | _ => false

/--
Steps over at least one token, and then over all others up to the next boundary
of statements: behind a semicolon, before a token that starts a statement, or at
the end of input.
-/
def skipStatement : List Token → List Token
  | [] => []
  | token :: rest =>
    if token.kind = .eof then token :: rest
    else if token.kind = .semicolon then rest
    else if startsStatement (rest.headD (.endOfInput 0)).kind then rest
    else skipStatement rest

/-- Turns the error that stops `p` into a recorded one and goes on at the next boundary. -/
def recovering {α : Type} (p : Parser α) : Parser (Option α) := fun s =>
  match p s with
  | .ok a s' => .ok (some a) s'
  | .error (.error e) s' =>
    .ok none { s' with rest := skipStatement s'.rest, errors := s'.errors ++ [e] }
  | .error .outOfFuel s' => .error .outOfFuel s'

end Parser

end Lox
