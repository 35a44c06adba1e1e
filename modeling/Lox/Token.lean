/-!
# Tokens

A token is a kind, the text it was written with, and the line on which that text
ends.  The content of a string and the value of a number are functions of the
text and not stored beside it.  A token with an empty text was not written by
the programmer: it is a semicolon supplied at a line end, or the end of input.
-/

namespace Lox

inductive TokenKind where
  | leftParen | rightParen | leftBrace | rightBrace
  | comma | dot | minus | plus | semicolon | slash | star | percent
  | bang | bangEqual | equal | equalEqual
  | greater | greaterEqual | less | lessEqual
  | identifier | string | number
  | kwAnd | kwBreak | kwClass | kwContinue | kwElse | kwFalse | kwFun | kwFor | kwIf
  | kwNil | kwOr | kwReturn | kwSuper | kwThis | kwTrue | kwVar | kwWhile
  | eof
  deriving DecidableEq, Repr, Inhabited

namespace TokenKind

def name : TokenKind → String
  | leftParen => "LEFT_PAREN"
  | rightParen => "RIGHT_PAREN"
  | leftBrace => "LEFT_BRACE"
  | rightBrace => "RIGHT_BRACE"
  | comma => "COMMA"
  | dot => "DOT"
  | minus => "MINUS"
  | plus => "PLUS"
  | semicolon => "SEMICOLON"
  | slash => "SLASH"
  | star => "STAR"
  | percent => "PERCENT"
  | bang => "BANG"
  | bangEqual => "BANG_EQUAL"
  | equal => "EQUAL"
  | equalEqual => "EQUAL_EQUAL"
  | greater => "GREATER"
  | greaterEqual => "GREATER_EQUAL"
  | less => "LESS"
  | lessEqual => "LESS_EQUAL"
  | identifier => "IDENTIFIER"
  | string => "STRING"
  | number => "NUMBER"
  | kwAnd => "AND"
  | kwBreak => "BREAK"
  | kwClass => "CLASS"
  | kwContinue => "CONTINUE"
  | kwElse => "ELSE"
  | kwFalse => "FALSE"
  | kwFun => "FUN"
  | kwFor => "FOR"
  | kwIf => "IF"
  | kwNil => "NIL"
  | kwOr => "OR"
  | kwReturn => "RETURN"
  | kwSuper => "SUPER"
  | kwThis => "THIS"
  | kwTrue => "TRUE"
  | kwVar => "VAR"
  | kwWhile => "WHILE"
  | eof => "EOF"

def keywords : List (String × TokenKind) :=
  [("and", kwAnd), ("break", kwBreak), ("class", kwClass), ("continue", kwContinue),
   ("else", kwElse), ("false", kwFalse), ("fun", kwFun), ("for", kwFor), ("if", kwIf),
   ("nil", kwNil), ("or", kwOr), ("return", kwReturn), ("super", kwSuper), ("this", kwThis),
   ("true", kwTrue), ("var", kwVar), ("while", kwWhile)]

def ofWord (word : List Char) : TokenKind :=
  (keywords.lookup (String.ofList word)).getD identifier

/-- A line that ends in such a token is complete, and a semicolon is supplied after it. -/
def endsStatement : TokenKind → Bool
  | identifier | number | string | kwNil | kwTrue | kwFalse | kwThis
  | kwReturn | kwBreak | kwContinue | rightParen => true
  | _ => false

def spelling : TokenKind → String
  | leftParen => "("
  | rightParen => ")"
  | leftBrace => "\x7b"
  | rightBrace => "\x7d"
  | dot => "."
  | semicolon => ";"
  | kind => kind.name

end TokenKind

/-- A token of the source, or one supplied by the layout. -/
structure Token where
  kind : TokenKind
  lexeme : String
  line : Nat
  deriving DecidableEq, Repr, Inhabited

inductive Literal where
  | number (value : Float)
  | string (text : String)
  | bool (value : Bool)
  | nil
  deriving Repr, Inhabited

namespace Token

def suppliedSemicolon (line : Nat) : Token := ⟨.semicolon, "", line⟩

def endOfInput (line : Nat) : Token := ⟨.eof, "", line⟩

def isSupplied (token : Token) : Bool := token.kind = .semicolon && token.lexeme.isEmpty

def near (token : Token) : String :=
  if token.kind = .eof then "end"
  else if token.isSupplied then "end of line"
  else "'" ++ token.lexeme ++ "'"

def content (token : Token) : String := String.ofList (token.lexeme.toList.drop 1).dropLast

end Token

end Lox
