import Lox.Diagnostic
import Lox.Number
import Lox.Token.Piece

/-!
# From pieces to tokens

Blanks and comments leave no trace except the line breaks they contain.  A piece
that forms no token becomes an error in its place.  A semicolon is supplied
before a token when the token before it ends a statement and a line break lies
between the two; line breaks inside strings do not count for this.  Another one
is supplied at the end of input, with or without a line break.  The end of input
is the last item.
-/

namespace Lox

/-- A token, or the error that stands in its place. -/
inductive Item where
  | token (token : Token)
  | error (error : LexicalError)
  deriving DecidableEq, Repr

namespace Item

/-- What the scan remembers between two pieces. -/
structure Progress where
  /-- The line the next piece starts on. -/
  line : Nat := 1
  /-- The last token seen. -/
  last? : Option Token := none
  /-- Whether a line break was passed since then. -/
  crossed : Bool := false
  deriving Repr

namespace Progress

/-- The semicolon that the last token calls for at the end of its line. -/
def semicolon (progress : Progress) : List Item :=
  match progress.last? with
  | some last =>
    if last.kind.endsStatement then [.token (.suppliedSemicolon last.line)] else []
  | none => []

def semicolonIfCrossed (progress : Progress) : List Item :=
  if progress.crossed then progress.semicolon else []

def emit (progress : Progress) (piece : Piece) : List Item :=
  let line := progress.line + piece.lineBreaks
  match piece.kind, piece.text with
  | .blank, _ | .comment, _ => []
  | .token kind, text =>
    progress.semicolonIfCrossed ++ [.token ⟨kind, String.ofList text, line⟩]
  | .unexpected, text => [.error ⟨.unexpectedCharacter (text.headD ' '), line⟩]
  | .unterminated, _ => [.error ⟨.unterminatedString, line⟩]

def advance (progress : Progress) (piece : Piece) : Progress :=
  let line := progress.line + piece.lineBreaks
  match piece.kind with
  | .blank => ⟨line, progress.last?, progress.crossed || 0 < piece.lineBreaks⟩
  | .token kind => ⟨line, some ⟨kind, String.ofList piece.text, line⟩, false⟩
  | .comment | .unexpected | .unterminated => ⟨line, progress.last?, progress.crossed⟩

end Progress

def ofPieces (progress : Progress) : List Piece → List Item
  | [] => progress.semicolon ++ [.token (.endOfInput progress.line)]
  | piece :: rest => progress.emit piece ++ ofPieces (progress.advance piece) rest

def scan (source : String) : List Item := ofPieces ⟨1, none, false⟩ (Piece.divide source.toList)

def token? : Item → Option Token
  | token t => some t
  | error _ => none

def error? : Item → Option LexicalError
  | token _ => none
  | error e => some e

def tokens (items : List Item) : List Token := items.filterMap token?

def errors (items : List Item) : List LexicalError := items.filterMap error?

end Item

namespace Token

/-- The constant that a token denotes by itself. -/
def literal? (token : Token) : Option Literal :=
  match token.kind with
  | .number => some (.number (Number.ofLexeme token.lexeme.toList))
  | .string => some (.string token.content)
  | .kwTrue => some (.bool true)
  | .kwFalse => some (.bool false)
  | .kwNil => some .nil
  | _ => none

/-- The line of a listing: the kind, the text, and the content of a string or the value of a number. -/
def listing (token : Token) : String :=
  let payload := match token.kind with
    | .string => token.content
    | .number => Number.tokenText (Number.ofLexeme token.lexeme.toList)
    | _ => "null"
  token.kind.name ++ " " ++ token.lexeme ++ " " ++ payload

end Token

end Lox
