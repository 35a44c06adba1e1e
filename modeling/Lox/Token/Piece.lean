import Lox.Token

/-!
# Dividing a source into pieces

Every source is a sequence of non-empty pieces: blanks, comments, tokens, single
characters that can start nothing, and possibly a last piece that opens a string
and never closes it.  What a piece is and how far it reaches depends only on the
characters from its first one on.  The division is given by `reach`, which says
how many further characters belong to the piece, so that no character is lost or
used twice.
-/

namespace Lox

inductive PieceKind where
  | blank
  | comment
  | token (kind : TokenKind)
  | unexpected
  | unterminated
  deriving DecidableEq, Repr

/-- A run of characters that belong together. -/
structure Piece where
  kind : PieceKind
  text : List Char
  deriving DecidableEq, Repr

namespace Piece

/-! ### Classes of characters -/

/-- The characters that separate tokens and have no other meaning. -/
def isBlank (c : Char) : Bool := c = ' ' || c = '\r' || c = '\t' || c = '\n'

/-- The characters a word can start with: ASCII letters and the underscore. -/
def startsWord (c : Char) : Bool := c.isAlpha || c = '_'

/-- The characters a word goes on with: those it starts with, and ASCII digits. -/
def continuesWord (c : Char) : Bool := c.isAlphanum || c = '_'

def symbol? : Char → Option TokenKind
  | '(' => some .leftParen
  | ')' => some .rightParen
  | '{' => some .leftBrace
  | '}' => some .rightBrace
  | ',' => some .comma
  | '.' => some .dot
  | '-' => some .minus
  | '+' => some .plus
  | ';' => some .semicolon
  | '*' => some .star
  | '%' => some .percent
  | _ => none

/-- The characters that are a token alone, and another one with `=` behind them. -/
def comparison? : Char → Option (TokenKind × TokenKind)
  | '!' => some (.bang, .bangEqual)
  | '=' => some (.equal, .equalEqual)
  | '<' => some (.less, .lessEqual)
  | '>' => some (.greater, .greaterEqual)
  | _ => none

/-! ### How far a piece reaches -/

/-- The length of a fraction: a point counts only with a digit behind it. -/
def fractionLength : List Char → Nat
  | '.' :: d :: rest => if d.isDigit then 2 + (rest.takeWhile Char.isDigit).length else 0
  | _ => 0

/-- The number of characters of a numeral behind its first digit. -/
def numeralLength (rest : List Char) : Nat :=
  (rest.takeWhile Char.isDigit).length + fractionLength (rest.dropWhile Char.isDigit)

/--
What the piece that starts with `c` is, and how many of the characters behind
`c` belong to it.  Where several tokens fit, the longest is taken.
-/
def reach (c : Char) (rest : List Char) : PieceKind × Nat :=
  if isBlank c then (.blank, 0)
  else if c = '/' then
    if rest.head? = some '/' then (.comment, (rest.takeWhile (· ≠ '\n')).length)
    else (.token .slash, 0)
  else if c = '"' then
    let inside := (rest.takeWhile (· ≠ '"')).length
    if (rest.drop inside).isEmpty then (.unterminated, inside) else (.token .string, inside + 1)
  else if c.isDigit then (.token .number, numeralLength rest)
  else if startsWord c then
    let more := rest.takeWhile continuesWord
    (.token (.ofWord (c :: more)), more.length)
  else
    match symbol? c, comparison? c with
    | some kind, _ => (.token kind, 0)
    | none, some (alone, withEqual) =>
      if rest.head? = some '=' then (.token withEqual, 1) else (.token alone, 0)
    | none, none => (.unexpected, 0)

def first (c : Char) (rest : List Char) : Piece :=
  ⟨(reach c rest).1, c :: rest.take (reach c rest).2⟩

def remainder (c : Char) (rest : List Char) : List Char := rest.drop (reach c rest).2

theorem length_remainder_lt (c : Char) (rest : List Char) :
    (remainder c rest).length < (c :: rest).length := by
  simp only [remainder, List.length_drop, List.length_cons]
  omega

def divide : List Char → List Piece
  | [] => []
  | c :: rest => first c rest :: divide (remainder c rest)
termination_by source => source.length
decreasing_by exact length_remainder_lt c rest

/-- A piece and what is behind it are the source. -/
theorem text_first_append (c : Char) (rest : List Char) :
    (first c rest).text ++ remainder c rest = c :: rest := by
  simp [first, remainder]

/-- The pieces are the whole source, in order. -/
theorem flatMap_text_divide (source : List Char) : (divide source).flatMap text = source := by
  fun_induction divide source with
  | case1 => rfl
  | case2 c rest ih => rw [List.flatMap_cons, ih, text_first_append]

def lineBreaks (piece : Piece) : Nat := piece.text.count '\n'

end Piece

end Lox
