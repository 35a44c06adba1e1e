import Lox.Token.Item

/-!
# One item at a time

The items of a source can also be asked for one by one.  A scanner keeps the text that
it has not read yet.  When it comes to a token with a supplied semicolon in front, it
gives the semicolon first and holds the token back until it is asked again.  Behind the
end of input it has nothing more to give, however often it is asked.
-/

namespace Lox

structure Scanner where
  /-- What was not read yet. -/
  rest : List Char
  progress : Item.Progress
  /-- The token that waits behind a supplied semicolon. -/
  queued? : Option Token
  /-- Whether the end of input was given. -/
  finished : Bool

namespace Scanner

def start (source : String) : Scanner := ⟨source.toList, ⟨1, none, false⟩, none, false⟩

/-- The semicolon that the last token calls for at the end of its line. -/
def due? (progress : Item.Progress) : Option Token :=
  progress.last?.bind fun last =>
    if last.kind.endsStatement then some (.suppliedSemicolon last.line) else none

def dueIfCrossed? (progress : Item.Progress) : Option Token :=
  if progress.crossed then due? progress else none

def behind (progress : Item.Progress) (token : Token) : Item.Progress :=
  ⟨progress.line, some token, false⟩

def pull (progress : Item.Progress) : List Char → Option Item × Scanner
  | [] =>
    match due? progress with
    | some semicolon => (some (.token semicolon), ⟨[], behind progress semicolon, none, false⟩)
    | none =>
      let token := Token.endOfInput progress.line
      (some (.token token), ⟨[], behind progress token, none, true⟩)
  | c :: rest =>
    let piece := Piece.first c rest
    let next := progress.advance piece
    match piece.kind with
    | .blank | .comment => pull next (Piece.remainder c rest)
    | .token kind =>
      let token : Token := ⟨kind, String.ofList piece.text, next.line⟩
      match dueIfCrossed? progress with
      | some semicolon =>
        (some (.token semicolon),
          ⟨Piece.remainder c rest, behind next semicolon, some token, false⟩)
      | none => (some (.token token), ⟨Piece.remainder c rest, next, none, false⟩)
    | .unexpected =>
      (some (.error ⟨.unexpectedCharacter c, next.line⟩),
        ⟨Piece.remainder c rest, next, none, false⟩)
    | .unterminated =>
      (some (.error ⟨.unterminatedString, next.line⟩),
        ⟨Piece.remainder c rest, next, none, false⟩)
termination_by source => source.length
decreasing_by exact Piece.length_remainder_lt c rest

def next (scanner : Scanner) : Option Item × Scanner :=
  match scanner.queued? with
  | some token =>
    (some (.token token),
      { scanner with queued? := none, progress := behind scanner.progress token })
  | none =>
    if scanner.finished then (none, scanner) else pull scanner.progress scanner.rest

/-- What the scanner gives when it is asked for the item with this number. -/
def nth : Nat → Scanner → Option Item
  | 0, scanner => scanner.next.1
  | n + 1, scanner => nth n scanner.next.2

end Scanner

end Lox
