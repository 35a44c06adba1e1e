import Lox.Token.Scanner

/-!
# Scanning by bytes

A scanner can also go over the UTF-8 bytes of a source.  It keeps the index of the next
byte, moves on by one byte at a time, and cuts the texts it needs out of the source by
their indices.  Whatever is not there cannot be had: to read a byte behind the last one, or
to cut a character in two, is a trap, in which the scan breaks off.  A byte is looked at as
the character with its number, which is the right one for ASCII only.
-/

namespace Lox

/-- What breaks off a scan by bytes. -/
inductive Trap where
  /-- A byte was read behind the last one. -/
  | noByte (index : Nat)
  /-- Bytes were cut out that are not all there. -/
  | noBytes (start stop : Nat)
  /-- A text was cut out that does not begin and end between characters. -/
  | splitCharacter (start stop : Nat)
  deriving DecidableEq, Repr

/-- The state of a scan by bytes that gives one item at a time. -/
structure ByteScanner where
  /-- The index of the first byte of the piece at hand. -/
  start : Nat
  /-- The cursor: the index of the next byte. -/
  curr : Nat
  line : Nat
  /-- The last token that was given. -/
  last? : Option Token
  /-- Whether a line break was passed since then. -/
  crossed : Bool
  /-- The token that waits behind a supplied semicolon. -/
  queued? : Option Token
  /-- Whether the end of input was given. -/
  finished : Bool

namespace ByteScanner

def initial : ByteScanner := ⟨0, 0, 1, none, false, none, false⟩

def progress (s : ByteScanner) : Item.Progress := ⟨s.line, s.last?, s.crossed⟩

def emit (s : ByteScanner) (token : Token) : ByteScanner :=
  { s with last? := some token, crossed := false }

section

variable (source : String)

def size : Nat := source.utf8ByteSize

/-- The index lies between two characters, or at one of the ends. -/
def IsBoundary (index : Nat) : Prop := (String.Pos.Raw.mk index).IsValid source

instance (index : Nat) : Decidable (IsBoundary source index) :=
  inferInstanceAs (Decidable (String.Pos.Raw.IsValid source _))

/-! ### What is read -/

def byte (index : Nat) : Except Trap Char :=
  if h : ⟨index⟩ < source.rawEndPos then .ok (Char.ofUInt8 (source.getUTF8Byte ⟨index⟩ h))
  else .error (.noByte index)

/-- The byte with an index, and a null character behind the end. -/
def peek (index : Nat) : Except Trap Char :=
  if size source ≤ index then .ok '\x00' else byte source index

def bytes (start stop : Nat) : Except Trap (List Char) :=
  if start ≤ stop ∧ stop ≤ size source then
    .ok ((source.toByteArray.extract start stop).data.toList.map Char.ofUInt8)
  else .error (.noBytes start stop)

def text (start stop : Nat) : Except Trap String :=
  if h : start ≤ stop ∧ IsBoundary source start ∧ IsBoundary source stop then
    .ok (String.ofByteArray (source.toByteArray.extract start stop)
      ((String.Pos.Raw.isValidUTF8_extract_iff ⟨start⟩ ⟨stop⟩ h.1 h.2.2.le_rawEndPos).mpr
        (.inr h.2)))
  else .error (.splitCharacter start stop)

/-! ### How the cursor moves -/

def advance (s : ByteScanner) : Except Trap (Char × ByteScanner) := do
  return (← byte source s.curr, { s with curr := s.curr + 1 })

/-- A byte that was read lies before the end. -/
theorem of_advance {s s' : ByteScanner} {c : Char} (h : advance source s = .ok (c, s')) :
    s.curr < size source ∧ s' = { s with curr := s.curr + 1 } := by
  unfold advance byte at h
  split at h
  · rename_i hlt
    cases h
    exact ⟨hlt, rfl⟩
  · cases h

theorem size_sub_lt {s s' : ByteScanner} {c : Char} (h : advance source s = .ok (c, s')) :
    size source - s'.curr < size source - s.curr := by
  obtain ⟨hlt, rfl⟩ := of_advance source h
  simp only
  omega

def matchByte (expected : Char) (s : ByteScanner) : Except Trap (Bool × ByteScanner) := do
  if size source ≤ s.curr then return (false, s)
  else if (← peek source s.curr) = expected then
    let (_, s) ← advance source s
    return (true, s)
  else return (false, s)

/-- Steps over bytes as long as they go on with something. -/
def advanceWhile (goesOn : Char → Bool) (s : ByteScanner) : Except Trap ByteScanner :=
  match peek source s.curr with
  | .error trap => .error trap
  | .ok c =>
    if goesOn c then
      match _ : advance source s with
      | .error trap => .error trap
      | .ok (_, s') => advanceWhile goesOn s'
    else .ok s
termination_by size source - s.curr
decreasing_by exact size_sub_lt source ‹_›

/-- Steps over bytes up to the next quote or the end, and counts the lines in between. -/
def toQuote (s : ByteScanner) : Except Trap ByteScanner :=
  if size source ≤ s.curr then .ok s
  else
    match peek source s.curr with
    | .error trap => .error trap
    | .ok c =>
      if c = '"' then .ok s
      else
        match _ : advance source s with
        | .error trap => .error trap
        | .ok (c, s') => toQuote { s' with line := if c = '\n' then s'.line + 1 else s'.line }
termination_by size source - s.curr
decreasing_by exact size_sub_lt source ‹_›

def toLineEnd (s : ByteScanner) : Except Trap ByteScanner := do
  match (← bytes source s.curr (size source)).idxOf? '\n' with
  | some position => return { s with curr := s.curr + position }
  | none => return { s with curr := size source }

/-! ### One piece -/

inductive Scanned where
  /-- It is a blank or a comment. -/
  | skipped
  /-- It is a token, and this is the text that a string or a number stands for. -/
  | token (kind : TokenKind) (payload? : Option String)
  | failed (error : LexicalError)

def scanString (s : ByteScanner) : Except Trap (Scanned × ByteScanner) := do
  let s ← toQuote source s
  if size source ≤ s.curr then return (.failed ⟨.unterminatedString, s.line⟩, s)
  else
    let (_, s) ← advance source s
    return (.token .string (some (← text source (s.start + 1) (s.curr - 1))), s)

/-- Steps over a fraction, if the point has a digit behind it. -/
def skipFraction (s : ByteScanner) : Except Trap ByteScanner := do
  if (← peek source s.curr) = '.' then
    if (← peek source (s.curr + 1)).isDigit then
      let (_, s) ← advance source s
      advanceWhile source Char.isDigit s
    else return s
  else return s

def scanNumber (s : ByteScanner) : Except Trap (Scanned × ByteScanner) := do
  let s ← advanceWhile source Char.isDigit s
  let s ← skipFraction source s
  return (.token .number (some (← text source s.start s.curr)), s)

def scanWord (s : ByteScanner) : Except Trap (Scanned × ByteScanner) := do
  let s ← advanceWhile source Piece.continuesWord s
  return (.token (.ofWord (← bytes source s.start s.curr)) none, s)

/-- Steps over the whole character that begins with the byte that was read. -/
def rejectCharacter (s : ByteScanner) : Except Trap (Scanned × ByteScanner) := do
  let c := (← text source s.start (size source)).toList.headD '\uFFFD'
  return (.failed ⟨.unexpectedCharacter c, s.line⟩, { s with curr := s.start + c.utf8Size })

/-- Reads a comment up to the end of its line, or a slash alone, behind the first slash. -/
def scanSlash (s : ByteScanner) : Except Trap (Scanned × ByteScanner) := do
  let (comment, s) ← matchByte source '/' s
  if comment then return (.skipped, ← toLineEnd source s) else return (.token .slash none, s)

/-- Reads the longer one of two operators, if the byte that is next belongs to it. -/
def scanComparison (alone withEqual : TokenKind) (s : ByteScanner) :
    Except Trap (Scanned × ByteScanner) := do
  let (longer, s) ← matchByte source '=' s
  return (.token (if longer then withEqual else alone) none, s)

def scanFrom (c : Char) (s : ByteScanner) : Except Trap (Scanned × ByteScanner) := do
  if c = '\n' then return (.skipped, { s with line := s.line + 1, crossed := true })
  else if Piece.isBlank c then return (.skipped, s)
  else if c = '/' then scanSlash source s
  else if c = '"' then scanString source s
  else if c.isDigit then scanNumber source s
  else if Piece.startsWord c then scanWord source s
  else
    match Piece.symbol? c, Piece.comparison? c with
    | some kind, _ => return (.token kind none, s)
    | none, some (alone, withEqual) => scanComparison source alone withEqual s
    | none, none => rejectCharacter source s

def scanToken (s : ByteScanner) : Except Trap (Scanned × ByteScanner) := do
  let (c, s) ← advance source s
  scanFrom source c s

/-! ### The cursor never stays -/

/-- What the scan comes to, if it does not break off, comes from all its parts. -/
theorem of_bind {α β : Type} {x : Except Trap α} {f : α → Except Trap β} {b : β}
    (h : x >>= f = .ok b) : ∃ a, x = .ok a ∧ f a = .ok b := by
  cases x with
  | error trap => cases h
  | ok a => exact ⟨a, rfl, h⟩

variable {s s' : ByteScanner}

theorem le_of_matchByte {expected : Char} {found : Bool}
    (h : matchByte source expected s = .ok (found, s')) :
    s.curr ≤ s'.curr := by
  unfold matchByte at h
  split at h
  · cases h
    exact Nat.le_refl _
  · obtain ⟨c, -, h⟩ := of_bind h
    split at h
    · obtain ⟨⟨c, s₁⟩, hadvance, h⟩ := of_bind h
      obtain ⟨-, rfl⟩ := of_advance source hadvance
      cases h
      exact Nat.le_succ _
    · cases h
      exact Nat.le_refl _

theorem le_of_advanceWhile {goesOn : Char → Bool} (h : advanceWhile source goesOn s = .ok s') :
    s.curr ≤ s'.curr := by
  fun_induction advanceWhile source goesOn s with
  | case1 s trap hpeek => cases h
  | case2 s c hpeek hgoes trap hadvance => cases h
  | case3 s c hpeek hgoes d s₁ hadvance ih =>
    obtain ⟨-, rfl⟩ := of_advance source hadvance
    exact Nat.le_of_succ_le (ih h)
  | case4 s c hpeek hgoes =>
    cases h
    exact Nat.le_refl _

theorem le_of_toQuote (h : toQuote source s = .ok s') :
    s.curr ≤ s'.curr := by
  fun_induction toQuote source s with
  | case1 s hend =>
    cases h
    exact Nat.le_refl _
  | case2 s hend trap hpeek => cases h
  | case3 s hend hpeek =>
    cases h
    exact Nat.le_refl _
  | case4 s hend c hpeek hquote trap hadvance => cases h
  | case5 s hend c hpeek hquote d s₁ hadvance ih =>
    obtain ⟨-, rfl⟩ := of_advance source hadvance
    exact Nat.le_of_succ_le (ih h)

theorem le_of_toLineEnd (h : toLineEnd source s = .ok s') : s.curr ≤ s'.curr := by
  obtain ⟨rest, hbytes, h⟩ := of_bind h
  unfold bytes at hbytes
  split at hbytes
  · rename_i hrange
    split at h
    · cases h
      exact Nat.le_add_right _ _
    · cases h
      exact hrange.1
  · cases hbytes

theorem le_of_scanString {scanned : Scanned} (h : scanString source s = .ok (scanned, s')) :
    s.curr ≤ s'.curr := by
  obtain ⟨s₁, hquote, h⟩ := of_bind h
  have hle := le_of_toQuote source hquote
  split at h
  · cases h
    exact hle
  · obtain ⟨⟨c, s₂⟩, hadvance, h⟩ := of_bind h
    obtain ⟨-, rfl⟩ := of_advance source hadvance
    obtain ⟨content, -, h⟩ := of_bind h
    cases h
    exact Nat.le_succ_of_le hle

theorem le_of_skipFraction (h : skipFraction source s = .ok s') : s.curr ≤ s'.curr := by
  obtain ⟨c, -, h⟩ := of_bind h
  split at h
  · obtain ⟨d, -, h⟩ := of_bind h
    split at h
    · obtain ⟨⟨c, s₁⟩, hadvance, h⟩ := of_bind h
      obtain ⟨-, rfl⟩ := of_advance source hadvance
      exact Nat.le_of_succ_le (le_of_advanceWhile source h)
    · cases h
      exact Nat.le_refl _
  · cases h
    exact Nat.le_refl _

theorem le_of_scanNumber {scanned : Scanned} (h : scanNumber source s = .ok (scanned, s')) :
    s.curr ≤ s'.curr := by
  obtain ⟨s₁, hdigits, h⟩ := of_bind h
  obtain ⟨s₂, hfraction, h⟩ := of_bind h
  obtain ⟨digits, -, h⟩ := of_bind h
  cases h
  exact Nat.le_trans (le_of_advanceWhile source hdigits) (le_of_skipFraction source hfraction)

theorem le_of_scanWord {scanned : Scanned} (h : scanWord source s = .ok (scanned, s')) :
    s.curr ≤ s'.curr := by
  obtain ⟨s₁, hword, h⟩ := of_bind h
  obtain ⟨word, -, h⟩ := of_bind h
  cases h
  exact le_of_advanceWhile source hword

theorem le_of_scanSlash {scanned : Scanned} (h : scanSlash source s = .ok (scanned, s')) :
    s.curr ≤ s'.curr := by
  obtain ⟨⟨comment, s₁⟩, hmatch, h⟩ := of_bind h
  have hle := le_of_matchByte source hmatch
  dsimp only at h
  split at h
  · obtain ⟨s₂, hline, h⟩ := of_bind h
    cases h
    exact Nat.le_trans hle (le_of_toLineEnd source hline)
  · cases h
    exact hle

theorem le_of_scanComparison {alone withEqual : TokenKind} {scanned : Scanned}
    (h : scanComparison source alone withEqual s = .ok (scanned, s')) : s.curr ≤ s'.curr := by
  obtain ⟨⟨longer, s₁⟩, hmatch, h⟩ := of_bind h
  cases h
  exact le_of_matchByte source hmatch

theorem lt_of_rejectCharacter {scanned : Scanned}
    (h : rejectCharacter source s = .ok (scanned, s')) : s.start < s'.curr := by
  obtain ⟨rest, -, h⟩ := of_bind h
  cases h
  exact Nat.lt_add_of_pos_right (Char.utf8Size_pos _)

/-- A piece that was read is not empty. -/
theorem lt_of_scanToken {scanned : Scanned} (hstart : s.start = s.curr)
    (h : scanToken source s = .ok (scanned, s')) : s.curr < s'.curr := by
  obtain ⟨⟨c, s₁⟩, hadvance, h⟩ := of_bind h
  obtain ⟨-, rfl⟩ := of_advance source hadvance
  have hnext : s.curr < s.curr + 1 := Nat.lt_succ_self _
  dsimp only at h
  unfold scanFrom at h
  split at h
  · cases h
    exact hnext
  split at h
  · cases h
    exact hnext
  split at h
  · exact Nat.lt_of_lt_of_le hnext (le_of_scanSlash source h)
  split at h
  · exact Nat.lt_of_lt_of_le hnext (le_of_scanString source h)
  split at h
  · exact Nat.lt_of_lt_of_le hnext (le_of_scanNumber source h)
  split at h
  · exact Nat.lt_of_lt_of_le hnext (le_of_scanWord source h)
  split at h
  · cases h
    exact hnext
  · exact Nat.lt_of_lt_of_le hnext (le_of_scanComparison source h)
  · exact hstart ▸ lt_of_rejectCharacter source h

/-! ### One item -/

inductive Turn where
  | gives (item : Item)
  /-- A blank or a comment was passed. -/
  | goesOn
  /-- There is nothing more to give. -/
  | ends

/-- The turn that gives what waits or comes to the end, if no piece has to be read for it. -/
def ready? (s : ByteScanner) : Option (Turn × ByteScanner) :=
  match s.queued? with
  | some token => some (.gives (.token token), { s with queued? := none }.emit token)
  | none =>
    if s.finished then some (.ends, s)
    else if size source ≤ s.curr then
      match Scanner.due? s.progress with
      | some semicolon => some (.gives (.token semicolon), s.emit semicolon)
      | none =>
        let token := Token.endOfInput s.line
        some (.gives (.token token), { s with finished := true }.emit token)
    else none

def opening (s : ByteScanner) : ByteScanner := { s with start := s.curr }

/-- Gives what the piece at hand comes to, or the semicolon in front of it. -/
def deliver (scanned : Scanned) (s : ByteScanner) : Except Trap (Turn × ByteScanner) :=
  match scanned with
  | .skipped => .ok (.goesOn, s)
  | .failed error => .ok (.gives (.error error), s)
  | .token kind _ => do
    let token : Token := ⟨kind, ← text source s.start s.curr, s.line⟩
    match Scanner.dueIfCrossed? s.progress with
    | some semicolon =>
      return (.gives (.token semicolon), { s with queued? := some token }.emit semicolon)
    | none => return (.gives (.token token), s.emit token)

/-- One turn, which reads a piece unless there is something to give without it. -/
def turn (s : ByteScanner) : Except Trap (Turn × ByteScanner) :=
  match ready? source s with
  | some result => .ok result
  | none => do
    let (scanned, s) ← scanToken source s.opening
    deliver source scanned s

/-- A turn without a piece gives something or ends. -/
theorem not_goesOn_of_ready? {s s' : ByteScanner} :
    ready? source s ≠ some (.goesOn, s') := by
  intro h
  unfold ready? at h
  split at h
  · cases h
  split at h
  · cases h
  split at h
  · split at h <;> cases h
  · cases h

/-- A piece is read only when nothing waits, and before the end. -/
theorem of_ready? {s : ByteScanner} (h : ready? source s = none) :
    s.queued? = none ∧ s.finished = false ∧ s.curr < size source := by
  unfold ready? at h
  split at h
  · cases h
  rename_i hqueued
  split at h
  · cases h
  rename_i hfinished
  split at h
  · split at h <;> cases h
  · rename_i hend
    exact ⟨hqueued, Bool.eq_false_iff.mpr hfinished, Nat.lt_of_not_le hend⟩

/-- A turn that gives nothing has moved the cursor. -/
theorem lt_of_turn {s s' : ByteScanner} (h : turn source s = .ok (.goesOn, s')) :
    s.curr < size source ∧ s.curr < s'.curr := by
  unfold turn at h
  split at h
  · rename_i result hready
    cases h
    exact absurd hready (not_goesOn_of_ready? source)
  · rename_i hready
    obtain ⟨⟨scanned, s₁⟩, hscan, h⟩ := of_bind h
    have hlt : s.opening.curr < s₁.curr := lt_of_scanToken source rfl hscan
    cases scanned with
    | skipped =>
      cases h
      exact ⟨(of_ready? source hready).2.2, hlt⟩
    | failed error => cases h
    | token kind payload? =>
      obtain ⟨lexeme, -, h⟩ := of_bind h
      split at h <;> cases h

def next (s : ByteScanner) : Except Trap (Option Item × ByteScanner) :=
  match _ : turn source s with
  | .error trap => .error trap
  | .ok (.gives item, s') => .ok (some item, s')
  | .ok (.ends, s') => .ok (none, s')
  | .ok (.goesOn, s') => next s'
termination_by size source - s.curr
decreasing_by
  obtain ⟨hend, hlt⟩ := lt_of_turn source ‹_›
  omega

/-- What the scanner gives when it is asked for the item with this number. -/
def nth : Nat → ByteScanner → Except Trap (Option Item)
  | 0, s => do return (← next source s).1
  | n + 1, s => do nth n (← next source s).2

end

end ByteScanner

end Lox
