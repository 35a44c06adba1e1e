import Lox.Proofs.Token.Bytes
import Lox.Proofs.Token.Scanning

/-!
# Where the cursor goes

A scan by bytes reads the pieces that the source is divided into.  In front of a whole
character it reads the piece that starts there, breaks off nowhere, and stops behind the
piece, which is in front of a whole character again.
-/

namespace Lox.ByteScanner

variable {source : String} {s : ByteScanner}

/-- The scanner some bytes and some lines later. -/
def moved (s : ByteScanner) (bytes lines : Nat) : ByteScanner :=
  { s with curr := s.curr + bytes, line := s.line + lines }

@[simp]
theorem start_moved (bytes lines : Nat) : (s.moved bytes lines).start = s.start := rfl

@[simp]
theorem curr_moved (bytes lines : Nat) : (s.moved bytes lines).curr = s.curr + bytes := rfl

@[simp]
theorem moved_zero : s.moved 0 0 = s := rfl

@[simp]
theorem moved_moved (bytes lines bytes' lines' : Nat) :
    (s.moved bytes lines).moved bytes' lines' = s.moved (bytes + bytes') (lines + lines') := by
  simp [moved, Nat.add_assoc]

/-- A step that does not break off hands its result on. -/
theorem ok_bind {α β : Type} (a : α) (f : α → Except Trap β) : (Except.ok a >>= f) = f a := rfl

/-! ### Runs of bytes -/

section

variable {ahead : List Char} {c : Char}

theorem advance_eq (h : Ahead source (c :: ahead) s.curr) :
    advance source s = .ok (c, s.moved 1 0) := by
  rw [advance, h.byte]
  rfl

theorem matchByte_eq (h : Ahead source ahead s.curr) (expected : Char) :
    matchByte source expected s =
      .ok (if ahead.head? = some expected then (true, s.moved 1 0) else (false, s)) := by
  unfold matchByte
  cases ahead with
  | nil =>
    rw [if_pos h.size_le]
    rfl
  | cons c ahead =>
    rw [if_neg (Nat.not_le.mpr h.lt_size), h.peek, advance_eq h]
    by_cases hc : c = expected <;> simp [hc, pure, Except.pure, bind, Except.bind]

/-- A run of bytes ends at the end at the latest, where a null character is seen. -/
theorem advanceWhile_eq {goesOn : Char → Bool} (hnull : goesOn '\x00' = false)
    (h : Ahead source ahead s.curr) :
    advanceWhile source goesOn s = .ok (s.moved (ahead.takeWhile goesOn).length 0) := by
  induction ahead generalizing s with
  | nil =>
    unfold advanceWhile
    rw [h.peek]
    simp [hnull]
  | cons c ahead ih =>
    unfold advanceWhile
    rw [h.peek]
    cases hc : goesOn c with
    | false => simp [hc]
    | true =>
      simp only [List.headD_cons, hc, if_true]
      split
      · rename_i trap htrap
        cases htrap.symm.trans (advance_eq h)
      · rename_i d s' hadvance
        cases hadvance.symm.trans (advance_eq h)
        rw [ih h.next, moved_moved, List.takeWhile_cons_of_pos hc, List.length_cons,
          Nat.add_comm 1]

theorem toQuote_eq (h : Ahead source ahead s.curr) :
    toQuote source s = .ok (s.moved (ahead.takeWhile (· ≠ '"')).length
      ((ahead.takeWhile (· ≠ '"')).count '\n')) := by
  induction ahead generalizing s with
  | nil =>
    unfold toQuote
    rw [if_pos h.size_le]
    rfl
  | cons c ahead ih =>
    unfold toQuote
    rw [if_neg (Nat.not_le.mpr h.lt_size), h.peek]
    by_cases hc : c = '"'
    · simp [hc]
    · simp only [List.headD_cons, hc, if_false]
      split
      · rename_i trap htrap
        cases htrap.symm.trans (advance_eq h)
      · rename_i d s' hadvance
        cases hadvance.symm.trans (advance_eq h)
        have hline : { s.moved 1 0 with line := if c = '\n' then (s.moved 1 0).line + 1
            else (s.moved 1 0).line } = s.moved 1 (if c = '\n' then 1 else 0) := by
          split <;> rfl
        rw [hline, ih h.next, moved_moved,
          List.takeWhile_cons_of_pos (by simpa using hc), List.length_cons, List.count_cons,
          Nat.add_comm 1, Nat.add_comm (if c = '\n' then 1 else 0)]
        simp only [beq_iff_eq]

/-- To search for a byte is to step over all others. -/
theorem getD_idxOf? (a : Char) (text : List Char) :
    (text.idxOf? a).getD text.length = (text.takeWhile (· ≠ a)).length := by
  induction text with
  | nil => rfl
  | cons c text ih =>
    rw [List.idxOf?_cons]
    by_cases hc : c = a
    · simp [hc]
    · cases hfound : text.idxOf? a <;> simpa [hc, hfound] using ih

theorem toLineEnd_eq (h : Ahead source ahead s.curr) :
    toLineEnd source s = .ok (s.moved (ahead.takeWhile (· ≠ '\n')).length 0) := by
  have hlength : s.curr + ahead.length = size source := by
    have hdrop := congrArg List.length h.eq
    have hle := h.le_size
    rw [List.length_drop, ← size_eq] at hdrop
    omega
  have hbytes : bytes source s.curr (size source) = .ok ahead := by
    rw [← hlength, h.bytes (Nat.le_refl _), List.take_length]
  have hstop := getD_idxOf? '\n' ahead
  rw [toLineEnd, hbytes, ok_bind, ← hstop]
  cases ahead.idxOf? '\n' with
  | some position => rfl
  | none =>
    rw [Option.getD_none, moved, hlength]
    rfl

end

/-! ### Pieces -/

/-- The text that a string or a number stands for. -/
def payload? (kind : TokenKind) (text : List Char) : Option String :=
  match kind with
  | .string => some (String.ofList (text.drop 1).dropLast)
  | .number => some (String.ofList text)
  | _ => none

def Scanned.ofPiece (line : Nat) : Piece → Scanned
  | ⟨.blank, _⟩ | ⟨.comment, _⟩ => .skipped
  | ⟨.token kind, text⟩ => .token kind (payload? kind text)
  | ⟨.unexpected, text⟩ => .failed ⟨.unexpectedCharacter (text.headD ' '), line⟩
  | ⟨.unterminated, _⟩ => .failed ⟨.unterminatedString, line⟩

def behind (s : ByteScanner) (piece : Piece) : ByteScanner :=
  { s.moved (codes piece.text).length piece.lineBreaks with
    crossed := s.crossed || (piece.kind = .blank && 0 < piece.lineBreaks) }

/-- What reading a piece comes to. -/
def outcome (s : ByteScanner) (piece : Piece) : Scanned × ByteScanner :=
  (.ofPiece (s.line + piece.lineBreaks) piece, s.behind piece)

section

variable {before rest text : List Char} {c : Char} {kind : PieceKind}

theorem outcome_of_no_break (h : '\n' ∉ text) :
    s.outcome ⟨kind, text⟩ =
      (.ofPiece s.line ⟨kind, text⟩, s.moved (codes text).length 0) := by
  have hbreaks : Piece.lineBreaks ⟨kind, text⟩ = 0 := List.count_eq_zero.mpr h
  simp [outcome, behind, hbreaks, moved]

theorem outcome_singleton (hc : IsAscii c) (hbreak : c ≠ '\n') :
    s.outcome ⟨kind, [c]⟩ = (.ofPiece s.line ⟨kind, [c]⟩, s.moved 1 0) := by
  rw [outcome_of_no_break (by simpa using Ne.symm hbreak), codes_ascii hc]
  rfl

theorem outcome_of_ne_blank (h : kind ≠ .blank) :
    s.outcome ⟨kind, text⟩ = (.ofPiece (s.line + text.count '\n') ⟨kind, text⟩,
      s.moved (codes text).length (text.count '\n')) := by
  simp [outcome, behind, h, Piece.lineBreaks, moved]

theorem first_eq {count : Nat} (h : Piece.reach c rest = (kind, count)) :
    Piece.first c rest = ⟨kind, c :: rest.take count⟩ := by
  rw [Piece.first, h]

theorem At.tail (h : At source before (c :: rest) s.curr) (hc : IsAscii c) :
    At source (before ++ [c]) rest (s.moved 1 0).curr := by
  have hbehind : At source (before ++ [c]) rest (s.curr + (codes [c]).length) := h.behind
  rwa [codes_ascii hc] at hbehind

/-- A character of ASCII that is next can be stepped over. -/
theorem matchByte_at (h : At source before rest s.curr) {expected : Char}
    (hascii : IsAscii expected) :
    matchByte source expected s =
      .ok (if rest.head? = some expected then (true, s.moved 1 0) else (false, s)) := by
  rw [matchByte_eq h.ahead]
  simp only [head?_codes hascii]

/-- Reading on behind a character of ASCII. -/
theorem scanToken_ascii (h : At source before (c :: rest) s.curr) (hc : IsAscii c) :
    scanToken source s = scanFrom source c (s.moved 1 0) := by
  have hahead := h.ahead
  rw [codes_cons, codes_ascii hc] at hahead
  rw [scanToken, advance_eq hahead]
  rfl

/-! ### Blanks and comments -/

theorem scanFrom_blank (hc : Piece.isBlank c = true) (hascii : IsAscii c) :
    scanFrom source c (s.moved 1 0) = .ok (s.outcome (Piece.first c rest)) := by
  have hreach : Piece.reach c rest = (.blank, 0) := by rw [Piece.reach, if_pos hc]
  rw [first_eq hreach, List.take_zero]
  by_cases hbreak : c = '\n'
  · subst hbreak
    rw [scanFrom, if_pos rfl]
    simp [outcome, behind, Piece.lineBreaks, codes_ascii hascii, moved, Scanned.ofPiece, pure,
      Except.pure]
  · rw [scanFrom, if_neg hbreak, if_pos hc, outcome_singleton hascii hbreak]
    rfl

theorem scanSlash_eq (h : At source before rest (s.moved 1 0).curr) :
    scanSlash source (s.moved 1 0) = .ok (s.outcome (Piece.first '/' rest)) := by
  have hreach := Piece.reach_slash rest
  rw [scanSlash, matchByte_at h (by decide)]
  by_cases hcomment : rest.head? = some '/'
  · obtain ⟨more, rfl⟩ := List.head?_eq_some_iff.mp hcomment
    have hline := h.tail (by decide)
    have hreached := toLineEnd_eq hline.ahead
    rw [takeWhile_codes (coarse_ne (by decide))] at hreached
    have hbody : ('/' :: more).take (('/' :: more).takeWhile (· ≠ '\n')).length =
        '/' :: more.takeWhile (· ≠ '\n') := Piece.take_length_takeWhile _ _
    have hbreak : '\n' ∉ '/' :: '/' :: more.takeWhile (· ≠ '\n') := by
      have hrun : '\n' ∉ more.takeWhile (· ≠ '\n') :=
        fun hmem => of_decide_eq_true (Piece.mem_takeWhile '\n' hmem) rfl
      simpa using hrun
    rw [if_pos hcomment] at hreach ⊢
    rw [first_eq hreach, hbody, outcome_of_no_break hbreak, length_codes_cons (by decide),
      length_codes_cons (by decide)]
    change (toLineEnd source ((s.moved 1 0).moved 1 0) >>= _) = _
    rw [hreached, moved_moved, moved_moved]
    rfl
  · rw [if_neg hcomment] at hreach ⊢
    rw [first_eq hreach, List.take_zero, outcome_singleton (by decide) (by decide)]
    rfl

/-! ### Strings -/

theorem toQuote_at (h : At source before rest s.curr) :
    toQuote source s = .ok (s.moved (codes (rest.takeWhile (· ≠ '"'))).length
      ((rest.takeWhile (· ≠ '"')).count '\n')) := by
  rw [toQuote_eq h.ahead, takeWhile_codes (coarse_ne (by decide)), count_codes (by decide)]

/-- A string that is not closed goes on to the end of the source. -/
theorem scanString_unclosed (h : At source before ('"' :: rest) s.curr)
    (hrun : rest.takeWhile (· ≠ '"') = rest) :
    scanString source (s.moved 1 0) =
      .ok (.failed ⟨.unterminatedString, s.line + rest.count '\n'⟩,
        s.moved (1 + (codes rest).length) (rest.count '\n')) := by
  have hinside := h.tail (by decide)
  have hend : size source ≤ s.curr + (1 + (codes rest).length) :=
    Nat.add_assoc s.curr 1 _ ▸ (rest.append_nil.symm ▸ hinside).behind.ahead.size_le
  rw [scanString, toQuote_at hinside, hrun, moved_moved, Nat.zero_add, ok_bind, curr_moved,
    if_pos hend]
  rfl

/-- A string that is closed stands for what is between its quotes. -/
theorem scanString_closed {inside : List Char}
    (h : At source before ('"' :: (inside ++ '"' :: rest)) s.curr) (hstart : s.start = s.curr)
    (hrun : (inside ++ '"' :: rest).takeWhile (· ≠ '"') = inside) :
    scanString source (s.moved 1 0) =
      .ok (.token .string (some (String.ofList inside)),
        s.moved (1 + ((codes inside).length + 1)) (inside.count '\n')) := by
  have hinside := h.tail (by decide)
  have hahead := hinside.behind.ahead
  rw [codes_cons, codes_ascii (by decide)] at hahead
  have hadvance : advance source ((s.moved 1 0).moved (codes inside).length (inside.count '\n')) =
      .ok ('"', s.moved (1 + ((codes inside).length + 1)) (inside.count '\n')) := by
    rw [advance_eq hahead, moved_moved, moved_moved, Nat.zero_add]
    rfl
  have hstop : s.curr + (1 + ((codes inside).length + 1)) - 1 =
      s.curr + 1 + (codes inside).length := by omega
  have htext : text source (s.curr + 1) (s.curr + 1 + (codes inside).length) =
      .ok (String.ofList inside) := hinside.text_eq
  rw [scanString, toQuote_at hinside, hrun, ok_bind, curr_moved,
    if_neg (Nat.not_le.mpr hahead.lt_size), hadvance, ok_bind]
  change (text source (s.start + 1) (s.curr + (1 + ((codes inside).length + 1)) - 1) >>= _) = _
  rw [hstart, hstop, htext]
  rfl

theorem scanString_eq (h : At source before ('"' :: rest) s.curr) (hstart : s.start = s.curr) :
    scanString source (s.moved 1 0) = .ok (s.outcome (Piece.first '"' rest)) := by
  have hsplit := List.takeWhile_append_dropWhile (p := (· ≠ '"')) (l := rest)
  have hreach := Piece.reach_quote rest
  have hfront := Piece.startsWith?_dropWhile (· ≠ '"') rest
  rw [Piece.drop_length_takeWhile] at hreach
  cases hclosed : rest.dropWhile (· ≠ '"') with
  | nil =>
    rw [hclosed] at hreach hsplit
    rw [List.append_nil] at hsplit
    rw [scanString_unclosed h hsplit, first_eq hreach, Piece.take_length_takeWhile, hsplit,
      outcome_of_ne_blank (by decide : PieceKind.unterminated ≠ .blank),
      length_codes_cons (by decide), List.count_cons_of_ne (by decide)]
    rfl
  | cons c more =>
    rw [hclosed] at hfront
    obtain rfl : c = '"' := by simpa [Piece.StartsWith?] using hfront
    generalize hinside : rest.takeWhile (· ≠ '"') = inside at hsplit hreach
    rw [hclosed] at hreach hsplit
    subst hsplit
    have htake : (inside ++ '"' :: more).take (inside.length + 1) = inside ++ ['"'] := by
      rw [List.take_add, List.take_left, List.drop_left]
      rfl
    have hlength : (codes ('"' :: (inside ++ ['"']))).length = 1 + ((codes inside).length + 1) := by
      rw [length_codes_cons (by decide), codes_append, List.length_append]
      rfl
    rw [scanString_closed h hstart hinside, first_eq hreach, htake,
      outcome_of_ne_blank (by decide : PieceKind.token .string ≠ .blank), hlength]
    simp [Scanned.ofPiece, payload?]

/-! ### Words and numbers -/

/-- Stepping over the run of characters that go on with something. -/
theorem advanceWhile_at {goesOn : Char → Bool} (hgoes : AsciiOnly goesOn)
    (hnull : goesOn '\x00' = false) (h : At source before rest s.curr) :
    advanceWhile source goesOn s = .ok (s.moved (rest.takeWhile goesOn).length 0) := by
  rw [advanceWhile_eq hnull h.ahead, takeWhile_codes hgoes.coarse, hgoes.codes_takeWhile]

theorem At.dropWhile {goesOn : Char → Bool} (hgoes : AsciiOnly goesOn)
    (h : At source before rest s.curr) :
    At source (before ++ rest.takeWhile goesOn) (rest.dropWhile goesOn)
      (s.moved (rest.takeWhile goesOn).length 0).curr := by
  have hsplit : At source before (rest.takeWhile goesOn ++ rest.dropWhile goesOn) s.curr := by
    rwa [List.takeWhile_append_dropWhile]
  have hbehind := hsplit.behind
  rwa [hgoes.codes_takeWhile] at hbehind

theorem payload?_ofWord (word text : List Char) : payload? (.ofWord word) text = none := by
  have hne : TokenKind.ofWord word ≠ .string ∧ TokenKind.ofWord word ≠ .number := by
    constructor <;>
    · intro h
      have hmem := TokenKind.ofWord_of_keyword h (by decide)
      simp [TokenKind.keywords] at hmem
  unfold payload?
  split
  · exact absurd ‹_› hne.1
  · exact absurd ‹_› hne.2
  · rfl

theorem scanWord_eq (h : At source before (c :: rest) s.curr) (hstart : s.start = s.curr)
    (hc : Piece.startsWord c = true) (hascii : IsAscii c) :
    scanWord source (s.moved 1 0) = .ok (s.outcome (Piece.first c rest)) := by
  let run := rest.takeWhile Piece.continuesWord
  have hword := advanceWhile_at asciiOnly_continuesWord rfl (h.tail hascii)
  have hrun : codes (c :: run) = c :: run := by
    rw [codes_cons, codes_ascii hascii, asciiOnly_continuesWord.codes_takeWhile]
    rfl
  have hbreak : '\n' ∉ c :: run := by
    intro hmem
    rcases List.mem_cons.mp hmem with rfl | hmem
    · cases hc
    · cases Piece.mem_takeWhile '\n' hmem
  have hsplit : At source before ((c :: run) ++ rest.dropWhile Piece.continuesWord) s.curr := by
    rwa [List.cons_append, List.takeWhile_append_dropWhile]
  have hbytes := hsplit.bytes_eq
  rw [hrun] at hbytes
  rw [first_eq (Piece.reach_word hc rest), Piece.take_length_takeWhile,
    outcome_of_no_break hbreak, hrun, scanWord, hword, ok_bind, moved_moved]
  simp only [start_moved, curr_moved, hstart]
  rw [Nat.add_comm 1]
  change (bytes source s.curr (s.curr + (c :: run).length) >>= _) = _
  rw [hbytes, ok_bind, Scanned.ofPiece, payload?_ofWord]
  rfl

/-- A numeral has digits and at most a point in it. -/
theorem mem_numeral (h : Piece.Reads (.token .number) text) :
    ∀ d ∈ text, d.isDigit = true ∨ d = '.' := by
  intro d hd
  cases h with
  | mark hmark => simp [Piece.marks] at hmark
  | keyword hkeyword => simp [TokenKind.keywords] at hkeyword
  | integer hsome hdigits => exact .inl (hdigits d hd)
  | fraction hsome hdigits hsome' hdecimals =>
    rcases List.mem_append.mp hd with hd | hd
    · exact .inl (hdigits d hd)
    rcases List.mem_cons.mp hd with rfl | hd
    · exact .inr rfl
    · exact .inl (hdecimals d hd)

theorem fractionLength_point (more : List Char) :
    Piece.fractionLength ('.' :: more) = if Piece.StartsWith? Char.isDigit more then
      1 + (more.takeWhile Char.isDigit).length else 0 := by
  cases more with
  | nil => rfl
  | cons d more =>
    cases hd : d.isDigit with
    | false => simp [Piece.fractionLength, Piece.StartsWith?, hd]
    | true =>
      simp [Piece.fractionLength, Piece.StartsWith?, hd]
      omega

theorem fractionLength_of_ne (hrest : Piece.StartsWith? (· = '.') rest = false) :
    Piece.fractionLength rest = 0 := by
  unfold Piece.fractionLength
  split
  · cases hrest
  · rfl

theorem skipFraction_eq (h : At source before rest s.curr) :
    skipFraction source s = .ok (s.moved (Piece.fractionLength rest) 0) := by
  have hpoint := headD_codes (asciiOnly_eq (by decide : IsAscii '.')) (by decide) rest
  unfold skipFraction
  rw [h.ahead.peek, ok_bind]
  cases hrest : Piece.StartsWith? (· = '.') rest with
  | false =>
    rw [hrest, decide_eq_false_iff_not] at hpoint
    rw [if_neg hpoint, fractionLength_of_ne hrest]
    rfl
  | true =>
    rw [hrest, decide_eq_true_eq] at hpoint
    obtain ⟨more, rfl⟩ := List.head?_eq_some_iff.mp (Piece.head?_eq_some_iff.mpr hrest)
    have hbehind := h.tail (by decide)
    have hnext : peek source (s.curr + 1) = .ok ((codes more).headD '\x00') :=
      hbehind.ahead.peek
    have hdigit := headD_codes asciiOnly_isDigit rfl more
    have hahead := h.ahead
    rw [codes_cons, codes_ascii (by decide)] at hahead
    rw [if_pos hpoint, hnext, ok_bind, hdigit, fractionLength_point]
    split
    · rw [advance_eq hahead, ok_bind]
      change advanceWhile source Char.isDigit (s.moved 1 0) = _
      rw [advanceWhile_at asciiOnly_isDigit rfl hbehind, moved_moved]
    · rfl

theorem scanNumber_eq (h : At source before (c :: rest) s.curr) (hstart : s.start = s.curr)
    (hc : c.isDigit = true) (hascii : IsAscii c) :
    scanNumber source (s.moved 1 0) = .ok (s.outcome (Piece.first c rest)) := by
  have hdigits := advanceWhile_at asciiOnly_isDigit rfl (h.tail hascii)
  have hfraction := skipFraction_eq ((h.tail hascii).dropWhile asciiOnly_isDigit)
  let numeral := c :: rest.take (Piece.numeralLength rest)
  have hmem : ∀ d ∈ numeral, d.isDigit = true ∨ d = '.' := mem_numeral (.of_numeral hc rest)
  have hcodes : codes numeral = numeral := by
    refine codes_of_ascii fun d hd => ?_
    rcases hmem d hd with hdigit | rfl
    · exact asciiOnly_isDigit d hdigit
    · decide
  have hbreak : '\n' ∉ numeral := fun hd => by
    rcases hmem '\n' hd with hdigit | hpoint
    · cases hdigit
    · cases hpoint
  have hlength : numeral.length = 1 + Piece.numeralLength rest := by
    rw [List.length_cons, List.length_take, Nat.min_eq_left (Piece.numeralLength_le rest),
      Nat.add_comm]
  have hsplit : At source before (numeral ++ rest.drop (Piece.numeralLength rest)) s.curr := by
    rwa [List.cons_append, List.take_append_drop]
  have htext := hsplit.text_eq
  rw [hcodes] at htext
  rw [first_eq (Piece.reach_digit hc rest), outcome_of_no_break hbreak, hcodes, scanNumber,
    hdigits, ok_bind, hfraction, ok_bind, moved_moved, moved_moved, ← Piece.numeralLength,
    ← hlength]
  change (text source s.start (s.curr + numeral.length) >>= _) = _
  rw [hstart, htext, ok_bind]
  rfl

/-! ### Characters that start nothing -/

theorem rejectCharacter_eq (h : At source before (c :: rest) s.curr) (hstart : s.start = s.curr) :
    rejectCharacter source (s.moved 1 0) =
      .ok (.failed ⟨.unexpectedCharacter c, s.line⟩, s.moved c.utf8Size 0) := by
  have hall : At source before ((c :: rest) ++ []) s.curr := by rwa [List.append_nil]
  have hsize : s.curr + (codes (c :: rest)).length = size source :=
    Nat.le_antisymm hall.behind.ahead.le_size hall.behind.ahead.size_le
  have htext := hall.text_eq
  rw [hsize] at htext
  rw [rejectCharacter, start_moved, hstart, htext, ok_bind, String.toList_ofList,
    List.headD_cons, moved, moved, hstart]
  rfl

theorem isAscii_of_symbol? {kind : TokenKind} (h : Piece.symbol? c = some kind) : IsAscii c := by
  unfold Piece.symbol? at h
  split at h <;> cases h <;> decide

theorem isAscii_of_comparison? {kinds : TokenKind × TokenKind}
    (h : Piece.comparison? c = some kinds) : IsAscii c := by
  unfold Piece.comparison? at h
  split at h <;> cases h <;> decide

/-- No character beyond ASCII starts anything. -/
theorem useless_of_not_isAscii (hc : ¬ IsAscii c) : Piece.Useless c where
  blank := AsciiOnly.eq_false (fun d hd => by
    simp only [Piece.isBlank, Bool.or_eq_true, decide_eq_true_eq] at hd
    rcases hd with ((rfl | rfl) | rfl) | rfl <;> decide) hc
  slash := by
    rintro rfl
    exact hc (by decide)
  quote := by
    rintro rfl
    exact hc (by decide)
  digit := asciiOnly_isDigit.eq_false hc
  word := AsciiOnly.eq_false (fun d hd => asciiOnly_continuesWord d
    (Piece.continuesWord_of_startsWord hd)) hc
  symbol := Option.eq_none_iff_forall_ne_some.mpr fun _ h => hc (isAscii_of_symbol? h)
  comparison := Option.eq_none_iff_forall_ne_some.mpr fun _ h => hc (isAscii_of_comparison? h)

theorem reach_useless (hc : Piece.Useless c) (rest : List Char) :
    Piece.reach c rest = (.unexpected, 0) := by
  simp [Piece.reach, hc.blank, hc.slash, hc.quote, hc.digit, hc.word, hc.symbol, hc.comparison]

theorem scanFrom_useless (hc : Piece.Useless c) :
    scanFrom source c s = rejectCharacter source s := by
  have hbreak : c ≠ '\n' := by
    rintro rfl
    cases hc.blank
  simp [scanFrom, hbreak, hc.blank, hc.slash, hc.quote, hc.digit, hc.word, hc.symbol,
    hc.comparison]

/-- A character that starts nothing is stepped over as a whole. -/
theorem rejectCharacter_outcome (h : At source before (c :: rest) s.curr)
    (hstart : s.start = s.curr) (hc : Piece.Useless c) :
    rejectCharacter source (s.moved 1 0) = .ok (s.outcome (Piece.first c rest)) := by
  have hbreak : '\n' ∉ [c] := by
    intro hmem
    obtain rfl := List.mem_singleton.mp hmem
    cases hc.blank
  rw [rejectCharacter_eq h hstart, first_eq (reach_useless hc rest), List.take_zero,
    outcome_of_no_break hbreak, length_codes_singleton]
  rfl

/-! ### Operators -/

theorem payload?_symbol? {kind : TokenKind} (h : Piece.symbol? c = some kind) :
    payload? kind text = none := by
  unfold Piece.symbol? at h
  split at h <;> cases h <;> rfl

theorem payload?_comparison? {alone withEqual : TokenKind}
    (h : Piece.comparison? c = some (alone, withEqual)) :
    payload? alone text = none ∧ payload? withEqual text = none := by
  unfold Piece.comparison? at h
  split at h <;> cases h <;> exact ⟨rfl, rfl⟩

theorem scanComparison_eq {alone withEqual : TokenKind}
    (h : At source before rest (s.moved 1 0).curr) (hascii : IsAscii c) (hbreak : c ≠ '\n')
    (hc : Piece.comparison? c = some (alone, withEqual))
    (hreach : Piece.reach c rest = if rest.head? = some '=' then (.token withEqual, 1)
      else (.token alone, 0)) :
    scanComparison source alone withEqual (s.moved 1 0) =
      .ok (s.outcome (Piece.first c rest)) := by
  rw [scanComparison, matchByte_at h (by decide), ok_bind]
  by_cases hlonger : rest.head? = some '='
  · obtain ⟨more, rfl⟩ := List.head?_eq_some_iff.mp hlonger
    rw [if_pos hlonger] at hreach ⊢
    rw [first_eq hreach, outcome_of_no_break (by simpa using Ne.symm hbreak),
      length_codes_cons hascii, Scanned.ofPiece, (payload?_comparison? hc).2, moved_moved]
    rfl
  · rw [if_neg hlonger] at hreach ⊢
    rw [first_eq hreach, List.take_zero, outcome_singleton hascii hbreak, Scanned.ofPiece,
      (payload?_comparison? hc).1]
    rfl

/-! ### Every piece -/

/-- In front of a whole character, the piece that starts there is read. -/
theorem scanToken_eq (h : At source before (c :: rest) s.curr) (hstart : s.start = s.curr) :
    scanToken source s = .ok (s.outcome (Piece.first c rest)) := by
  by_cases hascii : IsAscii c
  · have htail := h.tail hascii
    rw [scanToken_ascii h hascii]
    by_cases hblank : Piece.isBlank c = true
    · exact scanFrom_blank hblank hascii
    by_cases hslash : c = '/'
    · subst hslash
      exact scanSlash_eq htail
    by_cases hquote : c = '"'
    · subst hquote
      exact scanString_eq h hstart
    have hbreak : c ≠ '\n' := by
      rintro rfl
      exact hblank rfl
    rw [scanFrom, if_neg hbreak, if_neg hblank, if_neg hslash, if_neg hquote]
    by_cases hdigit : c.isDigit = true
    · rw [if_pos hdigit]
      exact scanNumber_eq h hstart hdigit hascii
    by_cases hword : Piece.startsWord c = true
    · rw [if_neg hdigit, if_pos hword]
      exact scanWord_eq h hstart hword hascii
    rw [if_neg hdigit, if_neg hword]
    cases hsymbol : Piece.symbol? c with
    | some kind =>
      have hreach : Piece.reach c rest = (.token kind, 0) := by
        simp [Piece.reach, hblank, hslash, hquote, hdigit, hword, hsymbol]
      rw [first_eq hreach, List.take_zero, outcome_singleton hascii hbreak, Scanned.ofPiece,
        payload?_symbol? hsymbol]
      rfl
    | none =>
      cases hcomparison : Piece.comparison? c with
      | some pair =>
        have hreach : Piece.reach c rest = if rest.head? = some '=' then (.token pair.2, 1)
            else (.token pair.1, 0) := by
          simp [Piece.reach, hblank, hslash, hquote, hdigit, hword, hsymbol, hcomparison]
        exact scanComparison_eq htail hascii hbreak hcomparison hreach
      | none =>
        refine rejectCharacter_outcome h hstart ⟨?_, hslash, hquote, ?_, ?_, hsymbol, hcomparison⟩
        · exact Bool.eq_false_iff.mpr hblank
        · exact Bool.eq_false_iff.mpr hdigit
        · exact Bool.eq_false_iff.mpr hword
  · -- The first byte of such a character is taken for nothing either.
    obtain ⟨b, bytes, hcodes, hb⟩ := exists_codes_eq_cons hascii
    have hahead := h.ahead
    rw [codes_cons, hcodes] at hahead
    rw [scanToken, advance_eq hahead, ok_bind]
    change scanFrom source b (s.moved 1 0) = _
    rw [scanFrom_useless (useless_of_not_isAscii hb)]
    exact rejectCharacter_outcome h hstart (useless_of_not_isAscii hascii)

end

end Lox.ByteScanner
