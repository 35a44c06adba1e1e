import Lox.Proofs.Token.Cursor

/-!
# A scan by bytes breaks off nowhere

Between two pieces the cursor stands between two whole characters.  Every piece that is
read moves it on to such a place again, so a scan by bytes gives the same items as a scan
by characters, and these are at most two for each byte and two for the end.
-/

namespace Lox.ByteScanner

variable {source : String} {s : ByteScanner}

/-! ### The items -/

/-- Both scanners have read the same and are about to go on in the same way. -/
structure Matches (source : String) (s : ByteScanner) (scanner : Scanner) : Prop where
  stands : ∃ before, At source before scanner.rest s.curr
  progress : s.progress = scanner.progress
  queued : s.queued? = scanner.queued?
  finished : s.finished = scanner.finished

/-- What the turn comes to is what the other scanner gives next. -/
def Turn.Fits : Turn → Scanner → Scanner → Prop
  | .gives item, scanner, scanner' => scanner.next = (some item, scanner')
  | .goesOn, scanner, scanner' => scanner.next = scanner'.next
  | .ends, scanner, scanner' => scanner.next = (none, scanner')

theorem Matches.initial (source : String) : Matches source initial (Scanner.start source) :=
  ⟨⟨[], At.start source⟩, rfl, rfl, rfl⟩

theorem Matches.ready {scanner : Scanner} (h : Matches source s scanner) {result : Turn}
    {s' : ByteScanner} (hready : ready? source s = some (result, s')) :
    ∃ scanner', Matches source s' scanner' ∧ result.Fits scanner scanner' := by
  obtain ⟨rest, progress, queued?, finished⟩ := scanner
  obtain ⟨⟨before, hat⟩, rfl, rfl, rfl⟩ := h
  unfold ready? at hready
  split at hready
  · -- A token is waiting.
    rename_i token hqueued
    cases hready
    refine ⟨⟨rest, Scanner.behind s.progress token, none, s.finished⟩,
      ⟨⟨before, hat⟩, rfl, rfl, rfl⟩, ?_⟩
    simp [Turn.Fits, Scanner.next, hqueued]
  rename_i hqueued
  split at hready
  · -- The end of input was given.
    rename_i hfinished
    cases hready
    refine ⟨⟨rest, s.progress, s.queued?, s.finished⟩, ⟨⟨before, hat⟩, rfl, rfl, rfl⟩, ?_⟩
    simp [Turn.Fits, Scanner.next, hqueued, hfinished]
  rename_i hfinished
  split at hready
  · -- There is nothing left: the semicolon that is due comes first, and the end of input behind it.
    rename_i hend
    obtain rfl : rest = [] :=
      Decidable.byContradiction fun hrest => Nat.not_lt.mpr hend (hat.lt_size hrest)
    split at hready
    · rename_i semicolon hdue
      cases hready
      refine ⟨⟨[], Scanner.behind s.progress semicolon, none, false⟩,
        ⟨⟨before, hat⟩, rfl, hqueued, Bool.eq_false_iff.mpr hfinished⟩, ?_⟩
      simp [Turn.Fits, Scanner.next, hqueued, hfinished, Scanner.pull, hdue]
    · rename_i hdue
      cases hready
      refine ⟨⟨[], Scanner.behind s.progress (.endOfInput s.progress.line), none, true⟩,
        ⟨⟨before, hat⟩, rfl, hqueued, rfl⟩, ?_⟩
      have hline : s.progress.line = s.line := rfl
      simp [Turn.Fits, Scanner.next, hqueued, hfinished, Scanner.pull, hdue, hline]
  · cases hready

/-- A piece that is no token leaves the last token as it is. -/
theorem progress_behind {piece : Piece} (h : ∀ kind, piece.kind ≠ .token kind) :
    (s.behind piece).progress = s.progress.advance piece := by
  obtain ⟨kind, text⟩ := piece
  cases kind with
  | token kind => exact absurd rfl (h kind)
  | _ => simp [behind, moved, ByteScanner.progress, Item.Progress.advance]

theorem dueIfCrossed?_behind (kind : TokenKind) (text : List Char) :
    Scanner.dueIfCrossed? (s.behind ⟨.token kind, text⟩).progress =
      Scanner.dueIfCrossed? s.progress := by
  have hcrossed : (s.behind ⟨.token kind, text⟩).crossed = s.crossed := by simp [behind, moved]
  change (if (s.behind ⟨.token kind, text⟩).crossed then _ else none) = _
  rw [hcrossed]
  rfl

theorem deliver_token (source : String) (kind : TokenKind) (payload? : Option String)
    (s : ByteScanner) :
    deliver source (.token kind payload?) s = (text source s.start s.curr >>= fun lexeme =>
      match Scanner.dueIfCrossed? s.progress with
      | some semicolon => .ok (.gives (.token semicolon),
          { s with queued? := some ⟨kind, lexeme, s.line⟩ }.emit semicolon)
      | none => .ok (.gives (.token ⟨kind, lexeme, s.line⟩), s.emit ⟨kind, lexeme, s.line⟩)) :=
  rfl

theorem turn_of_at {before more : List Char} {c : Char} (h : At source before (c :: more) s.curr)
    (hready : ready? source s = none) :
    turn source s = deliver source (s.opening.outcome (Piece.first c more)).1
      (s.opening.outcome (Piece.first c more)).2 := by
  rw [turn, hready]
  change (scanToken source s.opening >>= _) = _
  rw [scanToken_eq (s := s.opening) h rfl]
  rfl

theorem Matches.reads {scanner : Scanner} (h : Matches source s scanner)
    (hready : ready? source s = none) :
    ∃ result s' scanner', turn source s = .ok (result, s') ∧ Matches source s' scanner' ∧
      result.Fits scanner scanner' := by
  -- Both scanners stand before the same text with the same progress.
  obtain ⟨rest, progress, queued?, finished⟩ := scanner
  obtain ⟨⟨before, hat⟩, rfl, rfl, rfl⟩ := h
  obtain ⟨hqueued, hfinished, hlt⟩ := of_ready? source hready
  obtain ⟨c, more, rfl⟩ : ∃ c more, rest = c :: more := by
    cases rest with
    | nil => exact absurd hat.ahead.size_le (Nat.not_le.mpr hlt)
    | cons c more => exact ⟨c, more, rfl⟩
  -- The scanner on pieces takes the first piece of what is ahead; the one on bytes walks
  -- over the characters of the same piece.
  have hpull : Scanner.next ⟨c :: more, s.progress, s.queued?, s.finished⟩ =
      Scanner.pull s.progress (c :: more) := by
    simp [Scanner.next, hqueued, hfinished]
  have hsplit : At source before ((Piece.first c more).text ++ Piece.remainder c more) s.curr := by
    rwa [Piece.text_first_append]
  have hhead : (Piece.first c more).text.headD ' ' = c := rfl
  rw [Scanner.pull] at hpull
  rw [turn_of_at hat hready]
  generalize Piece.first c more = piece at *
  obtain ⟨kind, text⟩ := piece
  have hstands := hsplit.behind
  cases kind with
  -- A blank or a comment moves on and delivers nothing.
  | blank =>
    let scanner' : Scanner :=
      ⟨Piece.remainder c more, s.progress.advance ⟨.blank, text⟩, none, false⟩
    refine ⟨_, _, scanner', rfl, ?_, hpull⟩
    exact ⟨⟨_, hstands⟩, progress_behind (by simp), hqueued, hfinished⟩
  | comment =>
    let scanner' : Scanner :=
      ⟨Piece.remainder c more, s.progress.advance ⟨.comment, text⟩, none, false⟩
    refine ⟨_, _, scanner', rfl, ?_, hpull⟩
    exact ⟨⟨_, hstands⟩, progress_behind (by simp), hqueued, hfinished⟩
  -- Errors are delivered as they are, whatever is due.
  | unexpected =>
    have hfirst : text.headD ' ' = c := hhead
    rw [outcome, Scanned.ofPiece, hfirst]
    refine ⟨_, _, _, rfl, ?_, hpull⟩
    exact ⟨⟨_, hstands⟩, progress_behind (by simp), hqueued, hfinished⟩
  | unterminated =>
    refine ⟨_, _, _, rfl, ?_, hpull⟩
    exact ⟨⟨_, hstands⟩, progress_behind (by simp), hqueued, hfinished⟩
  -- A token waits if a semicolon is due before it.
  | token kind =>
    have hlexeme : ByteScanner.text source (s.opening.behind ⟨.token kind, text⟩).start
        (s.opening.behind ⟨.token kind, text⟩).curr = .ok (String.ofList text) := hsplit.text_eq
    have hdue : Scanner.dueIfCrossed? (s.opening.behind ⟨.token kind, text⟩).progress =
        Scanner.dueIfCrossed? s.progress := dueIfCrossed?_behind kind text
    rw [outcome, Scanned.ofPiece, deliver_token, hlexeme, ok_bind, hdue]
    dsimp only at hpull
    cases hsemicolon : Scanner.dueIfCrossed? s.progress with
    | some semicolon =>
      rw [hsemicolon] at hpull
      refine ⟨_, _, _, rfl, ?_, hpull⟩
      exact ⟨⟨_, hstands⟩, rfl, rfl, hfinished⟩
    | none =>
      rw [hsemicolon] at hpull
      refine ⟨_, _, _, rfl, ?_, hpull⟩
      exact ⟨⟨_, hstands⟩, rfl, hqueued, hfinished⟩

theorem Matches.turn {scanner : Scanner} (h : Matches source s scanner) :
    ∃ result s' scanner', turn source s = .ok (result, s') ∧ Matches source s' scanner' ∧
      result.Fits scanner scanner' := by
  cases hready : ready? source s with
  | none => exact h.reads hready
  | some pair =>
    obtain ⟨result, s'⟩ := pair
    obtain ⟨scanner', hmatches, hfits⟩ := h.ready hready
    refine ⟨result, s', scanner', ?_, hmatches, hfits⟩
    rw [ByteScanner.turn, hready]

theorem Matches.of_turn {scanner : Scanner} (h : Matches source s scanner) {result : Turn}
    {s' : ByteScanner} (hturn : ByteScanner.turn source s = .ok (result, s')) :
    ∃ scanner', Matches source s' scanner' ∧ result.Fits scanner scanner' := by
  obtain ⟨result', s₁, scanner', hok, hmatches⟩ := h.turn
  cases hturn.symm.trans hok
  exact ⟨scanner', hmatches⟩

theorem Matches.next {scanner : Scanner} (h : Matches source s scanner) :
    ∃ s', next source s = .ok (scanner.next.1, s') ∧ Matches source s' scanner.next.2 := by
  fun_induction ByteScanner.next source s generalizing scanner with
  | case1 s trap hturn =>
    obtain ⟨result, s', scanner', hok, -⟩ := h.turn
    cases hturn.symm.trans hok
  | case2 s item s' hturn =>
    obtain ⟨scanner', hmatches, hfits⟩ := h.of_turn hturn
    have hnext : scanner.next = (some item, scanner') := hfits
    rw [hnext]
    exact ⟨s', rfl, hmatches⟩
  | case3 s s' hturn =>
    obtain ⟨scanner', hmatches, hfits⟩ := h.of_turn hturn
    have hnext : scanner.next = (none, scanner') := hfits
    rw [hnext]
    exact ⟨s', rfl, hmatches⟩
  | case4 s s' hturn ih =>
    obtain ⟨scanner', hmatches, hfits⟩ := h.of_turn hturn
    have hnext : scanner.next = scanner'.next := hfits
    rw [hnext]
    exact ih hmatches

theorem Matches.nth {scanner : Scanner} (h : Matches source s scanner) (n : Nat) :
    nth source n s = .ok (scanner.nth n) := by
  induction n generalizing s scanner with
  | zero =>
    obtain ⟨s', hnext, -⟩ := h.next
    rw [ByteScanner.nth, hnext]
    rfl
  | succ n ih =>
    obtain ⟨s', hnext, hmatches⟩ := h.next
    rw [ByteScanner.nth, hnext]
    exact ih hmatches

/-- A scan by bytes gives the items of the source. -/
theorem nth_initial (source : String) (n : Nat) :
    nth source n initial = .ok (Item.scan source)[n]? := by
  rw [(Matches.initial source).nth, Scanner.nth_start]

/-! ### The calls -/

/-- A piece was to be read. -/
structure Call where
  /-- The scanner in front of the piece. -/
  entry : ByteScanner
  result : Except Trap (Scanned × ByteScanner)

def call? (source : String) (s : ByteScanner) : Option Call :=
  match ready? source s with
  | some _ => none
  | none => some ⟨s.opening, scanToken source s.opening⟩

/-- The calls in some turns, and the scanner behind these turns. -/
def turns (source : String) : Nat → ByteScanner → Except Trap (List Call × ByteScanner)
  | 0, s => .ok ([], s)
  | n + 1, s => do
    let (_, s') ← turn source s
    let (calls, last) ← turns source n s'
    return ((call? source s).toList ++ calls, last)

theorem turns_succ {result : Turn} {s' last : ByteScanner} {n : Nat} {calls : List Call}
    (hturn : turn source s = .ok (result, s')) (hturns : turns source n s' = .ok (calls, last)) :
    turns source (n + 1) s = .ok ((call? source s).toList ++ calls, last) := by
  rw [turns, hturn, ok_bind]
  change (turns source n s' >>= _) = _
  rw [hturns]
  rfl

/-- The call starts at the one place, stops at the other one and breaks off nowhere. -/
structure Call.Safe (source : String) (call : Call) (start stop : Nat) : Prop where
  start_eq : call.entry.start = start
  curr_eq : call.entry.curr = start
  lt_size : start < size source
  isBoundary_start : IsBoundary source start
  /-- So all that the call reads and cuts out is there. -/
  returns : ∃ scanned s', call.result = .ok (scanned, s') ∧ s'.curr = stop
  moves : start < stop
  le_size : stop ≤ size source
  isBoundary_stop : IsBoundary source stop

/-- Each call starts where the one before it stopped. -/
inductive Tiles (source : String) : Nat → List Call → Nat → Prop where
  | nil {place : Nat} : Tiles source place [] place
  | cons {call : Call} {calls : List Call} {start stop last : Nat}
      (safe : call.Safe source start stop) (rest : Tiles source stop calls last) :
      Tiles source start (call :: calls) last

theorem curr_ready? {result : Turn} {s' : ByteScanner}
    (h : ready? source s = some (result, s')) : s'.curr = s.curr := by
  unfold ready? at h
  split at h
  · cases h
    rfl
  split at h
  · cases h
    rfl
  split at h
  · split at h <;> cases h <;> rfl
  · cases h

theorem curr_deliver {scanned : Scanned} {result : Turn} {s' : ByteScanner}
    (h : deliver source scanned s = .ok (result, s')) : s'.curr = s.curr := by
  cases scanned with
  | skipped =>
    cases h
    rfl
  | failed error =>
    cases h
    rfl
  | token kind payload? =>
    obtain ⟨lexeme, -, h⟩ := of_bind h
    split at h <;> cases h <;> rfl

theorem safe_scanToken (h : IsBoundary source s.curr) (hlt : s.curr < size source) :
    ∃ scanned s', scanToken source s.opening = .ok (scanned, s') ∧
      Call.Safe source ⟨s.opening, scanToken source s.opening⟩ s.curr s'.curr := by
  obtain ⟨before, rest, hat⟩ := At.of_isBoundary h
  cases rest with
  | nil => exact absurd hat.ahead.size_le (Nat.not_le.mpr hlt)
  | cons c more =>
    have hscan := scanToken_eq (s := s.opening) hat rfl
    have hsplit :
        At source before ((Piece.first c more).text ++ Piece.remainder c more) s.curr := by
      rwa [Piece.text_first_append]
    have hstop : IsBoundary source (s.opening.behind (Piece.first c more)).curr :=
      hsplit.behind.isBoundary
    refine ⟨_, _, hscan, rfl, rfl, hlt, h, ⟨_, _, hscan, rfl⟩, ?_, hstop.le_rawEndPos, hstop⟩
    exact lt_of_scanToken source (s := s.opening) rfl hscan

/-- From a place between two characters on, no turn breaks off. -/
theorem exists_turn (h : IsBoundary source s.curr) :
    ∃ result s', turn source s = .ok (result, s') ∧ IsBoundary source s'.curr := by
  obtain ⟨before, rest, hat⟩ := At.of_isBoundary h
  have hmatches : Matches source s ⟨rest, s.progress, s.queued?, s.finished⟩ :=
    ⟨⟨before, hat⟩, rfl, rfl, rfl⟩
  obtain ⟨result, s', scanner', hturn, hmatches', -⟩ := hmatches.turn
  obtain ⟨before', hat'⟩ := hmatches'.stands
  exact ⟨result, s', hturn, hat'.isBoundary⟩

theorem tiles_turns (h : IsBoundary source s.curr) (n : Nat) :
    ∃ calls last, turns source n s = .ok (calls, last) ∧ Tiles source s.curr calls last.curr := by
  induction n generalizing s with
  | zero => exact ⟨[], s, rfl, .nil⟩
  | succ n ih =>
    obtain ⟨result, s', hturn, hboundary⟩ := exists_turn h
    obtain ⟨calls, last, hturns, htiles⟩ := ih hboundary
    refine ⟨(call? source s).toList ++ calls, last, turns_succ hturn hturns, ?_⟩
    unfold turn at hturn
    unfold call?
    cases hready : ready? source s with
    | some pair =>
      rw [hready] at hturn
      cases hturn
      exact curr_ready? hready ▸ htiles
    | none =>
      rw [hready] at hturn
      obtain ⟨scanned, s₁, hscan, hsafe⟩ := safe_scanToken h (of_ready? source hready).2.2
      change (scanToken source s.opening >>= _) = _ at hturn
      rw [hscan, ok_bind] at hturn
      exact .cons hsafe (curr_deliver hturn ▸ htiles)

/-- A request for an item is some turns. -/
theorem turns_of_next {item? : Option Item} {s' : ByteScanner}
    (h : next source s = .ok (item?, s')) : ∃ n calls, turns source n s = .ok (calls, s') := by
  fun_induction next source s with
  | case1 s trap hturn => cases h
  | case2 s item s₁ hturn =>
    cases h
    exact ⟨1, _, turns_succ hturn rfl⟩
  | case3 s s₁ hturn =>
    cases h
    exact ⟨1, _, turns_succ hturn rfl⟩
  | case4 s s₁ hturn ih =>
    obtain ⟨n, calls, hturns⟩ := ih h
    exact ⟨n + 1, _, turns_succ hturn hturns⟩

/-! ### How many items there are -/

theorem length_divide_le (text : List Char) : (Piece.divide text).length ≤ text.length := by
  fun_induction Piece.divide text with
  | case1 => exact Nat.le_refl _
  | case2 c rest ih =>
    have hlt := Piece.length_remainder_lt c rest
    rw [List.length_cons]
    omega

theorem length_semicolon_le (progress : Item.Progress) : progress.semicolon.length ≤ 1 := by
  rw [Scanner.semicolon_eq]
  cases Scanner.due? progress <;> simp

theorem length_emit_le (progress : Item.Progress) (piece : Piece) :
    (progress.emit piece).length ≤ 2 := by
  have hsemicolon : progress.semicolonIfCrossed.length ≤ 1 := by
    unfold Item.Progress.semicolonIfCrossed
    split
    · exact length_semicolon_le progress
    · exact Nat.zero_le _
  obtain ⟨kind, text⟩ := piece
  cases kind <;> simp [Item.Progress.emit]
  omega

theorem length_ofPieces_le (progress : Item.Progress) (pieces : List Piece) :
    (Item.ofPieces progress pieces).length ≤ 2 * pieces.length + 2 := by
  induction pieces generalizing progress with
  | nil =>
    have hle := length_semicolon_le progress
    simp only [Item.ofPieces, List.length_append, List.length_singleton, List.length_nil]
    omega
  | cons piece pieces ih =>
    have hle := length_emit_le progress piece
    have hrest := ih (progress.advance piece)
    simp only [Item.ofPieces, List.length_append, List.length_cons]
    omega

theorem length_scan_le (source : String) :
    (Item.scan source).length ≤ 2 * size source + 2 := by
  have hitems := length_ofPieces_le ⟨1, none, false⟩ (Piece.divide source.toList)
  have hpieces := length_divide_le source.toList
  have hbytes := length_le_codes source.toList
  rw [← size_eq] at hbytes
  change (Item.ofPieces _ _).length ≤ _
  omega

/--
A scan by bytes is safe and ends.  However many turns it takes, none of them breaks off, so
no byte is read behind the last one and no text is cut out except between whole characters.
A piece is read where the last one stopped, before the end and in front of a whole
character, and whatever it comes to, the cursor has moved on to such a place again or to the
end.  To ask for an item is to take some turns.  The items are those of the source, with
nothing behind them, and there are at most two for each byte and two more.
-/
theorem cursor_safe (source : String) :
    (∀ n, ∃ calls last, turns source n initial = .ok (calls, last) ∧
      Tiles source 0 calls last.curr) ∧
    (∀ s item? s', next source s = .ok (item?, s') →
      ∃ n calls, turns source n s = .ok (calls, s')) ∧
    (∀ n, nth source n initial = .ok (Item.scan source)[n]?) ∧
    (Item.scan source).length ≤ 2 * size source + 2 :=
  ⟨tiles_turns (At.start source).isBoundary, fun _ _ _ => turns_of_next, nth_initial source,
    length_scan_le source⟩

end Lox.ByteScanner
