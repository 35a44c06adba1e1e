import Lox.Proofs.Token.Lines
import Lox.Proofs.Token.Longest
import Lox.Token.Scanner

/-!
# Nothing is lost in scanning

The items of a source are those of the pieces that it is divided into, with supplied
semicolons in between and the end of input behind all of them.
-/

namespace Lox

open Piece

/-! ### One item at a time -/

namespace Scanner

open Item (Progress ofPieces scan line_advance)

theorem semicolon_eq (progress : Progress) :
    progress.semicolon = (due? progress).toList.map Item.token := by
  unfold Progress.semicolon due?
  cases progress.last? with
  | none => rfl
  | some last => cases hends : last.kind.endsStatement <;> simp [hends]

theorem semicolonIfCrossed_eq (progress : Progress) :
    progress.semicolonIfCrossed = (dueIfCrossed? progress).toList.map Item.token := by
  unfold Progress.semicolonIfCrossed dueIfCrossed?
  split
  · exact semicolon_eq progress
  · rfl

/-- A semicolon does not call for another one. -/
theorem due?_of_due? {progress : Progress} {semicolon : Token} (h : due? progress = some semicolon)
    (line : Nat) : due? ⟨line, some semicolon, false⟩ = none := by
  obtain ⟨last, -, hlast⟩ := Option.bind_eq_some_iff.mp h
  split at hlast
  · cases hlast
    rfl
  · cases hlast

/-- The items that the scanner has not given yet. -/
def remaining (scanner : Scanner) : List Item :=
  match scanner.queued? with
  | some token =>
    .token token :: if scanner.finished then []
      else ofPieces (behind scanner.progress token) (divide scanner.rest)
  | none => if scanner.finished then [] else ofPieces scanner.progress (divide scanner.rest)

theorem remaining_pull (progress : Progress) (text : List Char) :
    (pull progress text).1 = (ofPieces progress (divide text)).head? ∧
      (pull progress text).2.remaining = (ofPieces progress (divide text)).tail := by
  fun_induction pull progress text with
  -- At the end of input the semicolon that is due comes before the end itself.
  | case1 progress semicolon hdue =>
    simp [divide, ofPieces, semicolon_eq, hdue, remaining, behind, due?_of_due? hdue]
  | case2 progress hdue token =>
    simp [divide, ofPieces, semicolon_eq, hdue, remaining, token]
  -- Blanks and comments give nothing.
  | case3 progress c rest piece next hkind ih =>
    have hnothing : progress.emit piece = [] := by simp [Progress.emit, hkind]
    rw [divide_cons, ofPieces, hnothing]
    exact ih
  | case4 progress c rest piece next hkind ih =>
    have hnothing : progress.emit piece = [] := by simp [Progress.emit, hkind]
    rw [divide_cons, ofPieces, hnothing]
    exact ih
  -- A token behind a line break waits for its semicolon.
  | case5 progress c rest piece next kind hkind token semicolon hdue =>
    have hemit : progress.emit piece = [.token semicolon, .token token] := by
      simp [Progress.emit, hkind, semicolonIfCrossed_eq, hdue, token, next, line_advance]
    have hnext : progress.advance piece = behind next token := by
      simp [behind, next, Progress.advance, hkind, token]
    rw [divide_cons, ofPieces, hemit, hnext]
    exact ⟨rfl, rfl⟩
  | case6 progress c rest piece next kind hkind token hdue =>
    have hemit : progress.emit piece = [.token token] := by
      simp [Progress.emit, hkind, semicolonIfCrossed_eq, hdue, token, next, line_advance]
    rw [divide_cons, ofPieces, hemit]
    exact ⟨rfl, rfl⟩
  -- An error is given at once, with the line that the piece ends on.
  | case7 progress c rest piece next hkind =>
    have hemit : progress.emit piece = [.error ⟨.unexpectedCharacter c, next.line⟩] := by
      have htext : piece.text = c :: rest.take (reach c rest).2 := rfl
      simp [Progress.emit, hkind, htext, next, line_advance]
    rw [divide_cons, ofPieces, hemit]
    exact ⟨rfl, rfl⟩
  | case8 progress c rest piece next hkind =>
    have hemit : progress.emit piece = [.error ⟨.unterminatedString, next.line⟩] := by
      simp [Progress.emit, hkind, next, line_advance]
    rw [divide_cons, ofPieces, hemit]
    exact ⟨rfl, rfl⟩

theorem remaining_next (scanner : Scanner) :
    scanner.next.1 = scanner.remaining.head? ∧
      scanner.next.2.remaining = scanner.remaining.tail := by
  unfold next
  cases hqueued : scanner.queued? with
  | some token => simp [remaining, hqueued]
  | none =>
    cases hfinished : scanner.finished with
    | true => simp [remaining, hqueued, hfinished]
    | false =>
      have hpull := remaining_pull scanner.progress scanner.rest
      simpa [remaining, hqueued, hfinished] using hpull

/-- The scanner gives its items in order, and nothing behind them. -/
theorem nth_eq (n : Nat) (scanner : Scanner) : nth n scanner = scanner.remaining[n]? := by
  induction n generalizing scanner with
  | zero => rw [nth, (remaining_next scanner).1, List.head?_eq_getElem?]
  | succ n ih =>
    rw [nth, ih, (remaining_next scanner).2, List.getElem?_tail]

theorem nth_start (source : String) (n : Nat) : (start source).nth n = (scan source)[n]? :=
  nth_eq n (start source)

end Scanner

/-! ### Items and pieces -/

/-- What a source says at one place, wherever that is. -/
inductive Written where
  | token (kind : TokenKind) (lexeme : String)
  | unexpected (c : Char)
  | unterminated

/-- What an item says, unless it was supplied or is the end of input. -/
def Item.written? : Item → Option Written
  | .token t => if t.isSupplied ∨ t.kind = .eof then none else some (.token t.kind t.lexeme)
  | .error ⟨.unexpectedCharacter c, _⟩ => some (.unexpected c)
  | .error ⟨.unterminatedString, _⟩ => some .unterminated

/-- What a piece says, unless it is a blank or a comment. -/
def Piece.written? (piece : Piece) : Option Written :=
  match piece.kind, piece.text with
  | .blank, _ | .comment, _ => none
  | .token kind, text => some (.token kind (String.ofList text))
  | .unexpected, text => text.head?.map .unexpected
  | .unterminated, _ => some .unterminated

namespace Item

/-- The pieces of a source are not empty, and none of them is the end of input. -/
theorem substantial_divide (source : List Char) :
    ∀ piece ∈ divide source, piece.text ≠ [] ∧ piece.kind ≠ .token .eof := by
  intro piece hpiece
  constructor
  · have hdivides := divides_divide source
    generalize divide source = pieces at hpiece hdivides
    induction hdivides with
    | nil => cases hpiece
    | cons htext _ _ ih =>
      rcases List.mem_cons.mp hpiece with rfl | hpiece
      · exact htext
      · exact ih hpiece
  · intro hkind
    exact (spelled_divide source piece hpiece .eof hkind 1).2 rfl

theorem written?_semicolon (progress : Progress) :
    progress.semicolon.filterMap written? = [] := by
  rw [Scanner.semicolon_eq]
  cases hdue : Scanner.due? progress with
  | none => rfl
  | some semicolon =>
    obtain ⟨last, -, hlast⟩ := Option.bind_eq_some_iff.mp hdue
    split at hlast
    · cases hlast
      rfl
    · cases hlast

theorem written?_emit (progress : Progress) {piece : Piece} (htext : piece.text ≠ [])
    (hkind : piece.kind ≠ .token .eof) :
    (progress.emit piece).filterMap written? = piece.written?.toList := by
  have hsupplied : progress.semicolonIfCrossed.filterMap written? = [] := by
    unfold Progress.semicolonIfCrossed
    split
    · exact written?_semicolon progress
    · rfl
  obtain ⟨c, more, hpiece⟩ := List.exists_cons_of_ne_nil htext
  cases hsort : piece.kind with
  | token kind =>
    have heof : kind ≠ .eof := by
      rintro rfl
      exact hkind hsort
    simp [Progress.emit, Piece.written?, hsort, hsupplied, written?, Token.isSupplied, hpiece, heof]
  | _ => simp [Progress.emit, Piece.written?, hsort, hpiece, written?]

/-- The items say what the pieces say. -/
theorem written?_ofPieces {pieces : List Piece}
    (h : ∀ piece ∈ pieces, piece.text ≠ [] ∧ piece.kind ≠ .token .eof) (progress : Progress) :
    (ofPieces progress pieces).filterMap written? = pieces.filterMap Piece.written? := by
  induction pieces generalizing progress with
  | nil =>
    rw [ofPieces, List.filterMap_append, written?_semicolon]
    rfl
  | cons piece pieces ih =>
    obtain ⟨htext, hkind⟩ := h piece List.mem_cons_self
    rw [ofPieces, List.filterMap_append, written?_emit progress htext hkind,
      ih fun piece hpiece => h piece (List.mem_cons_of_mem _ hpiece), List.filterMap_cons]
    cases piece.written? <;> rfl

theorem ofPieces_endOfInput (progress : Progress) (pieces : List Piece) :
    ∃ before line, ofPieces progress pieces = before ++ [.token (.endOfInput line)] := by
  induction pieces generalizing progress with
  | nil => exact ⟨progress.semicolon, progress.line, rfl⟩
  | cons piece pieces ih =>
    obtain ⟨before, line, hrest⟩ := ih (progress.advance piece)
    exact ⟨progress.emit piece ++ before, line, by rw [ofPieces, hrest, List.append_assoc]⟩

/-- The end of input is the last item, and no other one. -/
theorem scan_endOfInput (source : String) :
    ∃ before line, scan source = before ++ [.token (.endOfInput line)] ∧
      ∀ t, .token t ∈ before → t.kind ≠ .eof := by
  obtain ⟨before, line, hscan⟩ := ofPieces_endOfInput ⟨1, none, false⟩ (divide source.toList)
  obtain ⟨body, line', htokens, hbody⟩ := tokens_scan source
  refine ⟨before, line, hscan, ?_⟩
  intro t ht
  change scan source = _ at hscan
  rw [hscan, tokens_append] at htokens
  have hsame := List.append_inj_left' htokens rfl
  have hmem : t ∈ tokens before := List.mem_filterMap.mpr ⟨.token t, ht, rfl⟩
  rw [hsame] at hmem
  exact (hbody t hmem).2

end Item

/-- The content of a string is what stands between its quotes. -/
theorem Token.literal?_string (body : List Char) (line : Nat) :
    Token.literal? ⟨.string, String.ofList ('"' :: (body ++ ['"'])), line⟩ =
      some (.string (String.ofList body)) := by
  simp [Token.literal?, Token.content]

/--
Scanning loses nothing and invents nothing.  The source is divided into pieces that fit
where they stand, and the items say what the pieces say, in this order.  The end of input
is the last item and no other one.  A scanner that is asked again and again gives these
items one by one, and nothing behind them.
-/
theorem Item.scan_divides (source : String) :
    ∃ pieces, Divides pieces source.toList ∧
      (Item.scan source).filterMap Item.written? = pieces.filterMap Piece.written? ∧
      (∀ body line, Token.literal? ⟨.string, String.ofList ('"' :: (body ++ ['"'])), line⟩ =
        some (.string (String.ofList body))) ∧
      (∃ before line, Item.scan source = before ++ [.token (.endOfInput line)] ∧
        ∀ t, .token t ∈ before → t.kind ≠ .eof) ∧
      ∀ n, (Scanner.start source).nth n = (Item.scan source)[n]? :=
  ⟨divide source.toList, divides_divide source.toList,
    Item.written?_ofPieces (Item.substantial_divide source.toList) ⟨1, none, false⟩,
    Token.literal?_string, Item.scan_endOfInput source, Scanner.nth_start source⟩

end Lox
