import Lox.Proofs.Token.Spelling
import Lox.Sink

/-!
# Tokens line by line

A scan goes on behind a line break as it would at the start of a source, except that it
owes a semicolon to the token before the break.  At the end of input it would have
supplied the same one.  So the tokens of a text of two parts are those of the parts, and
what stands in front of a source only moves the lines of its tokens.
-/

namespace Lox

def Token.down (lines : Nat) (t : Token) : Token := { t with line := t.line + lines }

/-- The piece is a token, or it separates tokens. -/
def Piece.Lawful (piece : Piece) : Prop :=
  piece.kind ≠ .unexpected ∧ piece.kind ≠ .unterminated

namespace Item

open Piece

/-! ### What is remembered -/

def Progress.advanceEach (progress : Progress) (pieces : List Piece) : Progress :=
  pieces.foldl Progress.advance progress

/-- The items of pieces that are not at the end of input. -/
def emitEach (progress : Progress) : List Piece → List Item
  | [] => []
  | piece :: rest => progress.emit piece ++ emitEach (progress.advance piece) rest

/-- The items of pieces, and then those of what is behind them. -/
theorem ofPieces_append (progress : Progress) (pieces behind : List Piece) :
    ofPieces progress (pieces ++ behind) =
      emitEach progress pieces ++ ofPieces (progress.advanceEach pieces) behind := by
  induction pieces generalizing progress with
  | nil => rfl
  | cons piece pieces ih =>
    rw [List.cons_append, ofPieces, ih, emitEach, List.append_assoc]
    rfl

theorem line_advance (progress : Progress) (piece : Piece) :
    (progress.advance piece).line = progress.line + piece.lineBreaks := by
  unfold Progress.advance
  cases piece.kind <;> rfl

/-- Every line break in the text of pieces is counted. -/
theorem line_advanceEach (progress : Progress) (pieces : List Piece) :
    (progress.advanceEach pieces).line =
      progress.line + (pieces.flatMap Piece.text).count '\n' := by
  induction pieces generalizing progress with
  | nil => rfl
  | cons piece pieces ih =>
    rw [Progress.advanceEach, List.foldl_cons, ← Progress.advanceEach, ih, line_advance,
      List.flatMap_cons, List.count_append, Nat.add_assoc]
    rfl

/-! ### Errors -/

theorem errors_append (first second : List Item) :
    errors (first ++ second) = errors first ++ errors second :=
  List.filterMap_append

theorem errors_semicolon (progress : Progress) : errors progress.semicolon = [] := by
  unfold Progress.semicolon
  split
  · split <;> rfl
  · rfl

theorem errors_emit_eq_nil_iff (progress : Progress) (piece : Piece) :
    errors (progress.emit piece) = [] ↔ piece.Lawful := by
  unfold Progress.emit Piece.Lawful
  cases hkind : piece.kind with
  | blank => simp [errors]
  | comment => simp [errors]
  | unexpected => simp [errors, error?]
  | unterminated => simp [errors, error?]
  | token kind =>
    have hsemicolon : errors progress.semicolonIfCrossed = [] := by
      unfold Progress.semicolonIfCrossed
      split
      · exact errors_semicolon progress
      · rfl
    have herrors : errors (progress.semicolonIfCrossed ++
        [.token ⟨kind, String.ofList piece.text, progress.line + piece.lineBreaks⟩]) = [] := by
      rw [errors_append, hsemicolon]
      rfl
    simp [herrors]

/-- There are errors just where pieces are no tokens, whatever is remembered. -/
theorem errors_ofPieces_eq_nil_iff (progress : Progress) (pieces : List Piece) :
    errors (ofPieces progress pieces) = [] ↔ ∀ piece ∈ pieces, piece.Lawful := by
  induction pieces generalizing progress with
  | nil =>
    rw [ofPieces, errors_append, errors_semicolon]
    simp [errors, error?]
  | cons piece pieces ih =>
    rw [ofPieces, errors_append, List.append_eq_nil_iff, errors_emit_eq_nil_iff, ih,
      List.forall_mem_cons]

/-! ### Semicolons that are owed -/

/-- Where no token was seen, nothing depends on whether a line break was. -/
theorem ofPieces_of_no_last (line : Nat) (crossed crossed' : Bool) (pieces : List Piece) :
    ofPieces ⟨line, none, crossed⟩ pieces = ofPieces ⟨line, none, crossed'⟩ pieces := by
  induction pieces generalizing line crossed crossed' with
  | nil => rfl
  | cons piece pieces ih =>
    have hemit : Progress.emit ⟨line, none, crossed⟩ piece =
        Progress.emit ⟨line, none, crossed'⟩ piece := by
      unfold Progress.emit Progress.semicolonIfCrossed Progress.semicolon
      simp
    have hadvance : ofPieces (Progress.advance ⟨line, none, crossed⟩ piece) pieces =
        ofPieces (Progress.advance ⟨line, none, crossed'⟩ piece) pieces := by
      unfold Progress.advance
      cases piece.kind with
      | token kind => rfl
      | _ => exact ih _ _ _
    rw [ofPieces, ofPieces, hemit, hadvance]

/-- Behind a line break, the semicolon that is owed comes before the next token. -/
theorem tokens_of_crossed (line : Nat) (last? : Option Token) (pieces : List Piece) :
    tokens (ofPieces ⟨line, last?, true⟩ pieces) =
      tokens (Progress.semicolon ⟨line, last?, true⟩) ++
        tokens (ofPieces ⟨line, none, false⟩ pieces) := by
  induction pieces generalizing line with
  | nil =>
    rw [ofPieces, ofPieces, tokens_append]
    rfl
  | cons piece pieces ih =>
    have hsemicolon : ∀ n, Progress.semicolon ⟨n, last?, true⟩ =
        Progress.semicolon ⟨line, last?, true⟩ := fun _ => rfl
    cases hkind : piece.kind with
    | token kind =>
      simp only [ofPieces, Progress.emit, Progress.advance, hkind, tokens_append,
        Progress.semicolonIfCrossed, if_true, List.append_assoc]
      rfl
    | blank =>
      simp only [ofPieces, Progress.emit, Progress.advance, hkind, Bool.true_or, List.nil_append]
      rw [ih, hsemicolon]
      exact congrArg (_ ++ tokens ·) (ofPieces_of_no_last _ _ _ _)
    | comment =>
      simp only [ofPieces, Progress.emit, Progress.advance, hkind, List.nil_append]
      rw [ih, hsemicolon]
    | unexpected =>
      simp only [ofPieces, Progress.emit, Progress.advance, hkind, List.cons_append,
        List.nil_append, tokens_cons_error]
      rw [ih, hsemicolon]
    | unterminated =>
      simp only [ofPieces, Progress.emit, Progress.advance, hkind, List.cons_append,
        List.nil_append, tokens_cons_error]
      rw [ih, hsemicolon]

/-! ### Lines in front -/

def Progress.down (lines : Nat) (progress : Progress) : Progress :=
  ⟨progress.line + lines, progress.last?.map (Token.down lines), progress.crossed⟩

theorem tokens_semicolon_down (lines : Nat) (progress : Progress) :
    tokens (progress.down lines).semicolon = (tokens progress.semicolon).map (Token.down lines) := by
  unfold Progress.semicolon Progress.down
  cases progress.last? with
  | none => rfl
  | some last =>
    simp only [Option.map_some, Token.down]
    split <;> rfl

theorem tokens_emit_down (lines : Nat) (progress : Progress) (piece : Piece) :
    tokens ((progress.down lines).emit piece) =
      (tokens (progress.emit piece)).map (Token.down lines) := by
  have hline : (progress.down lines).line = progress.line + lines := rfl
  have hcrossed : (progress.down lines).crossed = progress.crossed := rfl
  unfold Progress.emit
  cases hkind : piece.kind with
  | token kind =>
    simp only [tokens_append, List.map_append, Progress.semicolonIfCrossed, hcrossed]
    split
    · simp only [tokens_semicolon_down, hline, tokens_cons_token, tokens_nil, List.map_cons,
        List.map_nil, Token.down, Nat.add_right_comm]
    · simp only [hline, tokens_cons_token, tokens_nil, List.map_cons, List.map_nil, Token.down,
        Nat.add_right_comm]
  | _ => rfl

theorem advance_down (lines : Nat) (progress : Progress) (piece : Piece) :
    (progress.down lines).advance piece = (progress.advance piece).down lines := by
  unfold Progress.advance Progress.down
  cases piece.kind <;> simp [Token.down, Nat.add_right_comm]

/-- Further down, the tokens are the same except for their lines. -/
theorem tokens_ofPieces_down (lines : Nat) (progress : Progress) (pieces : List Piece) :
    tokens (ofPieces (progress.down lines) pieces) =
      (tokens (ofPieces progress pieces)).map (Token.down lines) := by
  induction pieces generalizing progress with
  | nil =>
    rw [ofPieces, ofPieces, tokens_append, tokens_append, tokens_semicolon_down, List.map_append]
    rfl
  | cons piece pieces ih =>
    rw [ofPieces, ofPieces, tokens_append, tokens_append, tokens_emit_down, advance_down, ih,
      List.map_append]

/-! ### Texts of several lines -/

def blankLines (lines : Nat) : String := String.ofList (List.replicate lines '\n')

def newlinePiece : Piece := ⟨.blank, ['\n']⟩

theorem divide_blankLines (lines : Nat) (source : List Char) :
    divide (List.replicate lines '\n' ++ source) =
      List.replicate lines newlinePiece ++ divide source := by
  induction lines with
  | zero => rfl
  | succ lines ih =>
    rw [List.replicate_succ, List.cons_append, divide_cons, List.replicate_succ, List.cons_append,
      ← ih]
    rfl

theorem emitEach_blankLines (progress : Progress) (lines : Nat) :
    emitEach progress (List.replicate lines newlinePiece) = [] := by
  induction lines generalizing progress with
  | zero => rfl
  | succ lines ih =>
    rw [List.replicate_succ, emitEach, ih]
    rfl

theorem advanceEach_blankLines (line lines : Nat) (crossed : Bool) :
    ∃ crossed', Progress.advanceEach ⟨line, none, crossed⟩ (List.replicate lines newlinePiece) =
      ⟨line + lines, none, crossed'⟩ := by
  induction lines generalizing line crossed with
  | zero => exact ⟨crossed, rfl⟩
  | succ lines ih =>
    obtain ⟨crossed', hih⟩ := ih (line + 1) true
    refine ⟨crossed', ?_⟩
    have hadvance : Progress.advance ⟨line, none, crossed⟩ newlinePiece =
        ⟨line + 1, none, true⟩ := by
      cases crossed <;> rfl
    rw [List.replicate_succ, Progress.advanceEach, List.foldl_cons, hadvance,
      ← Progress.advanceEach, hih, Nat.add_right_comm, Nat.add_assoc]

/-- The items of a source that starts on a later line. -/
theorem scan_blankLines (lines : Nat) (source : String) :
    scan (blankLines lines ++ source) =
      ofPieces ⟨1 + lines, none, false⟩ (divide source.toList) := by
  obtain ⟨crossed', hadvance⟩ := advanceEach_blankLines 1 lines false
  rw [scan, blankLines, String.toList_append, String.toList_ofList, divide_blankLines,
    ofPieces_append, emitEach_blankLines, hadvance, List.nil_append]
  exact ofPieces_of_no_last _ _ _ _

/-- Blank lines in front of a source only move its tokens. -/
theorem tokens_scan_blankLines (lines : Nat) (source : String) :
    tokens (scan (blankLines lines ++ source)) = (tokens (scan source)).map (Token.down lines) := by
  rw [scan_blankLines, scan, ← tokens_ofPieces_down]
  rfl

theorem errors_scan_blankLines (lines : Nat) (source : String) :
    errors (scan (blankLines lines ++ source)) = [] ↔ errors (scan source) = [] := by
  rw [scan_blankLines, scan, errors_ofPieces_eq_nil_iff, errors_ofPieces_eq_nil_iff]

/-- Two sources with a line break between them. -/
def lineByLine (first second : String) : String := first ++ "\n" ++ second

section

variable {first : String} (hfirst : errors (scan first) = []) (second : String)

include hfirst

theorem divide_lineByLine :
    divide (lineByLine first second).toList =
      divide first.toList ++ newlinePiece :: divide second.toList := by
  have hlawful := (errors_ofPieces_eq_nil_iff _ _).mp hfirst
  have htext : (lineByLine first second).toList =
      first.toList ++ '\n' :: second.toList := by
    simp [lineByLine, String.toList_append]
  rw [htext]
  exact divide_append_newline (fun piece hpiece => (hlawful piece hpiece).2) _

/-- Where neither of two sources has errors, there are none in both together. -/
theorem errors_scan_lineByLine (hsecond : errors (scan second) = []) :
    errors (scan (lineByLine first second)) = [] := by
  have hlawful := (errors_ofPieces_eq_nil_iff _ _).mp hfirst
  have hlawful' := (errors_ofPieces_eq_nil_iff _ _).mp hsecond
  rw [scan, divide_lineByLine hfirst, errors_ofPieces_eq_nil_iff]
  intro piece hpiece
  rcases List.mem_append.mp hpiece with hpiece | hpiece
  · exact hlawful piece hpiece
  rcases List.mem_cons.mp hpiece with rfl | hpiece
  · exact ⟨nofun, nofun⟩
  · exact hlawful' piece hpiece

/-- The tokens of two sources are those of the first one, without its end, and of the second. -/
theorem tokens_scan_lineByLine :
    ∃ body line, tokens (scan first) = body ++ [.endOfInput line] ∧
      tokens (scan (lineByLine first second)) =
        body ++ tokens (scan (blankLines (Lox.lineBreaks first + 1) ++ second)) := by
  have hline : ((⟨1, none, false⟩ : Progress).advanceEach (divide first.toList)).line =
      1 + Lox.lineBreaks first := by
    rw [line_advanceEach, flatMap_text_divide]
    rfl
  have hscan := ofPieces_append ⟨1, none, false⟩ (divide first.toList) []
  rw [List.append_nil] at hscan
  have hboth := ofPieces_append ⟨1, none, false⟩ (divide first.toList)
    (newlinePiece :: divide second.toList)
  rw [← divide_lineByLine hfirst second] at hboth
  generalize (⟨1, none, false⟩ : Progress).advanceEach (divide first.toList) = progress
    at hline hscan hboth
  generalize emitEach ⟨1, none, false⟩ (divide first.toList) = items at hscan hboth
  refine ⟨tokens items ++ tokens progress.semicolon, progress.line, ?_, ?_⟩
  · rw [scan, hscan, ofPieces, tokens_append, tokens_append, List.append_assoc]
    rfl
  · have hadvance : progress.advance newlinePiece = ⟨progress.line + 1, progress.last?, true⟩ := by
      obtain ⟨line, last?, crossed⟩ := progress
      cases crossed <;> rfl
    rw [scan, hboth, tokens_append, ofPieces, hadvance, tokens_append, tokens_of_crossed,
      scan_blankLines, hline, List.append_assoc, Nat.add_assoc]
    rfl

end

end Item

end Lox
