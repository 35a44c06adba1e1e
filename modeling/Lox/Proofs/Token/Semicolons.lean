import Lox.Proofs.Token.Scanning

/-!
# Where semicolons are supplied

The pieces of a source fall into the written tokens and the gaps between them: blanks,
comments and what was rejected.  A gap gives its errors and nothing else.  Behind a
token that ends a statement a single semicolon is supplied, on the line of this token,
if there is a line break in the gap or if no further token comes.  Nowhere else is a
semicolon supplied: not in front of the first token, and not for the line breaks inside
of a string, which belong to the token and not to a gap.
-/

namespace Lox

open Piece

/-- A written token, and the gap between it and the next one. -/
structure Stretch where
  kind : TokenKind
  text : List Char
  gap : List Piece
  deriving DecidableEq

def Stretch.pieces (stretch : Stretch) : List Piece :=
  ⟨.token stretch.kind, stretch.text⟩ :: stretch.gap

/-- The stretch is followed by a line break, or by nothing at all. -/
def Stretch.EndsLine (stretch : Stretch) (behind : List Stretch) : Prop :=
  behind = [] ∨ '\n' ∈ stretch.gap.flatMap Piece.text

instance (stretch : Stretch) (behind : List Stretch) : Decidable (stretch.EndsLine behind) :=
  inferInstanceAs (Decidable (_ ∨ _))

namespace Piece

def isToken (piece : Piece) : Bool :=
  match piece.kind with
  | .token _ => true
  | _ => false

/-- The error that a piece is, if it is one, when it ends on this line. -/
def error? (piece : Piece) (line : Nat) : Option LexicalError :=
  match piece.kind with
  | .unexpected => some ⟨.unexpectedCharacter (piece.text.headD ' '), line⟩
  | .unterminated => some ⟨.unterminatedString, line⟩
  | _ => none

end Piece

namespace Item

/-- The errors of a gap that starts on this line. -/
def rejected (line : Nat) : List Piece → List Item
  | [] => []
  | piece :: rest =>
    ((piece.error? (line + piece.lineBreaks)).map Item.error).toList ++
      rejected (line + piece.lineBreaks) rest

/-- The items of stretches, the first of which starts on this line. -/
def ofStretches (line : Nat) : List Stretch → List Item
  | [] => [.token (.endOfInput line)]
  | stretch :: rest =>
    let token : Token := ⟨stretch.kind, String.ofList stretch.text, line + stretch.text.count '\n'⟩
    .token token :: rejected token.line stretch.gap ++
      (if stretch.kind.endsStatement ∧ stretch.EndsLine rest then
        [.token (.suppliedSemicolon token.line)] else []) ++
      ofStretches (token.line + (stretch.gap.flatMap Piece.text).count '\n') rest

end Item

/-! ### Tokens and gaps -/

/-- The gap in front of the first token, and the stretches from there on. -/
def stretches : List Piece → List Piece × List Stretch
  | [] => ([], [])
  | piece :: rest =>
    match piece.kind with
    | .token kind => ([], ⟨kind, piece.text, (stretches rest).1⟩ :: (stretches rest).2)
    | _ => (piece :: (stretches rest).1, (stretches rest).2)

theorem stretches_of_token {piece : Piece} {kind : TokenKind} (h : piece.kind = .token kind)
    (rest : List Piece) :
    stretches (piece :: rest) =
      ([], ⟨kind, piece.text, (stretches rest).1⟩ :: (stretches rest).2) := by
  rw [stretches, h]

theorem stretches_of_gap {piece : Piece} (h : piece.isToken = false) (rest : List Piece) :
    stretches (piece :: rest) = (piece :: (stretches rest).1, (stretches rest).2) := by
  unfold isToken at h
  cases hkind : piece.kind with
  | token kind =>
    rw [hkind] at h
    cases h
  | _ => rw [stretches, hkind]

/-- Tokens and gaps are all pieces, in their order. -/
theorem append_stretches (pieces : List Piece) :
    (stretches pieces).1 ++ (stretches pieces).2.flatMap Stretch.pieces = pieces := by
  induction pieces with
  | nil => rfl
  | cons piece rest ih =>
    cases hkind : piece.kind with
    | token kind =>
      have hpiece : (⟨.token kind, piece.text⟩ : Piece) = piece := by rw [← hkind]
      rw [stretches_of_token hkind, List.nil_append, List.flatMap_cons, Stretch.pieces, hpiece,
        List.cons_append, ih]
    | _ =>
      rw [stretches_of_gap (by rw [isToken, hkind]), List.cons_append, ih]

/-- No token is in a gap. -/
theorem not_isToken_stretches (pieces : List Piece) :
    ∀ piece ∈ (stretches pieces).1 ++ (stretches pieces).2.flatMap Stretch.gap,
      piece.isToken = false := by
  induction pieces with
  | nil => exact nofun
  | cons piece rest ih =>
    cases hkind : piece.kind with
    | token kind =>
      rw [stretches_of_token hkind, List.nil_append, List.flatMap_cons]
      exact ih
    | _ =>
      have hgap : piece.isToken = false := by rw [isToken, hkind]
      rw [stretches_of_gap hgap, List.cons_append]
      exact List.forall_mem_cons.mpr ⟨hgap, ih⟩

/-! ### Line breaks in gaps -/

namespace Piece

/-- In a gap, line breaks are in blanks, or behind a quote that nothing closes. -/
theorem Fits.newline_notMem {piece : Piece} {behind : List Char} (h : Fits piece behind)
    (hgap : piece.isToken = false) (hblank : piece.kind ≠ .blank)
    (hended : piece.kind ≠ .unterminated) : '\n' ∉ piece.text := by
  cases h with
  | longest hreads hlongest =>
    obtain ⟨kind, text⟩ := piece
    cases hreads with
    | blank => exact absurd rfl hblank
    | comment hbody =>
      intro hmem
      rcases List.mem_cons.mp hmem with h | hmem
      · cases h
      rcases List.mem_cons.mp hmem with h | hmem
      · cases h
      exact hbody hmem
    | _ => cases hgap
  | @unexpected c _ hnothing =>
    intro hmem
    cases List.mem_singleton.mp hmem
    exact hnothing .blank [] (.blank (by simp))
  | unterminated => exact absurd rfl hended

/-- Nothing is behind a quote that nothing closes. -/
theorem Fits.behind_eq_nil {piece : Piece} {behind : List Char} (h : Fits piece behind)
    (hopen : piece.kind = .unterminated) : behind = [] := by
  cases h with
  | longest hreads hlongest =>
    rw [hopen] at hreads
    cases hreads
  | unexpected => cases hopen
  | unterminated => rfl

theorem Divides.eq_nil {pieces : List Piece} (h : Divides pieces []) : pieces = [] := by
  generalize htext : ([] : List Char) = text at h
  cases h with
  | nil => rfl
  | cons hsome _ _ => exact absurd (List.append_eq_nil_iff.mp htext.symm).1 hsome

end Piece

/-! ### The items of gaps and tokens -/

namespace Item

/-- The semicolon that comes behind a gap. -/
def Progress.owed (progress : Progress) (gap : List Piece) (behind : List Stretch) : List Item :=
  if progress.crossed ∨ behind = [] ∨ '\n' ∈ gap.flatMap Piece.text then progress.semicolon else []

theorem emit_gap (progress : Progress) {piece : Piece} (hgap : piece.isToken = false) :
    progress.emit piece =
      ((piece.error? (progress.line + piece.lineBreaks)).map Item.error).toList := by
  unfold isToken at hgap
  unfold Progress.emit Piece.error?
  cases hkind : piece.kind with
  | token kind =>
    rw [hkind] at hgap
    cases hgap
  | _ => rfl

/-- What is owed behind a gap is owed from its first piece on. -/
theorem owed_advance (progress : Progress) {piece : Piece} {gap : List Piece}
    {behind : List Stretch} {text : List Char} (hfits : Fits piece text)
    (hgap : piece.isToken = false) (hlast : text = [] → behind = []) :
    (progress.advance piece).owed gap behind = progress.owed (piece :: gap) behind := by
  -- The semicolon that is owed belongs to the last token, which the piece is not.
  have hsemicolon : (progress.advance piece).semicolon = progress.semicolon := by
    unfold isToken at hgap
    unfold Progress.advance Progress.semicolon
    cases hkind : piece.kind with
    | token kind =>
      rw [hkind] at hgap
      cases hgap
    | _ => rfl
  -- Breaks in the piece count as crossed from here on or as part of the gap.
  have hcrossed : ((progress.advance piece).crossed ∨ behind = [] ∨
      '\n' ∈ gap.flatMap Piece.text) ↔
      (progress.crossed ∨ behind = [] ∨ '\n' ∈ (piece :: gap).flatMap Piece.text) := by
    rw [List.flatMap_cons, List.mem_append]
    cases hkind : piece.kind with
    | blank =>
      simp only [Progress.advance, hkind, Bool.or_eq_true, decide_eq_true_eq, Piece.lineBreaks,
        List.count_pos_iff]
      grind
    -- Behind a string that never ends there is nothing.
    | unterminated =>
      have hbehind := hlast (hfits.behind_eq_nil hkind)
      simp [hbehind]
    | token kind =>
      rw [isToken, hkind] at hgap
      cases hgap
    -- No other piece has a line break.
    | _ =>
      have hnone := hfits.newline_notMem hgap (by simp [hkind]) (by simp [hkind])
      simp [Progress.advance, hkind, hnone]
  unfold Progress.owed
  rw [hsemicolon]
  simp only [hcrossed]

/-- What the scan gives from a point of the source on: the gap there, and the stretches behind it. -/
theorem ofPieces_eq {pieces : List Piece} {text : List Char} (h : Divides pieces text)
    (progress : Progress) :
    ofPieces progress pieces =
      rejected progress.line (stretches pieces).1 ++
        progress.owed (stretches pieces).1 (stretches pieces).2 ++
        ofStretches (progress.line + ((stretches pieces).1.flatMap Piece.text).count '\n')
          (stretches pieces).2 := by
  induction h generalizing progress with
  | nil => simp [ofPieces, stretches, rejected, Progress.owed, ofStretches]
  | @cons piece pieces behind hsome hfits hdivides ih =>
    cases hkind : piece.kind with
    -- A token closes the stretch before it and opens the next one.
    | token kind =>
      have hadvance : progress.advance piece =
          ⟨progress.line + piece.lineBreaks,
            some ⟨kind, String.ofList piece.text, progress.line + piece.lineBreaks⟩, false⟩ := by
        rw [Progress.advance, hkind]
      have hemit : progress.emit piece = progress.semicolonIfCrossed ++
          [.token ⟨kind, String.ofList piece.text, progress.line + piece.lineBreaks⟩] := by
        rw [Progress.emit, hkind]
      -- What was owed before the token is settled in front of it.
      have howed : progress.owed [] (⟨kind, piece.text, (stretches pieces).1⟩ ::
          (stretches pieces).2) = progress.semicolonIfCrossed := by
        simp [Progress.owed, Progress.semicolonIfCrossed]
      -- What is owed behind it depends on the kind of the token and on the gap.
      have hbehind : (progress.advance piece).owed (stretches pieces).1 (stretches pieces).2 =
          if kind.endsStatement ∧
              Stretch.EndsLine ⟨kind, piece.text, (stretches pieces).1⟩ (stretches pieces).2 then
            [.token (.suppliedSemicolon (progress.line + piece.lineBreaks))] else [] := by
        rw [hadvance]
        cases hends : kind.endsStatement <;>
          simp [Progress.owed, Progress.semicolon, Stretch.EndsLine, hends]
      rw [ofPieces, ih, hbehind, hadvance, hemit, stretches_of_token hkind, howed]
      simp [ofStretches, rejected, Piece.lineBreaks]
    -- Other pieces belong to the gap, and take the progress along.
    | _ =>
      have hgap : piece.isToken = false := by rw [isToken, hkind]
      have hlast : behind = [] → (stretches pieces).2 = [] := by
        rintro rfl
        rw [hdivides.eq_nil, stretches]
      rw [ofPieces, ih, emit_gap progress hgap, owed_advance progress hfits hgap hlast,
        line_advance, stretches_of_gap hgap, rejected, List.flatMap_cons, List.count_append]
      simp [Piece.lineBreaks, Nat.add_assoc]

/--
Semicolons are supplied where the layout rule says, and nowhere else.  The source is its
written tokens and the gaps between them.  Its items are these tokens, each followed by
the errors of the gap behind it, and then by one semicolon on the line of the token if
the token ends a statement and the gap has a line break or is the last one.  In front of
the first token there are only errors.  A scanner gives just these items, one by one.
-/
theorem scan_stretches (source : String) :
    ∃ front stretches, Divides (front ++ stretches.flatMap Stretch.pieces) source.toList ∧
      (∀ piece ∈ front ++ stretches.flatMap Stretch.gap, piece.isToken = false) ∧
      (∀ stretch ∈ stretches, stretch.text ≠ [] ∧ stretch.kind ≠ .eof) ∧
      scan source = rejected 1 front ++
        ofStretches (1 + (front.flatMap Piece.text).count '\n') stretches ∧
      ∀ n, (Scanner.start source).nth n = (scan source)[n]? := by
  have hdivides := divides_divide source.toList
  have hpieces := append_stretches (divide source.toList)
  refine ⟨(stretches (divide source.toList)).1, (stretches (divide source.toList)).2,
    hpieces.symm ▸ hdivides, not_isToken_stretches _, ?_, ?_, Scanner.nth_start source⟩
  · intro stretch hstretch
    have hmem : (⟨.token stretch.kind, stretch.text⟩ : Piece) ∈ divide source.toList := by
      rw [← hpieces]
      exact List.mem_append_right _ (List.mem_flatMap.mpr ⟨stretch, hstretch, List.mem_cons_self⟩)
    obtain ⟨htext, hkind⟩ := substantial_divide source.toList _ hmem
    exact ⟨htext, fun heof => hkind (congrArg PieceKind.token heof)⟩
  · have hnone : Progress.owed ⟨1, none, false⟩ (stretches (divide source.toList)).1
        (stretches (divide source.toList)).2 = [] := by
      simp [Progress.owed, Progress.semicolon]
    rw [scan, ofPieces_eq hdivides, hnone, List.append_nil]

end Item

end Lox
