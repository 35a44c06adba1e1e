import Mathlib.Data.List.Forall2
import Lox.Proofs.Token.Lines
import Lox.Proofs.Token.Longest

/-!
# Sources with another identifier

Where an identifier stands, any other one can stand: it ends where the first one did, and
what is behind it is divided as before.  So a source can be spelled anew from its tokens,
if the only thing that changes is that an identifier is replaced, here and there, by another
one.
-/

namespace Lox

open Piece

/-- The same piece, or another identifier in its place. -/
inductive Piece.Respelled (x y : String) : Piece → Piece → Prop where
  | same (piece : Piece) : Respelled x y piece piece
  | anew : Respelled x y ⟨.token .identifier, x.toList⟩ ⟨.token .identifier, y.toList⟩

/-- The sources have the same pieces, except that the second has `y` in some places of `x`. -/
def Item.Respelled (x y source source' : String) : Prop :=
  List.Forall₂ (Piece.Respelled x y) (divide source.toList) (divide source'.toList)

def Token.Respelled (x y : String) (t t' : Token) : Prop :=
  t' = t ∨ t.kind = .identifier ∧ t.lexeme = x ∧ t' = { t with lexeme := y }

/-! ### Identifiers -/

/-- The text is a word, which starts as no mark and no numeral does. -/
def Piece.IsWord (text : List Char) : Prop :=
  ∃ c more, text = c :: more ∧ startsWord c = true ∧ ∀ d ∈ more, continuesWord d = true

namespace Piece

theorem Reads.isWord {text : List Char} (h : Reads (.token .identifier) text) : IsWord text := by
  cases h with
  | mark hmark => simp [marks] at hmark
  | keyword hkeyword => simp [TokenKind.keywords] at hkeyword
  | identifier hc hmore _ => exact ⟨_, _, rfl, hc, hmore⟩

theorem Reads.ofWord_eq {text : List Char} (h : Reads (.token .identifier) text) :
    TokenKind.ofWord text = .identifier := by
  cases h with
  | mark hmark => simp [marks] at hmark
  | keyword hkeyword => simp [TokenKind.keywords] at hkeyword
  | identifier hc hmore hnew =>
    have hreads := Reads.of_ofWord hc hmore
    unfold TokenKind.ofWord
    cases hlookup : TokenKind.keywords.lookup (String.ofList (_ :: _)) with
    | none => rfl
    | some kind =>
      obtain ⟨before, after, hsplit, -⟩ := List.lookup_eq_some_iff.mp hlookup
      refine absurd ?_ (hnew kind)
      rw [hsplit]
      exact List.mem_append_right before List.mem_cons_self

theorem not_newline_of_continuesWord {c : Char} (hc : continuesWord c = true) : c ≠ '\n' := by
  rintro rfl
  cases hc

theorem IsWord.count_newline {text : List Char} (h : IsWord text) : text.count '\n' = 0 := by
  obtain ⟨c, more, rfl, hc, hmore⟩ := h
  rw [List.count_eq_zero]
  intro hmem
  rcases List.mem_cons.mp hmem with rfl | hmem
  · cases hc
  · exact not_newline_of_continuesWord (hmore _ hmem) rfl

/-- Words are alike for what stands in front of them. -/
theorem IsWord.sameFront {text text' : List Char} (h : IsWord text) (h' : IsWord text')
    (behind behind' : List Char) : SameFront (text ++ behind) (text' ++ behind') := by
  have hanswers : ∀ {text : List Char} (behind : List Char), IsWord text →
      StartsWith? Char.isDigit (text ++ behind) = false ∧
      StartsWith? continuesWord (text ++ behind) = true ∧
      StartsWith? (· = '/') (text ++ behind) = false ∧
      StartsWith? (· = '=') (text ++ behind) = false ∧
      StartsWith? (· ≠ '\n') (text ++ behind) = true ∧ fractionLength (text ++ behind) = 0 := by
    rintro _ behind ⟨c, more, rfl, hc, -⟩
    have hne : ∀ mark, startsWord mark = false → c ≠ mark := by
      rintro mark hmark rfl
      rw [hc] at hmark
      cases hmark
    have hpoint := hne '.' rfl
    refine ⟨not_isDigit_of_startsWord hc, continuesWord_of_startsWord hc,
      decide_eq_false (hne '/' rfl), decide_eq_false (hne '=' rfl), decide_eq_true (hne '\n' rfl), ?_⟩
    simp [fractionLength, hpoint]
  obtain ⟨hdigit, hword, hslash, hequal, hline, hfraction⟩ := hanswers behind h
  obtain ⟨hdigit', hword', hslash', hequal', hline', hfraction'⟩ := hanswers behind' h'
  refine ⟨hdigit'.trans hdigit.symm, hword'.trans hword.symm, hslash'.trans hslash.symm,
    hequal'.trans hequal.symm, hline'.trans hline.symm, ?_⟩
  rw [hfraction, hfraction']

/-! ### Division -/

theorem SameFront.refl (text : List Char) : SameFront text text :=
  ⟨rfl, rfl, rfl, rfl, rfl, Iff.rfl⟩

/-- Behind a character that is the same, only a fraction depends on what follows. -/
theorem SameFront.cons {text text' : List Char} (c : Char)
    (h : c = '.' → StartsWith? Char.isDigit text' = StartsWith? Char.isDigit text) :
    SameFront (c :: text) (c :: text') := by
  have hfraction : ∀ text, fractionLength ('.' :: text) = 0 ↔
      StartsWith? Char.isDigit text = false := by
    intro text
    cases text with
    | nil => exact ⟨fun _ => rfl, fun _ => rfl⟩
    | cons d rest =>
      by_cases hd : d.isDigit = true
      · simp [fractionLength, StartsWith?, hd]
      · simp [fractionLength, StartsWith?, hd]
  refine ⟨rfl, rfl, rfl, rfl, rfl, ?_⟩
  by_cases hpoint : c = '.'
  · subst hpoint
    rw [hfraction, hfraction, h rfl]
  · simp [fractionLength, hpoint]

theorem reach_point (rest : List Char) : reach '.' rest = (.token .dot, 0) := rfl

variable {x y : String}

/-- A piece that is an identifier has a word as its text, and ends with the word. -/
theorem isWord_of_first {c : Char} {rest : List Char}
    (h : (first c rest).kind = .token .identifier) :
    IsWord (first c rest).text ∧ StartsWith? continuesWord (remainder c rest) = false := by
  have hreach : reach c rest = (.token .identifier, (reach c rest).2) := Prod.ext h rfl
  rcases reach_token hreach with hmark | ⟨hc, -, hcount⟩
  · exact absurd rfl hmark.1
  · rw [first, hcount, take_length_takeWhile, remainder, hcount, drop_length_takeWhile]
    exact ⟨⟨c, _, rfl, hc, mem_takeWhile⟩, startsWith?_dropWhile _ _⟩

/-- The pieces spelled anew look to what is in front of them as the pieces of the source do. -/
theorem sameFront_respelled (hy : Reads (.token .identifier) y.toList) (text : List Char) :
    ∀ pieces', List.Forall₂ (Respelled x y) (divide text) pieces' →
      SameFront text (pieces'.flatMap Piece.text) := by
  fun_induction divide text with
  | case1 =>
    intro pieces' h
    cases h
    exact .refl []
  | case2 c rest ih =>
    intro pieces' h
    generalize hfirst : first c rest = piece at h
    cases h with
    | @cons _ piece' _ pieces' hpiece hrest =>
      cases hpiece with
      | same =>
        rw [List.flatMap_cons, ← hfirst]
        apply SameFront.cons
        rintro rfl
        have hbehind := ih pieces' hrest
        rw [remainder, reach_point, List.drop_zero] at hbehind
        rw [reach_point, List.take_zero]
        exact hbehind.digit
      | anew =>
        have hword := (isWord_of_first (congrArg Piece.kind hfirst)).1
        rw [← text_first_append c rest, List.flatMap_cons]
        exact hword.sameFront hy.isWord _ _

theorem first_append {c : Char} {rest other : List Char} (hclosed : (reach c rest).1 ≠ .unterminated)
    (hfront : SameFront (remainder c rest) other) :
    first c (rest.take (reach c rest).2 ++ other) = first c rest ∧
      remainder c (rest.take (reach c rest).2 ++ other) = other := by
  have hreach := reach_congr hclosed hfront
  have hlength := List.length_take_of_le (reach_le c rest)
  constructor
  · rw [first, hreach, List.take_left' hlength, first]
  · rw [remainder, hreach, List.drop_left' hlength]

theorem first_word {text : List Char} (h : Reads (.token .identifier) text) {other : List Char}
    (hother : StartsWith? continuesWord other = false) :
    divide (text ++ other) = ⟨.token .identifier, text⟩ :: divide other := by
  obtain ⟨c, more, rfl, hc, hmore⟩ := h.isWord
  have hrun := takeWhile_run hmore hother
  rw [List.cons_append, divide_cons, first, remainder, reach_word hc, hrun, List.take_left,
    List.drop_left, h.ofWord_eq]

/-- Pieces that are spelled anew are the pieces of what they read together. -/
theorem divide_respelled (hy : Reads (.token .identifier) y.toList) (text : List Char) :
    ∀ pieces', (∀ piece ∈ divide text, piece.Lawful) →
      List.Forall₂ (Respelled x y) (divide text) pieces' →
      divide (pieces'.flatMap Piece.text) = pieces' := by
  fun_induction divide text with
  | case1 =>
    intro pieces' _ h
    cases h
    rw [List.flatMap_nil, divide]
  | case2 c rest ih =>
    intro pieces' hlawful h
    obtain ⟨⟨-, hclosed⟩, hlawful⟩ := List.forall_mem_cons.mp hlawful
    generalize hfirst : first c rest = piece at h
    cases h with
    | @cons _ piece' _ pieces' hpiece hrest =>
      have hbehind := ih pieces' hlawful hrest
      have hfront := sameFront_respelled hy _ pieces' hrest
      cases hpiece with
      | same =>
        obtain ⟨hsame, hother⟩ := first_append hclosed hfront
        rw [List.flatMap_cons, ← hfirst]
        change divide (c :: (rest.take _ ++ _)) = _
        rw [divide_cons, hsame, hother, hbehind]
      | anew =>
        have hstop := hfront.word.trans (isWord_of_first (congrArg Piece.kind hfirst)).2
        rw [List.flatMap_cons]
        exact (first_word hy hstop).trans (congrArg _ hbehind)

end Piece

/-! ### Tokens -/

/-- Tokens that are no identifiers are not spelled anew. -/
theorem Token.Respelled.eq_of_marks {x y : String} {w w' : List Token}
    (h : List.Forall₂ (Token.Respelled x y) w w') (hw : ∀ t ∈ w, t.kind ≠ .identifier) :
    w' = w := by
  induction h with
  | nil => rfl
  | @cons t t' w w' ht _ ih =>
    obtain ⟨hkind, hrest⟩ := List.forall_mem_cons.mp hw
    rcases ht with rfl | ⟨hidentifier, -⟩
    · rw [ih hrest]
    · exact absurd hidentifier hkind

namespace Item

variable {x y : String}

theorem exists_append_of_forall₂ {R : Token → Token → Prop} {first second w' : List Token}
    (h : List.Forall₂ R (first ++ second) w') :
    ∃ first' second', w' = first' ++ second' ∧ List.Forall₂ R first first' ∧
      List.Forall₂ R second second' := by
  induction first generalizing w' with
  | nil => exact ⟨[], w', rfl, .nil, h⟩
  | cons t first ih =>
    cases h with
    | cons ht hrest =>
      obtain ⟨first', second', rfl, hfirst, hsecond⟩ := ih hrest
      exact ⟨_, second', rfl, .cons ht hfirst, hsecond⟩

/-- What is remembered behind pieces, one of which is spelled anew. -/
structure Progress.Like (progress progress' : Progress) : Prop where
  line : progress'.line = progress.line
  last? : Option.Rel (fun t t' => t'.kind = t.kind ∧ t'.line = t.line) progress.last? progress'.last?
  crossed : progress'.crossed = progress.crossed

theorem Progress.Like.semicolon {progress progress' : Progress} (h : progress.Like progress') :
    progress'.semicolon = progress.semicolon := by
  have hlast := h.last?
  unfold Progress.semicolon
  generalize progress.last? = last at hlast
  generalize progress'.last? = last' at hlast
  cases hlast with
  | none => rfl
  | some hlast => simp only [hlast.1, hlast.2]

theorem Progress.Like.semicolonIfCrossed {progress progress' : Progress}
    (h : progress.Like progress') : progress'.semicolonIfCrossed = progress.semicolonIfCrossed := by
  unfold Progress.semicolonIfCrossed
  rw [h.crossed, h.semicolon]

/-- Supplied tokens are no identifiers. -/
theorem kind_of_mem_semicolon {progress : Progress} :
    ∀ t ∈ tokens progress.semicolon, t.kind ≠ .identifier := by
  intro t ht
  unfold Progress.semicolon at ht
  split at ht
  · split at ht
    · rw [tokens_cons_token, tokens_nil, List.mem_singleton] at ht
      subst ht
      simp [Token.suppliedSemicolon]
    · cases ht
  · cases ht

theorem kind_of_mem_semicolonIfCrossed {progress : Progress} :
    ∀ t ∈ tokens progress.semicolonIfCrossed, t.kind ≠ .identifier := by
  unfold Progress.semicolonIfCrossed
  split
  · exact kind_of_mem_semicolon
  · exact List.forall_mem_nil _

/-- Only words are identifiers. -/
def ProperPiece (piece : Piece) : Prop :=
  piece.Lawful ∧ (piece.kind = .token .identifier → IsWord piece.text)

theorem Progress.Like.advance {progress progress' : Progress} (h : progress.Like progress')
    (piece : Piece) : (progress.advance piece).Like (progress'.advance piece) := by
  have hline : progress'.line + piece.lineBreaks = progress.line + piece.lineBreaks := by rw [h.line]
  unfold Progress.advance
  cases piece.kind with
  | blank => exact ⟨hline, h.last?, congrArg (· || _) h.crossed⟩
  | token kind => exact ⟨hline, .some ⟨rfl, hline⟩, rfl⟩
  | comment | unexpected | unterminated => exact ⟨hline, h.last?, h.crossed⟩

/-- The tokens of a piece, spelled anew, are those of a piece. -/
theorem exists_emit (hy : IsWord y.toList) {piece : Piece} (hpiece : ProperPiece piece)
    {progress progress' : Progress} (hlike : progress.Like progress') {w' : List Token}
    (h : List.Forall₂ (Token.Respelled x y) (tokens (progress.emit piece)) w') :
    ∃ piece', Piece.Respelled x y piece piece' ∧ tokens (progress'.emit piece') = w' ∧
      (progress.advance piece).Like (progress'.advance piece') := by
  obtain ⟨⟨hknown, hclosed⟩, hword⟩ := hpiece
  have hadvance := hlike.advance piece
  obtain ⟨sort, text⟩ := piece
  cases sort with
  | unexpected => exact absurd rfl hknown
  | unterminated => exact absurd rfl hclosed
  -- Blanks and comments give nothing and are kept.
  | blank | comment =>
    cases h
    exact ⟨_, .same _, rfl, hadvance⟩
  | token kind =>
    -- A token stands behind the semicolon that it may complete, which is a mark and kept.
    simp only [Progress.emit, tokens_append, tokens_cons_token, tokens_nil] at h ⊢
    obtain ⟨supplied, written, rfl, hsupplied, hwritten⟩ := exists_append_of_forall₂ h
    have hsame := Token.Respelled.eq_of_marks hsupplied kind_of_mem_semicolonIfCrossed
    cases hwritten with
    | cons ht hnil =>
      cases hnil
      rcases ht with rfl | ⟨hidentifier, htext, rfl⟩
      · -- The token is kept.
        refine ⟨_, .same _, ?_, hadvance⟩
        simp only [tokens_append, hlike.semicolonIfCrossed, hsame, hlike.line, tokens_cons_token,
          tokens_nil]
      · -- The token is the name, so its piece is the new name's, on the same lines.
        cases hidentifier
        have hx : text = x.toList := by rw [← htext, String.toList_ofList]
        subst hx
        have hbreaks : Piece.lineBreaks ⟨.token .identifier, y.toList⟩ =
            Piece.lineBreaks ⟨.token .identifier, x.toList⟩ :=
          hy.count_newline.trans (hword rfl).count_newline.symm
        refine ⟨_, .anew, ?_, ?_, .some ⟨rfl, ?_⟩, rfl⟩
        · simp only [tokens_append, hlike.semicolonIfCrossed, hsame, hlike.line, hbreaks,
            String.ofList_toList, tokens_cons_token, tokens_nil]
        · rw [line_advance, line_advance, hlike.line, hbreaks]
        · simp only [hlike.line, hbreaks]

/-- The tokens of pieces, spelled anew, are those of pieces. -/
theorem exists_ofPieces (hy : IsWord y.toList) {pieces : List Piece}
    (hpieces : ∀ piece ∈ pieces, ProperPiece piece) {progress progress' : Progress}
    (hlike : progress.Like progress') {w' : List Token}
    (h : List.Forall₂ (Token.Respelled x y) (tokens (ofPieces progress pieces)) w') :
    ∃ pieces', List.Forall₂ (Piece.Respelled x y) pieces pieces' ∧
      tokens (ofPieces progress' pieces') = w' := by
  induction pieces generalizing progress progress' w' with
  | nil =>
    refine ⟨[], .nil, ?_⟩
    have hmarks : ∀ t ∈ tokens (ofPieces progress []), t.kind ≠ .identifier := by
      intro t ht
      rw [ofPieces, tokens_append] at ht
      rcases List.mem_append.mp ht with ht | ht
      · exact kind_of_mem_semicolon t ht
      · rw [tokens_cons_token, tokens_nil, List.mem_singleton] at ht
        subst ht
        simp [Token.endOfInput]
    rw [Token.Respelled.eq_of_marks h hmarks, ofPieces, ofPieces, hlike.semicolon, hlike.line]
  | cons piece pieces ih =>
    obtain ⟨hpiece, hpieces⟩ := List.forall_mem_cons.mp hpieces
    rw [ofPieces, tokens_append] at h
    obtain ⟨emitted, behind, rfl, hemitted, hbehind⟩ := exists_append_of_forall₂ h
    obtain ⟨piece', hsame, hemit, hadvance⟩ := exists_emit hy hpiece hlike hemitted
    obtain ⟨pieces', hrest, htokens⟩ := ih hpieces hadvance hbehind
    refine ⟨piece' :: pieces', .cons hsame hrest, ?_⟩
    rw [ofPieces, tokens_append, hemit, htokens]

theorem isWord_of_mem_divide (text : List Char) :
    ∀ piece ∈ divide text, piece.kind = .token .identifier → IsWord piece.text := by
  fun_induction divide text with
  | case1 => exact List.forall_mem_nil _
  | case2 c rest ih =>
    refine List.forall_mem_cons.mpr ⟨?_, ih⟩
    intro hkind
    exact (isWord_of_first hkind).1

theorem lawful_respelled {pieces pieces' : List Piece}
    (h : List.Forall₂ (Piece.Respelled x y) pieces pieces') (hpieces : ∀ piece ∈ pieces, piece.Lawful) :
    ∀ piece ∈ pieces', piece.Lawful := by
  induction h with
  | nil => exact hpieces
  | cons hpiece _ ih =>
    obtain ⟨hfirst, hrest⟩ := List.forall_mem_cons.mp hpieces
    refine List.forall_mem_cons.mpr ⟨?_, ih hrest⟩
    cases hpiece with
    | same => exact hfirst
    | anew => exact ⟨by simp, by simp⟩

/-- Tokens that are spelled anew are those of a source. -/
theorem exists_respelled {source : String} (herrors : errors (scan source) = [])
    (hy : Reads (.token .identifier) y.toList) {w' : List Token}
    (h : List.Forall₂ (Token.Respelled x y) (tokens (scan source)) w') :
    ∃ source', Item.Respelled x y source source' ∧ errors (scan source') = [] ∧
      tokens (scan source') = w' := by
  have hlawful := (errors_ofPieces_eq_nil_iff _ _).mp herrors
  obtain ⟨pieces', hpieces, htokens⟩ := exists_ofPieces hy.isWord
    (fun piece hpiece => ⟨hlawful piece hpiece, isWord_of_mem_divide _ piece hpiece⟩)
    ⟨rfl, .none, rfl⟩ h
  have hdivide := divide_respelled hy _ pieces' hlawful hpieces
  refine ⟨String.ofList (pieces'.flatMap Piece.text), ?_, ?_, ?_⟩
  · rw [Item.Respelled, String.toList_ofList, hdivide]
    exact hpieces
  · rw [scan, String.toList_ofList, hdivide, errors_ofPieces_eq_nil_iff]
    exact lawful_respelled hpieces hlawful
  · rw [scan, String.toList_ofList, hdivide, htokens]

end Item

end Lox
