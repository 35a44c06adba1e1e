import Lox.Proofs.Token.Semicolons

/-!
# Line numbers

The line of an item is counted while the source is read.  Here it is said by the text in
front instead: a text ends on the line that is one more than its newlines, and what an
item stands for tells which text that is.  The condition that carries the proofs is that
the progress of a scan is on the line on which the text ends that was read so far.
-/

namespace Lox

/-- The line on which a text ends. -/
def lineBehind (text : List Char) : Nat := 1 + text.count '\n'

theorem lineBehind_le_append (front behind : List Char) :
    lineBehind front ≤ lineBehind (front ++ behind) := by
  rw [lineBehind, lineBehind, List.count_append]
  omega

namespace Piece

/--
The item that a piece of the source stands for, where `front` is what the source has in
front of it.  A token is on the line of its last character, a character that can start
nothing is on its own line, and a string that is never closed on the last line.
-/
def item? (source front : List Char) (piece : Piece) : Option Item :=
  match piece.kind with
  | .blank | .comment => none
  | .token kind => some (.token ⟨kind, String.ofList piece.text, lineBehind (front ++ piece.text)⟩)
  | .unexpected => some (.error ⟨.unexpectedCharacter (piece.text.headD ' '), lineBehind front⟩)
  | .unterminated => some (.error ⟨.unterminatedString, lineBehind source⟩)

/-- The items that pieces of the source stand for, one behind the other. -/
def items (source front : List Char) : List Piece → List Item
  | [] => []
  | piece :: rest => (piece.item? source front).toList ++ items source (front ++ piece.text) rest

/-- A character that can start nothing is not a newline. -/
theorem Fits.lineBehind_unexpected {piece : Piece} {behind : List Char} (h : Fits piece behind)
    (hkind : piece.kind = .unexpected) (front : List Char) :
    lineBehind (front ++ piece.text) = lineBehind front := by
  have hnone := h.newline_notMem (by rw [isToken, hkind]) (by simp [hkind]) (by simp [hkind])
  rw [lineBehind, List.count_append, List.count_eq_zero.mpr hnone]
  rfl

end Piece

/--
A token comes behind this one, or is the first one.  It is not on an earlier line.  If it
is a supplied semicolon, then a written token is in front of it, on the same line.
-/
def Token.Follows (last? : Option Token) (t : Token) : Prop :=
  (∀ last ∈ last?, last.line ≤ t.line) ∧
    (t.isSupplied = true → ∃ last, last? = some last ∧ last.isSupplied = false ∧ t.line = last.line)

/-- Each of the tokens comes behind the one in front of it. -/
def Token.InOrder : Option Token → List Token → Prop
  | _, [] => True
  | last?, t :: rest => t.Follows last? ∧ InOrder (some t) rest

theorem Token.InOrder.follows {last? : Option Token} {before : List Token} {t : Token}
    {behind : List Token} (h : InOrder last? (before ++ t :: behind)) :
    t.Follows (before.getLast?.or last?) := by
  induction before generalizing last? with
  | nil => exact h.1
  | cons first before ih =>
    rw [List.getLast?_cons]
    have hrest := ih h.2
    cases hlast : before.getLast? with
    | none => simpa [hlast] using hrest
    | some last => simpa [hlast] using hrest

theorem Token.InOrder.le {last? : Option Token} {tokens : List Token} (h : InOrder last? tokens) :
    (∀ last ∈ last?, ∀ t ∈ tokens, last.line ≤ t.line) ∧
      tokens.Pairwise fun t t' => t.line ≤ t'.line := by
  induction tokens generalizing last? with
  | nil => exact ⟨fun _ _ => List.forall_mem_nil _, .nil⟩
  | cons t tokens ih =>
    obtain ⟨hbehind, hpairs⟩ := ih h.2
    refine ⟨?_, .cons (hbehind t rfl) hpairs⟩
    intro last hlast t' ht'
    have hle := h.1.1 last hlast
    rcases List.mem_cons.mp ht' with rfl | ht'
    · exact hle
    · exact Nat.le_trans hle (hbehind t rfl t' ht')

namespace Item

open Piece

def line : Item → Nat
  | token t => t.line
  | error e => e.line

/-- The last token that is remembered was written, and is not on a later line. -/
def Progress.Settled (progress : Progress) : Prop :=
  ∀ last ∈ progress.last?, last.isSupplied = false ∧ last.line ≤ progress.line

theorem Progress.Settled.advance {progress : Progress} (h : progress.Settled) {piece : Piece}
    (htext : piece.text ≠ []) : (progress.advance piece).Settled := by
  intro last hlast
  rw [line_advance]
  have hkept : last ∈ progress.last? →
      last.isSupplied = false ∧ last.line ≤ progress.line + piece.lineBreaks :=
    fun hlast => ⟨(h last hlast).1, Nat.le_trans (h last hlast).2 (Nat.le_add_right _ _)⟩
  cases hkind : piece.kind with
  | token kind =>
    simp only [Progress.advance, hkind, Option.mem_some_iff] at hlast
    subst hlast
    exact ⟨by simp [Token.isSupplied, htext], Nat.le_refl _⟩
  | _ =>
    simp only [Progress.advance, hkind] at hlast
    exact hkept hlast

/-- A supplied semicolon is on the line of the token that calls for it. -/
theorem tokens_semicolon (progress : Progress) :
    tokens progress.semicolon = [] ∨
      ∃ last, progress.last? = some last ∧
        tokens progress.semicolon = [.suppliedSemicolon last.line] := by
  unfold Progress.semicolon
  cases progress.last? with
  | none => exact .inl rfl
  | some last =>
    dsimp only
    split
    · exact .inr ⟨last, rfl, rfl⟩
    · exact .inl rfl

/-- With a semicolon that is supplied in front of it or without one, a token is in order. -/
theorem inOrder_of_semicolon {progress : Progress} (h : progress.Settled) {t : Token}
    (hsupplied : t.isSupplied = false) (hline : progress.line ≤ t.line) (behind : List Token)
    (hbehind : Token.InOrder (some t) behind) {given : List Item}
    (hgiven : given = progress.semicolon ∨ given = []) :
    Token.InOrder progress.last? (tokens given ++ t :: behind) := by
  have hfollows : ∀ last ∈ progress.last?, last.line ≤ t.line :=
    fun last hlast => Nat.le_trans (h last hlast).2 hline
  have hplain : Token.InOrder progress.last? (t :: behind) :=
    ⟨⟨hfollows, fun hyes => by rw [hsupplied] at hyes; cases hyes⟩, hbehind⟩
  rcases hgiven with rfl | rfl
  · rcases tokens_semicolon progress with hnone | ⟨last, hlast, hsome⟩
    · rw [hnone]
      exact hplain
    · rw [hsome]
      have hsemicolon : Token.Follows progress.last? (.suppliedSemicolon last.line) :=
        ⟨fun last' hlast' => by cases hlast.symm.trans hlast'; exact Nat.le_refl _,
          fun _ => ⟨last, hlast, (h last hlast).1, rfl⟩⟩
      refine ⟨hsemicolon, ⟨?_, fun hyes => by rw [hsupplied] at hyes; cases hyes⟩, hbehind⟩
      rintro _ ⟨⟩
      exact hfollows last hlast
  · exact hplain

/-- The tokens of pieces come one behind the other. -/
theorem inOrder_ofPieces {pieces : List Piece} {text : List Char} (h : Divides pieces text)
    (progress : Progress) (hsettled : progress.Settled) :
    Token.InOrder progress.last? (tokens (ofPieces progress pieces)) := by
  induction h generalizing progress with
  | nil =>
    rw [ofPieces, tokens_append]
    exact inOrder_of_semicolon (t := .endOfInput progress.line) hsettled rfl (Nat.le_refl _) []
      trivial (.inl rfl)
  | @cons piece pieces behind hsome _ _ ih =>
    have hrest := ih _ (hsettled.advance hsome)
    rw [ofPieces, tokens_append]
    cases hkind : piece.kind with
    | token kind =>
      rw [Progress.advance, hkind] at hrest ⊢
      rw [Progress.emit, hkind, tokens_append, List.append_assoc]
      refine inOrder_of_semicolon hsettled (by simp [Token.isSupplied, hsome])
        (Nat.le_add_right _ _) _ hrest ?_
      unfold Progress.semicolonIfCrossed
      split
      · exact .inl rfl
      · exact .inr rfl
    | _ =>
      rw [Progress.advance, hkind] at hrest ⊢
      rw [Progress.emit, hkind]
      exact hrest

/-! ### What was written -/

theorem filter_written_of_filterMap {items : List Item} (h : items.filterMap written? = []) :
    items.filter (·.written?.isSome) = [] := by
  rw [List.filter_eq_nil_iff]
  intro item hitem hsome
  rw [List.filterMap_eq_nil_iff.mp h item hitem] at hsome
  cases hsome

/-- What was not written is a token. -/
theorem eq_token_of_written? {item : Item} (h : item.written?.isSome = false) :
    ∃ t, item = .token t := by
  match item with
  | .token t => exact ⟨t, rfl⟩
  | .error ⟨.unexpectedCharacter c, _⟩ => cases h
  | .error ⟨.unterminatedString, _⟩ => cases h

/-- What a piece gives rise to is what it stands for, apart from a supplied semicolon. -/
theorem written_emit {piece : Piece} {behind front : List Char} (hsome : piece.text ≠ [])
    (hfits : Fits piece behind) (heof : piece.kind ≠ .token .eof) {progress : Progress}
    (hline : progress.line = lineBehind front) :
    (progress.emit piece).filter (·.written?.isSome) =
      (piece.item? (front ++ (piece.text ++ behind)) front).toList := by
  have hbehind : progress.line + piece.lineBreaks = lineBehind (front ++ piece.text) := by
    rw [hline, lineBehind, lineBehind, List.count_append, Nat.add_assoc]
    rfl
  unfold Progress.emit item?
  rw [hbehind]
  cases hkind : piece.kind with
  | token kind =>
    have hsupplied : progress.semicolonIfCrossed.filter (·.written?.isSome) = [] := by
      unfold Progress.semicolonIfCrossed
      split
      · exact filter_written_of_filterMap (written?_semicolon progress)
      · rfl
    have hne : kind ≠ .eof := by
      rintro rfl
      exact heof hkind
    have hwritten : (written? (.token ⟨kind, String.ofList piece.text,
        lineBehind (front ++ piece.text)⟩)).isSome = true := by
      simp [written?, Token.isSupplied, hne, hsome]
    simp [List.filter_append, hsupplied, hwritten]
  | unexpected =>
    rw [hfits.lineBehind_unexpected hkind]
    rfl
  | unterminated =>
    rw [hfits.behind_eq_nil hkind, List.append_nil]
    rfl
  | _ => rfl

/-- What was written, each item on the line that the source says. -/
theorem written_ofPieces (front : List Char) {pieces : List Piece} {text : List Char}
    (h : Divides pieces text)
    (heof : ∀ piece ∈ pieces, piece.kind ≠ .token .eof) {progress : Progress}
    (hline : progress.line = lineBehind front) :
    (ofPieces progress pieces).filter (·.written?.isSome) =
      items (front ++ text) front pieces := by
  induction h generalizing front progress with
  | nil =>
    rw [ofPieces, List.filter_append,
      filter_written_of_filterMap (written?_semicolon progress)]
    rfl
  | @cons piece pieces behind hsome hfits _ ih =>
    have hnext : (progress.advance piece).line = lineBehind (front ++ piece.text) := by
      rw [line_advance, hline, lineBehind, lineBehind, List.count_append, Nat.add_assoc]
      rfl
    rw [ofPieces, List.filter_append,
      written_emit hsome hfits (heof piece List.mem_cons_self) hline,
      ih _ (fun piece hpiece => heof piece (List.mem_cons_of_mem _ hpiece)) hnext, items,
      List.append_assoc]

/-- Nothing stands on a line behind the last one. -/
theorem line_le_of_mem_items (front : List Char) {pieces : List Piece} {text : List Char}
    (h : Divides pieces text) {item : Item} (hitem : item ∈ items (front ++ text) front pieces) :
    item.line ≤ lineBehind (front ++ text) := by
  induction h generalizing front with
  | nil => cases hitem
  | @cons piece pieces behind _ _ _ ih =>
    rcases List.mem_append.mp hitem with hfirst | hrest
    · have hpiece := Option.mem_toList.mp hfirst
      unfold item? at hpiece
      rw [← List.append_assoc]
      cases hkind : piece.kind with
      | token kind =>
        rw [hkind] at hpiece
        cases hpiece
        exact lineBehind_le_append _ _
      | unexpected =>
        rw [hkind] at hpiece
        cases hpiece
        exact Nat.le_trans (lineBehind_le_append _ _) (lineBehind_le_append _ _)
      | unterminated =>
        rw [hkind] at hpiece
        cases hpiece
        exact Nat.le_of_eq (by rw [List.append_assoc]; rfl)
      | _ =>
        rw [hkind] at hpiece
        cases hpiece
    · rw [← List.append_assoc] at hrest ⊢
      exact ih _ hrest

/-- The end of input is on the last line. -/
theorem scan_last_line (source : String) :
    ∃ before, scan source = before ++ [.token (.endOfInput (lineBehind source.toList))] := by
  have hpieces := ofPieces_append ⟨1, none, false⟩ (divide source.toList) []
  have hline := line_advanceEach ⟨1, none, false⟩ (divide source.toList)
  rw [List.append_nil, ofPieces, hline, flatMap_text_divide, ← List.append_assoc] at hpieces
  exact ⟨_, hpieces⟩

/-- What was written in a source, each item on the line that the source says. -/
theorem written_scan (source : String) :
    (scan source).filter (·.written?.isSome) =
      items source.toList [] (divide source.toList) :=
  written_ofPieces [] (divides_divide source.toList)
    (fun piece hpiece => (substantial_divide source.toList piece hpiece).2) rfl

/-- The tokens of a source come one behind the other. -/
theorem inOrder_scan (source : String) : Token.InOrder none (tokens (scan source)) :=
  inOrder_ofPieces (divides_divide source.toList) ⟨1, none, false⟩ nofun

/-- No item is behind the end of input. -/
theorem line_le_of_mem_scan {source : String} {item : Item} (hitem : item ∈ scan source) :
    item.line ≤ lineBehind source.toList := by
  cases hsome : item.written?.isSome with
  | true =>
    have hmem : item ∈ items source.toList [] (divide source.toList) := by
      rw [← written_scan]
      exact List.mem_filter.mpr ⟨hitem, hsome⟩
    exact line_le_of_mem_items [] (divides_divide source.toList) hmem
  | false =>
    obtain ⟨t, rfl⟩ := eq_token_of_written? hsome
    obtain ⟨before, hscan⟩ := scan_last_line source
    have htokens : tokens (scan source) =
        tokens before ++ [.endOfInput (lineBehind source.toList)] := by
      rw [hscan, tokens_append]
      rfl
    have hmem : t ∈ tokens before ++ [.endOfInput (lineBehind source.toList)] := by
      rw [← htokens]
      exact List.mem_filterMap.mpr ⟨.token t, hitem, rfl⟩
    have hpairs := (inOrder_scan source).le.2
    rw [htokens, List.pairwise_append] at hpairs
    rcases List.mem_append.mp hmem with hmem | hmem
    · exact hpairs.2.2 t hmem _ List.mem_cons_self
    · rw [List.mem_singleton.mp hmem]
      exact Nat.le_refl _

/--
Line numbers are right.  The source is divided into pieces, and what was written is, in
this order, what they stand for, each item with the line that the text in front of it
says: a token is on the line of its last character, a character that can start nothing
on its own line, and a string that is never closed on the last line of the source, where
the end of input is, too.  A supplied semicolon is on the line of the written token that
is in front of it.  The lines of the tokens never decrease, and no item, be it a token or
an error, is behind the end of input.  A scanner gives just these items, one by one.
-/
theorem scan_lines (source : String) :
    (∃ pieces, Divides pieces source.toList ∧
      (scan source).filter (·.written?.isSome) = items source.toList [] pieces) ∧
    (∃ before, scan source = before ++ [.token (.endOfInput (lineBehind source.toList))]) ∧
    (∀ before t behind, tokens (scan source) = before ++ t :: behind → t.isSupplied = true →
      ∃ last, before.getLast? = some last ∧ last.isSupplied = false ∧ t.line = last.line) ∧
    (∀ item ∈ scan source, item.line ≤ lineBehind source.toList) ∧
    (tokens (scan source)).Pairwise (fun t t' => t.line ≤ t'.line) ∧
    ∀ n, (Scanner.start source).nth n = (scan source)[n]? := by
  refine ⟨⟨_, divides_divide source.toList, written_scan source⟩, scan_last_line source, ?_,
    fun item => line_le_of_mem_scan, (inOrder_scan source).le.2, Scanner.nth_start source⟩
  intro before t behind htokens hsupplied
  have horder := inOrder_scan source
  rw [htokens] at horder
  obtain ⟨last, hlast, hline⟩ := horder.follows.2 hsupplied
  exact ⟨last, by simpa using hlast, hline⟩

end Item

end Lox
