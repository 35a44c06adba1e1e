import Lox.Proofs.Token.Respelled
import Lox.Proofs.Token.Scanning

/-!
# One space between the tokens

A source can be written anew from its tokens alone, with one space between them and with
the supplied semicolons written out.  Every token ends in front of a space, so the new
text is divided into the same tokens.  No semicolon is supplied twice: the spaces hold no
line break, the line breaks inside of strings do not count, and the last token calls for
no semicolon, since it would have one behind it.
-/

namespace Lox

open Piece

namespace Token

/-- How the token is written out: a semicolon that was supplied is written like any other. -/
def writtenOut (t : Token) : String := if t.isSupplied then ";" else t.lexeme

def rewritten (line : Nat → Nat) (t : Token) : Token := ⟨t.kind, t.writtenOut, line t.line⟩

def piece (t : Token) : Piece := ⟨.token t.kind, t.writtenOut.toList⟩

def Readable (t : Token) : Prop := Reads (.token t.kind) t.writtenOut.toList

end Token

namespace Item

/-- The tokens of a source, with one space between them. -/
def respaced (source : String) : String :=
  " ".intercalate (((tokens (scan source)).filter (·.kind ≠ .eof)).map Token.writtenOut)

end Item

/-! ### Tokens end in front of a space -/

namespace Piece

def space : Piece := ⟨.blank, [' ']⟩

def AtSpace (behind : List Char) : Prop := behind = [] ∨ ∃ rest, behind = ' ' :: rest

theorem AtSpace.startsWith? {behind : List Char} (h : AtSpace behind) {p : Char → Bool}
    (hp : p ' ' = false) : StartsWith? p behind = false := by
  rcases h with rfl | ⟨rest, rfl⟩
  · rfl
  · exact hp

theorem AtSpace.fractionLength {behind : List Char} (h : AtSpace behind) :
    fractionLength behind = 0 := by
  rcases h with rfl | ⟨rest, rfl⟩ <;> rfl

theorem Reads.ne_nil {kind : PieceKind} {text : List Char} (h : Reads kind text) : text ≠ [] := by
  cases h with
  | mark hmark =>
    rintro rfl
    simp [marks] at hmark
  | keyword hkeyword =>
    rintro rfl
    simpa using (word_of_keyword hkeyword).1
  | integer hsome => exact hsome
  | fraction => simp
  | _ => exact List.cons_ne_nil _ _

theorem reads_of_mem_divide {text : List Char} {piece : Piece} (h : piece ∈ divide text)
    {kind : TokenKind} (hkind : piece.kind = .token kind) : Reads (.token kind) piece.text := by
  have hdivides := divides_divide text
  generalize divide text = pieces at h hdivides
  induction hdivides with
  | nil => cases h
  | cons _ hfits _ ih =>
    rcases List.mem_cons.mp h with rfl | h
    · cases hfits with
      | longest hreads _ => exact hkind ▸ hreads
      | unexpected => cases hkind
      | unterminated => cases hkind
    · exact ih h

theorem ofWord_keyword {word : List Char} {kind : TokenKind}
    (h : (String.ofList word, kind) ∈ TokenKind.keywords) : TokenKind.ofWord word = kind := by
  have hall : ∀ entry ∈ TokenKind.keywords, TokenKind.ofWord entry.1.toList = entry.2 := by
    decide
  have hword := hall _ h
  rwa [String.toList_ofList] at hword

theorem reach_word_atSpace {c : Char} {more behind : List Char} (hc : startsWord c = true)
    (hmore : ∀ d ∈ more, continuesWord d = true) (hbehind : AtSpace behind) :
    reach c (more ++ behind) = (.token (.ofWord (c :: more)), more.length) := by
  rw [reach_word hc, takeWhile_run hmore (hbehind.startsWith? rfl)]

theorem numeralLength_atSpace {digits behind : List Char} (hdigits : ∀ d ∈ digits, d.isDigit = true)
    (hbehind : AtSpace behind) : numeralLength (digits ++ behind) = digits.length := by
  have hstop := hbehind.startsWith? (p := Char.isDigit) rfl
  rw [numeralLength, takeWhile_run hdigits hstop, dropWhile_run hdigits hstop,
    hbehind.fractionLength, Nat.add_zero]

theorem fractionLength_atSpace {decimals behind : List Char} (hsome : decimals ≠ [])
    (hdecimals : ∀ d ∈ decimals, d.isDigit = true) (hbehind : AtSpace behind) :
    fractionLength ('.' :: decimals ++ behind) = ('.' :: decimals).length := by
  obtain ⟨d, more, rfl⟩ := List.exists_cons_of_ne_nil hsome
  obtain ⟨hd, hmore⟩ := List.forall_mem_cons.mp hdecimals
  have hrun := takeWhile_run hmore (hbehind.startsWith? (p := Char.isDigit) rfl)
  simp only [List.cons_append, Piece.fractionLength, hd, if_true, hrun, List.length_cons]
  omega

/-- A text that can be read as a token is that token if a space is behind it. -/
theorem Reads.reach_eq {kind : TokenKind} {c : Char} {more behind : List Char}
    (h : Reads (.token kind) (c :: more)) (hbehind : AtSpace behind) :
    reach c (more ++ behind) = (.token kind, more.length) := by
  generalize hword : c :: more = word at h
  cases h with
  -- Each mark reaches no further in front of a space or at the end.
  | mark hmark =>
    subst hword
    simp only [marks, List.mem_cons, Prod.mk.injEq, List.cons.injEq, List.not_mem_nil,
      or_false] at hmark
    rcases hmark with h | h | h | h | h | h | h | h | h | h | h | h | h | h | h | h | h | h | h | h
    all_goals
      obtain ⟨rfl, rfl, rfl⟩ := h
      rcases hbehind with rfl | ⟨rest, rfl⟩ <;> rfl
  -- A word ends in front of a space.
  | keyword hkeyword =>
    subst hword
    obtain ⟨hc, hall⟩ := word_of_keyword hkeyword
    have hmore : ∀ d ∈ more, continuesWord d = true := List.all_eq_true.mp hall
    rw [reach_word_atSpace hc hmore hbehind, ofWord_keyword hkeyword]
  | identifier hc hmore hnew =>
    cases hword
    have hkind := (Reads.identifier hc hmore hnew).ofWord_eq
    rw [reach_word_atSpace hc hmore hbehind, hkind]
  -- So does a numeral, and a fraction with it.
  | integer hsome hdigits =>
    subst hword
    obtain ⟨hc, hmore⟩ := List.forall_mem_cons.mp hdigits
    rw [reach_digit hc, numeralLength_atSpace hmore hbehind]
  | @fraction digits decimals hsome hdigits hfraction hdecimals =>
    obtain ⟨d, digits, rfl⟩ := List.exists_cons_of_ne_nil hsome
    rw [List.cons_append, List.cons.injEq] at hword
    obtain ⟨rfl, rfl⟩ := hword
    obtain ⟨hc, hmore⟩ := List.forall_mem_cons.mp hdigits
    have hstop : StartsWith? Char.isDigit ('.' :: decimals ++ behind) = false := rfl
    rw [reach_digit hc, numeralLength, List.append_assoc, takeWhile_run hmore hstop,
      dropWhile_run hmore hstop, fractionLength_atSpace hfraction hdecimals hbehind,
      List.length_append]
  -- A string ends at its own quote.
  | @string body hbody =>
    cases hword
    exact reach_quoted hbody behind

theorem Reads.divide_append {kind : TokenKind} {text behind : List Char}
    (h : Reads (.token kind) text) (hbehind : AtSpace behind) :
    divide (text ++ behind) = ⟨.token kind, text⟩ :: divide behind := by
  obtain ⟨c, more, rfl⟩ := List.exists_cons_of_ne_nil h.ne_nil
  rw [List.cons_append, divide_cons, first, remainder, h.reach_eq hbehind, List.take_left,
    List.drop_left]

theorem divide_append_of_readable {t : Token} (h : t.Readable) {behind : List Char}
    (hbehind : AtSpace behind) :
    divide (t.writtenOut.toList ++ behind) = t.piece :: divide behind :=
  Reads.divide_append h hbehind

/-- Tokens with a space between them are divided into these tokens and spaces. -/
theorem divide_intercalate {ts : List Token} (h : ∀ t ∈ ts, t.Readable) :
    divide (" ".intercalate (ts.map Token.writtenOut)).toList =
      (ts.map Token.piece).intersperse space := by
  induction ts with
  | nil => exact divide.eq_1
  | cons t rest ih =>
    obtain ⟨ht, hrest⟩ := List.forall_mem_cons.mp h
    cases rest with
    | nil =>
      have hdivide := divide_append_of_readable ht (.inl rfl)
      rw [List.append_nil, divide] at hdivide
      simpa using hdivide
    | cons u rest =>
      have htext : (" ".intercalate ((t :: u :: rest).map Token.writtenOut)).toList =
          t.writtenOut.toList ++
            ' ' :: (" ".intercalate ((u :: rest).map Token.writtenOut)).toList := by
        rw [List.map_cons, List.map_cons, String.intercalate_cons_cons, String.toList_append,
          String.toList_append, List.append_assoc]
        rfl
      have hspace : ∀ text, divide (' ' :: text) = space :: divide text := fun _ => divide_cons _ _
      rw [htext, divide_append_of_readable ht (.inr ⟨_, rfl⟩), hspace, ih hrest]
      rfl

end Piece

/-! ### The tokens of a source -/

def Token.breaks (t : Token) : Nat := t.writtenOut.toList.count '\n'

/--
Tokens that can be read, on lines that go down at least as far as the tokens reach.  The
last one, and any token in front of them that ends a statement, has a semicolon behind it.
-/
inductive Orderly : Nat → Bool → List Token → Prop where
  | nil {line : Nat} : Orderly line false []
  | cons {line : Nat} {owed : Bool} {t : Token} {ts : List Token} :
      t.Readable → line + t.breaks ≤ t.line → Orderly t.line t.kind.endsStatement ts →
      Orderly line owed (t :: ts)

theorem Orderly.readable {line : Nat} {owed : Bool} {ts : List Token} (h : Orderly line owed ts) :
    ∀ t ∈ ts, t.Readable := by
  induction h with
  | nil => simp
  | cons ht _ _ ih => exact List.forall_mem_cons.mpr ⟨ht, ih⟩

theorem Orderly.le_line {line : Nat} {owed : Bool} {ts : List Token} (h : Orderly line owed ts) :
    ∀ t ∈ ts, line ≤ t.line := by
  induction h with
  | nil => simp
  | @cons line owed t ts _ hline _ ih =>
    have hle : line ≤ t.line := Nat.le_trans (Nat.le_add_right _ _) hline
    exact List.forall_mem_cons.mpr ⟨hle, fun u hu => Nat.le_trans hle (ih u hu)⟩

/-- A written token is written out as it is. -/
theorem Token.writtenOut_of_reads {kind : TokenKind} {text : List Char}
    (h : Reads (.token kind) text) (line : Nat) :
    Token.writtenOut ⟨kind, String.ofList text, line⟩ = String.ofList text := by
  simp [Token.writtenOut, Token.isSupplied, h.ne_nil]

theorem Orderly.supplied (line : Nat) {ts : List Token} (h : Orderly line false ts) {owed : Bool}
    {first : Nat} (hle : first ≤ line) : Orderly first owed (.suppliedSemicolon line :: ts) :=
  .cons (.mark (by simp [marks, Token.suppliedSemicolon, Token.writtenOut, Token.isSupplied]))
    (by simpa [Token.breaks, Token.suppliedSemicolon, Token.writtenOut, Token.isSupplied] using hle) h

namespace Item

/-- The scan owes a semicolon to the last token. -/
def Progress.owes (progress : Progress) : Bool := progress.last?.any (·.kind.endsStatement)

/-- The line is not behind the last token, and not below the one that is reached. -/
def Progress.Reaches (progress : Progress) (line : Nat) : Prop :=
  line ≤ progress.line ∧ ∀ last ∈ progress.last?, line ≤ last.line ∧ last.line ≤ progress.line

/-- Behind the semicolon that is owed, if there is one, nothing more is owed. -/
theorem Progress.orderly_semicolon {progress : Progress} {line : Nat} (h : progress.Reaches line)
    {ts : List Token} (hts : ∀ first ≤ progress.line, Orderly first false ts) :
    Orderly line progress.owes (tokens progress.semicolon ++ ts) := by
  obtain ⟨hline, hlast⟩ := h
  unfold Progress.semicolon Progress.owes
  cases hfound : progress.last? with
  | none => exact hts line hline
  | some last =>
    obtain ⟨hfirst, hle⟩ := hlast last hfound
    cases hends : last.kind.endsStatement with
    | false => simpa [hends] using hts line hline
    | true => simpa [hends] using Orderly.supplied last.line (hts last.line hle) hfirst

/-- The tokens of pieces that can be read are orderly. -/
theorem orderly_ofPieces {pieces : List Piece}
    (hpieces : ∀ piece ∈ pieces, ∀ kind, piece.kind = .token kind → Reads (.token kind) piece.text)
    {progress : Progress} {line : Nat} (h : progress.Reaches line) :
    ∃ body last, tokens (ofPieces progress pieces) = body ++ [.endOfInput last] ∧
      Orderly line progress.owes body := by
  induction pieces generalizing progress line with
  | nil =>
    -- At the end there may be a semicolon, and then the end of input.
    have hbody := Progress.orderly_semicolon h fun _ _ => Orderly.nil
    rw [List.append_nil] at hbody
    refine ⟨tokens progress.semicolon, progress.line, ?_, hbody⟩
    rw [ofPieces, tokens_append]
    rfl
  | cons piece pieces ih =>
    obtain ⟨hpiece, hpieces⟩ := List.forall_mem_cons.mp hpieces
    have hgrows : progress.line ≤ (progress.advance piece).line := by
      rw [line_advance]
      exact Nat.le_add_right _ _
    cases hkind : piece.kind with
    | token kind =>
      -- A token: a semicolon may come first, if a line break was crossed and one is owed.
      have hreads := hpiece kind hkind
      have hadvance : progress.advance piece = ⟨progress.line + piece.lineBreaks,
          some ⟨kind, String.ofList piece.text, progress.line + piece.lineBreaks⟩, false⟩ := by
        rw [Progress.advance, hkind]
      have hemit : progress.emit piece = progress.semicolonIfCrossed ++
          [.token ⟨kind, String.ofList piece.text, progress.line + piece.lineBreaks⟩] := by
        rw [Progress.emit, hkind]
      generalize ht : (⟨kind, String.ofList piece.text, progress.line + piece.lineBreaks⟩ : Token)
        = t at hadvance hemit
      have hout : t.writtenOut = String.ofList piece.text := by
        rw [← ht, Token.writtenOut_of_reads hreads]
      have hreadable : t.Readable := by
        rw [Token.Readable, hout, String.toList_ofList, ← ht]
        exact hreads
      -- Line breaks within the token are between the line it starts on and its own.
      have hbelow : progress.line + t.breaks ≤ t.line := by
        rw [Token.breaks, hout, String.toList_ofList, ← ht]
        exact Nat.le_refl _
      have hreached : (progress.advance piece).Reaches t.line := by
        rw [hadvance, ← ht]
        exact ⟨Nat.le_refl _, by simp⟩
      have howes : (progress.advance piece).owes = t.kind.endsStatement := by
        rw [hadvance]
        rfl
      obtain ⟨body, last, htokens, hbody⟩ := ih hpieces hreached
      rw [howes] at hbody
      have hts : ∀ first owed, first ≤ progress.line → Orderly first owed (t :: body) :=
        fun first owed hfirst => .cons hreadable (by omega) hbody
      refine ⟨tokens progress.semicolonIfCrossed ++ t :: body, last, ?_, ?_⟩
      · rw [ofPieces, tokens_append, htokens, hemit, tokens_append]
        simp
      · unfold Progress.semicolonIfCrossed
        split
        · exact Progress.orderly_semicolon h fun first hfirst => hts first false hfirst
        · exact hts line _ h.1
    | _ =>
      -- Blanks and comments give nothing, and owe what was owed before.
      have hnothing : tokens (progress.emit piece) = [] := by simp [Progress.emit, hkind]
      have hlast : (progress.advance piece).last? = progress.last? := by
        simp [Progress.advance, hkind]
      have hreached : (progress.advance piece).Reaches line := by
        refine ⟨Nat.le_trans h.1 hgrows, ?_⟩
        intro last hmem
        obtain ⟨hfirst, hle⟩ := h.2 last (hlast ▸ hmem)
        exact ⟨hfirst, Nat.le_trans hle hgrows⟩
      obtain ⟨body, last, htokens, hbody⟩ := ih hpieces hreached
      have howes : (progress.advance piece).owes = progress.owes := by
        rw [Progress.owes, Progress.owes, hlast]
      refine ⟨body, last, ?_, howes ▸ hbody⟩
      rw [ofPieces, tokens_append, hnothing, htokens]
      rfl

/-- The tokens of a source are orderly. -/
theorem orderly_scan (source : String) :
    ∃ body last, tokens (scan source) = body ++ [.endOfInput last] ∧ Orderly 1 false body := by
  have hreads : ∀ piece ∈ divide source.toList, ∀ kind, piece.kind = .token kind →
      Reads (.token kind) piece.text := by
    intro piece hpiece kind hkind
    exact reads_of_mem_divide hpiece hkind
  have hreaches : Progress.Reaches ⟨1, none, false⟩ 1 := ⟨Nat.le_refl 1, by simp⟩
  exact orderly_ofPieces hreads hreaches

/-! ### The tokens of the new source -/

theorem ofPieces_space {progress : Progress} (hcrossed : progress.crossed = false)
    (pieces : List Piece) : ofPieces progress (space :: pieces) = ofPieces progress pieces := by
  obtain ⟨line, last?, crossed⟩ := progress
  subst hcrossed
  rfl

/-- Tokens and spaces give no errors. -/
theorem lawful_intersperse (ts : List Token) :
    ∀ piece ∈ (ts.map Token.piece).intersperse space, piece.Lawful := by
  induction ts with
  | nil => simp
  | cons t ts ih =>
    cases ts with
    | nil => simp [Token.piece, Piece.Lawful]
    | cons u ts =>
      simp only [List.map_cons, List.intersperse_cons_cons, List.forall_mem_cons] at ih ⊢
      exact ⟨by simp [Token.piece, Piece.Lawful], by simp [space, Piece.Lawful], ih⟩

/-- A token, and the tokens behind the space that follows it. -/
theorem tokens_ofPieces_intersperse {progress : Progress} (hcrossed : progress.crossed = false)
    (t : Token) (ts : List Token) :
    tokens (ofPieces progress (((t :: ts).map Token.piece).intersperse space)) =
      ⟨t.kind, t.writtenOut, progress.line + t.breaks⟩ ::
        tokens (ofPieces (progress.advance t.piece) ((ts.map Token.piece).intersperse space)) := by
  have hemit : progress.emit t.piece =
      [.token ⟨t.kind, t.writtenOut, progress.line + t.breaks⟩] := by
    simp [Progress.emit, Token.piece, Progress.semicolonIfCrossed, hcrossed, Piece.lineBreaks,
      Token.breaks]
  cases ts with
  | nil =>
    rw [List.map_singleton, List.intersperse_singleton, ofPieces, hemit]
    rfl
  | cons u ts =>
    rw [List.map_cons, List.map_cons, List.intersperse_cons_cons, ofPieces, hemit,
      ofPieces_space rfl]
    rfl

/-- A function on lines can be given any value in front of a line, or on it if nothing is between. -/
theorem exists_line {f : Nat → Nat} {line below first breaks : Nat} (hbelow : line + breaks ≤ below)
    (hf : f below = first + breaks) : ∃ g : Nat → Nat, g line = first ∧ ∀ n, below ≤ n → g n = f n := by
  refine ⟨fun n => if n ≤ line then first else f n, if_pos (Nat.le_refl line), ?_⟩
  intro n hn
  change (if n ≤ line then first else f n) = f n
  by_cases hle : n ≤ line
  · have hsame : n = below := by omega
    have hbreaks : breaks = 0 := by omega
    rw [if_pos hle, hsame, hf, hbreaks, Nat.add_zero]
  · exact if_neg hle

/-- Tokens with a space between them are scanned as they were, on lines that the old ones determine. -/
theorem exists_tokens_intersperse {line : Nat} {owed : Bool} {ts : List Token}
    (h : Orderly line owed ts) {progress : Progress} (hcrossed : progress.crossed = false)
    (howes : progress.owes = owed) :
    ∃ f : Nat → Nat, ∃ last, f line = progress.line ∧
      tokens (ofPieces progress ((ts.map Token.piece).intersperse space)) =
        ts.map (Token.rewritten f) ++ [.endOfInput last] := by
  induction h generalizing progress with
  | nil =>
    have hnothing : progress.semicolon = [] := by
      unfold Progress.owes at howes
      unfold Progress.semicolon
      cases hlast : progress.last? with
      | none => rfl
      | some last =>
        have hends : last.kind.endsStatement = false := by simpa [hlast] using howes
        simp [hends]
    refine ⟨fun _ => progress.line, progress.line, rfl, ?_⟩
    rw [List.map_nil, List.intersperse_nil, ofPieces, hnothing]
    rfl
  | @cons line owed t ts _ hbelow hts ih =>
    obtain ⟨f, last, hf, htokens⟩ := @ih (progress.advance t.piece) rfl rfl
    obtain ⟨g, hg, hsame⟩ := exists_line hbelow hf
    refine ⟨g, last, hg, ?_⟩
    have hrest : ∀ u ∈ ts, u.rewritten f = u.rewritten g := by
      intro u hu
      rw [Token.rewritten, Token.rewritten, hsame _ (hts.le_line u hu)]
    rw [tokens_ofPieces_intersperse hcrossed, htokens, List.map_cons, Token.rewritten,
      hsame _ (Nat.le_refl _), hf, List.map_congr_left hrest]
    rfl

/--
The tokens of a source with one space between them have the same kinds and texts, except that
all semicolons are written, and their lines are determined by the old ones.
-/
theorem scan_respaced (source : String) :
    errors (scan (respaced source)) = [] ∧ ∃ body last last', ∃ line : Nat → Nat,
      tokens (scan source) = body ++ [.endOfInput last] ∧
      tokens (scan (respaced source)) = body.map (Token.rewritten line) ++ [.endOfInput last'] := by
  obtain ⟨body, last, htokens, horderly⟩ := orderly_scan source
  have hbody : (tokens (scan source)).filter (·.kind ≠ .eof) = body := by
    obtain ⟨body', last', htokens', hproper⟩ := tokens_scan source
    have hsame : body' = body := List.append_inj_left' (htokens'.symm.trans htokens) rfl
    rw [htokens, List.filter_append, List.filter_eq_self.mpr]
    · simp [Token.endOfInput]
    · intro t ht
      simpa using (hproper t (hsame ▸ ht)).2
  have hdivide : divide (respaced source).toList = (body.map Token.piece).intersperse space := by
    rw [respaced, hbody, divide_intercalate horderly.readable]
  obtain ⟨line, last', -, htokens'⟩ :=
    @exists_tokens_intersperse _ _ _ horderly ⟨1, none, false⟩ rfl rfl
  refine ⟨?_, body, last, last', line, htokens, ?_⟩
  · rw [scan, hdivide, errors_ofPieces_eq_nil_iff]
    exact lawful_intersperse body
  · rw [scan, hdivide, htokens']

end Item

end Lox
