import Lox.Proofs.Grammar
import Lox.Proofs.Token.Division
import Lox.Token.Item

/-!
# How tokens are spelled

The text of a scanned token determines its kind.  So an identifier never reads
`this` or `super`, and the end of input stands at the end of the tokens only.
-/

namespace Lox

open Piece

/-- The name is none of those that stand for an instance or a superclass. -/
def IsName (name : String) : Prop := name ≠ "this" ∧ name ≠ "super"

instance (name : String) : Decidable (IsName name) := inferInstanceAs (Decidable (_ ∧ _))

/-- The text of the token fits its kind. -/
structure Token.Spelled (t : Token) : Prop where
  identifier : t.kind = .identifier → IsName t.lexeme
  kwThis : t.kind = .kwThis → t.lexeme = "this"
  kwSuper : t.kind = .kwSuper → t.lexeme = "super"

/-! ### Words -/

theorem TokenKind.ofWord_of_keyword {word : List Char} {kind : TokenKind}
    (h : TokenKind.ofWord word = kind) (hkind : kind ≠ .identifier) :
    (String.ofList word, kind) ∈ TokenKind.keywords := by
  unfold TokenKind.ofWord at h
  cases hlookup : TokenKind.keywords.lookup (String.ofList word) with
  | none =>
    rw [hlookup] at h
    exact absurd h.symm hkind
  | some found =>
    rw [hlookup, Option.getD_some] at h
    subst h
    obtain ⟨before, after, hsplit, -⟩ := List.lookup_eq_some_iff.mp hlookup
    rw [hsplit]
    exact List.mem_append_right before List.mem_cons_self

theorem TokenKind.isName_of_ofWord {word : List Char}
    (h : TokenKind.ofWord word = .identifier) : IsName (String.ofList word) := by
  unfold TokenKind.ofWord at h
  constructor
  · intro hthis
    rw [hthis] at h
    exact absurd h (by decide)
  · intro hsuper
    rw [hsuper] at h
    exact absurd h (by decide)

theorem TokenKind.ofWord_ne_eof (word : List Char) : TokenKind.ofWord word ≠ .eof := by
  intro h
  have hmem := TokenKind.ofWord_of_keyword h (by decide)
  simp [TokenKind.keywords] at hmem

theorem Token.spelled_ofWord (word : List Char) (line : Nat) :
    Token.Spelled ⟨TokenKind.ofWord word, String.ofList word, line⟩ := by
  constructor
  · exact TokenKind.isName_of_ofWord
  · intro h
    have hmem := TokenKind.ofWord_of_keyword h (by decide)
    simpa [TokenKind.keywords] using hmem
  · intro h
    have hmem := TokenKind.ofWord_of_keyword h (by decide)
    simpa [TokenKind.keywords] using hmem

def TokenKind.IsMark (kind : TokenKind) : Prop :=
  kind ≠ .identifier ∧ kind ≠ .kwThis ∧ kind ≠ .kwSuper ∧ kind ≠ .eof

instance (kind : TokenKind) : Decidable kind.IsMark := by
  unfold TokenKind.IsMark
  infer_instance

theorem Token.spelled_of_isMark {kind : TokenKind} (h : kind.IsMark) (lexeme : String)
    (line : Nat) : Token.Spelled ⟨kind, lexeme, line⟩ :=
  ⟨fun heq => absurd heq h.1, fun heq => absurd heq h.2.1, fun heq => absurd heq h.2.2.1⟩

/-! ### Pieces -/

theorem isMark_symbol? {c : Char} {kind : TokenKind} (h : symbol? c = some kind) :
    kind.IsMark := by
  unfold symbol? at h
  split at h <;> cases h <;> decide

theorem isMark_comparison? {c : Char} {alone withEqual : TokenKind}
    (h : comparison? c = some (alone, withEqual)) : alone.IsMark ∧ withEqual.IsMark := by
  unfold comparison? at h
  split at h <;> cases h <;> decide

/-- A token that starts with `c` is a word, or its kind is one that no word has. -/
theorem reach_token {c : Char} {rest : List Char} {kind : TokenKind} {count : Nat}
    (h : reach c rest = (.token kind, count)) :
    kind.IsMark ∨ (startsWord c = true ∧ kind = .ofWord (c :: rest.takeWhile continuesWord) ∧
      count = (rest.takeWhile continuesWord).length) := by
  -- Only words are no marks: the branches of `reach` one after the other.
  unfold reach at h
  split at h
  · cases h
  -- A slash, or a comment.
  split at h
  · split at h
    · cases h
    · cases h
      exact .inl (by decide)
  -- A string, if it is closed.
  split at h
  · simp only at h
    split at h
    · cases h
    · cases h
      exact .inl (by decide)
  -- A numeral.
  split at h
  · cases h
    exact .inl (by decide)
  -- A word.
  split at h
  · rename_i hword
    cases h
    exact .inr ⟨hword, rfl, rfl⟩
  -- A symbol, or a comparison with or without the equals sign.
  split at h
  · rename_i hsymbol
    cases h
    exact .inl (isMark_symbol? hsymbol)
  · rename_i hcomparison
    split at h
    · cases h
      exact .inl (isMark_comparison? hcomparison).2
    · cases h
      exact .inl (isMark_comparison? hcomparison).1
  · cases h

/-- The token of a piece is spelled right and is not the end of input. -/
theorem spelled_first {c : Char} {rest : List Char} {kind : TokenKind}
    (h : (first c rest).kind = .token kind) (line : Nat) :
    Token.Spelled ⟨kind, String.ofList (first c rest).text, line⟩ ∧ kind ≠ .eof := by
  have hreach : reach c rest = (.token kind, (reach c rest).2) := Prod.ext h rfl
  rcases reach_token hreach with hmark | ⟨-, hkind, hcount⟩
  · exact ⟨Token.spelled_of_isMark hmark _ line, hmark.2.2.2⟩
  · have htext : (first c rest).text = c :: rest.takeWhile continuesWord := by
      simp only [first, hcount, take_length_takeWhile]
    rw [htext, hkind]
    exact ⟨Token.spelled_ofWord _ line, TokenKind.ofWord_ne_eof _⟩

theorem spelled_divide (source : List Char) :
    ∀ piece ∈ divide source, ∀ kind, piece.kind = .token kind → ∀ line,
      Token.Spelled ⟨kind, String.ofList piece.text, line⟩ ∧ kind ≠ .eof := by
  fun_induction divide source with
  | case1 =>
    intro piece hpiece
    cases hpiece
  | case2 c rest ih =>
    intro piece hpiece kind hkind line
    rcases List.mem_cons.mp hpiece with rfl | hpiece
    · exact spelled_first hkind line
    · exact ih piece hpiece kind hkind line

/-! ### Tokens -/

namespace Item

theorem tokens_append (first second : List Item) :
    tokens (first ++ second) = tokens first ++ tokens second :=
  List.filterMap_append

@[simp]
theorem tokens_cons_token (t : Token) (rest : List Item) :
    tokens (.token t :: rest) = t :: tokens rest := rfl

@[simp]
theorem tokens_cons_error (e : LexicalError) (rest : List Item) :
    tokens (.error e :: rest) = tokens rest := rfl

@[simp]
theorem tokens_nil : tokens [] = [] := rfl

def Proper (t : Token) : Prop := t.Spelled ∧ t.kind ≠ .eof

theorem proper_semicolon (progress : Progress) :
    ∀ t ∈ tokens progress.semicolon, Proper t := by
  intro t ht
  unfold Progress.semicolon at ht
  split at ht
  · split at ht
    · rw [tokens_cons_token, tokens_nil, List.mem_singleton] at ht
      subst ht
      exact ⟨Token.spelled_of_isMark (by decide) _ _, by simp [Token.suppliedSemicolon]⟩
    · cases ht
  · cases ht

theorem proper_emit (progress : Progress) (piece : Piece)
    (h : ∀ kind, piece.kind = .token kind → ∀ line,
      Token.Spelled ⟨kind, String.ofList piece.text, line⟩ ∧ kind ≠ .eof) :
    ∀ t ∈ tokens (progress.emit piece), Proper t := by
  intro t ht
  unfold Progress.emit at ht
  cases hkind : piece.kind with
  | blank => simp [hkind] at ht
  | comment => simp [hkind] at ht
  | unexpected => simp [hkind] at ht
  | unterminated => simp [hkind] at ht
  | token kind =>
    simp only [hkind, tokens_append, List.mem_append, tokens_cons_token, tokens_nil,
      List.mem_singleton] at ht
    rcases ht with ht | rfl
    · unfold Progress.semicolonIfCrossed at ht
      split at ht
      · exact proper_semicolon progress t ht
      · cases ht
    · exact h kind hkind _

theorem tokens_ofPieces (progress : Progress) (pieces : List Piece)
    (h : ∀ piece ∈ pieces, ∀ kind, piece.kind = .token kind → ∀ line,
      Token.Spelled ⟨kind, String.ofList piece.text, line⟩ ∧ kind ≠ .eof) :
    ∃ body line, tokens (ofPieces progress pieces) = body ++ [.endOfInput line] ∧
      ∀ t ∈ body, Proper t := by
  induction pieces generalizing progress with
  | nil =>
    refine ⟨tokens progress.semicolon, progress.line, ?_, proper_semicolon progress⟩
    rw [ofPieces, tokens_append]
    rfl
  | cons piece pieces ih =>
    obtain ⟨body, line, htokens, hbody⟩ := ih (progress.advance piece)
      fun piece hpiece => h piece (List.mem_cons_of_mem _ hpiece)
    refine ⟨tokens (progress.emit piece) ++ body, line, ?_, ?_⟩
    · rw [ofPieces, tokens_append, htokens, List.append_assoc]
    · intro t ht
      rcases List.mem_append.mp ht with ht | ht
      · exact proper_emit progress piece (h piece List.mem_cons_self) t ht
      · exact hbody t ht

/-- The tokens of a source are spelled right, and the end of input is the last of them only. -/
theorem tokens_scan (source : String) :
    ∃ body line, tokens (scan source) = body ++ [.endOfInput line] ∧ ∀ t ∈ body, Proper t :=
  tokens_ofPieces _ _ (spelled_divide source.toList)

theorem spelled_tokens_scan (source : String) : ∀ t ∈ tokens (scan source), t.Spelled := by
  obtain ⟨body, line, htokens, hbody⟩ := tokens_scan source
  intro t ht
  rw [htokens] at ht
  rcases List.mem_append.mp ht with ht | ht
  · exact (hbody t ht).1
  · rw [List.mem_singleton.mp ht]
    exact ⟨nofun, nofun, nofun⟩

theorem endsWithOnlyEof_scan (source : String) :
    Grammar.EndsWithOnlyEof (tokens (scan source)) := by
  obtain ⟨body, line, htokens, hbody⟩ := tokens_scan source
  exact ⟨body, .endOfInput line, htokens, rfl, fun t ht => (hbody t ht).2⟩

end Item

end Lox
