import Lox.Proofs.Token.Spelling

/-!
# Pieces are as long as they can be

What can be read as a blank, a comment or a token is said here without regard to what
is behind it.  The pieces of a source are the longest ones that can be read where they
stand, except for a character that can start nothing, and a string that is never closed.
-/

namespace Lox.Piece

def marks : List (TokenKind × List Char) :=
  [(.leftParen, ['(']), (.rightParen, [')']), (.leftBrace, ['\x7b']), (.rightBrace, ['\x7d']),
   (.comma, [',']), (.dot, ['.']), (.minus, ['-']), (.plus, ['+']), (.semicolon, [';']),
   (.slash, ['/']), (.star, ['*']), (.percent, ['%']),
   (.bang, ['!']), (.bangEqual, ['!', '=']), (.equal, ['=']), (.equalEqual, ['=', '=']),
   (.greater, ['>']), (.greaterEqual, ['>', '=']), (.less, ['<']), (.lessEqual, ['<', '='])]

/-- The text can be read as a piece of this kind. -/
inductive Reads : PieceKind → List Char → Prop where
  | blank {c : Char} : c ∈ [' ', '\t', '\r', '\n'] → Reads .blank [c]
  | comment {body : List Char} : '\n' ∉ body → Reads .comment ('/' :: '/' :: body)
  | mark {kind : TokenKind} {text : List Char} : (kind, text) ∈ marks → Reads (.token kind) text
  | keyword {word : List Char} {kind : TokenKind} :
      (String.ofList word, kind) ∈ TokenKind.keywords → Reads (.token kind) word
  | identifier {c : Char} {more : List Char} : startsWord c = true →
      (∀ d ∈ more, continuesWord d = true) →
      (∀ kind, (String.ofList (c :: more), kind) ∉ TokenKind.keywords) →
      Reads (.token .identifier) (c :: more)
  | integer {digits : List Char} : digits ≠ [] → (∀ d ∈ digits, d.isDigit = true) →
      Reads (.token .number) digits
  | fraction {digits decimals : List Char} : digits ≠ [] → (∀ d ∈ digits, d.isDigit = true) →
      decimals ≠ [] → (∀ d ∈ decimals, d.isDigit = true) →
      Reads (.token .number) (digits ++ '.' :: decimals)
  | string {body : List Char} : '"' ∉ body → Reads (.token .string) ('"' :: (body ++ ['"']))

/-- The piece is right in front of what is behind it. -/
inductive Fits : Piece → List Char → Prop where
  | longest {piece : Piece} {behind : List Char} : Reads piece.kind piece.text →
      (∀ kind more rest, behind = more ++ rest → Reads kind (piece.text ++ more) → more = []) →
      Fits piece behind
  | unexpected {c : Char} {behind : List Char} : (∀ kind more, ¬ Reads kind (c :: more)) →
      Fits ⟨.unexpected, [c]⟩ behind
  | unterminated {body : List Char} : '"' ∉ body → Fits ⟨.unterminated, '"' :: body⟩ []

/-- The pieces are the whole text, one behind the other, and each of them fits. -/
inductive Divides : List Piece → List Char → Prop where
  | nil : Divides [] []
  | cons {piece : Piece} {pieces : List Piece} {behind : List Char} : piece.text ≠ [] →
      Fits piece behind → Divides pieces behind → Divides (piece :: pieces) (piece.text ++ behind)

/-! ### No text that can be read is longer than the piece -/

theorem length_le_takeWhile {p : Char → Bool} {run : List Char} (behind : List Char)
    (hrun : ∀ c ∈ run, p c = true) :
    run.length ≤ ((run ++ behind).takeWhile p).length := by
  rw [List.takeWhile_append_of_pos hrun, List.length_append]
  exact Nat.le_add_right _ _

/-- Keywords look like words. -/
theorem word_of_keyword {word : List Char} {kind : TokenKind}
    (h : (String.ofList word, kind) ∈ TokenKind.keywords) :
    word.head?.any startsWord = true ∧ word.tail.all continuesWord = true := by
  have hall : ∀ entry ∈ TokenKind.keywords, entry.1.toList.head?.any startsWord = true ∧
      entry.1.toList.tail.all continuesWord = true := by
    decide
  have hword := hall _ h
  rwa [String.toList_ofList] at hword

theorem length_le_word {c : Char} {text behind : List Char} (hc : startsWord c = true)
    (htext : ∀ d ∈ text, continuesWord d = true) :
    text.length ≤ (reach c (text ++ behind)).2 := by
  rw [reach_word hc]
  exact length_le_takeWhile behind htext

theorem length_le_fraction {decimals : List Char} (behind : List Char) (hsome : decimals ≠ [])
    (hdecimals : ∀ d ∈ decimals, d.isDigit = true) :
    ('.' :: decimals).length ≤ fractionLength ('.' :: decimals ++ behind) := by
  cases decimals with
  | nil => exact absurd rfl hsome
  | cons d more =>
    have hmore := length_le_takeWhile behind
      fun e he => hdecimals e (List.mem_cons_of_mem d he)
    have hd := hdecimals d List.mem_cons_self
    simp only [List.cons_append, fractionLength, hd, if_true, List.length_cons]
    omega

/-- No numeral is longer than the one that is taken. -/
theorem length_le_numeral {digits decimals behind : List Char}
    (hdigits : ∀ d ∈ digits, d.isDigit = true) (hsome : decimals ≠ [])
    (hdecimals : ∀ d ∈ decimals, d.isDigit = true) :
    (digits ++ '.' :: decimals).length ≤ numeralLength (digits ++ '.' :: decimals ++ behind) := by
  have hstop : StartsWith? Char.isDigit ('.' :: decimals ++ behind) = false := rfl
  have hfraction := length_le_fraction behind hsome hdecimals
  rw [List.append_assoc, numeralLength, takeWhile_run hdigits hstop, dropWhile_run hdigits hstop,
    List.length_append]
  exact Nat.add_le_add_left hfraction _

/-- A string that is closed is a piece, whatever is behind it. -/
theorem reach_quoted {body : List Char} (hbody : '"' ∉ body) (behind : List Char) :
    reach '"' (body ++ ['"'] ++ behind) = (.token .string, (body ++ ['"']).length) := by
  have hrun : ∀ d ∈ body, decide (d ≠ '"') = true := by
    intro d hd
    apply decide_eq_true
    rintro rfl
    exact hbody hd
  have hinside : (body ++ ['"'] ++ behind).takeWhile (· ≠ '"') = body := by
    rw [List.append_assoc]
    exact takeWhile_run hrun rfl
  rw [reach_quote, hinside, if_neg (by simp)]
  simp

/-- No text that can be read reaches further than the piece does. -/
theorem Reads.length_le {c : Char} {kind : PieceKind} {text : List Char}
    (h : Reads kind (c :: text)) (behind : List Char) :
    text.length ≤ (reach c (text ++ behind)).2 := by
  generalize hword : c :: text = word at h
  -- By the kind of text; each kind reaches at least to the end of the longest text of its kind.
  cases h with
  | blank =>
    cases hword
    exact Nat.zero_le _
  | comment hbody =>
    cases hword
    rename_i body
    rw [reach_slash, if_pos (by rfl)]
    apply length_le_takeWhile behind
    intro d hd
    rcases List.mem_cons.mp hd with rfl | hd
    · rfl
    · simp only [ne_eq, decide_eq_true_eq]
      rintro rfl
      exact hbody hd
  -- The twenty marks one by one: none is longer than what is reached from its first character.
  | mark hmark =>
    subst hword
    simp only [marks, List.mem_cons, Prod.mk.injEq, List.cons.injEq, List.not_mem_nil,
      or_false] at hmark
    rcases hmark with h | h | h | h | h | h | h | h | h | h | h | h | h | h | h | h | h | h | h | h
    all_goals
      obtain ⟨-, rfl, rfl⟩ := h
      first | exact Nat.zero_le _ | exact Nat.le_refl 1
  -- A keyword is a word, which ends only where no word character follows.
  | keyword hkeyword =>
    subst hword
    obtain ⟨hc, htext⟩ := word_of_keyword hkeyword
    exact length_le_word hc (List.all_eq_true.mp htext)
  | identifier hc htext =>
    cases hword
    exact length_le_word hc htext
  -- The digits of an integer begin a numeral, which may go on with a fraction.
  | integer hsome hdigits =>
    subst hword
    rw [reach_digit (hdigits c List.mem_cons_self)]
    have htext := length_le_takeWhile behind
      fun d hd => hdigits d (List.mem_cons_of_mem c hd)
    exact Nat.le_trans htext (Nat.le_add_right _ _)
  | @fraction digits decimals hsome hdigits hfraction hdecimals =>
    cases digits with
    | nil => exact absurd rfl hsome
    | cons d digits =>
      cases hword
      rw [reach_digit (hdigits c List.mem_cons_self)]
      exact length_le_numeral (fun d hd => hdigits d (List.mem_cons_of_mem c hd)) hfraction
        hdecimals
  -- A string ends at its first closing quote, as the piece does.
  | @string body hbody =>
    cases hword
    exact Nat.le_of_eq (congrArg Prod.snd (reach_quoted hbody behind)).symm

/-! ### Every piece fits -/

theorem Reads.of_ofWord {c : Char} {more : List Char} (hc : startsWord c = true)
    (hmore : ∀ d ∈ more, continuesWord d = true) :
    Reads (.token (.ofWord (c :: more))) (c :: more) := by
  unfold TokenKind.ofWord
  cases hlookup : TokenKind.keywords.lookup (String.ofList (c :: more)) with
  | none =>
    refine .identifier hc hmore ?_
    intro kind hkeyword
    have hne := List.lookup_eq_none_iff.mp hlookup _ hkeyword
    simp at hne
  | some kind =>
    obtain ⟨before, after, hsplit, -⟩ := List.lookup_eq_some_iff.mp hlookup
    refine .keyword ?_
    rw [hsplit]
    exact List.mem_append_right before List.mem_cons_self

theorem Reads.of_symbol? {c : Char} {kind : TokenKind} (h : symbol? c = some kind) :
    Reads (.token kind) [c] := by
  apply Reads.mark
  unfold symbol? at h
  split at h <;> cases h <;> simp [marks]

theorem Reads.of_comparison? {c : Char} {alone withEqual : TokenKind}
    (h : comparison? c = some (alone, withEqual)) :
    Reads (.token alone) [c] ∧ Reads (.token withEqual) [c, '='] := by
  unfold comparison? at h
  split at h <;> cases h <;> exact ⟨.mark (by simp [marks]), .mark (by simp [marks])⟩

theorem take_fractionLength (text : List Char) :
    fractionLength text = 0 ∨ ∃ decimals, decimals ≠ [] ∧ (∀ d ∈ decimals, d.isDigit = true) ∧
      text.take (fractionLength text) = '.' :: decimals := by
  unfold fractionLength
  split
  · rename_i d rest
    by_cases hd : d.isDigit = true
    · refine .inr ⟨d :: rest.takeWhile Char.isDigit, List.cons_ne_nil _ _, ?_, ?_⟩
      · intro e he
        rcases List.mem_cons.mp he with rfl | he
        · exact hd
        · exact mem_takeWhile e he
      · rw [if_pos hd, Nat.add_comm 2]
        simp only [List.take_succ_cons, take_length_takeWhile]
    · exact .inl (if_neg hd)
  · exact .inl rfl

theorem Reads.of_numeral {c : Char} (hc : c.isDigit = true) (rest : List Char) :
    Reads (.token .number) (c :: rest.take (numeralLength rest)) := by
  have hdigits : ∀ d ∈ c :: rest.takeWhile Char.isDigit, d.isDigit = true := by
    intro d hd
    rcases List.mem_cons.mp hd with rfl | hd
    · exact hc
    · exact mem_takeWhile d hd
  rw [take_numeralLength, ← List.cons_append]
  rcases take_fractionLength (rest.dropWhile Char.isDigit) with hnone |
    ⟨decimals, hsome, hdecimals, htake⟩
  · rw [hnone, List.take_zero, List.append_nil]
    exact .integer (List.cons_ne_nil _ _) hdigits
  · rw [htake]
    exact .fraction (List.cons_ne_nil _ _) hdigits hsome hdecimals

theorem Reads.of_closed {rest : List Char}
    (h : (rest.drop (rest.takeWhile (· ≠ '"')).length).isEmpty = false) :
    Reads (.token .string) ('"' :: rest.take ((rest.takeWhile (· ≠ '"')).length + 1)) := by
  have hsplit : rest.take ((rest.takeWhile (· ≠ '"')).length + 1) =
      rest.takeWhile (· ≠ '"') ++ (rest.dropWhile (· ≠ '"')).take 1 := by
    rw [List.take_add, take_length_takeWhile, drop_length_takeWhile]
  have hstop := startsWith?_dropWhile (· ≠ '"') rest
  rw [drop_length_takeWhile] at h
  rw [hsplit]
  cases hdrop : rest.dropWhile (· ≠ '"') with
  | nil =>
    rw [hdrop] at h
    cases h
  | cons d more =>
    rw [hdrop] at hstop
    have hd : d = '"' := by simpa [StartsWith?] using hstop
    subst hd
    refine .string ?_
    intro hmem
    simpa using mem_takeWhile _ hmem

/-- What a character that is there for something can be read as. -/
theorem Reads.of_reach {c : Char} {rest : List Char}
    (hknown : (reach c rest).1 ≠ .unexpected) (hclosed : (reach c rest).1 ≠ .unterminated) :
    Reads (reach c rest).1 (c :: rest.take (reach c rest).2) := by
  -- The classes of first characters are taken in the order in which `reach` asks for them.
  by_cases hslash : c = '/'
  · subst hslash
    -- A slash begins a comment if another follows, and is a mark of its own otherwise.
    rw [reach_slash]
    by_cases hcomment : rest.head? = some '/'
    · obtain ⟨more, rfl⟩ := List.head?_eq_some_iff.mp hcomment
      rw [if_pos hcomment, take_length_takeWhile]
      refine .comment ?_
      intro hmem
      simpa using mem_takeWhile _ hmem
    · rw [if_neg hcomment]
      exact .mark (by simp [marks])
  by_cases hquote : c = '"'
  · subst hquote
    rw [reach_quote] at hclosed ⊢
    split at hclosed
    · exact absurd rfl hclosed
    · -- The string is closed, the other case being excluded.
      rename_i hbehind
      rw [if_neg hbehind]
      exact .of_closed ((Bool.not_eq_true _).mp hbehind)
  by_cases hdigit : c.isDigit = true
  · rw [reach_digit hdigit]
    exact .of_numeral hdigit rest
  by_cases hword : startsWord c = true
  · rw [reach_word hword, take_length_takeWhile]
    exact .of_ofWord hword mem_takeWhile
  unfold reach at hknown ⊢
  simp only [hslash, hquote, hdigit, hword, if_false] at hknown ⊢
  -- What is left are blanks, symbols and comparisons, and nothing else by `hknown`.
  by_cases hblank : isBlank c = true
  · simp only [hblank, if_true]
    refine .blank ?_
    simpa [isBlank, or_assoc, or_comm, or_left_comm] using hblank
  simp only [hblank] at hknown ⊢
  cases hsymbol : symbol? c with
  | some kind => exact .of_symbol? hsymbol
  | none =>
    cases hcomparison : comparison? c with
    | none =>
      rw [hsymbol, hcomparison] at hknown
      exact absurd rfl hknown
    | some kinds =>
      obtain ⟨halone, hequals⟩ := Reads.of_comparison? hcomparison
      by_cases hequal : rest.head? = some '='
      · obtain ⟨more, rfl⟩ := List.head?_eq_some_iff.mp hequal
        exact hequals
      · simp only [hequal, if_false]
        exact halone

/-- The character is in none of the classes of characters that something starts with. -/
structure Useless (c : Char) : Prop where
  blank : isBlank c = false
  slash : c ≠ '/'
  quote : c ≠ '"'
  digit : c.isDigit = false
  word : startsWord c = false
  symbol : symbol? c = none
  comparison : comparison? c = none

/-- A character that forms no token is a piece by itself. -/
theorem reach_unexpected {c : Char} {rest : List Char} (h : (reach c rest).1 = .unexpected) :
    Useless c ∧ (reach c rest).2 = 0 := by
  unfold reach at h ⊢
  split at h
  · cases h
  rename_i hblank
  split at h
  · split at h <;> cases h
  rename_i hslash
  split at h
  · simp only at h
    split at h <;> cases h
  rename_i hquote
  split at h
  · cases h
  rename_i hdigit
  split at h
  · cases h
  rename_i hword
  split at h
  · cases h
  · split at h <;> cases h
  · rename_i hsymbol hcomparison
    refine ⟨⟨?_, hslash, hquote, ?_, ?_, hsymbol, hcomparison⟩, ?_⟩
    · simpa using hblank
    · simpa using hdigit
    · simpa using hword
    · simp only [hblank, hslash, hquote, hdigit, hword, if_false, Bool.false_eq_true]

/-- Nothing that can be read starts with such a character. -/
theorem Useless.not_reads {c : Char} (h : Useless c) (kind : PieceKind) (more : List Char) :
    ¬ Reads kind (c :: more) := by
  intro hreads
  -- Every kind of text starts with a character of one of the classes, and `c` is in none.
  generalize hword : c :: more = word at hreads
  cases hreads with
  | blank hblank =>
    cases hword
    have hclass : [' ', '\t', '\r', '\n'].all isBlank = true := rfl
    exact absurd (List.all_eq_true.mp hclass c hblank) (by simp [h.blank])
  | comment =>
    cases hword
    exact h.slash rfl
  | mark hmark =>
    subst hword
    have hclass : (marks.all fun entry => entry.2.head?.all fun d =>
        d = '/' || (symbol? d).isSome || (comparison? d).isSome) = true := rfl
    have hstart := List.all_eq_true.mp hclass _ hmark
    simp [h.slash, h.symbol, h.comparison] at hstart
  | keyword hkeyword =>
    subst hword
    exact absurd (word_of_keyword hkeyword).1 (by simp [h.word])
  | identifier hc =>
    cases hword
    exact absurd hc (by simp [h.word])
  | integer hsome hdigits =>
    subst hword
    exact absurd (hdigits c List.mem_cons_self) (by simp [h.digit])
  | @fraction digits decimals hsome hdigits =>
    cases digits with
    | nil => exact hsome rfl
    | cons d digits =>
      cases hword
      exact absurd (hdigits c List.mem_cons_self) (by simp [h.digit])
  | string =>
    cases hword
    exact h.quote rfl

/-- A string that is never closed takes the rest of the source. -/
theorem reach_unterminated {c : Char} {rest : List Char}
    (h : (reach c rest).1 = .unterminated) :
    c = '"' ∧ '"' ∉ rest ∧ (reach c rest).2 = rest.length := by
  -- Only a quote reaches to the end without closing.
  have hquote : c = '"' := by
    unfold reach at h
    split at h
    · cases h
    split at h
    · split at h <;> cases h
    split at h
    · assumption
    split at h
    · cases h
    split at h
    · cases h
    split at h
    · cases h
    · split at h <;> cases h
    · cases h
  subst hquote
  rw [reach_quote] at h ⊢
  split at h
  · -- The quote was not found, so all that follows is within the string.
    rename_i hopen
    rw [if_pos hopen]
    rw [drop_length_takeWhile, List.isEmpty_iff] at hopen
    have hall := List.takeWhile_append_dropWhile (p := (· ≠ '"')) (l := rest)
    rw [hopen, List.append_nil] at hall
    refine ⟨rfl, ?_, congrArg List.length hall⟩
    intro hmem
    rw [← hall] at hmem
    simpa using mem_takeWhile _ hmem
  · cases h

/-- Every piece fits what is behind it. -/
theorem fits_first (c : Char) (rest : List Char) : Fits (first c rest) (remainder c rest) := by
  by_cases hunexpected : (reach c rest).1 = .unexpected
  · obtain ⟨huseless, hcount⟩ := reach_unexpected hunexpected
    rw [first, hunexpected, hcount, List.take_zero]
    exact .unexpected huseless.not_reads
  by_cases hunterminated : (reach c rest).1 = .unterminated
  · obtain ⟨rfl, hbody, hcount⟩ := reach_unterminated hunterminated
    rw [first, remainder, hunterminated, hcount, List.take_length, List.drop_length]
    exact .unterminated hbody
  · refine .longest (.of_reach hunexpected hunterminated) ?_
    intro kind more behind hbehind hreads
    have hrest : rest = rest.take (reach c rest).2 ++ more ++ behind := by
      rw [List.append_assoc, ← hbehind]
      exact (List.take_append_drop _ rest).symm
    have hreads : Reads kind (c :: (rest.take (reach c rest).2 ++ more)) := hreads
    have hle := hreads.length_le behind
    rw [← hrest, List.length_append, List.length_take_of_le (reach_le c rest)] at hle
    exact List.length_eq_zero_iff.mp (by omega)

/-- The pieces of a source divide it. -/
theorem divides_divide (source : List Char) : Divides (divide source) source := by
  fun_induction divide source with
  | case1 => exact .nil
  | case2 c rest ih =>
    have hcons : Divides (first c rest :: divide (remainder c rest))
        ((first c rest).text ++ remainder c rest) := .cons (List.cons_ne_nil _ _) (fits_first c rest) ih
    rwa [text_first_append] at hcons

end Lox.Piece
