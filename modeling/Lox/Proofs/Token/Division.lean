import Lox.Token.Piece

/-!
# Where pieces end

How far a piece reaches depends on the characters in it and on little of what is behind
it: whether a word, a numeral, a comment or an operator could go on there.  So what is
behind a piece can be exchanged, as long as these questions have the same answers.
-/

namespace Lox.Piece

def StartsWith? (p : Char → Bool) (text : List Char) : Bool := text.head?.any p

/-- The texts answer alike whether what stands before them could go on. -/
structure SameFront (text text' : List Char) : Prop where
  digit : StartsWith? Char.isDigit text' = StartsWith? Char.isDigit text
  word : StartsWith? continuesWord text' = StartsWith? continuesWord text
  slash : StartsWith? (· = '/') text' = StartsWith? (· = '/') text
  equal : StartsWith? (· = '=') text' = StartsWith? (· = '=') text
  line : StartsWith? (· ≠ '\n') text' = StartsWith? (· ≠ '\n') text
  fraction : fractionLength text' = 0 ↔ fractionLength text = 0

/-! ### Runs of characters -/

theorem startsWith?_dropWhile (p : Char → Bool) (text : List Char) :
    StartsWith? p (text.dropWhile p) = false := by
  induction text with
  | nil => rfl
  | cons c rest ih =>
    by_cases hc : p c = true
    · rw [List.dropWhile_cons_of_pos hc]
      exact ih
    · rw [List.dropWhile_cons_of_neg hc]
      simpa [StartsWith?] using hc

theorem takeWhile_of_not_startsWith? {p : Char → Bool} {text : List Char}
    (h : StartsWith? p text = false) : text.takeWhile p = [] := by
  cases text with
  | nil => rfl
  | cons c rest =>
    apply List.takeWhile_cons_of_neg
    simpa [StartsWith?] using h

theorem dropWhile_of_not_startsWith? {p : Char → Bool} {text : List Char}
    (h : StartsWith? p text = false) : text.dropWhile p = text := by
  cases text with
  | nil => rfl
  | cons c rest =>
    apply List.dropWhile_cons_of_neg
    simpa [StartsWith?] using h

/-- A run of characters ends where it did if something else is behind it that does not go on. -/
theorem takeWhile_run {p : Char → Bool} {run text : List Char} (hrun : ∀ c ∈ run, p c = true)
    (htext : StartsWith? p text = false) : (run ++ text).takeWhile p = run := by
  rw [List.takeWhile_append_of_pos hrun, takeWhile_of_not_startsWith? htext, List.append_nil]

theorem dropWhile_run {p : Char → Bool} {run text : List Char} (hrun : ∀ c ∈ run, p c = true)
    (htext : StartsWith? p text = false) : (run ++ text).dropWhile p = text := by
  rw [List.dropWhile_append_of_pos hrun, dropWhile_of_not_startsWith? htext]

theorem mem_takeWhile {p : Char → Bool} {text : List Char} : ∀ c ∈ text.takeWhile p, p c = true :=
  List.all_eq_true.mp List.all_takeWhile

theorem take_length_takeWhile (p : Char → Bool) (text : List Char) :
    text.take (text.takeWhile p).length = text.takeWhile p :=
  (congrArg (List.take _) List.takeWhile_append_dropWhile.symm).trans List.take_left

theorem drop_length_takeWhile (p : Char → Bool) (text : List Char) :
    text.drop (text.takeWhile p).length = text.dropWhile p :=
  (congrArg (List.drop _) List.takeWhile_append_dropWhile.symm).trans List.drop_left

/-! ### How far a piece reaches -/

theorem length_fractionLength_le (text : List Char) : fractionLength text ≤ text.length := by
  unfold fractionLength
  split
  · rename_i d rest
    split
    · have hle := (List.takeWhile_sublist Char.isDigit (l := rest)).length_le
      simp only [List.length_cons]
      omega
    · exact Nat.zero_le _
  · exact Nat.zero_le _

/-- A fraction ends where it did. -/
theorem fractionLength_congr {text other : List Char} (hfraction : fractionLength text ≠ 0)
    (hfront : SameFront (text.drop (fractionLength text)) other) :
    fractionLength (text.take (fractionLength text) ++ other) = fractionLength text := by
  unfold fractionLength at hfraction hfront ⊢
  split at hfraction
  · rename_i d rest
    by_cases hd : d.isDigit = true
    · simp only [hd, if_true] at hfront ⊢
      rw [Nat.add_comm 2] at hfront
      simp only [List.drop_succ_cons] at hfront
      rw [drop_length_takeWhile] at hfront
      have hstop := hfront.digit.trans (startsWith?_dropWhile _ _)
      have htake : ('.' :: d :: rest).take (2 + (rest.takeWhile Char.isDigit).length) =
          '.' :: d :: rest.takeWhile Char.isDigit := by
        rw [Nat.add_comm 2]
        simp only [List.take_succ_cons, take_length_takeWhile]
      rw [htake]
      simp only [List.cons_append, hd, if_true, takeWhile_run mem_takeWhile hstop]
    · simp [hd] at hfraction
  · exact absurd rfl hfraction

/-- A numeral is its digits and its fraction. -/
theorem take_numeralLength (rest : List Char) :
    rest.take (numeralLength rest) = rest.takeWhile Char.isDigit ++
      (rest.dropWhile Char.isDigit).take (fractionLength (rest.dropWhile Char.isDigit)) := by
  rw [numeralLength, List.take_add, take_length_takeWhile, drop_length_takeWhile]

theorem numeralLength_congr {rest other : List Char}
    (hfront : SameFront (rest.drop (numeralLength rest)) other) :
    numeralLength (rest.take (numeralLength rest) ++ other) = numeralLength rest := by
  rw [numeralLength, ← List.drop_drop, drop_length_takeWhile] at hfront
  rw [take_numeralLength, List.append_assoc]
  generalize hbehind : rest.dropWhile Char.isDigit = behind at hfront
  have hnodigit : StartsWith? Char.isDigit behind = false := hbehind ▸ startsWith?_dropWhile _ _
  have hgoal : StartsWith? Char.isDigit (behind.take (fractionLength behind) ++ other) = false ∧
      fractionLength (behind.take (fractionLength behind) ++ other) = fractionLength behind := by
    by_cases hfraction : fractionLength behind = 0
    · rw [hfraction, List.drop_zero] at hfront
      rw [hfraction, List.take_zero, List.nil_append]
      exact ⟨hfront.digit.trans hnodigit, hfront.fraction.mpr hfraction⟩
    · refine ⟨?_, fractionLength_congr hfraction hfront⟩
      obtain ⟨c, more, rfl⟩ : ∃ c more, behind = c :: more := by
        cases behind with
        | nil => exact absurd rfl hfraction
        | cons c more => exact ⟨c, more, rfl⟩
      obtain ⟨k, hk⟩ := Nat.exists_eq_succ_of_ne_zero hfraction
      rw [hk]
      exact hnodigit
  rw [numeralLength, takeWhile_run mem_takeWhile hgoal.1, dropWhile_run mem_takeWhile hgoal.1,
    hgoal.2, numeralLength, hbehind]

theorem head?_eq_some_iff {c : Char} {text : List Char} :
    text.head? = some c ↔ StartsWith? (· = c) text = true := by
  cases text with
  | nil => simp [StartsWith?]
  | cons d rest => simp [StartsWith?]

/-- A string ends with its closing quote, whatever is behind it. -/
theorem string_congr {rest : List Char} (other : List Char)
    (hended : (rest.drop (rest.takeWhile (· ≠ '"')).length).isEmpty = false) :
    (rest.take ((rest.takeWhile (· ≠ '"')).length + 1) ++ other).takeWhile (· ≠ '"') =
        rest.takeWhile (· ≠ '"') ∧
      ((rest.take ((rest.takeWhile (· ≠ '"')).length + 1) ++ other).drop
        (rest.takeWhile (· ≠ '"')).length).isEmpty = false := by
  have hbehind := startsWith?_dropWhile (· ≠ '"') rest
  rw [drop_length_takeWhile] at hended
  have hsplit : rest.take ((rest.takeWhile (· ≠ '"')).length + 1) =
      rest.takeWhile (· ≠ '"') ++ (rest.dropWhile (· ≠ '"')).take 1 := by
    rw [List.take_add, take_length_takeWhile, drop_length_takeWhile]
  rw [hsplit, List.append_assoc, List.drop_left]
  cases hdrop : rest.dropWhile (· ≠ '"') with
  | nil =>
    rw [hdrop] at hended
    cases hended
  | cons d more =>
    rw [hdrop] at hbehind
    exact ⟨takeWhile_run mem_takeWhile hbehind, rfl⟩

theorem reach_slash (rest : List Char) :
    reach '/' rest = if rest.head? = some '/' then (.comment, (rest.takeWhile (· ≠ '\n')).length)
      else (.token .slash, 0) := rfl

theorem reach_quote (rest : List Char) :
    reach '"' rest =
      if (rest.drop (rest.takeWhile (· ≠ '"')).length).isEmpty then
        (.unterminated, (rest.takeWhile (· ≠ '"')).length)
      else (.token .string, (rest.takeWhile (· ≠ '"')).length + 1) := rfl

theorem not_isBlank_of {p : Char → Bool} (hp : p ' ' = false ∧ p '\r' = false ∧ p '\t' = false ∧
    p '\n' = false) {c : Char} (hc : p c = true) : isBlank c = false := by
  obtain ⟨hspace, hreturn, htab, hnewline⟩ := hp
  rw [isBlank, Bool.or_eq_false_iff, Bool.or_eq_false_iff, Bool.or_eq_false_iff]
  have hne : ∀ d, p d = false → decide (c = d) = false := by
    intro d hd
    apply decide_eq_false
    rintro rfl
    rw [hd] at hc
    cases hc
  exact ⟨⟨⟨hne _ hspace, hne _ hreturn⟩, hne _ htab⟩, hne _ hnewline⟩

theorem reach_digit {c : Char} (hc : c.isDigit = true) (rest : List Char) :
    reach c rest = (.token .number, numeralLength rest) := by
  have hblank : isBlank c = false := not_isBlank_of (by decide) hc
  have hslash : c ≠ '/' := by
    rintro rfl
    cases hc
  have hquote : c ≠ '"' := by
    rintro rfl
    cases hc
  simp only [reach, hblank, hslash, hquote, hc, if_true, if_false, Bool.false_eq_true]

theorem not_isDigit_of_startsWord {c : Char} (hc : startsWord c = true) : c.isDigit = false := by
  -- Letters are behind all digits.
  have hbehind : ∀ first : Char, '9'.toNat < first.toNat → first.val ≤ c.val →
      c.isDigit = false := by
    intro first hfirst hle
    refine Bool.eq_false_iff.mpr fun hdigit => ?_
    have hhigh : c.val ≤ '9'.val := of_decide_eq_true (Bool.and_eq_true_iff.mp hdigit).2
    exact Nat.lt_irrefl _ (Nat.lt_of_lt_of_le hfirst (Nat.le_trans hle hhigh))
  rcases Bool.or_eq_true_iff.mp hc with hletter | hunderscore
  · rcases Bool.or_eq_true_iff.mp hletter with hupper | hlower
    · exact hbehind 'A' (by decide) (of_decide_eq_true hupper).1
    · exact hbehind 'a' (by decide) (of_decide_eq_true (Bool.and_eq_true_iff.mp hlower).1)
  · rw [of_decide_eq_true hunderscore]
    rfl

theorem continuesWord_of_startsWord {c : Char} (hc : startsWord c = true) :
    continuesWord c = true := by
  unfold startsWord at hc
  unfold continuesWord Char.isAlphanum
  rcases Bool.or_eq_true_iff.mp hc with hletter | hunderscore
  · simp [hletter]
  · simp [hunderscore]

theorem reach_word {c : Char} (hc : startsWord c = true) (rest : List Char) :
    reach c rest = (.token (.ofWord (c :: rest.takeWhile continuesWord)),
      (rest.takeWhile continuesWord).length) := by
  have hblank : isBlank c = false := not_isBlank_of (by decide) hc
  have hslash : c ≠ '/' := by
    rintro rfl
    cases hc
  have hquote : c ≠ '"' := by
    rintro rfl
    cases hc
  have hdigit : c.isDigit = false := not_isDigit_of_startsWord hc
  simp only [reach, hblank, hslash, hquote, hdigit, hc, if_true, if_false, Bool.false_eq_true]

theorem numeralLength_le (rest : List Char) : numeralLength rest ≤ rest.length := by
  have hbehind := length_fractionLength_le (rest.dropWhile Char.isDigit)
  have hlength := congrArg List.length (List.takeWhile_append_dropWhile (p := Char.isDigit) (l := rest))
  rw [List.length_append] at hlength
  rw [numeralLength]
  omega

/-- A piece is part of the text. -/
theorem reach_le (c : Char) (rest : List Char) : (reach c rest).2 ≤ rest.length := by
  have hrun : ∀ p : Char → Bool, (rest.takeWhile p).length ≤ rest.length :=
    fun p => (List.takeWhile_sublist p).length_le
  -- Class by class, in the order of `reach`.
  by_cases hslash : c = '/'
  · subst hslash
    rw [reach_slash]
    split
    · exact hrun _
    · exact Nat.zero_le _
  by_cases hquote : c = '"'
  · subst hquote
    rw [reach_quote]
    split
    · exact hrun _
    · rename_i hclosed
      -- A closed string has its quote behind the characters within.
      have hlt : (rest.takeWhile (· ≠ '"')).length < rest.length := by
        simpa [List.drop_eq_nil_iff] using hclosed
      exact hlt
  by_cases hdigit : c.isDigit = true
  · rw [reach_digit hdigit]
    exact numeralLength_le rest
  by_cases hword : startsWord c = true
  · rw [reach_word hword]
    exact hrun _
  unfold reach
  simp only [hslash, hquote, hdigit, hword, if_false]
  by_cases hblank : isBlank c = true
  · simp only [hblank, if_true]
    exact Nat.zero_le _
  simp only [hblank]
  cases hsymbol : symbol? c with
  | some kind => exact Nat.zero_le _
  | none =>
    cases hcomparison : comparison? c with
    | none => exact Nat.zero_le _
    | some kinds =>
      by_cases hequal : rest.head? = some '='
      · cases rest with
        | nil => cases hequal
        | cons d more => simp [hequal]
      · simp [hequal]

/-- A piece is what it was with anything else behind it that has the same front. -/
theorem reach_congr {c : Char} {rest other : List Char}
    (hended : (reach c rest).1 ≠ .unterminated)
    (hfront : SameFront (rest.drop (reach c rest).2) other) :
    reach c (rest.take (reach c rest).2 ++ other) = reach c rest := by
  -- The piece is decided by its first character, class by class, and each class looks only as
  -- far as `SameFront` fixes what is behind.
  by_cases hslash : c = '/'
  · subst hslash
    rw [reach_slash rest] at hfront ⊢
    by_cases hcomment : rest.head? = some '/'
    · -- A comment takes the rest of its line.
      obtain ⟨more, rfl⟩ := List.head?_eq_some_iff.mp hcomment
      rw [if_pos hcomment, drop_length_takeWhile] at hfront
      have hstop := hfront.line.trans (startsWith?_dropWhile _ _)
      rw [if_pos hcomment, take_length_takeWhile, reach_slash, takeWhile_run mem_takeWhile hstop]
      exact if_pos rfl
    · -- A slash looks at one more character, which `hfront.slash` fixes.
      rw [if_neg hcomment, List.drop_zero] at hfront
      rw [if_neg hcomment, List.take_zero, List.nil_append, reach_slash, if_neg]
      rwa [head?_eq_some_iff, hfront.slash, ← head?_eq_some_iff]
  by_cases hquote : c = '"'
  · -- A string ends at its closing quote, so what is behind does not matter.
    subst hquote
    rw [reach_quote rest] at hended ⊢
    split at hended
    · exact absurd rfl hended
    · rename_i hclosed
      obtain ⟨hinside, hbehind⟩ := string_congr other ((Bool.not_eq_true _).mp hclosed)
      rw [if_neg hclosed, reach_quote, hinside, if_neg (by rw [hbehind]; exact Bool.false_ne_true)]
  -- A numeral is as long as the digits, and the fraction, in front of it.
  by_cases hdigit : c.isDigit = true
  · rw [reach_digit hdigit rest] at hfront ⊢
    rw [reach_digit hdigit, numeralLength_congr hfront]
  -- A word ends where no letter, digit or underscore follows.
  by_cases hword : startsWord c = true
  · rw [reach_word hword rest] at hfront ⊢
    rw [drop_length_takeWhile] at hfront
    have hstop := hfront.word.trans (startsWith?_dropWhile _ _)
    rw [take_length_takeWhile, reach_word hword, takeWhile_run mem_takeWhile hstop]
  unfold reach at hfront ⊢
  simp only [hslash, hquote, hdigit, hword, if_false] at hfront ⊢
  by_cases hblank : isBlank c = true
  · simp only [hblank, if_true]
  simp only [hblank] at hfront ⊢
  -- The rest are symbols of one character, and of two with an equals sign behind.
  cases hsymbol : symbol? c with
  | some kind => rfl
  | none =>
    cases hcomparison : comparison? c with
    | none => rfl
    | some kinds =>
      simp only [hsymbol, hcomparison] at hfront ⊢
      by_cases hequal : rest.head? = some '='
      · obtain ⟨more, rfl⟩ := List.head?_eq_some_iff.mp hequal
        rfl
      · rw [if_neg hequal] at hfront ⊢
        have hother : ¬ other.head? = some '=' := by
          rwa [head?_eq_some_iff, hfront.equal, ← head?_eq_some_iff]
        exact if_neg hother

/-! ### One text behind the other -/

/-- A line break ends whatever the end of input ends. -/
theorem SameFront.newline (text behind : List Char) :
    SameFront text (text ++ '\n' :: behind) := by
  cases text with
  | nil => exact ⟨rfl, rfl, rfl, rfl, rfl, Iff.rfl⟩
  | cons c rest =>
    refine ⟨rfl, rfl, rfl, rfl, rfl, ?_⟩
    by_cases hdot : c = '.'
    · subst hdot
      cases rest with
      | nil => exact Iff.rfl
      | cons d more =>
        by_cases hd : d.isDigit = true
        · simp [fractionLength, hd]
        · simp [fractionLength, hd]
    · simp [fractionLength, hdot]

theorem divide_cons (c : Char) (rest : List Char) :
    divide (c :: rest) = first c rest :: divide (remainder c rest) := by
  rw [divide]

/-- Where all strings are closed, a line break separates the pieces before and behind it. -/
theorem divide_append_newline {text : List Char}
    (hended : ∀ piece ∈ divide text, piece.kind ≠ .unterminated) (behind : List Char) :
    divide (text ++ '\n' :: behind) = divide text ++ ⟨.blank, ['\n']⟩ :: divide behind := by
  fun_induction divide text with
  | case1 => exact divide_cons '\n' behind
  | case2 c rest ih =>
    have hfirst : (reach c rest).1 ≠ .unterminated := hended _ List.mem_cons_self
    have hsplit : rest ++ '\n' :: behind = rest.take (reach c rest).2 ++
        (rest.drop (reach c rest).2 ++ '\n' :: behind) := by
      rw [← List.append_assoc, List.take_append_drop]
    have hreach : reach c (rest ++ '\n' :: behind) = reach c rest := by
      rw [hsplit]
      exact reach_congr hfirst (.newline _ _)
    have hle := reach_le c rest
    rw [List.cons_append, divide_cons, first, remainder, hreach, List.take_append_of_le_length hle,
      List.drop_append_of_le_length hle]
    rw [remainder] at ih
    rw [ih fun piece hpiece => hended piece (List.mem_cons_of_mem _ hpiece)]
    rfl

end Lox.Piece
