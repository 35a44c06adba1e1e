import Lox.Proofs.Grammar
import Lox.Proofs.Parser.Ending

/-!
# Where the parser looks

The parser looks at tokens by their place in the sequence, one place after the other.
`Looks` follows a parser through its steps and lists these places.  Whatever the tokens
are, as long as only the last one is the end of input, all of them are places of the
sequence, none lies before an earlier one, and every error that is noted or stops the
parser shows at a token of the sequence.  What carries this is that the tokens ahead
always end with the end of input: it is never stepped over.
-/

namespace Lox.Parser

open Lox.Grammar

variable {α β : Type}

/-- The place of the token ahead in the sequence. -/
def State.position (tokens : List Token) (s : State) : Nat := tokens.length - s.rest.length

/-- The places that are looked at while a statement is skipped, from the given one on. -/
def skipLooks : Nat → List Token → List Nat
  | position, [] => [position]
  | position, token :: rest =>
    position ::
      if token.kind = .eof then []
      else if token.kind = .semicolon then [position + 1]
      else if startsStatement (rest.headD (.endOfInput 0)).kind then [position + 1]
      else skipLooks (position + 1) rest

/--
The places at which a parser looks, in their order.  The token that was stepped over last is
looked at once more, also when `advance` or `skipStatement` stops at the end of input.  It
stands one place in front of the token ahead, or at the first place as long as nothing was
stepped over, so it is there whenever the token ahead is, and gets no place of its own.
-/
inductive Looks (tokens : List Token) : {α : Type} → Parser α → State → List Nat → Prop where
  | peek {s : State} : Looks tokens peek s [s.position tokens]
  | advance {s : State} : Looks tokens advance s [s.position tokens]
  | fail {α : Type} {cause : GrammarCause} {s : State} :
      Looks tokens (fail cause : Parser α) s [s.position tokens]
  | record {cause : GrammarCause} {token : Token} {s : State} :
      Looks tokens (record cause token) s []
  | occurrence {token : Token} {s : State} : Looks tokens (occurrence token) s []
  | outOfFuel {α : Type} {s : State} : Looks tokens (outOfFuel : Parser α) s []
  | pure {α : Type} {a : α} {s : State} : Looks tokens (pure a) s []
  | bind {α β : Type} {p : Parser α} {f : α → Parser β} {s s' : State} {a : α}
      {looks looks' : List Nat} :
      Looks tokens p s looks → p s = .ok a s' → Looks tokens (f a) s' looks' →
      Looks tokens (p >>= f) s (looks ++ looks')
  | stopped {α β : Type} {p : Parser α} {f : α → Parser β} {s s' : State} {stop : Stop}
      {looks : List Nat} :
      Looks tokens p s looks → p s = .error stop s' → Looks tokens (p >>= f) s looks
  | recovering {α : Type} {p : Parser α} {s : State} {looks : List Nat} :
      Looks tokens p s looks → (∀ e s', p s ≠ .error (.error e) s') →
      Looks tokens (recovering p) s looks
  | recovered {α : Type} {p : Parser α} {s s' : State} {e : GrammarError} {looks : List Nat} :
      Looks tokens p s looks → p s = .error (.error e) s' →
      Looks tokens (recovering p) s (looks ++ skipLooks (s'.position tokens) s'.rest)

/-! ### States within the sequence -/

/-- The tokens ahead are those at the end of the sequence, and errors show at tokens of it. -/
structure Within (tokens : List Token) (s : State) : Prop where
  suffix : s.rest <:+ tokens
  ends : EndsWithOnlyEof s.rest
  errors : ∀ e ∈ s.errors, e.token ∈ tokens

theorem endsWithOnlyEof_tail {t : Token} {rest : List Token} (h : EndsWithOnlyEof (t :: rest))
    (ht : t.kind ≠ .eof) : EndsWithOnlyEof rest := by
  obtain ⟨body, last, hsplit, hlast, hbody⟩ := h
  cases body with
  | nil =>
    cases hsplit
    exact absurd hlast ht
  | cons first body =>
    cases hsplit
    exact ⟨body, last, rfl, hlast, fun t ht => hbody t (List.mem_cons_of_mem _ ht)⟩

theorem endsWithOnlyEof_skipStatement {tokens : List Token} (h : EndsWithOnlyEof tokens) :
    EndsWithOnlyEof (skipStatement tokens) := by
  induction tokens with
  | nil => exact h
  | cons t rest ih =>
    unfold skipStatement
    split
    · exact h
    · rename_i ht
      have hrest := endsWithOnlyEof_tail h ht
      split
      · exact hrest
      split
      · exact hrest
      · exact ih hrest

namespace Within

variable {tokens : List Token} {s : State}

theorem exists_cons (h : Within tokens s) : ∃ t rest, s.rest = t :: rest := by
  obtain ⟨body, last, hrest, -, -⟩ := h.ends
  cases body with
  | nil => exact ⟨last, [], hrest⟩
  | cons t body => exact ⟨t, body ++ [last], hrest⟩

/-- The place of the token ahead is where it stands in the sequence. -/
theorem getElem?_position (h : Within tokens s) : tokens[s.position tokens]? = some s.ahead := by
  obtain ⟨before, hsplit⟩ := h.suffix
  obtain ⟨t, rest, hrest⟩ := h.exists_cons
  have hposition : s.position tokens = before.length := by
    rw [State.position, ← hsplit, List.length_append]
    omega
  rw [hposition, ← hsplit, List.getElem?_append_right (Nat.le_refl _), Nat.sub_self, hrest,
    State.ahead, hrest]
  rfl

theorem position_lt (h : Within tokens s) : s.position tokens < tokens.length :=
  (List.getElem?_eq_some_iff.mp h.getElem?_position).1

theorem ahead_mem (h : Within tokens s) : s.ahead ∈ tokens :=
  List.mem_of_getElem? h.getElem?_position

theorem tail (h : Within tokens s) (hahead : s.ahead.kind ≠ .eof) :
    Within tokens { s with rest := s.rest.tail } := by
  obtain ⟨t, rest, hrest⟩ := h.exists_cons
  have ht : t.kind ≠ .eof := by simpa [State.ahead, hrest] using hahead
  refine ⟨(List.tail_suffix s.rest).trans h.suffix, ?_, h.errors⟩
  simp only [hrest, List.tail_cons]
  exact endsWithOnlyEof_tail (hrest ▸ h.ends) ht

theorem note (h : Within tokens s) {e : GrammarError} (he : e.token ∈ tokens) :
    Within tokens { s with errors := s.errors ++ [e] } := by
  refine ⟨h.suffix, h.ends, fun e' he' => ?_⟩
  rcases List.mem_append.mp he' with hmem | hmem
  · exact h.errors e' hmem
  · rw [List.mem_singleton.mp hmem]
    exact he

theorem skip (h : Within tokens s) : Within tokens { s with rest := skipStatement s.rest } :=
  ⟨(skipStatement_suffix s.rest).trans h.suffix, endsWithOnlyEof_skipStatement h.ends, h.errors⟩

end Within

/-- Fewer tokens ahead are a place further on. -/
theorem position_le_of_suffix {tokens : List Token} {s s' : State} (h : s'.rest <:+ s.rest) :
    s.position tokens ≤ s'.position tokens := by
  have hle := h.length_le
  simp only [State.position]
  omega

/-- Skipping a statement looks at places from the one ahead up to the one where it stops. -/
theorem skipLooks_spec {tokens : List Token} {rest : List Token} (h : rest <:+ tokens)
    (hends : EndsWithOnlyEof rest) :
    (skipLooks (tokens.length - rest.length) rest).Pairwise (· ≤ ·) ∧
      ∀ i ∈ skipLooks (tokens.length - rest.length) rest,
        tokens.length - rest.length ≤ i ∧ i ≤ tokens.length - (skipStatement rest).length := by
  induction rest with
  | nil =>
    obtain ⟨body, last, hsplit, -, -⟩ := hends
    exact absurd hsplit.symm (by simp)
  | cons t rest ih =>
    have hle := h.length_le
    rw [List.length_cons] at hle
    have hnext : tokens.length - (t :: rest).length + 1 = tokens.length - rest.length := by
      rw [List.length_cons]
      omega
    have hrest : rest <:+ tokens := (List.suffix_cons t rest).trans h
    unfold skipLooks skipStatement
    split
    · -- At the end of input nothing is skipped.
      simp only [List.pairwise_cons, List.not_mem_nil, false_imp_iff, implies_true,
        List.Pairwise.nil, and_self, List.mem_singleton, forall_eq, Nat.le_refl]
    · rename_i ht
      obtain ⟨hsorted, hbounds⟩ := ih hrest (endsWithOnlyEof_tail hends ht)
      have hshorter := (skipStatement_suffix rest).length_le
      rw [hnext]
      -- A semicolon is skipped as well, and the next statement begins behind it.
      split
      · simp only [List.length_cons, List.pairwise_cons, List.mem_cons, List.not_mem_nil,
          or_false, forall_eq, List.Pairwise.nil, and_true, forall_eq_or_imp, false_imp_iff,
          implies_true]
        omega
      -- A token that starts a statement stays ahead.
      split
      · simp only [List.length_cons, List.pairwise_cons, List.mem_cons, List.not_mem_nil,
          or_false, forall_eq, List.Pairwise.nil, and_true, forall_eq_or_imp, false_imp_iff,
          implies_true]
        omega
      · -- Any other token is skipped and looked behind.
        have hbelow : ∀ i ∈ skipLooks (tokens.length - rest.length) rest,
            tokens.length - (t :: rest).length ≤ i := by
          intro i hi
          have hi := (hbounds i hi).1
          rw [List.length_cons]
          omega
        refine ⟨List.pairwise_cons.mpr ⟨hbelow, hsorted⟩, ?_⟩
        intro i hi
        rcases List.mem_cons.mp hi with rfl | hi
        · rw [List.length_cons]
          omega
        · exact ⟨hbelow i hi, (hbounds i hi).2⟩

/-! ### Parsers within the sequence -/

/-- On its way from one state to the other the parser looks at no place before an earlier one. -/
structure Goes (tokens : List Token) (p : Parser α) (s s' : State) : Prop where
  looks : ∃ looks, Looks tokens p s looks ∧ looks.Pairwise (· ≤ ·) ∧
    ∀ i ∈ looks, s.position tokens ≤ i ∧ i ≤ s'.position tokens
  suffix : s'.rest <:+ s.rest
  within : Within tokens s'

namespace Goes

variable {tokens : List Token} {p : Parser α} {s s' s'' : State}

/-- A step that looks at no token. -/
theorem blind (hlooks : Looks tokens p s []) (hsuffix : s'.rest <:+ s.rest)
    (hwithin : Within tokens s') : Goes tokens p s s' :=
  ⟨⟨[], hlooks, .nil, nofun⟩, hsuffix, hwithin⟩

/-- A step that looks at the token ahead. -/
theorem one (hlooks : Looks tokens p s [s.position tokens]) (hsuffix : s'.rest <:+ s.rest)
    (hwithin : Within tokens s') : Goes tokens p s s' := by
  refine ⟨⟨_, hlooks, List.pairwise_singleton _ _, fun i hi => ?_⟩, hsuffix, hwithin⟩
  rw [List.mem_singleton.mp hi]
  exact ⟨Nat.le_refl _, position_le_of_suffix hsuffix⟩

/-- Where one way ends the other begins. -/
theorem append {looks : List Nat} {q : Parser β} (h : Goes tokens p s s')
    (hlooks : ∀ first, Looks tokens p s first → Looks tokens q s (first ++ looks))
    (hsorted : looks.Pairwise (· ≤ ·))
    (hbounds : ∀ i ∈ looks, s'.position tokens ≤ i ∧ i ≤ s''.position tokens)
    (hsuffix : s''.rest <:+ s'.rest) (hwithin : Within tokens s'') : Goes tokens q s s'' := by
  obtain ⟨first, hfirst, hsortedFirst, hboundsFirst⟩ := h.looks
  refine ⟨⟨first ++ looks, hlooks first hfirst, ?_, ?_⟩, hsuffix.trans h.suffix, hwithin⟩
  · refine List.pairwise_append.mpr ⟨hsortedFirst, hsorted, fun i hi j hj => ?_⟩
    exact Nat.le_trans (hboundsFirst i hi).2 (hbounds j hj).1
  · intro i hi
    rcases List.mem_append.mp hi with hi | hi
    · exact ⟨(hboundsFirst i hi).1,
        Nat.le_trans (hboundsFirst i hi).2 (position_le_of_suffix hsuffix)⟩
    · exact ⟨Nat.le_trans (position_le_of_suffix h.suffix) (hbounds i hi).1, (hbounds i hi).2⟩

end Goes

/--
From the state on the parser looks at places of the sequence only, and at no place before
an earlier one; it goes to tokens further on, by `n` of them at least if it succeeds; and
the error that stops it shows at a token of the sequence.
-/
def InBounds (tokens : List Token) (n : Nat) (p : Parser α) (s : State) : Prop :=
  match p s with
  | .ok _ s' => Goes tokens p s s' ∧ s'.rest.length + n ≤ s.rest.length
  | .error (.error e) s' => Goes tokens p s s' ∧ e.token ∈ tokens
  | .error .outOfFuel s' => Goes tokens p s s'

namespace InBounds

variable {tokens : List Token} {n k : Nat} {p : Parser α} {s s' : State}

theorem of_ok {a : α} (hrun : p s = .ok a s') (hgoes : Goes tokens p s s')
    (hprogress : s'.rest.length + n ≤ s.rest.length) : InBounds tokens n p s := by
  rw [InBounds, hrun]
  exact ⟨hgoes, hprogress⟩

theorem of_error {e : GrammarError} (hrun : p s = .error (.error e) s')
    (hgoes : Goes tokens p s s') (hstop : e.token ∈ tokens) : InBounds tokens n p s := by
  rw [InBounds, hrun]
  exact ⟨hgoes, hstop⟩

theorem of_outOfFuel (hrun : p s = .error .outOfFuel s') (hgoes : Goes tokens p s s') :
    InBounds tokens n p s := by
  rw [InBounds, hrun]
  exact hgoes

theorem ok {a : α} (h : InBounds tokens n p s) (hrun : p s = .ok a s') :
    Goes tokens p s s' ∧ s'.rest.length + n ≤ s.rest.length := by
  rw [InBounds, hrun] at h
  exact h

theorem error {e : GrammarError} (h : InBounds tokens n p s) (hrun : p s = .error (.error e) s') :
    Goes tokens p s s' ∧ e.token ∈ tokens := by
  rw [InBounds, hrun] at h
  exact h

theorem bounded (h : InBounds tokens n p s) (hrun : p s = .error .outOfFuel s') :
    Goes tokens p s s' := by
  rw [InBounds, hrun] at h
  exact h

/-- All places that are looked at are places of the sequence. -/
theorem exists_looks (h : InBounds tokens n p s) :
    ∃ looks, Looks tokens p s looks ∧ looks.Pairwise (· ≤ ·) ∧ ∀ i ∈ looks, i < tokens.length := by
  have hgoes : ∃ s', Goes tokens p s s' := by
    unfold InBounds at h
    split at h
    · exact ⟨_, h.1⟩
    · exact ⟨_, h.1⟩
    · exact ⟨_, h⟩
  obtain ⟨s', ⟨looks, hlooks, hsorted, hbounds⟩, -, hwithin⟩ := hgoes
  exact ⟨looks, hlooks, hsorted,
    fun i hi => Nat.lt_of_le_of_lt (hbounds i hi).2 hwithin.position_lt⟩

theorem weaken (h : InBounds tokens n p s) (hk : k ≤ n) : InBounds tokens k p s := by
  unfold InBounds at h ⊢
  split at h
  · exact ⟨h.1, Nat.le_trans (Nat.add_le_add_left hk _) h.2⟩
  · exact h
  · exact h

theorem pure (hs : Within tokens s) (a : α) : InBounds tokens 0 (Pure.pure a : Parser α) s :=
  of_ok (pure_run a s) (.blind .pure (List.suffix_refl _) hs) (Nat.le_refl _)

theorem outOfFuel (hs : Within tokens s) : InBounds tokens n (Parser.outOfFuel : Parser α) s :=
  of_outOfFuel rfl (.blind .outOfFuel (List.suffix_refl _) hs)

theorem fail (hs : Within tokens s) (cause : GrammarCause) :
    InBounds tokens n (Parser.fail cause : Parser α) s :=
  of_error rfl (.one .fail (List.suffix_refl _) hs) hs.ahead_mem

theorem record (hs : Within tokens s) (cause : GrammarCause) {token : Token}
    (htoken : token ∈ tokens) : InBounds tokens 0 (Parser.record cause token) s :=
  of_ok rfl (.blind .record (List.suffix_refl _) (hs.note htoken)) (Nat.le_refl _)

theorem occurrence (hs : Within tokens s) (token : Token) :
    InBounds tokens 0 (Parser.occurrence token) s :=
  of_ok rfl (.blind .occurrence (List.suffix_refl _) ⟨hs.suffix, hs.ends, hs.errors⟩)
    (Nat.le_refl _)

theorem peek (hs : Within tokens s) : InBounds tokens 0 Parser.peek s :=
  of_ok rfl (.one .peek (List.suffix_refl _) hs) (Nat.le_refl _)

theorem advance (hs : Within tokens s) (hahead : s.ahead.kind ≠ .eof) :
    InBounds tokens 1 Parser.advance s := by
  have hrun : Parser.advance s = .ok s.ahead { s with rest := s.rest.tail } := by
    rw [Parser.advance, if_neg hahead]
  refine of_ok hrun (.one .advance (List.tail_suffix s.rest) (hs.tail hahead)) ?_
  obtain ⟨t, rest, hrest⟩ := hs.exists_cons
  simp [hrest]

/-- One parser behind another one; what the first stepped over, the second need not. -/
theorem bind {f : α → Parser β} (hp : InBounds tokens k p s)
    (hf : ∀ a s', p s = .ok a s' → Within tokens s' → InBounds tokens (n - k) (f a) s') :
    InBounds tokens n (p >>= f) s := by
  cases hrun : p s with
  | error stop s' =>
    have hwhole : (p >>= f) s = .error stop s' := by
      change EStateM.bind p f s = _
      simp only [EStateM.bind, hrun]
    have hgoes : Goes tokens p s s' → Goes tokens (p >>= f) s s' := by
      rintro ⟨⟨looks, hlooks, hrest⟩, hsuffix, hwithin⟩
      exact ⟨⟨looks, .stopped hlooks hrun, hrest⟩, hsuffix, hwithin⟩
    cases stop with
    | error e => exact of_error hwhole (hgoes (hp.error hrun).1) (hp.error hrun).2
    | outOfFuel => exact of_outOfFuel hwhole (hgoes (hp.bounded hrun))
  | ok a s' =>
    have hwhole : (p >>= f) s = f a s' := bind_of_ok hrun
    obtain ⟨hgoes, hprogress⟩ := hp.ok hrun
    have hthen : ∀ {s''}, Goes tokens (f a) s' s'' → Goes tokens (p >>= f) s s'' := by
      rintro s'' ⟨⟨looks, hlooks, hsorted, hbounds⟩, hsuffix, hwithin⟩
      exact hgoes.append (fun first hfirst => .bind hfirst hrun hlooks) hsorted hbounds hsuffix
        hwithin
    have hrest := hf a s' hrun hgoes.within
    cases hrun' : f a s' with
    | ok b s'' =>
      obtain ⟨hgoes', hprogress'⟩ := hrest.ok hrun'
      exact of_ok (hwhole.trans hrun') (hthen hgoes') (by omega)
    | error stop s'' =>
      cases stop with
      | error e =>
        exact of_error (hwhole.trans hrun') (hthen (hrest.error hrun').1) (hrest.error hrun').2
      | outOfFuel => exact of_outOfFuel (hwhole.trans hrun') (hthen (hrest.bounded hrun'))

theorem map (f : α → β) (hp : InBounds tokens n p s) : InBounds tokens n (f <$> p) s := by
  rw [← bind_pure_comp f p]
  refine hp.bind fun a s' _ hs' => ?_
  exact (InBounds.pure hs' (f a)).weaken (by omega)

theorem peek_bind {f : Token → Parser β} (hs : Within tokens s)
    (hf : InBounds tokens n (f s.ahead) s) : InBounds tokens n (Parser.peek >>= f) s := by
  refine (InBounds.peek hs).bind fun a s' hrun _ => ?_
  cases hrun
  exact hf

/-- Behind an error the parser looks at the tokens that it skips, one of them at least. -/
theorem recovering (hp : InBounds tokens 1 p s) (hahead : s.ahead.kind ≠ .eof) :
    InBounds tokens 1 (recovering p) s := by
  have hgoes : ∀ {s'}, (∀ e s', p s ≠ .error (.error e) s') → Goes tokens p s s' →
      Goes tokens (Parser.recovering p) s s' := by
    rintro s' hno ⟨⟨looks, hlooks, hrest⟩, hsuffix, hwithin⟩
    exact ⟨⟨looks, .recovering hlooks hno, hrest⟩, hsuffix, hwithin⟩
  cases hrun : p s with
  | ok a s' =>
    refine of_ok (recovering_of_ok hrun) (hgoes ?_ (hp.ok hrun).1) (hp.ok hrun).2
    intro e s'' herror
    rw [hrun] at herror
    cases herror
  | error stop s' =>
    cases stop with
    | outOfFuel =>
      refine of_outOfFuel (by simp only [Parser.recovering, hrun]) (hgoes ?_ (hp.bounded hrun))
      intro e s'' herror
      rw [hrun] at herror
      cases herror
    | error e =>
      obtain ⟨hway, htoken⟩ := hp.error hrun
      obtain ⟨hsorted, hbounds⟩ := skipLooks_spec hway.within.suffix hway.within.ends
      have hskip : Goes tokens (Parser.recovering p) s
          { s' with rest := skipStatement s'.rest, errors := s'.errors ++ [e] } :=
        hway.append (fun first hfirst => .recovered hfirst hrun) hsorted hbounds
          (skipStatement_suffix s'.rest) (hway.within.skip.note htoken)
      have hwhole : Parser.recovering p s =
          .ok none { s' with rest := skipStatement s'.rest, errors := s'.errors ++ [e] } := by
        simp only [Parser.recovering, hrun]
      exact of_ok hwhole hskip (length_skipStatement_of_suffix hway.suffix hahead)

end InBounds

end Lox.Parser
