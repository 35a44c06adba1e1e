import Lox.Parser.Cursor

/-!
# What holds when a parser succeeds

`Ensures p s post` says that whatever `p` returns from the state `s`, if it
returns at all, satisfies `post` together with the state it leaves.  `Took P s s'`
says in the same spirit what lies between two states: if no error was noted on the
way, then the tokens in between satisfy `P`.
-/

namespace Lox.Parser

variable {α β : Type}

/-- Every success of `p` from `s` satisfies `post`. -/
def Ensures (p : Parser α) (s : State) (post : α → State → Prop) : Prop :=
  ∀ a s', p s = .ok a s' → post a s'

theorem Ensures.mono {p : Parser α} {s : State} {post post' : α → State → Prop}
    (h : Ensures p s post) (himp : ∀ a s', post a s' → post' a s') : Ensures p s post' := by
  intro a s' hrun
  exact himp a s' (h a s' hrun)

theorem Ensures.pure_bind {a : α} {f : α → Parser β} {s : State} {post : β → State → Prop}
    (h : Ensures (f a) s post) : Ensures (pure a >>= f) s post := h

theorem ensures_pure {a : α} {s : State} {post : α → State → Prop} (h : post a s) :
    Ensures (pure a) s post := by
  intro b s' hrun
  cases hrun
  exact h

theorem Ensures.bind {p : Parser α} {f : α → Parser β} {s : State}
    {post : α → State → Prop} {post' : β → State → Prop}
    (hp : Ensures p s post) (hf : ∀ a s', post a s' → Ensures (f a) s' post') :
    Ensures (p >>= f) s post' := by
  intro b s' hrun
  change EStateM.bind p f s = _ at hrun
  unfold EStateM.bind at hrun
  cases hfirst : p s with
  | ok a t =>
    rw [hfirst] at hrun
    exact hf a t (hp a t hfirst) b s' hrun
  | error e t =>
    rw [hfirst] at hrun
    cases hrun

theorem Ensures.map {p : Parser α} {f : α → β} {s : State} {post : α → State → Prop}
    {post' : β → State → Prop} (hp : Ensures p s post)
    (hf : ∀ a s', post a s' → post' (f a) s') : Ensures (f <$> p) s post' := by
  intro b s' hrun
  change EStateM.map f p s = _ at hrun
  unfold EStateM.map at hrun
  cases hfirst : p s with
  | ok a t =>
    rw [hfirst] at hrun
    cases hrun
    exact hf a _ (hp a _ hfirst)
  | error e t =>
    rw [hfirst] at hrun
    cases hrun

theorem Ensures.map_bind {γ : Type} {p : Parser α} {f : α → β} {g : β → Parser γ} {s : State}
    {post : α → State → Prop} {post' : γ → State → Prop} (hp : Ensures p s post)
    (hg : ∀ a s', post a s' → Ensures (g (f a)) s' post') :
    Ensures ((f <$> p) >>= g) s post' := by
  have hmap : Ensures (f <$> p) s fun b s' => ∃ a, b = f a ∧ post a s' :=
    hp.map fun a s' ha => ⟨a, rfl, ha⟩
  refine hmap.bind ?_
  rintro _ s' ⟨a, rfl, ha⟩
  exact hg a s' ha

/-! ### Tokens between two states -/

/-- If no error was noted up to `s'`, the tokens between the states satisfy `P`. -/
def Took (P : List Token → Prop) (s s' : State) : Prop :=
  s'.errors = [] → s.errors = [] ∧ ∃ w, s.rest = w ++ s'.rest ∧ P w

namespace Took

variable {P Q : List Token → Prop} {s s' s'' : State}

theorem imp (h : Took P s s') (himp : ∀ w, P w → Q w) : Took Q s s' := by
  intro hclean
  obtain ⟨hs, w, hw, hP⟩ := h hclean
  exact ⟨hs, w, hw, himp w hP⟩

theorem nothing (h : P []) : Took P s s := fun hclean => ⟨hclean, [], rfl, h⟩

theorem trans (h : Took P s s') (h' : Took Q s' s'') :
    Took (fun w => ∃ w₁ w₂, w = w₁ ++ w₂ ∧ P w₁ ∧ Q w₂) s s'' := by
  intro hclean
  obtain ⟨hs', w₂, hw₂, hQ⟩ := h' hclean
  obtain ⟨hs, w₁, hw₁, hP⟩ := h hs'
  exact ⟨hs, w₁ ++ w₂, by rw [hw₁, hw₂, List.append_assoc], w₁, w₂, rfl, hP, hQ⟩

/-- One token, and then others. -/
theorem cons {t : Token} (h : Took (· = [t]) s s') (h' : Took Q s' s'') :
    Took (fun w => ∃ w', w = t :: w' ∧ Q w') s s'' := by
  refine (h.trans h').imp ?_
  rintro w ⟨w₁, w₂, rfl, rfl, hQ⟩
  exact ⟨w₂, rfl, hQ⟩

/-- Some tokens, and then one. -/
theorem snoc {t : Token} (h : Took P s s') (h' : Took (· = [t]) s' s'') :
    Took (fun w => ∃ w', w = w' ++ [t] ∧ P w') s s'' := by
  refine (h.trans h').imp ?_
  rintro w ⟨w₁, w₂, rfl, hP, rfl⟩
  exact ⟨w₁, rfl, hP⟩

end Took

/-! ### The steps of the parser -/

theorem State.rest_eq_of_ahead {s : State} (h : s.ahead.kind ≠ .eof) :
    s.rest = s.ahead :: s.rest.tail := by
  cases hrest : s.rest with
  | nil => simp [State.ahead, hrest, Token.endOfInput] at h
  | cons t rest => simp [State.ahead, hrest]

theorem Ensures.peek_bind {f : Token → Parser β} {s : State} {post : β → State → Prop}
    (h : Ensures (f s.ahead) s post) : Ensures (peek >>= f) s post := h

theorem ensures_advance {s : State} (h : s.ahead.kind ≠ .eof) :
    Ensures advance s fun t s' => t = s.ahead ∧ Took (· = [t]) s s' := by
  intro a s' hrun
  simp only [advance, h, if_false] at hrun
  cases hrun
  refine ⟨rfl, fun hclean => ⟨hclean, [s.ahead], ?_, rfl⟩⟩
  exact State.rest_eq_of_ahead h

theorem ensures_acceptAny {kinds : List TokenKind} {s : State} (h : .eof ∉ kinds) :
    Ensures (acceptAny kinds) s fun found s' =>
      (∃ t, found = some t ∧ t.kind ∈ kinds ∧ Took (· = [t]) s s') ∨
        (found = none ∧ s' = s ∧ s.ahead.kind ∉ kinds) := by
  unfold acceptAny
  refine Ensures.peek_bind ?_
  split
  · rename_i hmem
    have hne : s.ahead.kind ≠ .eof := fun heq => h (heq ▸ hmem)
    refine Ensures.bind (ensures_advance hne) ?_
    rintro t s'' ⟨rfl, htook⟩
    exact ensures_pure (.inl ⟨_, rfl, hmem, htook⟩)
  · rename_i hmem
    exact ensures_pure (.inr ⟨rfl, rfl, hmem⟩)

theorem ensures_accept {kind : TokenKind} {s : State} (h : kind ≠ .eof) :
    Ensures (accept kind) s fun found s' =>
      (∃ t, found = some t ∧ t.kind = kind ∧ Took (· = [t]) s s') ∨
        (found = none ∧ s' = s ∧ s.ahead.kind ≠ kind) := by
  refine (ensures_acceptAny (by simpa using h.symm)).mono ?_
  rintro found s' (⟨t, rfl, hkind, htook⟩ | ⟨rfl, rfl, hkind⟩)
  · exact .inl ⟨t, rfl, by simpa using hkind, htook⟩
  · exact .inr ⟨rfl, rfl, by simpa using hkind⟩

theorem ensures_fail {cause : GrammarCause} {s : State} {post : α → State → Prop} :
    Ensures (fail cause) s post := by
  intro a s' hrun
  cases hrun

theorem ensures_outOfFuel {s : State} {post : α → State → Prop} : Ensures outOfFuel s post := by
  intro a s' hrun
  cases hrun

theorem ensures_expect {kind : TokenKind} {cause : GrammarCause} {s : State}
    (h : kind ≠ .eof) :
    Ensures (expect kind cause) s fun t s' => t.kind = kind ∧ Took (· = [t]) s s' := by
  unfold expect
  refine Ensures.bind (ensures_accept h) ?_
  rintro found s' (⟨t, rfl, hkind, htook⟩ | ⟨rfl, rfl, -⟩)
  · exact ensures_pure ⟨hkind, htook⟩
  · exact ensures_fail

theorem ensures_expectMark {mark : TokenKind} {place : Place} {s : State} (h : mark ≠ .eof) :
    Ensures (expectMark mark place) s fun _ s' =>
      ∃ t : Token, t.kind = mark ∧ Took (· = [t]) s s' := by
  unfold expectMark
  refine Ensures.bind (ensures_expect h) fun t s' htook => ?_
  exact ensures_pure ⟨t, htook⟩

theorem ensures_expectName {role : NameRole} {s : State} :
    Ensures (expectName role) s fun t s' => t.kind = .identifier ∧ Took (· = [t]) s s' :=
  ensures_expect (by decide)

/-- A noted error contradicts that there is none. -/
theorem ensures_record {cause : GrammarCause} {token : Token} {s : State}
    {P : List Token → Prop} :
    Ensures (record cause token) s fun _ s' => Took P s s' := by
  intro a s' hrun
  cases hrun
  intro hclean
  simp at hclean

theorem ensures_checkLength {list : LimitedList} {count : Nat} {s : State} :
    Ensures (checkLength list count) s fun _ s' =>
      Took (fun w => w = [] ∧ count < LimitedList.limit) s s' := by
  unfold checkLength
  split
  · exact Ensures.peek_bind ensures_record
  · rename_i hshort
    exact ensures_pure (.nothing ⟨rfl, Nat.lt_of_not_le hshort⟩)

theorem ensures_occurrence {token : Token} {s : State} :
    Ensures (occurrence token) s fun place s' => place.token = token ∧ Took (· = []) s s' := by
  intro a s' hrun
  cases hrun
  exact ⟨rfl, fun hclean => ⟨hclean, [], rfl, rfl⟩⟩

/-- What `recovering` returns without noting an error is what it recovers from. -/
theorem ensures_recovering {p : Parser α} {s : State} {P : α → List Token → Prop}
    (hp : Ensures p s fun a s' => Took (P a) s s') :
    Ensures (recovering p) s fun found s' =>
      Took (fun w => ∃ a, found = some a ∧ P a w) s s' := by
  intro found s' hrun
  unfold recovering at hrun
  split at hrun
  · rename_i a t hok
    cases hrun
    exact (hp a _ hok).imp fun w hw => ⟨a, rfl, hw⟩
  · cases hrun
    intro hclean
    simp at hclean
  · cases hrun

end Lox.Parser
