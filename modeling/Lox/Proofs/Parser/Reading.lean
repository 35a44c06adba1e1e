import Lox.Proofs.Parser.Settled

/-!
# Reading a phrase

`ReadsFrom n p w es behind post` says what a parser does in front of the tokens of a
phrase: with every bound that is great enough, it steps over exactly these tokens,
whatever stands behind them that `behind` allows, and notes exactly the errors `es` behind
those that were there.  It begins with the unused identity `n`, and what it returns,
together with the next unused identity, satisfies `post`.
-/

namespace Lox.Parser

variable {α β γ : Type}

/-- In front of the tokens `w` the parser reads just them and notes the errors `es`. -/
def ReadsFrom (n : NodeId) (p : Nat → Parser α) (w : List Token) (es : List GrammarError)
    (behind : TokenKind → Prop) (post : α → NodeId → Prop) : Prop :=
  ∀ rest errors, behind (nextKind rest) → ∃ a m,
    Settles p ⟨w ++ rest, errors, n⟩ (.ok a ⟨rest, errors ++ es, m⟩) ∧ post a m

namespace ReadsFrom

variable {n m : NodeId} {p : Nat → Parser α} {w w₁ w₂ : List Token}
  {es es₁ es₂ : List GrammarError} {behind behind₁ : TokenKind → Prop}
  {post : α → NodeId → Prop} {t : Token}

theorem pure {a : α} (h : post a n) : ReadsFrom n (fun _ => pure a) [] [] behind post := by
  intro rest errors _
  exact ⟨a, n, .const (by rw [List.append_nil, List.nil_append]; rfl), h⟩

theorem imp {post' : α → NodeId → Prop} (h : ReadsFrom n p w es behind post)
    (himp : ∀ a m, post a m → post' a m) : ReadsFrom n p w es behind post' := by
  intro rest errors hnext
  obtain ⟨a, m, hrun, ha⟩ := h rest errors hnext
  exact ⟨a, m, hrun, himp a m ha⟩

theorem before {behind' : TokenKind → Prop} (h : ReadsFrom n p w es behind post)
    (hbehind : ∀ kind, behind' kind → behind kind) : ReadsFrom n p w es behind' post :=
  fun rest errors hnext => h rest errors (hbehind _ hnext)

/-- A phrase behind another one; what is behind the first is the second, and then the rest. -/
theorem bind {q : Nat → α → Parser β} {post₁ : α → NodeId → Prop} {post : β → NodeId → Prop}
    (hp : ReadsFrom n p w₁ es₁ behind₁ post₁)
    (hbehind : ∀ rest, behind (nextKind rest) → behind₁ (nextKind (w₂ ++ rest)))
    (hq : ∀ a m, post₁ a m → ReadsFrom m (fun fuel => q fuel a) w₂ es₂ behind post) :
    ReadsFrom n (fun fuel => p fuel >>= q fuel) (w₁ ++ w₂) (es₁ ++ es₂) behind post := by
  intro rest errors hnext
  obtain ⟨a, m, hrun, ha⟩ := hp (w₂ ++ rest) errors (hbehind rest hnext)
  obtain ⟨b, k, hrun', hb⟩ := hq a m ha rest (errors ++ es₁) hnext
  refine ⟨b, k, ?_, hb⟩
  rw [List.append_assoc, ← List.append_assoc errors]
  exact hrun.bind hrun'

/-- What stands behind a phrase without stepping over a token. -/
theorem ending {q : Nat → α → Parser β} {post₁ : α → NodeId → Prop} {post : β → NodeId → Prop}
    (hp : ReadsFrom n p w es₁ behind₁ post₁) (hbehind : ∀ kind, behind kind → behind₁ kind)
    (hq : ∀ a m, post₁ a m → ReadsFrom m (fun fuel => q fuel a) [] es₂ behind post) :
    ReadsFrom n (fun fuel => p fuel >>= q fuel) w (es₁ ++ es₂) behind post := by
  have hwhole : ReadsFrom n (fun fuel => p fuel >>= q fuel) (w ++ []) (es₁ ++ es₂) behind post :=
    hp.bind (fun rest h => hbehind (nextKind rest) h) hq
  rwa [List.append_nil] at hwhole

/-- What stands behind a phrase without stepping over a token or noting an error. -/
theorem last {q : Nat → α → Parser β} {post₁ : α → NodeId → Prop} {post : β → NodeId → Prop}
    (hp : ReadsFrom n p w es behind₁ post₁) (hbehind : ∀ kind, behind kind → behind₁ kind)
    (hq : ∀ a m, post₁ a m → ReadsFrom m (fun fuel => q fuel a) [] [] behind post) :
    ReadsFrom n (fun fuel => p fuel >>= q fuel) w es behind post := by
  have hwhole := hp.ending hbehind hq
  rwa [List.append_nil] at hwhole

/-- One token behind a phrase. -/
theorem snoc {q : Nat → α → Parser β} {post₁ : α → NodeId → Prop} {post : β → NodeId → Prop}
    (hp : ReadsFrom n p w es behind₁ post₁) (ht : behind₁ t.kind)
    (hq : ∀ a m, post₁ a m → ReadsFrom m (fun fuel => q fuel a) [t] [] behind post) :
    ReadsFrom n (fun fuel => p fuel >>= q fuel) (w ++ [t]) es behind post := by
  have hwhole : ReadsFrom n (fun fuel => p fuel >>= q fuel) (w ++ [t]) (es ++ []) behind post :=
    hp.bind (fun _ _ => ht) hq
  rwa [List.append_nil] at hwhole

/-- The last phrase of several. -/
theorem bind_pure {f : α → β} {post' : β → NodeId → Prop} (hp : ReadsFrom n p w es behind post)
    (hf : ∀ a m, post a m → post' (f a) m) :
    ReadsFrom n (fun fuel => p fuel >>= fun a => Pure.pure (f a)) w es behind post' := by
  intro rest errors hnext
  obtain ⟨a, m, hrun, ha⟩ := hp rest errors hnext
  exact ⟨f a, m, hrun.bind (.const rfl), hf a m ha⟩

theorem map {f : α → β} {post' : β → NodeId → Prop} (hp : ReadsFrom n p w es behind post)
    (hf : ∀ a m, post a m → post' (f a) m) :
    ReadsFrom n (fun fuel => f <$> p fuel) w es behind post' := by
  intro rest errors hnext
  obtain ⟨a, m, hrun, ha⟩ := hp rest errors hnext
  exact ⟨f a, m, hrun.map, hf a m ha⟩

/-- A step over one token. -/
theorem step {p : Parser β} {q : Nat → β → Parser α} {b : β}
    (hp : ∀ rest errors, p ⟨t :: rest, errors, n⟩ = .ok b ⟨rest, errors, n⟩)
    (hq : ReadsFrom n (fun fuel => q fuel b) w es behind post) :
    ReadsFrom n (fun fuel => p >>= q fuel) (t :: w) es behind post := by
  intro rest errors hnext
  obtain ⟨a, m, hrun, ha⟩ := hq rest errors hnext
  exact ⟨a, m, (Settles.const (hp (w ++ rest) errors)).bind hrun, ha⟩

/-- A step that leaves all tokens ahead. -/
theorem stay {p : Parser β} {q : Nat → β → Parser α} {b : β}
    (hp : ∀ rest errors, behind (nextKind rest) →
      p ⟨w ++ rest, errors, n⟩ = .ok b ⟨w ++ rest, errors, n⟩)
    (hq : ReadsFrom n (fun fuel => q fuel b) w es behind post) :
    ReadsFrom n (fun fuel => p >>= q fuel) w es behind post := by
  intro rest errors hnext
  obtain ⟨a, m, hrun, ha⟩ := hq rest errors hnext
  exact ⟨a, m, (Settles.const (hp rest errors hnext)).bind hrun, ha⟩

/-- A look at the first token of the phrase. -/
theorem peek {q : Nat → Token → Parser α}
    (hq : ReadsFrom n (fun fuel => q fuel t) (t :: w) es behind post) :
    ReadsFrom n (fun fuel => Parser.peek >>= q fuel) (t :: w) es behind post :=
  stay (fun _ _ _ => rfl) hq

theorem advance {q : Nat → Token → Parser α} (ht : t.kind ≠ .eof)
    (hq : ReadsFrom n (fun fuel => q fuel t) w es behind post) :
    ReadsFrom n (fun fuel => Parser.advance >>= q fuel) (t :: w) es behind post :=
  step (fun _ _ => advance_cons ht) hq

theorem mark {kind : TokenKind} {place : Place} {q : Nat → Parser α} (ht : t.kind = kind)
    (heof : kind ≠ .eof) (hq : ReadsFrom n q w es behind post) :
    ReadsFrom n (fun fuel => expectMark kind place >>= fun _ => q fuel) (t :: w) es behind post :=
  step (fun _ _ => expectMark_cons ht heof) hq

theorem name {role : NameRole} {q : Nat → Token → Parser α} (ht : t.kind = .identifier)
    (hq : ReadsFrom n (fun fuel => q fuel t) w es behind post) :
    ReadsFrom n (fun fuel => expectName role >>= q fuel) (t :: w) es behind post :=
  step (fun _ _ => expectName_cons ht) hq

theorem accept {kind : TokenKind} {q : Nat → Option Token → Parser α} (ht : t.kind = kind)
    (heof : kind ≠ .eof) (hq : ReadsFrom n (fun fuel => q fuel (some t)) w es behind post) :
    ReadsFrom n (fun fuel => Parser.accept kind >>= q fuel) (t :: w) es behind post :=
  step (fun _ _ => accept_cons ht heof) hq

theorem accept_none {kind : TokenKind} {q : Nat → Option Token → Parser α}
    (hnext : ∀ rest, behind (nextKind rest) → nextKind (w ++ rest) ≠ kind)
    (hq : ReadsFrom n (fun fuel => q fuel none) w es behind post) :
    ReadsFrom n (fun fuel => Parser.accept kind >>= q fuel) w es behind post :=
  stay (fun rest _ h => Parser.accept_none (hnext rest h)) hq

theorem acceptAny_none {kinds : List TokenKind} {q : Nat → Option Token → Parser α}
    (hnext : ∀ rest, behind (nextKind rest) → nextKind (w ++ rest) ∉ kinds)
    (hq : ReadsFrom n (fun fuel => q fuel none) w es behind post) :
    ReadsFrom n (fun fuel => acceptAny kinds >>= q fuel) w es behind post :=
  stay (fun rest _ h => Parser.acceptAny_none (hnext rest h)) hq

/-- An occurrence uses up an identity. -/
theorem occurrence {q : Nat → Occurrence → Parser α}
    (hq : ReadsFrom (n + 1) (fun fuel => q fuel ⟨n, t⟩) w es behind post) :
    ReadsFrom n (fun fuel => Parser.occurrence t >>= q fuel) w es behind post := by
  intro rest errors hnext
  obtain ⟨a, m, hrun, ha⟩ := hq rest errors hnext
  exact ⟨a, m, (Settles.const rfl).bind hrun, ha⟩

theorem recovering {post' : Option α → NodeId → Prop} (hp : ReadsFrom n p w es behind post)
    (hsome : ∀ a m, post a m → post' (some a) m) :
    ReadsFrom n (fun fuel => Parser.recovering (p fuel)) w es behind post' := by
  intro rest errors hnext
  obtain ⟨a, m, ⟨enough, hrun⟩, ha⟩ := hp rest errors hnext
  exact ⟨some a, m, ⟨enough, fun fuel hfuel => recovering_of_ok (hrun fuel hfuel)⟩, hsome a m ha⟩

/-- One call more. -/
theorem succ (h : ReadsFrom n (fun fuel => p (fuel + 1)) w es behind post) :
    ReadsFrom n p w es behind post := by
  intro rest errors hnext
  obtain ⟨a, m, hrun, ha⟩ := h rest errors hnext
  exact ⟨a, m, hrun.succ fun _ => rfl, ha⟩

/-- The same by another text. -/
theorem congr {q : Nat → Parser α} (hp : ReadsFrom n p w es behind post)
    (h : ∀ fuel rest errors, behind (nextKind rest) →
      q fuel ⟨w ++ rest, errors, n⟩ = p fuel ⟨w ++ rest, errors, n⟩) :
    ReadsFrom n q w es behind post := by
  intro rest errors hnext
  obtain ⟨a, m, ⟨enough, hrun⟩, ha⟩ := hp rest errors hnext
  exact ⟨a, m, ⟨enough, fun fuel hfuel => (h fuel rest errors hnext).trans (hrun fuel hfuel)⟩, ha⟩

end ReadsFrom

end Lox.Parser
