import Lox.Parser.Statement

/-!
# What the parser does with the tokens ahead

Each step of the parser on a state whose tokens are known.
-/

namespace Lox.Parser

variable {α β : Type}

/-- The kind of the first of the tokens; behind the last one the input has ended. -/
def nextKind (tokens : List Token) : TokenKind := (tokens.headD (.endOfInput 0)).kind

theorem bind_of_ok {p : Parser α} {f : α → Parser β} {s s' : State} {a : α}
    (h : p s = .ok a s') : (p >>= f) s = f a s' := by
  change EStateM.bind p f s = _
  simp only [EStateM.bind, h]

theorem map_of_ok {p : Parser α} {f : α → β} {s s' : State} {a : α}
    (h : p s = .ok a s') : (f <$> p) s = .ok (f a) s' := by
  change EStateM.map f p s = _
  simp only [EStateM.map, h]

theorem peek_bind (f : Token → Parser β) (s : State) : (peek >>= f) s = f s.ahead s := rfl

theorem pure_run (a : α) (s : State) : (pure a : Parser α) s = .ok a s := rfl

variable {t : Token} {rest : List Token} {errors : List GrammarError} {n : Nat}

theorem advance_cons (h : t.kind ≠ .eof) :
    advance ⟨t :: rest, errors, n⟩ = .ok t ⟨rest, errors, n⟩ := by
  simp [advance, State.ahead, h]

theorem acceptAny_cons {kinds : List TokenKind} (hmem : t.kind ∈ kinds) (heof : t.kind ≠ .eof) :
    acceptAny kinds ⟨t :: rest, errors, n⟩ = .ok (some t) ⟨rest, errors, n⟩ := by
  have hahead : (State.mk (t :: rest) errors n).ahead.kind ∈ kinds := hmem
  unfold acceptAny
  rw [peek_bind, if_pos hahead, bind_of_ok (advance_cons heof), pure_run]

theorem acceptAny_none {kinds : List TokenKind} {s : State} (h : s.ahead.kind ∉ kinds) :
    acceptAny kinds s = .ok none s := by
  unfold acceptAny
  rw [peek_bind, if_neg h, pure_run]

theorem accept_cons {kind : TokenKind} (hkind : t.kind = kind) (heof : kind ≠ .eof) :
    accept kind ⟨t :: rest, errors, n⟩ = .ok (some t) ⟨rest, errors, n⟩ :=
  acceptAny_cons (by simp [hkind]) (hkind ▸ heof)

theorem accept_none {kind : TokenKind} (h : nextKind rest ≠ kind) :
    accept kind ⟨rest, errors, n⟩ = .ok none ⟨rest, errors, n⟩ :=
  acceptAny_none fun hmem => h (List.mem_singleton.mp hmem)

theorem expect_cons {kind : TokenKind} {cause : GrammarCause} (hkind : t.kind = kind)
    (heof : kind ≠ .eof) :
    expect kind cause ⟨t :: rest, errors, n⟩ = .ok t ⟨rest, errors, n⟩ := by
  unfold expect
  rw [bind_of_ok (accept_cons hkind heof)]
  rfl

theorem expectMark_cons {mark : TokenKind} {place : Place} (hkind : t.kind = mark)
    (heof : mark ≠ .eof) :
    expectMark mark place ⟨t :: rest, errors, n⟩ = .ok () ⟨rest, errors, n⟩ := by
  unfold expectMark
  rw [bind_of_ok (expect_cons hkind heof)]
  rfl

theorem expectName_cons {role : NameRole} (hkind : t.kind = .identifier) :
    expectName role ⟨t :: rest, errors, n⟩ = .ok t ⟨rest, errors, n⟩ :=
  expect_cons hkind (by decide)

theorem checkLength_short {list : LimitedList} {count : Nat} {s : State}
    (h : count < LimitedList.limit) : checkLength list count s = .ok () s := by
  unfold checkLength
  rw [if_neg (Nat.not_le_of_lt h)]
  rfl

theorem recovering_of_ok {p : Parser α} {s s' : State} {a : α} (h : p s = .ok a s') :
    recovering p s = .ok (some a) s' := by
  simp only [recovering, h]

end Lox.Parser
