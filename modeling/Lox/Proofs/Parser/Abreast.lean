import Lox.Proofs.Grammar.Relaxed
import Lox.Proofs.Parser.Settled

/-!
# One run of tokens at two places

Between two semicolons no rule but that of a `for` loop goes on behind the first of them.
So what the parser does with tokens up to a semicolon does not depend on what stands behind
it, on the errors before or on the identities in use.  Two parses of the same tokens are
followed side by side: they step over the same tokens, note the same errors and stop at the
same ones.  Of the trees that they read only this matters, whether they can be assigned to.
-/

namespace Lox.Parser

variable {α β : Type}

/-! ### Two places -/

/-- The token neither ends a statement, nor starts one by its kind, nor is a brace. -/
def Token.IsPlain (t : Token) : Prop :=
  t.kind ∉ [TokenKind.semicolon, .leftBrace, .rightBrace, .eof] ∧ startsStatement t.kind = false

/-- What differs between two parses of the same tokens, which end with a semicolon. -/
structure Places where
  semicolon : Token
  isSemicolon : semicolon.kind = .semicolon
  /-- What stands behind the semicolon at the one place, -/
  rest : List Token
  /-- and at the other place. -/
  rest' : List Token
  errors : List GrammarError
  errors' : List GrammarError

namespace Places

variable {P : Places} {s s' : State}

/-- In front of the semicolon, with the same tokens ahead up to it and the same new errors. -/
inductive Before (P : Places) : State → State → Prop where
  | mk {u : List Token} {es : List GrammarError} {n n' : NodeId} :
      (∀ t ∈ u, Token.IsPlain t) →
      Before P ⟨u ++ P.semicolon :: P.rest, P.errors ++ es, n⟩
        ⟨u ++ P.semicolon :: P.rest', P.errors' ++ es, n'⟩

/-- Right behind the semicolon, with the same new errors. -/
inductive Behind (P : Places) : State → State → Prop where
  | mk {es : List GrammarError} {n n' : NodeId} :
      Behind P ⟨P.rest, P.errors ++ es, n⟩ ⟨P.rest', P.errors' ++ es, n'⟩

namespace Before

theorem ahead_eq (h : P.Before s s') : s'.ahead = s.ahead := by
  cases h with
  | @mk u => cases u <;> rfl

theorem ahead_cases (h : P.Before s s') : s.ahead.kind = .semicolon ∨ Token.IsPlain s.ahead := by
  cases h with
  | @mk u _ _ _ hplain =>
    cases u with
    | nil => exact .inl P.isSemicolon
    | cons t u => exact .inr (hplain t List.mem_cons_self)

end Before

/-! ### Steps side by side -/

/--
Both parsers give values that are related and states that stand as `after` says, or both
stop with the same error in front of the semicolon, or both reach their bound.
-/
def Abreast (P : Places) (after : State → State → Prop) (R : α → α → Prop) (p q : Parser α)
    (s s' : State) : Prop :=
  match p s, q s' with
  | .ok a t, .ok b t' => R a b ∧ after t t'
  | .error (.error e) t, .error (.error e') t' => e = e' ∧ P.Before t t'
  | .error .outOfFuel _, .error .outOfFuel _ => True
  | _, _ => False

namespace Abreast

variable {after after' : State → State → Prop} {R : α → α → Prop} {R' : β → β → Prop}
  {p q : Parser α} {f g : α → Parser β}

theorem bind (hp : P.Abreast after R p q s s')
    (hf : ∀ a b t t', R a b → after t t' → P.Abreast after' R' (f a) (g b) t t') :
    P.Abreast after' R' (p >>= f) (q >>= g) s s' := by
  unfold Abreast at hp ⊢
  change match EStateM.bind p f s, EStateM.bind q g s' with
    | .ok a t, .ok b t' => R' a b ∧ after' t t'
    | .error (.error e) t, .error (.error e') t' => e = e' ∧ P.Before t t'
    | .error .outOfFuel _, .error .outOfFuel _ => True
    | _, _ => False
  unfold EStateM.bind
  split at hp
  · rename_i a t b t' hp₁ hq₁
    rw [hp₁, hq₁]
    exact hf a b t t' hp.1 hp.2
  · rename_i hp₁ hq₁
    rw [hp₁, hq₁]
    exact hp
  · rename_i hp₁ hq₁
    rw [hp₁, hq₁]
    exact hp
  · exact hp.elim

theorem pure {a b : α} (hR : R a b) (h : after s s') :
    P.Abreast after R (Pure.pure a) (Pure.pure b) s s' := ⟨hR, h⟩

theorem map {f g : α → β} (hp : P.Abreast after R p q s s')
    (hf : ∀ a b, R a b → R' (f a) (g b)) :
    P.Abreast after R' (f <$> p) (g <$> q) s s' := by
  rw [← bind_pure_comp f p, ← bind_pure_comp g q]
  exact hp.bind fun a b t t' hR h => .pure (hf a b hR) h

theorem outOfFuel : P.Abreast after R Parser.outOfFuel Parser.outOfFuel s s' := trivial

theorem fail (cause : GrammarCause) (h : P.Before s s') :
    P.Abreast after R (Parser.fail cause) (Parser.fail cause) s s' :=
  ⟨by rw [h.ahead_eq], h⟩

theorem peek_bind {f g : Token → Parser β} (h : P.Before s s')
    (hf : P.Abreast after' R' (f s.ahead) (g s.ahead) s s') :
    P.Abreast after' R' (Parser.peek >>= f) (Parser.peek >>= g) s s' := by
  unfold Abreast at hf ⊢
  rw [Parser.peek_bind, Parser.peek_bind, h.ahead_eq]
  exact hf

end Abreast

theorem abreast_advance (h : P.Before s s') (hkind : s.ahead.kind ≠ .semicolon) :
    P.Abreast P.Before Eq advance advance s s' := by
  cases h with
  | @mk u es n n' hplain =>
    cases u with
    | nil => exact absurd P.isSemicolon hkind
    | cons t u =>
      have hplain' : ∀ t ∈ u, Token.IsPlain t := fun t ht => hplain t (List.mem_cons_of_mem _ ht)
      have heof : t.kind ≠ .eof := fun heq => (hplain t List.mem_cons_self).1 (by rw [heq]; decide)
      unfold Abreast
      rw [List.cons_append, List.cons_append, advance_cons heof, advance_cons heof]
      exact ⟨rfl, .mk hplain'⟩

theorem abreast_acceptAny {kinds : List TokenKind} (hkinds : .semicolon ∉ kinds)
    (h : P.Before s s') : P.Abreast P.Before Eq (acceptAny kinds) (acceptAny kinds) s s' := by
  refine .peek_bind h ?_
  split
  · rename_i hmem
    refine (abreast_advance h fun hkind => hkinds (hkind ▸ hmem)).bind ?_
    rintro t _ s₁ s₁' rfl h₁
    exact .pure rfl h₁
  · exact .pure rfl h

theorem abreast_accept {kind : TokenKind} (hkind : kind ≠ .semicolon) (h : P.Before s s') :
    P.Abreast P.Before Eq (accept kind) (accept kind) s s' :=
  abreast_acceptAny (by simpa using hkind.symm) h

theorem abreast_expect {kind : TokenKind} (cause : GrammarCause) (hkind : kind ≠ .semicolon)
    (h : P.Before s s') :
    P.Abreast P.Before Eq (expect kind cause) (expect kind cause) s s' := by
  refine (abreast_accept hkind h).bind ?_
  rintro found _ s₁ s₁' rfl h₁
  cases found with
  | some t => exact .pure rfl h₁
  | none => exact .fail cause h₁

theorem abreast_expectMark {mark : TokenKind} (place : Place) (hmark : mark ≠ .semicolon)
    (h : P.Before s s') :
    P.Abreast P.Before Eq (expectMark mark place) (expectMark mark place) s s' :=
  (abreast_expect _ hmark h).bind fun _ _ _ _ _ h₁ => .pure rfl h₁

theorem abreast_expectName (role : NameRole) (h : P.Before s s') :
    P.Abreast P.Before Eq (expectName role) (expectName role) s s' :=
  abreast_expect _ (by decide) h

theorem abreast_record (cause : GrammarCause) (t : Token) (h : P.Before s s') :
    P.Abreast P.Before Eq (record cause t) (record cause t) s s' := by
  cases h with
  | @mk u es n n' hplain =>
    have hnoted := @Before.mk P u (es ++ [⟨cause, t⟩]) n n' hplain
    rw [← List.append_assoc, ← List.append_assoc] at hnoted
    exact ⟨rfl, hnoted⟩

theorem abreast_checkLength (list : LimitedList) (count : Nat) (h : P.Before s s') :
    P.Abreast P.Before Eq (checkLength list count) (checkLength list count) s s' := by
  unfold checkLength
  split
  · exact .peek_bind h (abreast_record _ _ h)
  · exact .pure rfl h

theorem abreast_occurrence (t t' : Token) (h : P.Before s s') :
    P.Abreast P.Before (fun _ _ => True) (occurrence t) (occurrence t') s s' := by
  cases h with
  | mk hplain => exact ⟨trivial, .mk hplain⟩

/-- Both miss a mark that is not ahead. -/
theorem abreast_miss {mark : TokenKind} {after : State → State → Prop} {R : Unit → Unit → Prop}
    (place : Place) (hmark : s.ahead.kind ≠ mark) (h : P.Before s s') :
    P.Abreast after R (expectMark mark place) (expectMark mark place) s s' := by
  have hmark' : s'.ahead.kind ≠ mark := h.ahead_eq ▸ hmark
  have haccept : P.Abreast P.Before (fun a b => a = none ∧ b = none) (accept mark)
      (accept mark) s s' := by
    unfold Abreast accept
    rw [acceptAny_none (by simpa using hmark), acceptAny_none (by simpa using hmark')]
    exact ⟨⟨rfl, rfl⟩, h⟩
  have hexpect : P.Abreast P.Before (fun _ _ => False) (expect mark (.noMark mark place))
      (expect mark (.noMark mark place)) s s' := by
    refine haccept.bind ?_
    rintro _ _ s₁ s₁' ⟨rfl, rfl⟩ h₁
    exact .fail _ h₁
  exact hexpect.bind fun _ _ _ _ hfalse _ => hfalse.elim

/-- The semicolon is stepped over, or missed by both. -/
theorem abreast_close (place : Place) (h : P.Before s s') :
    P.Abreast P.Behind Eq (expectMark .semicolon place) (expectMark .semicolon place) s s' := by
  by_cases hkind : s.ahead.kind = .semicolon
  · cases h with
    | @mk u es n n' hplain =>
      cases u with
      | nil =>
        unfold Abreast
        rw [List.nil_append, List.nil_append, expectMark_cons P.isSemicolon (by decide),
          expectMark_cons P.isSemicolon (by decide)]
        exact ⟨rfl, .mk⟩
      | cons t u =>
        have ht := (hplain t List.mem_cons_self).1
        rw [show t.kind = .semicolon from hkind] at ht
        exact absurd List.mem_cons_self ht
  · exact abreast_miss place hkind h

/-- No brace stands in front of the semicolon. -/
theorem abreast_brace {after : State → State → Prop} {R : α → α → Prop} {f g : Unit → Parser α}
    (place : Place) (h : P.Before s s') :
    P.Abreast after R (expectMark .leftBrace place >>= f) (expectMark .leftBrace place >>= g)
      s s' := by
  have hahead : s.ahead.kind ≠ .leftBrace := by
    intro hbrace
    rcases h.ahead_cases with hsemi | hplain
    · rw [hbrace] at hsemi
      cases hsemi
    · exact hplain.1 (by rw [hbrace]; decide)
  have hmiss : P.Abreast P.Before (fun _ _ => False) (expectMark .leftBrace place)
      (expectMark .leftBrace place) s s' := abreast_miss place hahead h
  exact hmiss.bind fun _ _ _ _ hfalse _ => hfalse.elim

/-! ### Expressions -/

/-- The two trees are targets of assignments, or neither is. -/
def SameTarget (e e' : Expr) : Prop := e.isTarget = e'.isTarget

theorem sameTarget_of_false {e e' : Expr} (h : e.isTarget = false) (h' : e'.isTarget = false) :
    SameTarget e e' := h.trans h'.symm

theorem semicolon_notMem_operators (level : Level) : TokenKind.semicolon ∉ level.operators := by
  cases level <;> decide

theorem isTarget_combine (level : Level) (left right : Expr) (operator : Token) :
    (level.combine left operator right).isTarget = false := by
  cases level <;> rfl

theorem assignTo_target {target : Expr} (h : target.isTarget = true) (equals : Token)
    (value : Expr) (s : State) : ∃ e n, e.isTarget = false ∧
      assignTo target equals value s = .ok e { s with nextId := n } := by
  cases target with
  | read place => exact ⟨_, s.nextId + 1, rfl, rfl⟩
  | get object name => exact ⟨_, s.nextId, rfl, rfl⟩
  | _ => cases h

theorem assignTo_other {other : Expr} (h : other.isTarget = false) (equals : Token) (value : Expr) :
    assignTo other equals value = record .invalidTarget equals >>= fun _ => pure other := by
  cases other <;> first | rfl | cases h

theorem abreast_assignTo {target target' : Expr} (equals : Token) (value value' : Expr)
    (htarget : SameTarget target target') (h : P.Before s s') :
    P.Abreast P.Before SameTarget (assignTo target equals value) (assignTo target' equals value')
      s s' := by
  cases hkind : target.isTarget with
  | true =>
    obtain ⟨e, n, he, hrun⟩ := assignTo_target hkind equals value s
    obtain ⟨e', n', he', hrun'⟩ := assignTo_target (htarget.symm.trans hkind) equals value' s'
    unfold Abreast
    rw [hrun, hrun']
    cases h with
    | mk hplain => exact ⟨sameTarget_of_false he he', .mk hplain⟩
  | false =>
    rw [assignTo_other hkind, assignTo_other (htarget.symm.trans hkind)]
    exact (abreast_record _ _ h).bind fun _ _ _ _ _ h₁ => .pure htarget h₁

/-- The functions for expressions do the same in front of the semicolon. -/
structure ExprAbreast (P : Places) (fuel : Nat) : Prop where
  expression : ∀ {s s'}, P.Before s s' →
    P.Abreast P.Before SameTarget (expression fuel) (expression fuel) s s'
  operation : ∀ {s s'} levels, P.Before s s' →
    P.Abreast P.Before SameTarget (operation fuel levels) (operation fuel levels) s s'
  operationTail : ∀ {s s'} level tighter {left left'}, SameTarget left left' → P.Before s s' →
    P.Abreast P.Before SameTarget (operationTail fuel level tighter left)
      (operationTail fuel level tighter left') s s'
  unary : ∀ {s s'}, P.Before s s' → P.Abreast P.Before SameTarget (unary fuel) (unary fuel) s s'
  callTail : ∀ {s s'} {callee callee'}, SameTarget callee callee' → P.Before s s' →
    P.Abreast P.Before SameTarget (callTail fuel callee) (callTail fuel callee') s s'
  argumentList : ∀ {s s'} count, P.Before s s' →
    P.Abreast P.Before (fun _ _ => True) (argumentList fuel count) (argumentList fuel count) s s'
  primary : ∀ {s s'}, P.Before s s' →
    P.Abreast P.Before SameTarget (primary fuel) (primary fuel) s s'

namespace ExprAbreast

variable {fuel : Nat}

theorem zero : ExprAbreast P 0 := by
  constructor
  all_goals
    intros
    exact .outOfFuel

theorem expression_succ (ih : ExprAbreast P fuel) (h : P.Before s s') :
    P.Abreast P.Before SameTarget (Parser.expression (fuel + 1)) (Parser.expression (fuel + 1))
      s s' := by
  refine (ih.operation _ h).bind fun target target' s₁ s₁' htarget h₁ => ?_
  refine (abreast_accept (by decide) h₁).bind ?_
  rintro found _ s₂ s₂' rfl h₂
  cases found with
  | none => exact .pure htarget h₂
  | some equals =>
    exact (ih.expression h₂).bind fun value value' _ _ _ h₃ =>
      abreast_assignTo equals value value' htarget h₃

theorem operation_succ (ih : ExprAbreast P fuel) (levels : List Level) (h : P.Before s s') :
    P.Abreast P.Before SameTarget (Parser.operation (fuel + 1) levels)
      (Parser.operation (fuel + 1) levels) s s' := by
  cases levels with
  | nil => exact ih.unary h
  | cons level tighter =>
    exact (ih.operation tighter h).bind fun _ _ _ _ hleft h₁ =>
      ih.operationTail level tighter hleft h₁

theorem operationTail_succ (ih : ExprAbreast P fuel) (level : Level) (tighter : List Level)
    {left left' : Expr} (hleft : SameTarget left left') (h : P.Before s s') :
    P.Abreast P.Before SameTarget (Parser.operationTail (fuel + 1) level tighter left)
      (Parser.operationTail (fuel + 1) level tighter left') s s' := by
  refine (abreast_acceptAny (semicolon_notMem_operators level) h).bind ?_
  rintro found _ s₁ s₁' rfl h₁
  cases found with
  | none => exact .pure hleft h₁
  | some operator =>
    exact (ih.operation tighter h₁).bind fun _ _ _ _ _ h₂ =>
      ih.operationTail level tighter
        (sameTarget_of_false (isTarget_combine ..) (isTarget_combine ..)) h₂

theorem unary_succ (ih : ExprAbreast P fuel) (h : P.Before s s') :
    P.Abreast P.Before SameTarget (Parser.unary (fuel + 1)) (Parser.unary (fuel + 1)) s s' := by
  refine (abreast_acceptAny (by decide) h).bind ?_
  rintro found _ s₁ s₁' rfl h₁
  cases found with
  | none => exact (ih.primary h₁).bind fun _ _ _ _ hcallee h₂ => ih.callTail hcallee h₂
  | some operator => exact (ih.unary h₁).bind fun _ _ _ _ _ h₂ => .pure rfl h₂

theorem callTail_succ (ih : ExprAbreast P fuel) {callee callee' : Expr}
    (hcallee : SameTarget callee callee') (h : P.Before s s') :
    P.Abreast P.Before SameTarget (Parser.callTail (fuel + 1) callee)
      (Parser.callTail (fuel + 1) callee') s s' := by
  unfold Parser.callTail
  refine .peek_bind h ?_
  split
  · rename_i hparen
    refine (abreast_advance h (by rw [hparen]; decide)).bind fun _ _ s₁ s₁' _ h₁ => ?_
    have htail : ∀ arguments arguments' s₂ s₂', True → P.Before s₂ s₂' →
        P.Abreast P.Before SameTarget
          (expect .rightParen (.noMark .rightParen .afterArguments) >>= fun paren =>
            Parser.callTail fuel (.call callee paren arguments))
          (expect .rightParen (.noMark .rightParen .afterArguments) >>= fun paren =>
            Parser.callTail fuel (.call callee' paren arguments')) s₂ s₂' :=
      fun _ _ _ _ _ h₂ => (abreast_expect _ (by decide) h₂).bind fun _ _ _ _ _ h₃ =>
        ih.callTail rfl h₃
    refine .peek_bind h₁ ?_
    split
    · exact (Abreast.pure trivial h₁).bind htail
    · exact (ih.argumentList 0 h₁).bind htail
  · rename_i hdot
    refine (abreast_advance h (by rw [hdot]; decide)).bind fun _ _ s₁ s₁' _ h₁ => ?_
    refine (abreast_expectName _ h₁).bind ?_
    rintro name _ s₂ s₂' rfl h₂
    exact ih.callTail rfl h₂
  · exact .pure hcallee h

theorem argumentList_succ (ih : ExprAbreast P fuel) (count : Nat) (h : P.Before s s') :
    P.Abreast P.Before (fun _ _ => True) (Parser.argumentList (fuel + 1) count)
      (Parser.argumentList (fuel + 1) count) s s' := by
  refine (abreast_checkLength _ _ h).bind fun _ _ s₁ s₁' _ h₁ => ?_
  refine (ih.expression h₁).bind fun _ _ s₂ s₂' _ h₂ => ?_
  refine (abreast_accept (by decide) h₂).bind ?_
  rintro found _ s₃ s₃' rfl h₃
  cases found with
  | none => exact .pure trivial h₃
  | some comma => exact (ih.argumentList (count + 1) h₃).bind fun _ _ _ _ _ h₄ => .pure trivial h₄

theorem primary_succ (ih : ExprAbreast P fuel) (h : P.Before s s') :
    P.Abreast P.Before SameTarget (Parser.primary (fuel + 1)) (Parser.primary (fuel + 1)) s s' := by
  unfold Parser.primary
  refine .peek_bind h ?_
  split
  · rename_i value hliteral
    have hkind : s.ahead.kind ≠ .semicolon := by
      intro hsemi
      simp [Token.literal?, hsemi] at hliteral
    exact (abreast_advance h hkind).bind fun _ _ _ _ _ h₁ => .pure rfl h₁
  · rename_i hkind
    refine (abreast_advance h (by simp [hkind])).bind fun keyword keyword' _ _ _ h₁ => ?_
    exact (abreast_occurrence keyword keyword' h₁).bind fun _ _ _ _ _ h₂ => .pure rfl h₂
  · rename_i hkind
    refine (abreast_advance h (by simp [hkind])).bind fun keyword keyword' _ _ _ h₁ => ?_
    refine (abreast_expectMark _ (by decide) h₁).bind fun _ _ _ _ _ h₂ => ?_
    refine (abreast_expectName _ h₂).bind fun _ _ _ _ _ h₃ => ?_
    exact (abreast_occurrence keyword keyword' h₃).bind fun _ _ _ _ _ h₄ => .pure rfl h₄
  · rename_i hkind
    refine (abreast_advance h (by simp [hkind])).bind fun name name' _ _ _ h₁ => ?_
    exact (abreast_occurrence name name' h₁).bind fun _ _ _ _ _ h₂ => .pure rfl h₂
  · rename_i hkind
    refine (abreast_advance h (by simp [hkind])).bind fun _ _ _ _ _ h₁ => ?_
    refine (ih.expression h₁).bind fun _ _ _ _ _ h₂ => ?_
    exact (abreast_expectMark _ (by decide) h₂).bind fun _ _ _ _ _ h₃ => .pure rfl h₃
  · exact .fail _ h

end ExprAbreast

theorem exprAbreast (P : Places) (fuel : Nat) : ExprAbreast P fuel := by
  induction fuel with
  | zero => exact .zero
  | succ fuel ih =>
    exact ⟨ih.expression_succ, ih.operation_succ, ih.operationTail_succ, ih.unary_succ,
      ih.callTail_succ, ih.argumentList_succ, ih.primary_succ⟩

end Places

end Lox.Parser
