import Lox.Proofs.Parser.Abreast

/-!
# One declaration at two places

A declaration of plain tokens up to a semicolon, or of a keyword and then of plain tokens,
is read or missed in the same way at both places.  Whichever step misses it, recovery goes
on right behind the semicolon: no token in between starts a statement.
-/

namespace Lox.Parser

namespace Places

variable {α : Type} {P : Places} {s s' : State} {fuel : Nat}

/-! ### Statements -/

theorem abreast_parameterList (fuel count : Nat) (h : P.Before s s') :
    P.Abreast P.Before (fun _ _ => True) (parameterList fuel count) (parameterList fuel count)
      s s' := by
  induction fuel generalizing count s s' with
  | zero => exact .outOfFuel
  | succ fuel ih =>
    refine (abreast_checkLength _ _ h).bind fun _ _ s₁ s₁' _ h₁ => ?_
    refine (abreast_expectName _ h₁).bind fun _ _ s₂ s₂' _ h₂ => ?_
    refine (abreast_accept (by decide) h₂).bind ?_
    rintro found _ s₃ s₃' rfl h₃
    cases found with
    | none => exact .pure trivial h₃
    | some comma => exact (ih (count + 1) h₃).bind fun _ _ _ _ _ h₄ => .pure trivial h₄

theorem abreast_optionalExpression (ending : TokenKind) (h : P.Before s s') :
    P.Abreast P.Before (fun _ _ => True) (optionalExpression fuel ending)
      (optionalExpression fuel ending) s s' := by
  refine .peek_bind h ?_
  split
  · exact .pure trivial h
  · exact ((exprAbreast P fuel).expression h).bind fun _ _ _ _ _ h₁ => .pure trivial h₁

theorem abreast_expressionStatement (h : P.Before s s') :
    P.Abreast P.Behind (fun _ _ => True) (expressionStatement fuel) (expressionStatement fuel)
      s s' := by
  refine ((exprAbreast P fuel).expression h).bind fun _ _ _ _ _ h₁ => ?_
  exact (abreast_close _ h₁).bind fun _ _ _ _ _ h₂ => .pure trivial h₂

theorem abreast_varDeclaration (h : P.Before s s') :
    P.Abreast P.Behind (fun _ _ => True) (varDeclaration fuel) (varDeclaration fuel) s s' := by
  refine (abreast_expectName _ h).bind fun name name' _ _ _ h₁ => ?_
  have hclose : ∀ (initializer initializer' : Option Expr) s₂ s₂', True → P.Before s₂ s₂' →
      P.Abreast P.Behind (fun _ _ => True)
        (do expectMark .semicolon .afterVariable; return Stmt.var name initializer)
        (do expectMark .semicolon .afterVariable; return Stmt.var name' initializer') s₂ s₂' :=
    fun _ _ _ _ _ h₂ => (abreast_close _ h₂).bind fun _ _ _ _ _ h₃ => .pure trivial h₃
  refine (abreast_accept (by decide) h₁).bind ?_
  rintro found _ s₂ s₂' rfl h₂
  cases found with
  | none => exact (Abreast.pure trivial h₂).bind hclose
  | some equals =>
    have hvalue := (exprAbreast P fuel).expression h₂
    exact (hvalue.map fun _ _ _ => trivial).bind hclose

/-- A routine has its body in braces, so it is not read in front of the semicolon. -/
theorem abreast_routine (kind : Routine) (h : P.Before s s') :
    P.Abreast P.Behind (fun _ _ => True) (routine fuel kind) (routine fuel kind) s s' := by
  cases fuel with
  | zero => exact .outOfFuel
  | succ fuel =>
    refine (abreast_expectName _ h).bind fun name name' _ _ _ h₁ => ?_
    refine (abreast_expectMark _ (by decide) h₁).bind fun _ _ s₂ s₂' _ h₂ => ?_
    have hbody : ∀ (parameters parameters' : List Token) s₃ s₃', True → P.Before s₃ s₃' →
        P.Abreast P.Behind (fun _ _ => True)
          (do
            expectMark .rightParen .afterParameters
            expectMark .leftBrace (.beforeRoutineBody kind)
            let body ← block fuel
            return FunctionDecl.mk name parameters body)
          (do
            expectMark .rightParen .afterParameters
            expectMark .leftBrace (.beforeRoutineBody kind)
            let body ← block fuel
            return FunctionDecl.mk name' parameters' body) s₃ s₃' := by
      intro _ _ s₃ s₃' _ h₃
      refine (abreast_expectMark _ (by decide) h₃).bind fun _ _ s₄ s₄' _ h₄ => ?_
      exact abreast_brace _ h₄
    refine .peek_bind h₂ ?_
    split
    · exact (Abreast.pure trivial h₂).bind hbody
    · exact (abreast_parameterList fuel 0 h₂).bind hbody

theorem abreast_classDeclaration (h : P.Before s s') :
    P.Abreast P.Behind (fun _ _ => True) (classDeclaration fuel) (classDeclaration fuel) s s' := by
  cases fuel with
  | zero => exact .outOfFuel
  | succ fuel =>
    refine (abreast_expectName _ h).bind fun name name' s₁ s₁' _ h₁ => ?_
    have hbody : ∀ (superclass superclass' : Option Occurrence) s₂ s₂', True → P.Before s₂ s₂' →
        P.Abreast P.Behind (fun _ _ => True)
          (do
            expectMark .leftBrace .beforeClassBody
            let body ← methods fuel
            expectMark .rightBrace .afterClassBody
            return Stmt.class name superclass body)
          (do
            expectMark .leftBrace .beforeClassBody
            let body ← methods fuel
            expectMark .rightBrace .afterClassBody
            return Stmt.class name' superclass' body) s₂ s₂' := by
      intro _ _ s₂ s₂' _ h₂
      exact abreast_brace _ h₂
    refine (abreast_accept (by decide) h₁).bind ?_
    rintro found _ s₂ s₂' rfl h₂
    cases found with
    | none => exact (Abreast.pure trivial h₂).bind hbody
    | some less =>
      have hname : P.Abreast P.Before (fun _ _ => True)
          (expectName .superclassName >>= occurrence) (expectName .superclassName >>= occurrence)
          s₂ s₂' :=
        (abreast_expectName _ h₂).bind fun t t' _ _ _ h₃ => abreast_occurrence t t' h₃
      exact (hname.map fun _ _ _ => trivial).bind hbody

/-- A statement that consists of plain tokens and a semicolon. -/
theorem abreast_statement (h : P.Before s s') :
    P.Abreast P.Behind (fun _ _ => True) (statement fuel) (statement fuel) s s' := by
  cases fuel with
  | zero => exact .outOfFuel
  | succ fuel =>
    refine .peek_bind h ?_
    have hjump : ∀ (place : Place) (f : Token → Stmt), s.ahead.kind ≠ .semicolon →
        P.Abreast P.Behind (fun _ _ => True)
          (do let keyword ← advance; expectMark .semicolon place; return f keyword)
          (do let keyword ← advance; expectMark .semicolon place; return f keyword) s s' :=
      fun place f hkind => (abreast_advance h hkind).bind fun _ _ _ _ _ h₁ =>
        (abreast_close _ h₁).bind fun _ _ _ _ _ h₂ => .pure trivial h₂
    have hplain := h.ahead_cases
    split
    case h_5 hkind => exact hjump .afterBreak .breaking (by rw [hkind]; decide)
    case h_6 hkind => exact hjump .afterContinue .continuing (by rw [hkind]; decide)
    case h_8 => exact abreast_expressionStatement h
    all_goals
      rename_i hkind
      rw [Token.IsPlain, hkind] at hplain
      exact absurd hplain (by decide)

/-! ### Runs of tokens that start with a keyword -/

/-- In front of a keyword and then of plain tokens up to the semicolon. -/
inductive Headed (P : Places) (keyword : Token) : State → State → Prop where
  | mk {u : List Token} {es : List GrammarError} {n n' : NodeId} :
      (∀ t ∈ u, Token.IsPlain t) → keyword.kind ≠ .eof →
      Headed P keyword ⟨keyword :: u ++ P.semicolon :: P.rest, P.errors ++ es, n⟩
        ⟨keyword :: u ++ P.semicolon :: P.rest', P.errors' ++ es, n'⟩

namespace Headed

variable {keyword : Token} {R : α → α → Prop} {after : State → State → Prop}

theorem peek_bind {f g : Token → Parser α} (h : P.Headed keyword s s')
    (hf : P.Abreast after R (f keyword) (g keyword) s s') :
    P.Abreast after R (peek >>= f) (peek >>= g) s s' := by
  cases h with
  | mk => exact hf

theorem advance_bind {f g : Token → Parser α} (h : P.Headed keyword s s')
    (hf : ∀ t t', P.Before t t' → P.Abreast after R (f keyword) (g keyword) t t') :
    P.Abreast after R (advance >>= f) (advance >>= g) s s' := by
  cases h with
  | @mk u es n n' hplain heof =>
    have hrun : P.Abreast P.Before (fun a b => a = keyword ∧ b = keyword) advance advance
        ⟨keyword :: u ++ P.semicolon :: P.rest, P.errors ++ es, n⟩
        ⟨keyword :: u ++ P.semicolon :: P.rest', P.errors' ++ es, n'⟩ := by
      unfold Abreast
      rw [List.cons_append, List.cons_append, advance_cons heof, advance_cons heof]
      exact ⟨⟨rfl, rfl⟩, .mk hplain⟩
    refine hrun.bind ?_
    rintro _ _ t t' ⟨rfl, rfl⟩ ht
    exact hf t t' ht

end Headed

theorem abreast_condition {place place' : Place} {q : Expr → Parser Stmt} (h : P.Before s s')
    (hq : ∀ condition condition' t t', P.Before t t' →
      P.Abreast P.Behind (fun _ _ => True) (q condition) (q condition') t t') :
    P.Abreast P.Behind (fun _ _ => True)
      (do
        expectMark .leftParen place
        let condition ← expression fuel
        expectMark .rightParen place'
        q condition)
      (do
        expectMark .leftParen place
        let condition ← expression fuel
        expectMark .rightParen place'
        q condition) s s' := by
  refine (abreast_expectMark _ (by decide) h).bind fun _ _ _ _ _ h₁ => ?_
  refine ((exprAbreast P fuel).expression h₁).bind fun condition condition' _ _ _ h₂ => ?_
  exact (abreast_expectMark _ (by decide) h₂).bind fun _ _ t t' _ h₃ =>
    hq condition condition' t t' h₃

structure NoElseBehind (P : Places) : Prop where
  here : nextKind P.rest ≠ .kwElse
  there : nextKind P.rest' ≠ .kwElse

theorem abreast_noElse (hP : P.NoElseBehind) (h : P.Behind s s') :
    P.Abreast P.Behind (fun a b => a = none ∧ b = none) (accept .kwElse) (accept .kwElse) s s' := by
  cases h with
  | mk =>
    unfold Abreast
    rw [accept_none hP.here, accept_none hP.there]
    exact ⟨⟨rfl, rfl⟩, .mk⟩

/-- A statement that starts with a keyword and is not a `for` loop. -/
theorem abreast_headed {keyword : Token} (hP : P.NoElseBehind)
    (hkeyword : keyword.kind ∈ [TokenKind.kwIf, .kwWhile, .kwReturn])
    (h : P.Headed keyword s s') :
    P.Abreast P.Behind (fun _ _ => True) (statement fuel) (statement fuel) s s' := by
  cases fuel with
  | zero => exact .outOfFuel
  | succ fuel =>
    refine h.peek_bind ?_
    simp only [List.mem_cons, List.not_mem_nil, or_false] at hkeyword
    rcases hkeyword with hkind | hkind | hkind
    · simp only [hkind]
      refine h.advance_bind fun _ _ h₁ => abreast_condition h₁ fun _ _ _ _ h₂ => ?_
      refine (abreast_statement h₂).bind fun _ _ _ _ _ h₃ => ?_
      refine (abreast_noElse hP h₃).bind ?_
      rintro _ _ _ _ ⟨rfl, rfl⟩ h₄
      exact .pure trivial h₄
    · simp only [hkind]
      refine h.advance_bind fun _ _ h₁ => abreast_condition h₁ fun _ _ _ _ h₂ => ?_
      exact (abreast_statement h₂).bind fun _ _ _ _ _ h₃ => .pure trivial h₃
    · simp only [hkind]
      refine h.advance_bind fun _ _ h₁ => ?_
      refine (abreast_optionalExpression _ h₁).bind fun _ _ _ _ _ h₂ => ?_
      exact (abreast_close _ h₂).bind fun _ _ _ _ _ h₃ => .pure trivial h₃

/-! ### Recovery -/

/-- From in front of the semicolon, recovery goes on right behind it. -/
theorem skipStatement_plain {u rest : List Token} {semicolon : Token}
    (hsemi : semicolon.kind = .semicolon) (hplain : ∀ t ∈ u, Token.IsPlain t) :
    skipStatement (u ++ semicolon :: rest) = rest := by
  induction u with
  | nil => simp [skipStatement, hsemi]
  | cons t u ih =>
    have ht := hplain t List.mem_cons_self
    have hu : ∀ t ∈ u, Token.IsPlain t := fun t ht => hplain t (List.mem_cons_of_mem _ ht)
    have hnext : startsStatement ((u ++ semicolon :: rest).headD (.endOfInput 0)).kind = false := by
      cases u with
      | nil => rw [List.nil_append, List.headD_cons, hsemi]; rfl
      | cons t' u => exact (hu t' List.mem_cons_self).2
    have heof : t.kind ≠ .eof := fun heq => ht.1 (by rw [heq]; decide)
    have hsemi' : t.kind ≠ .semicolon := fun heq => ht.1 (by rw [heq]; decide)
    rw [List.cons_append, skipStatement, if_neg heof, if_neg hsemi', hnext, ih hu]
    rfl

theorem Abreast.recovering {R : α → α → Prop} {p q : Parser α}
    (hp : P.Abreast P.Behind R p q s s') :
    P.Abreast P.Behind (fun _ _ => True) (recovering p) (recovering q) s s' := by
  unfold Abreast at hp ⊢
  unfold Parser.recovering
  split at hp
  · rename_i hp₁ hq₁
    rw [hp₁, hq₁]
    exact ⟨trivial, hp.2⟩
  · rename_i e t e' t' hp₁ hq₁
    rw [hp₁, hq₁]
    obtain ⟨rfl, hbefore⟩ := hp
    cases hbefore with
    | @mk u es n n' hplain =>
      refine ⟨trivial, ?_⟩
      simp only [skipStatement_plain P.isSemicolon hplain, List.append_assoc]
      exact .mk
  · rename_i hp₁ hq₁
    rw [hp₁, hq₁]
    trivial
  · exact hp.elim

theorem abreast_declaration_plain (h : P.Before s s') :
    P.Abreast P.Behind (fun _ _ => True) (declaration fuel) (declaration fuel) s s' := by
  cases fuel with
  | zero => exact .outOfFuel
  | succ fuel =>
    refine Abreast.recovering (R := fun _ _ => True) (.peek_bind h ?_)
    have hplain := h.ahead_cases
    split
    case h_4 => exact abreast_statement h
    all_goals
      rename_i hkind
      rw [Token.IsPlain, hkind] at hplain
      exact absurd hplain (by decide)

theorem abreast_declaration_headed {keyword : Token} (hP : P.NoElseBehind)
    (hkeyword : keyword.kind ∈
      [TokenKind.kwClass, .kwFun, .kwVar, .kwIf, .kwWhile, .kwReturn])
    (h : P.Headed keyword s s') :
    P.Abreast P.Behind (fun _ _ => True) (declaration fuel) (declaration fuel) s s' := by
  cases fuel with
  | zero => exact .outOfFuel
  | succ fuel =>
    refine Abreast.recovering (R := fun _ _ => True) (h.peek_bind ?_)
    split
    · exact h.advance_bind fun _ _ h₁ => abreast_classDeclaration h₁
    · exact h.advance_bind fun _ _ h₁ =>
        (abreast_routine _ h₁).bind fun _ _ _ _ _ h₂ => .pure trivial h₂
    · exact h.advance_bind fun _ _ h₁ => abreast_varDeclaration h₁
    · rename_i hclass hfun hvar
      refine abreast_headed hP ?_ h
      simp only [List.mem_cons, List.not_mem_nil, or_false] at hkeyword ⊢
      rcases hkeyword with hkind | hkind | hkind | hkind
      · exact absurd hkind hclass
      · exact absurd hkind hfun
      · exact absurd hkind hvar
      · exact hkind

end Places

end Lox.Parser
