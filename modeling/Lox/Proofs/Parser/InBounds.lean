import Lox.Proofs.Parser.Looks

/-!
# Every function of the parser stays within the sequence

With any bound on the recursion, each function of the parser looks only at places of the
sequence.  The counts of tokens that are stepped over at least are those that keep the
loops going on.
-/

namespace Lox.Parser

open Lox.Grammar

variable {α β : Type} {tokens : List Token} {n : Nat} {s : State}

namespace InBounds

/-! ### The steps of the parser -/

/-- What depends on whether a token of one of the kinds is ahead. -/
theorem acceptAny_bind {kinds : List TokenKind} {f : Option Token → Parser β}
    (hs : Within tokens s) (heof : .eof ∉ kinds)
    (hsome : ∀ t s', t ∈ tokens → Within tokens s' → InBounds tokens (n - 1) (f (some t)) s')
    (hnone : InBounds tokens n (f none) s) : InBounds tokens n (acceptAny kinds >>= f) s := by
  unfold acceptAny
  rw [bind_assoc]
  refine peek_bind hs ?_
  split
  · rename_i hmem
    have hahead : s.ahead.kind ≠ .eof := fun h => heof (h ▸ hmem)
    rw [bind_assoc]
    refine (advance hs hahead).bind fun t s' hrun hs' => ?_
    rw [Parser.advance, if_neg hahead] at hrun
    cases hrun
    exact hsome _ _ hs.ahead_mem hs'
  · exact hnone

theorem accept_bind {kind : TokenKind} {f : Option Token → Parser β} (hs : Within tokens s)
    (heof : kind ≠ .eof)
    (hsome : ∀ t s', t ∈ tokens → Within tokens s' → InBounds tokens (n - 1) (f (some t)) s')
    (hnone : InBounds tokens n (f none) s) : InBounds tokens n (accept kind >>= f) s :=
  acceptAny_bind hs (fun hmem => heof (List.mem_singleton.mp hmem).symm) hsome hnone

theorem expect {kind : TokenKind} (hs : Within tokens s) (heof : kind ≠ .eof)
    (cause : GrammarCause) : InBounds tokens 1 (Parser.expect kind cause) s :=
  accept_bind hs heof (fun t _ _ hs' => .pure hs' t) (.fail hs cause)

theorem expectMark {mark : TokenKind} (hs : Within tokens s) (heof : mark ≠ .eof)
    (place : Place) : InBounds tokens 1 (Parser.expectMark mark place) s :=
  (expect hs heof _).bind fun _ _ _ hs' => .pure hs' ()

theorem expectName (hs : Within tokens s) (role : NameRole) :
    InBounds tokens 1 (Parser.expectName role) s :=
  expect hs (by decide) _

theorem checkLength (hs : Within tokens s) (list : LimitedList) (count : Nat) :
    InBounds tokens 0 (Parser.checkLength list count) s := by
  unfold Parser.checkLength
  split
  · exact peek_bind hs (record hs _ hs.ahead_mem)
  · exact pure hs ()

/-! ### Expressions -/

theorem assignTo (hs : Within tokens s) (target : Expr) {equals : Token}
    (hequals : equals ∈ tokens) (value : Expr) :
    InBounds tokens 0 (Parser.assignTo target equals value) s := by
  unfold Parser.assignTo
  split
  · exact (occurrence hs _).bind fun _ _ _ hs₁ => .pure hs₁ _
  · exact .pure hs _
  · exact (record hs _ hequals).bind fun _ _ _ hs₁ => .pure hs₁ _

end InBounds

/-- The functions for expressions stay within the sequence. -/
structure ExprInBounds (tokens : List Token) (fuel : Nat) : Prop where
  expression {s : State} : Within tokens s → InBounds tokens 1 (expression fuel) s
  operation {s : State} (levels : List Level) :
    Within tokens s → InBounds tokens 1 (operation fuel levels) s
  operationTail {s : State} (level : Level) (tighter : List Level) (left : Expr) :
    Within tokens s → InBounds tokens 0 (operationTail fuel level tighter left) s
  unary {s : State} : Within tokens s → InBounds tokens 1 (unary fuel) s
  callTail {s : State} (callee : Expr) :
    Within tokens s → InBounds tokens 0 (callTail fuel callee) s
  argumentList {s : State} (count : Nat) :
    Within tokens s → InBounds tokens 1 (argumentList fuel count) s
  primary {s : State} : Within tokens s → InBounds tokens 1 (primary fuel) s

namespace ExprInBounds

variable {fuel : Nat}

theorem zero : ExprInBounds tokens 0 := by
  constructor
  all_goals
    intros
    exact .outOfFuel (by assumption)

theorem expression_succ (ih : ExprInBounds tokens fuel) (hs : Within tokens s) :
    InBounds tokens 1 (Parser.expression (fuel + 1)) s := by
  refine (ih.operation Level.all hs).bind fun target s₁ _ hs₁ => ?_
  refine .accept_bind hs₁ (by decide) (fun equals s₂ hequals hs₂ => ?_) (.pure hs₁ target)
  refine ((ih.expression hs₂).weaken (Nat.zero_le 1)).bind fun value s₃ _ hs₃ => ?_
  exact .assignTo hs₃ target hequals value

theorem operation_succ (ih : ExprInBounds tokens fuel) (levels : List Level)
    (hs : Within tokens s) : InBounds tokens 1 (Parser.operation (fuel + 1) levels) s := by
  cases levels with
  | nil => exact ih.unary hs
  | cons level tighter =>
    exact (ih.operation tighter hs).bind fun left _ _ hs₁ => ih.operationTail level tighter left hs₁

theorem operationTail_succ (ih : ExprInBounds tokens fuel) (level : Level)
    (tighter : List Level) (left : Expr) (hs : Within tokens s) :
    InBounds tokens 0 (Parser.operationTail (fuel + 1) level tighter left) s := by
  refine .acceptAny_bind hs (eof_notMem_operators level) (fun operator s₁ _ hs₁ => ?_)
    (.pure hs left)
  refine ((ih.operation tighter hs₁).weaken (Nat.zero_le 1)).bind fun right s₂ _ hs₂ => ?_
  exact ih.operationTail level tighter _ hs₂

theorem unary_succ (ih : ExprInBounds tokens fuel) (hs : Within tokens s) :
    InBounds tokens 1 (Parser.unary (fuel + 1)) s := by
  refine .acceptAny_bind hs (by decide) (fun operator s₁ _ hs₁ => ?_) ?_
  · exact ((ih.unary hs₁).weaken (Nat.zero_le 1)).bind fun _ _ _ hs₂ => .pure hs₂ _
  · exact (ih.primary hs).bind fun callee _ _ hs₁ => ih.callTail callee hs₁

theorem callTail_succ (ih : ExprInBounds tokens fuel) (callee : Expr) (hs : Within tokens s) :
    InBounds tokens 0 (Parser.callTail (fuel + 1) callee) s := by
  unfold Parser.callTail
  refine .peek_bind hs ?_
  split
  · rename_i hkind
    refine ((InBounds.advance hs (by simp [hkind])).weaken (Nat.zero_le 1)).bind
      fun _ s₁ _ hs₁ => .peek_bind hs₁ ?_
    have hfinish : ∀ arguments s₂, Within tokens s₂ → InBounds tokens 0 (do
        let paren ← expect .rightParen (.noMark .rightParen .afterArguments)
        Parser.callTail fuel (.call callee paren arguments)) s₂ :=
      fun arguments s₂ hs₂ => ((InBounds.expect hs₂ (by decide) _).weaken (Nat.zero_le 1)).bind
        fun paren _ _ hs₃ => ih.callTail _ hs₃
    split
    · exact (InBounds.pure hs₁ []).bind fun arguments s₂ _ hs₂ => hfinish arguments s₂ hs₂
    · exact ((ih.argumentList 0 hs₁).weaken (Nat.zero_le 1)).bind
        fun arguments s₂ _ hs₂ => hfinish arguments s₂ hs₂
  · rename_i hkind
    refine ((InBounds.advance hs (by simp [hkind])).weaken (Nat.zero_le 1)).bind
      fun _ s₁ _ hs₁ => ?_
    exact ((InBounds.expectName hs₁ _).weaken (Nat.zero_le 1)).bind
      fun name _ _ hs₂ => ih.callTail _ hs₂
  · exact .pure hs callee

theorem argumentList_succ (ih : ExprInBounds tokens fuel) (count : Nat) (hs : Within tokens s) :
    InBounds tokens 1 (Parser.argumentList (fuel + 1) count) s := by
  refine (InBounds.checkLength hs _ _).bind fun _ s₁ _ hs₁ => ?_
  refine (ih.expression hs₁).bind fun argument s₂ _ hs₂ => ?_
  refine .accept_bind hs₂ (by decide) (fun comma s₃ _ hs₃ => ?_) (.pure hs₂ _)
  exact ((ih.argumentList (count + 1) hs₃).weaken (Nat.zero_le 1)).bind
    fun _ _ _ hs₄ => .pure hs₄ _

theorem primary_succ (ih : ExprInBounds tokens fuel) (hs : Within tokens s) :
    InBounds tokens 1 (Parser.primary (fuel + 1)) s := by
  unfold Parser.primary
  refine .peek_bind hs ?_
  split
  · rename_i value hliteral
    have hkind : s.ahead.kind ≠ .eof := by
      intro heof
      simp [Token.literal?, heof] at hliteral
    exact (InBounds.advance hs hkind).bind fun _ _ _ hs₁ => .pure hs₁ _
  · rename_i hkind
    refine (InBounds.advance hs (by simp [hkind])).bind fun keyword _ _ hs₁ => ?_
    exact (InBounds.occurrence hs₁ keyword).bind fun _ _ _ hs₂ => .pure hs₂ _
  · rename_i hkind
    refine (InBounds.advance hs (by simp [hkind])).bind fun keyword _ _ hs₁ => ?_
    refine ((InBounds.expectMark hs₁ (by decide) _).weaken (Nat.zero_le 1)).bind
      fun _ _ _ hs₂ => ?_
    refine ((InBounds.expectName hs₂ _).weaken (Nat.zero_le 1)).bind fun method _ _ hs₃ => ?_
    exact (InBounds.occurrence hs₃ keyword).bind fun _ _ _ hs₄ => .pure hs₄ _
  · rename_i hkind
    refine (InBounds.advance hs (by simp [hkind])).bind fun name _ _ hs₁ => ?_
    exact (InBounds.occurrence hs₁ name).bind fun _ _ _ hs₂ => .pure hs₂ _
  · rename_i hkind
    refine (InBounds.advance hs (by simp [hkind])).bind fun _ _ _ hs₁ => ?_
    refine ((ih.expression hs₁).weaken (Nat.zero_le 1)).bind fun inner _ _ hs₂ => ?_
    exact ((InBounds.expectMark hs₂ (by decide) _).weaken (Nat.zero_le 1)).bind
      fun _ _ _ hs₃ => .pure hs₃ _
  · exact .fail hs _

end ExprInBounds

theorem exprInBounds (tokens : List Token) (fuel : Nat) : ExprInBounds tokens fuel := by
  induction fuel with
  | zero => exact .zero
  | succ fuel ih =>
    exact ⟨ih.expression_succ, ih.operation_succ, ih.operationTail_succ, ih.unary_succ,
      ih.callTail_succ, ih.argumentList_succ, ih.primary_succ⟩

/-! ### Statements -/

namespace InBounds

variable {fuel : Nat}

/-- A mark whose token is not counted. -/
theorem mark {kind : TokenKind} (hs : Within tokens s) (heof : kind ≠ .eof) (place : Place) :
    InBounds tokens 0 (Parser.expectMark kind place) s :=
  (expectMark hs heof place).weaken (Nat.zero_le 1)

/-- An expression whose tokens are not counted. -/
theorem expression (hs : Within tokens s) (fuel : Nat) :
    InBounds tokens 0 (Parser.expression fuel) s :=
  ((exprInBounds tokens fuel).expression hs).weaken (Nat.zero_le 1)

theorem parameterList (hs : Within tokens s) (count : Nat) :
    InBounds tokens 1 (Parser.parameterList fuel count) s := by
  induction fuel generalizing count s with
  | zero => exact .outOfFuel hs
  | succ fuel ih =>
    refine (checkLength hs _ _).bind fun _ s₁ _ hs₁ => ?_
    refine (expectName hs₁ _).bind fun parameter s₂ _ hs₂ => ?_
    refine accept_bind hs₂ (by decide) (fun comma s₃ _ hs₃ => ?_) (.pure hs₂ _)
    exact ((ih hs₃ (count + 1)).weaken (Nat.zero_le 1)).bind fun _ _ _ hs₄ => .pure hs₄ _

theorem optionalExpression (hs : Within tokens s) (ending : TokenKind) :
    InBounds tokens 0 (Parser.optionalExpression fuel ending) s := by
  refine peek_bind hs ?_
  split
  · exact .pure hs _
  · exact (expression hs fuel).bind fun _ _ _ hs₁ => .pure hs₁ _

theorem expressionStatement (hs : Within tokens s) :
    InBounds tokens 1 (Parser.expressionStatement fuel) s := by
  refine ((exprInBounds tokens fuel).expression hs).bind fun value s₁ _ hs₁ => ?_
  exact (mark hs₁ (by decide) _).bind fun _ _ _ hs₂ => .pure hs₂ _

theorem varDeclaration (hs : Within tokens s) :
    InBounds tokens 1 (Parser.varDeclaration fuel) s := by
  refine (expectName hs _).bind fun name s₁ _ hs₁ => ?_
  have hfinish : ∀ initializer s₂, Within tokens s₂ → InBounds tokens 0 (do
      Parser.expectMark .semicolon .afterVariable
      return Stmt.var name initializer) s₂ :=
    fun initializer s₂ hs₂ => (mark hs₂ (by decide) _).bind fun _ _ _ hs₃ => .pure hs₃ _
  refine accept_bind hs₁ (by decide) (fun equals s₂ _ hs₂ => ?_) ?_
  · exact ((expression hs₂ fuel).map some).bind
      fun initializer s₃ _ hs₃ => hfinish initializer s₃ hs₃
  · exact (InBounds.pure hs₁ none).bind fun initializer s₂ _ hs₂ => hfinish initializer s₂ hs₂

theorem forInitializer (hs : Within tokens s) :
    InBounds tokens 1 (Parser.forInitializer fuel) s := by
  unfold Parser.forInitializer
  refine peek_bind hs ?_
  split
  · rename_i hkind
    exact (advance hs (by simp [hkind])).bind fun _ _ _ hs₁ => .pure hs₁ _
  · rename_i hkind
    refine (advance hs (by simp [hkind])).bind fun _ s₁ _ hs₁ => ?_
    exact ((varDeclaration hs₁).weaken (Nat.zero_le 1)).map some
  · exact (expressionStatement hs).map some

end InBounds

structure StmtInBounds (tokens : List Token) (fuel : Nat) : Prop where
  declaration {s : State} : Within tokens s → s.ahead.kind ≠ .eof →
    InBounds tokens 1 (declaration fuel) s
  declarations {s : State} (endings : List TokenKind) : .eof ∈ endings → Within tokens s →
    InBounds tokens 0 (declarations fuel endings) s
  block {s : State} : Within tokens s → InBounds tokens 1 (block fuel) s
  routine {s : State} (kind : Routine) : Within tokens s → InBounds tokens 1 (routine fuel kind) s
  methods {s : State} : Within tokens s → InBounds tokens 0 (methods fuel) s
  classDeclaration {s : State} :
    Within tokens s → InBounds tokens 1 (classDeclaration fuel) s
  statement {s : State} : Within tokens s → InBounds tokens 1 (statement fuel) s

namespace StmtInBounds

variable {fuel : Nat}

theorem zero : StmtInBounds tokens 0 := by
  constructor
  all_goals
    intros
    exact .outOfFuel (by assumption)

theorem declaration_succ (ih : StmtInBounds tokens fuel) (hs : Within tokens s)
    (hahead : s.ahead.kind ≠ .eof) : InBounds tokens 1 (Parser.declaration (fuel + 1)) s := by
  refine .recovering (.peek_bind hs ?_) hahead
  split
  · refine (InBounds.advance hs hahead).bind fun _ s₁ _ hs₁ => ?_
    exact (ih.classDeclaration hs₁).weaken (Nat.zero_le 1)
  · refine (InBounds.advance hs hahead).bind fun _ s₁ _ hs₁ => ?_
    exact ((ih.routine _ hs₁).weaken (Nat.zero_le 1)).bind fun _ _ _ hs₂ => .pure hs₂ _
  · refine (InBounds.advance hs hahead).bind fun _ s₁ _ hs₁ => ?_
    exact (InBounds.varDeclaration hs₁).weaken (Nat.zero_le 1)
  · exact ih.statement hs

theorem declarations_succ (ih : StmtInBounds tokens fuel) (endings : List TokenKind)
    (heof : .eof ∈ endings) (hs : Within tokens s) :
    InBounds tokens 0 (Parser.declarations (fuel + 1) endings) s := by
  unfold Parser.declarations
  refine .peek_bind hs ?_
  split
  · exact .pure hs _
  · rename_i hgoes
    have hahead : s.ahead.kind ≠ .eof := fun hkind => hgoes (hkind ▸ heof)
    refine ((ih.declaration hs hahead).weaken (Nat.zero_le 1)).bind fun found s₁ _ hs₁ => ?_
    cases found with
    | some first => exact (ih.declarations endings heof hs₁).bind fun _ _ _ hs₂ => .pure hs₂ _
    | none => exact ih.declarations endings heof hs₁

theorem block_succ (ih : StmtInBounds tokens fuel) (hs : Within tokens s) :
    InBounds tokens 1 (Parser.block (fuel + 1)) s := by
  refine (ih.declarations _ (by decide) hs).bind fun body s₁ _ hs₁ => ?_
  exact (InBounds.expectMark hs₁ (by decide) _).bind fun _ _ _ hs₂ => .pure hs₂ _

theorem routine_succ (ih : StmtInBounds tokens fuel) (kind : Routine) (hs : Within tokens s) :
    InBounds tokens 1 (Parser.routine (fuel + 1) kind) s := by
  refine (InBounds.expectName hs _).bind fun name s₁ _ hs₁ => ?_
  refine (InBounds.mark hs₁ (by decide) _).bind fun _ s₂ _ hs₂ => ?_
  refine .peek_bind hs₂ ?_
  have hfinish : ∀ parameters s₃, Within tokens s₃ → InBounds tokens 0 (do
      expectMark .rightParen .afterParameters
      expectMark .leftBrace (.beforeRoutineBody kind)
      let body ← Parser.block fuel
      return (⟨name, parameters, body⟩ : FunctionDecl)) s₃ := by
    intro parameters s₃ hs₃
    refine (InBounds.mark hs₃ (by decide) _).bind fun _ s₄ _ hs₄ => ?_
    refine (InBounds.mark hs₄ (by decide) _).bind fun _ s₅ _ hs₅ => ?_
    exact ((ih.block hs₅).weaken (Nat.zero_le 1)).bind fun _ _ _ hs₆ => .pure hs₆ _
  split
  · exact (InBounds.pure hs₂ []).bind fun parameters s₃ _ hs₃ => hfinish parameters s₃ hs₃
  · exact ((InBounds.parameterList hs₂ 0).weaken (Nat.zero_le 1)).bind
      fun parameters s₃ _ hs₃ => hfinish parameters s₃ hs₃

theorem methods_succ (ih : StmtInBounds tokens fuel) (hs : Within tokens s) :
    InBounds tokens 0 (Parser.methods (fuel + 1)) s := by
  unfold Parser.methods
  refine .peek_bind hs ?_
  split
  · exact .pure hs _
  · refine ((ih.routine .method hs).weaken (Nat.zero_le 1)).bind fun first s₁ _ hs₁ => ?_
    exact (ih.methods hs₁).bind fun _ _ _ hs₂ => .pure hs₂ _

theorem classDeclaration_succ (ih : StmtInBounds tokens fuel) (hs : Within tokens s) :
    InBounds tokens 1 (Parser.classDeclaration (fuel + 1)) s := by
  refine (InBounds.expectName hs _).bind fun name s₁ _ hs₁ => ?_
  have hfinish : ∀ superclass s₂, Within tokens s₂ → InBounds tokens 0 (do
      expectMark .leftBrace .beforeClassBody
      let body ← Parser.methods fuel
      expectMark .rightBrace .afterClassBody
      return Stmt.class name superclass body) s₂ := by
    intro superclass s₂ hs₂
    refine (InBounds.mark hs₂ (by decide) _).bind fun _ s₃ _ hs₃ => ?_
    refine (ih.methods hs₃).bind fun body s₄ _ hs₄ => ?_
    exact (InBounds.mark hs₄ (by decide) _).bind fun _ _ _ hs₅ => .pure hs₅ _
  refine .accept_bind hs₁ (by decide) (fun less s₂ _ hs₂ => ?_) ?_
  · have hparent : InBounds tokens 0 (expectName .superclassName >>= occurrence) s₂ :=
      ((InBounds.expectName hs₂ _).weaken (Nat.zero_le 1)).bind
        fun name _ _ hs₃ => .occurrence hs₃ name
    exact (hparent.map some).bind fun superclass s₃ _ hs₃ => hfinish superclass s₃ hs₃
  · exact (InBounds.pure hs₁ none).bind fun superclass s₂ _ hs₂ => hfinish superclass s₂ hs₂

theorem statement_succ (ih : StmtInBounds tokens fuel) (hs : Within tokens s) :
    InBounds tokens 1 (Parser.statement (fuel + 1)) s := by
  have hbody : ∀ {s}, Within tokens s → InBounds tokens 0 (Parser.statement fuel) s :=
    fun hs => (ih.statement hs).weaken (Nat.zero_le 1)
  unfold Parser.statement
  refine .peek_bind hs ?_
  split
  · -- `for`
    rename_i hkind
    refine (InBounds.advance hs (by simp [hkind])).bind fun _ s₁ _ hs₁ => ?_
    refine (InBounds.mark hs₁ (by decide) _).bind fun _ s₂ _ hs₂ => ?_
    refine ((InBounds.forInitializer hs₂).weaken (Nat.zero_le 1)).bind
      fun initializer s₃ _ hs₃ => ?_
    refine (InBounds.optionalExpression hs₃ _).bind fun condition s₄ _ hs₄ => ?_
    refine (InBounds.mark hs₄ (by decide) _).bind fun _ s₅ _ hs₅ => ?_
    refine (InBounds.optionalExpression hs₅ _).bind fun increment s₆ _ hs₆ => ?_
    refine (InBounds.mark hs₆ (by decide) _).bind fun _ s₇ _ hs₇ => ?_
    exact (hbody hs₇).bind fun _ _ _ hs₈ => .pure hs₈ _
  · -- `if`
    rename_i hkind
    refine (InBounds.advance hs (by simp [hkind])).bind fun _ s₁ _ hs₁ => ?_
    refine (InBounds.mark hs₁ (by decide) _).bind fun _ s₂ _ hs₂ => ?_
    refine (InBounds.expression hs₂ fuel).bind fun condition s₃ _ hs₃ => ?_
    refine (InBounds.mark hs₃ (by decide) _).bind fun _ s₄ _ hs₄ => ?_
    refine (hbody hs₄).bind fun thenBranch s₅ _ hs₅ => ?_
    refine .accept_bind hs₅ (by decide) (fun kwElse s₆ _ hs₆ => ?_) (.pure hs₅ _)
    exact (hbody hs₆).bind fun _ _ _ hs₇ => .pure hs₇ _
  · -- `while`
    rename_i hkind
    refine (InBounds.advance hs (by simp [hkind])).bind fun _ s₁ _ hs₁ => ?_
    refine (InBounds.mark hs₁ (by decide) _).bind fun _ s₂ _ hs₂ => ?_
    refine (InBounds.expression hs₂ fuel).bind fun condition s₃ _ hs₃ => ?_
    refine (InBounds.mark hs₃ (by decide) _).bind fun _ s₄ _ hs₄ => ?_
    exact (hbody hs₄).bind fun _ _ _ hs₅ => .pure hs₅ _
  · -- `return`
    rename_i hkind
    refine (InBounds.advance hs (by simp [hkind])).bind fun keyword s₁ _ hs₁ => ?_
    refine (InBounds.optionalExpression hs₁ _).bind fun value s₂ _ hs₂ => ?_
    exact (InBounds.mark hs₂ (by decide) _).bind fun _ _ _ hs₃ => .pure hs₃ _
  · -- `break`
    rename_i hkind
    refine (InBounds.advance hs (by simp [hkind])).bind fun keyword s₁ _ hs₁ => ?_
    exact (InBounds.mark hs₁ (by decide) _).bind fun _ _ _ hs₂ => .pure hs₂ _
  · -- `continue`
    rename_i hkind
    refine (InBounds.advance hs (by simp [hkind])).bind fun keyword s₁ _ hs₁ => ?_
    exact (InBounds.mark hs₁ (by decide) _).bind fun _ _ _ hs₂ => .pure hs₂ _
  · -- A block.
    rename_i hkind
    refine (InBounds.advance hs (by simp [hkind])).bind fun _ s₁ _ hs₁ => ?_
    exact ((ih.block hs₁).weaken (Nat.zero_le 1)).bind fun _ _ _ hs₂ => .pure hs₂ _
  · -- An expression statement.
    exact .expressionStatement hs

end StmtInBounds

theorem stmtInBounds (tokens : List Token) (fuel : Nat) : StmtInBounds tokens fuel := by
  induction fuel with
  | zero => exact .zero
  | succ fuel ih =>
    exact ⟨ih.declaration_succ, ih.declarations_succ, ih.block_succ, ih.routine_succ,
      ih.methods_succ, ih.classDeclaration_succ, ih.statement_succ⟩

end Lox.Parser
