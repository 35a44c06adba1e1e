import Lox.Proofs.Parser.Steps

/-!
# The parser comes to an end

The functions of the parser take a bound on the depth of their recursion, and `parse`
gives one that is never reached, whatever the tokens are.  Only so many calls are nested
between two tokens that are stepped over, and where reading goes on behind an error, at
least one token is skipped.  So a parse that yields no program has noted an error.
-/

namespace Lox.Parser

variable {α β : Type} {n k : Nat} {p : Parser α} {s : State}

/--
The parser does not reach its bound, and it leaves tokens behind that it did not come to.
If it succeeds, it has stepped over `n` tokens at least.
-/
def Ends (n : Nat) (p : Parser α) (s : State) : Prop :=
  match p s with
  | .ok _ s' => s'.rest <:+ s.rest ∧ s'.rest.length + n ≤ s.rest.length
  | .error (.error _) s' => s'.rest <:+ s.rest
  | .error .outOfFuel _ => False

namespace Ends

theorem weaken (h : Ends n p s) (hk : k ≤ n) : Ends k p s := by
  unfold Ends at h ⊢
  split at h
  · exact ⟨h.1, Nat.le_trans (Nat.add_le_add_left hk _) h.2⟩
  · exact h
  · exact h

/-- What the first of two parsers stepped over, the second one need not. -/
theorem bind {f : α → Parser β} (hp : Ends k p s)
    (hf : ∀ a s', s'.rest.length + k ≤ s.rest.length → Ends (n - k) (f a) s') :
    Ends n (p >>= f) s := by
  change Ends n (EStateM.bind p f) s
  unfold Ends EStateM.bind
  unfold Ends at hp
  cases hrun : p s with
  | ok a s' =>
    rw [hrun] at hp
    obtain ⟨hsuffix, hlength⟩ := hp
    have hrest := hf a s' hlength
    unfold Ends at hrest
    simp only
    cases hrun' : f a s' with
    | ok b s'' =>
      rw [hrun'] at hrest
      exact ⟨hrest.1.trans hsuffix, by omega⟩
    | error e s'' =>
      rw [hrun'] at hrest
      cases e with
      | error e => exact List.IsSuffix.trans hrest hsuffix
      | outOfFuel => exact hrest
  | error e s' =>
    rw [hrun] at hp
    cases e with
    | error e => exact hp
    | outOfFuel => exact hp

theorem map (f : α → β) (hp : Ends n p s) : Ends n (f <$> p) s := by
  have hbind : f <$> p = p >>= fun a => Pure.pure (f a) := (bind_pure_comp f p).symm
  rw [hbind]
  refine hp.bind fun a s' _ => ?_
  exact ⟨List.suffix_refl _, by omega⟩

theorem pure (a : α) : Ends 0 (Pure.pure a : Parser α) s := ⟨List.suffix_refl _, Nat.le_refl _⟩

theorem fail (cause : GrammarCause) : Ends n (Parser.fail cause : Parser α) s :=
  List.suffix_refl s.rest

theorem peek_bind {f : Token → Parser β} (h : Ends n (f s.ahead) s) : Ends n (peek >>= f) s := h

end Ends

/-! ### The steps of the parser -/

theorem ends_advance (h : s.ahead.kind ≠ .eof) : Ends 1 advance s := by
  unfold Ends advance
  rw [if_neg h]
  cases hrest : s.rest with
  | nil => simp [State.ahead, hrest, Token.endOfInput] at h
  | cons t rest => exact ⟨List.suffix_cons t rest, Nat.le_refl _⟩

/-- What depends on whether a token of one of the kinds is ahead. -/
theorem ends_acceptAny_bind {kinds : List TokenKind} {f : Option Token → Parser β}
    (heof : .eof ∉ kinds)
    (hsome : ∀ t s', s'.rest.length + 1 ≤ s.rest.length → Ends (n - 1) (f (some t)) s')
    (hnone : Ends n (f none) s) : Ends n (acceptAny kinds >>= f) s := by
  unfold acceptAny
  rw [bind_assoc]
  refine Ends.peek_bind ?_
  split
  · rename_i hmem
    have hahead : s.ahead.kind ≠ .eof := fun h => heof (h ▸ hmem)
    rw [bind_assoc]
    exact (ends_advance hahead).bind fun t s' hs' => hsome t s' hs'
  · exact hnone

theorem ends_accept_bind {kind : TokenKind} {f : Option Token → Parser β} (heof : kind ≠ .eof)
    (hsome : ∀ t s', s'.rest.length + 1 ≤ s.rest.length → Ends (n - 1) (f (some t)) s')
    (hnone : Ends n (f none) s) : Ends n (accept kind >>= f) s :=
  ends_acceptAny_bind (fun hmem => heof (List.mem_singleton.mp hmem).symm) hsome hnone

theorem ends_expect {kind : TokenKind} (heof : kind ≠ .eof) (cause : GrammarCause) :
    Ends 1 (expect kind cause) s :=
  ends_accept_bind heof (fun _ _ _ => .pure _) (.fail cause)

theorem ends_expectMark {mark : TokenKind} (heof : mark ≠ .eof) (place : Place) :
    Ends 1 (expectMark mark place) s :=
  (ends_expect heof _).bind fun _ _ _ => .pure _

theorem ends_expectName (role : NameRole) : Ends 1 (expectName role) s :=
  ends_expect (by decide) _

theorem ends_record (cause : GrammarCause) (token : Token) : Ends 0 (record cause token) s :=
  ⟨List.suffix_refl _, Nat.le_refl _⟩

theorem ends_occurrence (token : Token) : Ends 0 (occurrence token) s :=
  ⟨List.suffix_refl _, Nat.le_refl _⟩

theorem ends_checkLength (list : LimitedList) (count : Nat) : Ends 0 (checkLength list count) s := by
  unfold checkLength
  split
  · exact .peek_bind (ends_record _ _)
  · exact .pure _

/-! ### Expressions -/

theorem eof_notMem_operators (level : Level) : TokenKind.eof ∉ level.operators := by
  cases level <;> decide

theorem ends_assignTo (target : Expr) (equals : Token) (value : Expr) :
    Ends 0 (assignTo target equals value) s := by
  unfold assignTo
  split
  · exact (ends_occurrence _).bind fun _ _ _ => .pure _
  · exact .pure _
  · exact (ends_record _ _).bind fun _ _ _ => .pure _

/-- The functions come to an end if they have fuel for the tokens ahead. -/
structure ExprEnds (fuel : Nat) : Prop where
  expression {s : State} : 32 * s.rest.length + 10 ≤ fuel → Ends 1 (expression fuel) s
  operation {s : State} (levels : List Level) : levels.length ≤ 6 →
    32 * s.rest.length + levels.length + 3 ≤ fuel → Ends 1 (operation fuel levels) s
  operationTail {s : State} (level : Level) (tighter : List Level) (left : Expr) :
    tighter.length ≤ 6 → 32 * s.rest.length + 1 ≤ fuel →
    Ends 0 (operationTail fuel level tighter left) s
  unary {s : State} : 32 * s.rest.length + 2 ≤ fuel → Ends 1 (unary fuel) s
  callTail {s : State} (callee : Expr) :
    32 * s.rest.length + 1 ≤ fuel → Ends 0 (callTail fuel callee) s
  argumentList {s : State} (count : Nat) :
    32 * s.rest.length + 11 ≤ fuel → Ends 1 (argumentList fuel count) s
  primary {s : State} : 32 * s.rest.length + 1 ≤ fuel → Ends 1 (primary fuel) s

namespace ExprEnds

variable {fuel : Nat}

theorem zero : ExprEnds 0 := by
  constructor <;> intros <;> omega

theorem expression_succ (ih : ExprEnds fuel) (h : 32 * s.rest.length + 10 ≤ fuel + 1) :
    Ends 1 (Parser.expression (fuel + 1)) s := by
  have hlevels : Level.all.length = 6 := rfl
  refine (ih.operation Level.all (Nat.le_refl _) (by omega)).bind fun target s₁ hs₁ => ?_
  refine ends_accept_bind (by decide) (fun equals s₂ hs₂ => ?_) (.pure target)
  refine ((ih.expression (by omega)).weaken (Nat.zero_le 1)).bind fun value s₃ _ => ?_
  exact ends_assignTo target equals value

theorem operation_succ (ih : ExprEnds fuel) (levels : List Level) (hlevels : levels.length ≤ 6)
    (h : 32 * s.rest.length + levels.length + 3 ≤ fuel + 1) :
    Ends 1 (Parser.operation (fuel + 1) levels) s := by
  cases levels with
  | nil =>
    rw [List.length_nil] at h
    exact ih.unary (by omega)
  | cons level tighter =>
    rw [List.length_cons] at h hlevels
    refine (ih.operation tighter (by omega) (by omega)).bind fun left s₁ hs₁ => ?_
    exact ih.operationTail level tighter left (by omega) (by omega)

theorem operationTail_succ (ih : ExprEnds fuel) (level : Level) (tighter : List Level) (left : Expr)
    (htighter : tighter.length ≤ 6) (h : 32 * s.rest.length + 1 ≤ fuel + 1) :
    Ends 0 (Parser.operationTail (fuel + 1) level tighter left) s := by
  refine ends_acceptAny_bind (eof_notMem_operators level) (fun operator s₁ hs₁ => ?_) (.pure left)
  refine (ih.operation tighter htighter (by omega)).bind fun right s₂ hs₂ => ?_
  exact ih.operationTail level tighter _ htighter (by omega)

theorem unary_succ (ih : ExprEnds fuel) (h : 32 * s.rest.length + 2 ≤ fuel + 1) :
    Ends 1 (Parser.unary (fuel + 1)) s := by
  refine ends_acceptAny_bind (by decide) (fun operator s₁ hs₁ => ?_) ?_
  · exact ((ih.unary (by omega)).weaken (Nat.zero_le 1)).bind fun _ _ _ => .pure _
  · exact (ih.primary (by omega)).bind fun callee s₁ hs₁ => ih.callTail callee (by omega)

theorem callTail_succ (ih : ExprEnds fuel) (callee : Expr)
    (h : 32 * s.rest.length + 1 ≤ fuel + 1) : Ends 0 (Parser.callTail (fuel + 1) callee) s := by
  unfold Parser.callTail
  refine Ends.peek_bind ?_
  split
  · rename_i hkind
    refine (ends_advance (by simp [hkind])).bind fun _ s₁ hs₁ => Ends.peek_bind ?_
    have hfinish : ∀ arguments s₂, s₂.rest.length ≤ s₁.rest.length → Ends 0 (do
        let paren ← expect .rightParen (.noMark .rightParen .afterArguments)
        Parser.callTail fuel (.call callee paren arguments)) s₂ := by
      intro arguments s₂ hs₂
      refine (ends_expect (by decide) _).bind fun paren s₃ hs₃ => ?_
      exact ih.callTail _ (by omega)
    split
    · exact (Ends.pure []).bind hfinish
    · refine (ih.argumentList 0 (by omega)).bind fun arguments s₂ hs₂ => ?_
      exact hfinish arguments s₂ (by omega)
  · rename_i hkind
    refine (ends_advance (by simp [hkind])).bind fun _ s₁ hs₁ => ?_
    exact (ends_expectName _).bind fun name s₂ hs₂ => ih.callTail _ (by omega)
  · exact .pure callee

theorem argumentList_succ (ih : ExprEnds fuel) (count : Nat)
    (h : 32 * s.rest.length + 11 ≤ fuel + 1) :
    Ends 1 (Parser.argumentList (fuel + 1) count) s := by
  refine (ends_checkLength _ _).bind fun _ s₁ hs₁ => ?_
  refine (ih.expression (by omega)).bind fun argument s₂ hs₂ => ?_
  refine ends_accept_bind (by decide) (fun comma s₃ hs₃ => ?_) (.pure _)
  exact ((ih.argumentList (count + 1) (by omega)).weaken (Nat.zero_le 1)).bind fun _ _ _ => .pure _

theorem primary_succ (ih : ExprEnds fuel) (h : 32 * s.rest.length + 1 ≤ fuel + 1) :
    Ends 1 (Parser.primary (fuel + 1)) s := by
  unfold Parser.primary
  refine Ends.peek_bind ?_
  split
  · rename_i value hliteral
    have hkind : s.ahead.kind ≠ .eof := by
      intro heof
      simp [Token.literal?, heof] at hliteral
    exact (ends_advance hkind).bind fun _ _ _ => .pure _
  · rename_i hkind
    refine (ends_advance (by simp [hkind])).bind fun keyword _ _ => ?_
    exact (ends_occurrence keyword).bind fun _ _ _ => .pure _
  · rename_i hkind
    refine (ends_advance (by simp [hkind])).bind fun keyword _ _ => ?_
    refine ((ends_expectMark (by decide) _).weaken (Nat.zero_le 1)).bind fun _ _ _ => ?_
    refine ((ends_expectName _).weaken (Nat.zero_le 1)).bind fun method _ _ => ?_
    exact (ends_occurrence keyword).bind fun _ _ _ => .pure _
  · rename_i hkind
    refine (ends_advance (by simp [hkind])).bind fun name _ _ => ?_
    exact (ends_occurrence name).bind fun _ _ _ => .pure _
  · rename_i hkind
    refine (ends_advance (by simp [hkind])).bind fun _ s₁ hs₁ => ?_
    refine ((ih.expression (by omega)).weaken (Nat.zero_le 1)).bind fun inner _ _ => ?_
    exact ((ends_expectMark (by decide) _).weaken (Nat.zero_le 1)).bind fun _ _ _ => .pure _
  · exact .fail _

end ExprEnds

theorem exprEnds (fuel : Nat) : ExprEnds fuel := by
  induction fuel with
  | zero => exact .zero
  | succ fuel ih =>
    exact ⟨ih.expression_succ, ih.operation_succ, ih.operationTail_succ, ih.unary_succ,
      ih.callTail_succ, ih.argumentList_succ, ih.primary_succ⟩

/-! ### Statements -/

variable {fuel : Nat}

theorem ends_parameterList (count : Nat) (h : 32 * s.rest.length + 1 ≤ fuel) :
    Ends 1 (parameterList fuel count) s := by
  induction fuel generalizing count s with
  | zero => omega
  | succ fuel ih =>
    refine (ends_checkLength _ _).bind fun _ s₁ hs₁ => ?_
    refine (ends_expectName _).bind fun parameter s₂ hs₂ => ?_
    refine ends_accept_bind (by decide) (fun comma s₃ hs₃ => ?_) (.pure _)
    exact ((ih (count + 1) (by omega)).weaken (Nat.zero_le 1)).bind fun _ _ _ => .pure _

theorem ends_optionalExpression (ending : TokenKind) (h : 32 * s.rest.length + 10 ≤ fuel) :
    Ends 0 (optionalExpression fuel ending) s := by
  refine Ends.peek_bind ?_
  split
  · exact .pure _
  · exact ((exprEnds fuel).expression h |>.weaken (Nat.zero_le 1)).bind fun _ _ _ => .pure _

theorem ends_expressionStatement (h : 32 * s.rest.length + 10 ≤ fuel) :
    Ends 1 (expressionStatement fuel) s := by
  refine ((exprEnds fuel).expression h).bind fun value s₁ _ => ?_
  exact ((ends_expectMark (by decide) _).weaken (Nat.zero_le 1)).bind fun _ _ _ => .pure _

theorem ends_varDeclaration (h : 32 * s.rest.length + 10 ≤ fuel) :
    Ends 1 (varDeclaration fuel) s := by
  refine (ends_expectName _).bind fun name s₁ hs₁ => ?_
  have hfinish : ∀ initializer s₂, Ends 0 (do
      expectMark .semicolon .afterVariable
      return Stmt.var name initializer) s₂ :=
    fun initializer s₂ => ((ends_expectMark (by decide) _).weaken (Nat.zero_le 1)).bind
      fun _ _ _ => .pure _
  refine ends_accept_bind (by decide) (fun equals s₂ hs₂ => ?_) ?_
  · have hvalue : Ends 0 (expression fuel) s₂ :=
      ((exprEnds fuel).expression (by omega)).weaken (Nat.zero_le 1)
    exact (hvalue.map some).bind fun initializer s₃ _ => hfinish initializer s₃
  · exact (Ends.pure none).bind fun initializer s₃ _ => hfinish initializer s₃

theorem ends_forInitializer (h : 32 * s.rest.length + 10 ≤ fuel) :
    Ends 1 (forInitializer fuel) s := by
  unfold forInitializer
  refine Ends.peek_bind ?_
  split
  · rename_i hkind
    exact (ends_advance (by simp [hkind])).bind fun _ _ _ => .pure _
  · rename_i hkind
    refine (ends_advance (by simp [hkind])).bind fun _ s₁ hs₁ => ?_
    exact ((ends_varDeclaration (by omega)).weaken (Nat.zero_le 1)).map some
  · exact (ends_expressionStatement h).map some

/-- Behind an error at least one token is skipped, unless the input has ended. -/
theorem skipStatement_suffix (tokens : List Token) : skipStatement tokens <:+ tokens := by
  induction tokens with
  | nil => exact List.suffix_refl _
  | cons t rest ih =>
    unfold skipStatement
    split
    · exact List.suffix_refl _
    split
    · exact List.suffix_cons t rest
    split
    · exact List.suffix_cons t rest
    · exact ih.trans (List.suffix_cons t rest)

theorem length_skipStatement_lt {t : Token} (ht : t.kind ≠ .eof) (rest : List Token) :
    (skipStatement (t :: rest)).length < (t :: rest).length := by
  unfold skipStatement
  rw [if_neg ht]
  split
  · exact Nat.lt_succ_self _
  split
  · exact Nat.lt_succ_self _
  · exact Nat.lt_succ_of_le (skipStatement_suffix rest).length_le

/-- At least one token is stepped over up to where the skipping ends. -/
theorem length_skipStatement_of_suffix {rest : List Token} (h : rest <:+ s.rest)
    (hahead : s.ahead.kind ≠ .eof) : (skipStatement rest).length + 1 ≤ s.rest.length := by
  have hskip := (skipStatement_suffix rest).length_le
  by_cases hshorter : rest.length < s.rest.length
  · omega
  · have hsame : rest = s.rest := h.eq_of_length_le (Nat.le_of_not_lt hshorter)
    cases hrest : s.rest with
    | nil => simp [State.ahead, hrest, Token.endOfInput] at hahead
    | cons t tail =>
      have ht : t.kind ≠ .eof := by simpa [State.ahead, hrest] using hahead
      rw [hsame, hrest]
      exact length_skipStatement_lt ht tail

/-- A declaration that cannot be read is stepped over in part. -/
theorem ends_recovering (hp : Ends 1 p s) (hahead : s.ahead.kind ≠ .eof) :
    Ends 1 (recovering p) s := by
  unfold Ends at hp
  unfold Ends recovering
  cases hrun : p s with
  | ok a s' =>
    rw [hrun] at hp
    exact hp
  | error e s' =>
    rw [hrun] at hp
    cases e with
    | outOfFuel => exact hp
    | error e =>
      have hsuffix : s'.rest <:+ s.rest := hp
      exact ⟨(skipStatement_suffix s'.rest).trans hsuffix,
        length_skipStatement_of_suffix hsuffix hahead⟩

structure StmtEnds (fuel : Nat) : Prop where
  declaration {s : State} : s.ahead.kind ≠ .eof → 32 * s.rest.length + 12 ≤ fuel →
    Ends 1 (declaration fuel) s
  declarations {s : State} (endings : List TokenKind) : .eof ∈ endings →
    32 * s.rest.length + 13 ≤ fuel → Ends 0 (declarations fuel endings) s
  block {s : State} : 32 * s.rest.length + 14 ≤ fuel → Ends 1 (block fuel) s
  routine {s : State} (kind : Routine) :
    32 * s.rest.length + 1 ≤ fuel → Ends 1 (routine fuel kind) s
  methods {s : State} : 32 * s.rest.length + 2 ≤ fuel → Ends 0 (methods fuel) s
  classDeclaration {s : State} :
    32 * s.rest.length + 1 ≤ fuel → Ends 1 (classDeclaration fuel) s
  statement {s : State} : 32 * s.rest.length + 11 ≤ fuel → Ends 1 (statement fuel) s

namespace StmtEnds

theorem zero : StmtEnds 0 := by
  constructor <;> intros <;> omega

theorem declaration_succ (ih : StmtEnds fuel) (hahead : s.ahead.kind ≠ .eof)
    (h : 32 * s.rest.length + 12 ≤ fuel + 1) : Ends 1 (Parser.declaration (fuel + 1)) s := by
  refine ends_recovering (Ends.peek_bind ?_) hahead
  split
  · refine (ends_advance hahead).bind fun _ s₁ hs₁ => ?_
    exact (ih.classDeclaration (by omega)).weaken (Nat.zero_le 1)
  · refine (ends_advance hahead).bind fun _ s₁ hs₁ => ?_
    exact ((ih.routine _ (by omega)).weaken (Nat.zero_le 1)).bind fun _ _ _ => .pure _
  · refine (ends_advance hahead).bind fun _ s₁ hs₁ => ?_
    exact (ends_varDeclaration (by omega)).weaken (Nat.zero_le 1)
  · exact ih.statement (by omega)

theorem declarations_succ (ih : StmtEnds fuel) (endings : List TokenKind) (heof : .eof ∈ endings)
    (h : 32 * s.rest.length + 13 ≤ fuel + 1) :
    Ends 0 (Parser.declarations (fuel + 1) endings) s := by
  unfold Parser.declarations
  refine Ends.peek_bind ?_
  split
  · exact .pure _
  · rename_i hgoes
    have hahead : s.ahead.kind ≠ .eof := fun hkind => hgoes (hkind ▸ heof)
    refine (ih.declaration hahead (by omega)).bind fun found s₁ hs₁ => ?_
    cases found with
    | some first => exact (ih.declarations endings heof (by omega)).bind fun _ _ _ => .pure _
    | none => exact ih.declarations endings heof (by omega)

theorem block_succ (ih : StmtEnds fuel) (h : 32 * s.rest.length + 14 ≤ fuel + 1) :
    Ends 1 (Parser.block (fuel + 1)) s := by
  refine (ih.declarations _ (by decide) (by omega)).bind fun body s₁ _ => ?_
  exact (ends_expectMark (by decide) _).bind fun _ _ _ => .pure _

theorem routine_succ (ih : StmtEnds fuel) (kind : Routine)
    (h : 32 * s.rest.length + 1 ≤ fuel + 1) : Ends 1 (Parser.routine (fuel + 1) kind) s := by
  refine (ends_expectName _).bind fun name s₁ hs₁ => ?_
  refine ((ends_expectMark (by decide) _).weaken (Nat.zero_le 1)).bind fun _ s₂ hs₂ => ?_
  refine Ends.peek_bind ?_
  have hfinish : ∀ parameters s₃, s₃.rest.length ≤ s₂.rest.length → Ends 0 (do
      expectMark .rightParen .afterParameters
      expectMark .leftBrace (.beforeRoutineBody kind)
      let body ← Parser.block fuel
      return (⟨name, parameters, body⟩ : FunctionDecl)) s₃ := by
    intro parameters s₃ hs₃
    refine ((ends_expectMark (by decide) _).weaken (Nat.zero_le 1)).bind fun _ s₄ hs₄ => ?_
    refine ((ends_expectMark (by decide) _).weaken (Nat.zero_le 1)).bind fun _ s₅ hs₅ => ?_
    exact ((ih.block (by omega)).weaken (Nat.zero_le 1)).bind fun _ _ _ => .pure _
  split
  · exact (Ends.pure []).bind hfinish
  · refine ((ends_parameterList 0 (by omega)).weaken (Nat.zero_le 1)).bind hfinish

theorem methods_succ (ih : StmtEnds fuel) (h : 32 * s.rest.length + 2 ≤ fuel + 1) :
    Ends 0 (Parser.methods (fuel + 1)) s := by
  unfold Parser.methods
  refine Ends.peek_bind ?_
  split
  · exact .pure _
  · refine (ih.routine .method (by omega)).bind fun first s₁ hs₁ => ?_
    exact (ih.methods (by omega)).bind fun _ _ _ => .pure _

theorem classDeclaration_succ (ih : StmtEnds fuel) (h : 32 * s.rest.length + 1 ≤ fuel + 1) :
    Ends 1 (Parser.classDeclaration (fuel + 1)) s := by
  refine (ends_expectName _).bind fun name s₁ hs₁ => ?_
  have hfinish : ∀ superclass s₂, s₂.rest.length ≤ s₁.rest.length → Ends 0 (do
      expectMark .leftBrace .beforeClassBody
      let body ← Parser.methods fuel
      expectMark .rightBrace .afterClassBody
      return Stmt.class name superclass body) s₂ := by
    intro superclass s₂ hs₂
    refine ((ends_expectMark (by decide) _).weaken (Nat.zero_le 1)).bind fun _ s₃ hs₃ => ?_
    refine (ih.methods (by omega)).bind fun body s₄ _ => ?_
    exact ((ends_expectMark (by decide) _).weaken (Nat.zero_le 1)).bind fun _ _ _ => .pure _
  refine ends_accept_bind (by decide) (fun less s₂ hs₂ => ?_) ?_
  · have hparent : Ends 0 (expectName .superclassName >>= occurrence) s₂ :=
      ((ends_expectName _).weaken (Nat.zero_le 1)).bind fun name _ _ => ends_occurrence name
    exact (hparent.map some).bind fun superclass s₃ hs₃ => hfinish superclass s₃ (by omega)
  · exact (Ends.pure none).bind hfinish

theorem statement_succ (ih : StmtEnds fuel) (h : 32 * s.rest.length + 11 ≤ fuel + 1) :
    Ends 1 (Parser.statement (fuel + 1)) s := by
  unfold Parser.statement
  -- A mark is stepped over or complained about; only the first token of a statement is sure to
  -- be stepped over.
  have hmark : ∀ {mark : TokenKind} {place : Place} {s : State}, mark ≠ .eof →
      Ends 0 (expectMark mark place) s :=
    fun heof => (ends_expectMark heof _).weaken (Nat.zero_le 1)
  refine Ends.peek_bind ?_
  split
  · -- `for`
    rename_i hkind
    refine (ends_advance (by simp [hkind])).bind fun _ s₁ hs₁ => ?_
    refine (hmark (by decide)).bind fun _ s₂ hs₂ => ?_
    refine ((ends_forInitializer (by omega)).weaken (Nat.zero_le 1)).bind fun initializer s₃ hs₃ => ?_
    refine (ends_optionalExpression _ (by omega)).bind fun condition s₄ hs₄ => ?_
    refine (hmark (by decide)).bind fun _ s₅ hs₅ => ?_
    refine (ends_optionalExpression _ (by omega)).bind fun increment s₆ hs₆ => ?_
    refine (hmark (by decide)).bind fun _ s₇ hs₇ => ?_
    exact ((ih.statement (by omega)).weaken (Nat.zero_le 1)).bind fun _ _ _ => .pure _
  · -- `if`
    rename_i hkind
    refine (ends_advance (by simp [hkind])).bind fun _ s₁ hs₁ => ?_
    refine (hmark (by decide)).bind fun _ s₂ hs₂ => ?_
    have hcondition : Ends 0 (Parser.expression fuel) s₂ :=
      ((exprEnds fuel).expression (by omega)).weaken (Nat.zero_le 1)
    refine hcondition.bind fun condition s₃ hs₃ => ?_
    refine (hmark (by decide)).bind fun _ s₄ hs₄ => ?_
    refine ((ih.statement (by omega)).weaken (Nat.zero_le 1)).bind fun thenBranch s₅ hs₅ => ?_
    refine ends_accept_bind (by decide) (fun kwElse s₆ hs₆ => ?_) (.pure _)
    exact ((ih.statement (by omega)).weaken (Nat.zero_le 1)).bind fun _ _ _ => .pure _
  · -- `while`
    rename_i hkind
    refine (ends_advance (by simp [hkind])).bind fun _ s₁ hs₁ => ?_
    refine (hmark (by decide)).bind fun _ s₂ hs₂ => ?_
    have hcondition : Ends 0 (Parser.expression fuel) s₂ :=
      ((exprEnds fuel).expression (by omega)).weaken (Nat.zero_le 1)
    refine hcondition.bind fun condition s₃ hs₃ => ?_
    refine (hmark (by decide)).bind fun _ s₄ hs₄ => ?_
    exact ((ih.statement (by omega)).weaken (Nat.zero_le 1)).bind fun _ _ _ => .pure _
  · -- `return`
    rename_i hkind
    refine (ends_advance (by simp [hkind])).bind fun keyword s₁ hs₁ => ?_
    refine (ends_optionalExpression _ (by omega)).bind fun value s₂ hs₂ => ?_
    exact (hmark (by decide)).bind fun _ _ _ => .pure _
  · -- `break`
    rename_i hkind
    refine (ends_advance (by simp [hkind])).bind fun keyword s₁ hs₁ => ?_
    exact (hmark (by decide)).bind fun _ _ _ => .pure _
  · -- `continue`
    rename_i hkind
    refine (ends_advance (by simp [hkind])).bind fun keyword s₁ hs₁ => ?_
    exact (hmark (by decide)).bind fun _ _ _ => .pure _
  · -- A block.
    rename_i hkind
    refine (ends_advance (by simp [hkind])).bind fun _ s₁ hs₁ => ?_
    exact ((ih.block (by omega)).weaken (Nat.zero_le 1)).bind fun _ _ _ => .pure _
  · -- An expression statement.
    exact ends_expressionStatement (by omega)

end StmtEnds

theorem stmtEnds (fuel : Nat) : StmtEnds fuel := by
  induction fuel with
  | zero => exact .zero
  | succ fuel ih =>
    exact ⟨ih.declaration_succ, ih.declarations_succ, ih.block_succ, ih.routine_succ,
      ih.methods_succ, ih.classDeclaration_succ, ih.statement_succ⟩

/-! ### Parses -/

/-- A declaration that cannot be read is recorded and does not stop the parser. -/
theorem exists_declaration (hahead : s.ahead.kind ≠ .eof)
    (h : 32 * s.rest.length + 12 ≤ fuel) :
    ∃ found s', declaration fuel s = .ok found s' ∧ s'.rest.length < s.rest.length := by
  have hends := (stmtEnds fuel).declaration hahead h
  unfold Ends at hends
  cases hrun : declaration fuel s with
  | ok found s' =>
    rw [hrun] at hends
    exact ⟨found, s', rfl, hends.2⟩
  | error e s' =>
    rw [hrun] at hends
    cases e with
    | outOfFuel => exact hends.elim
    | error e =>
      cases fuel with
      | zero => omega
      | succ fuel =>
        rw [declaration, recovering] at hrun
        split at hrun <;> cases hrun

theorem exists_declarations {endings : List TokenKind} (heof : .eof ∈ endings)
    (h : 32 * s.rest.length + 13 ≤ fuel) :
    ∃ program s', declarations fuel endings s = .ok program s' := by
  induction fuel generalizing s with
  | zero => omega
  | succ fuel ih =>
    unfold declarations
    by_cases hends : s.ahead.kind ∈ endings
    · exact ⟨[], s, by rw [peek_bind, if_pos hends]; rfl⟩
    · have hahead : s.ahead.kind ≠ .eof := fun hkind => hends (hkind ▸ heof)
      have hfuel : 32 * s.rest.length + 12 ≤ fuel := by omega
      obtain ⟨found, s₁, hfirst, hlt⟩ := exists_declaration hahead hfuel
      have hfuel' : 32 * s₁.rest.length + 13 ≤ fuel := by omega
      obtain ⟨rest, s₂, hrest⟩ := ih hfuel'
      rw [peek_bind, if_neg hends, bind_of_ok hfirst]
      cases found with
      | some first =>
        refine ⟨first :: rest, s₂, ?_⟩
        simp only
        rw [bind_of_ok hrest, pure_run]
      | none => exact ⟨rest, s₂, hrest⟩

/-- Tokens that are rejected have an error. -/
theorem errors_ne_nil_of_parse {tokens : List Token} {nextId : Nat} {errors : List GrammarError}
    (h : (parse tokens nextId).1 = .error errors) : errors ≠ [] := by
  have hfuel : 32 * tokens.length + 13 ≤ enoughFuel tokens := by
    rw [enoughFuel]
    omega
  have heof : TokenKind.eof ∈ [TokenKind.eof] := List.mem_singleton_self _
  obtain ⟨program, s, hrun⟩ := @exists_declarations ⟨tokens, [], nextId⟩ _ _ heof hfuel
  unfold parse at h
  rw [hrun] at h
  simp only at h
  split at h
  · cases h
  · rename_i hnoted
    cases h
    exact fun hnone => hnoted (by rw [hnone]; rfl)

end Lox.Parser
