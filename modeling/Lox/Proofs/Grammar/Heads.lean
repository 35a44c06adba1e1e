import Lox.Proofs.Grammar

/-!
# How phrases start

One token ahead is enough to tell the rules of the grammar apart, because phrases
of different rules start with different kinds of token.  No phrase contains the
end of input.
-/

namespace Lox.Grammar

/-! ### Expressions -/

def expressionStarts : List TokenKind :=
  [.number, .string, .kwTrue, .kwFalse, .kwNil, .kwThis, .kwSuper, .identifier, .leftParen,
   .bang, .minus]

def StartsWith (kinds : List TokenKind) (w : List Token) : Prop :=
  ∃ t w', w = t :: w' ∧ t.kind ∈ kinds

theorem StartsWith.append {kinds : List TokenKind} {w : List Token}
    (h : StartsWith kinds w) (w' : List Token) : StartsWith kinds (w ++ w') := by
  obtain ⟨t, v, rfl, hkind⟩ := h
  exact ⟨t, v ++ w', rfl, hkind⟩

theorem StartsWith.mono {kinds kinds' : List TokenKind} {w : List Token}
    (h : StartsWith kinds w) (hsubset : kinds ⊆ kinds') : StartsWith kinds' w := by
  obtain ⟨t, v, rfl, hkind⟩ := h
  exact ⟨t, v, rfl, hsubset hkind⟩

theorem startsWith_cons {kinds : List TokenKind} {t : Token} {kind : TokenKind}
    {w : List Token} (hkind : t.kind = kind) (hmem : kind ∈ kinds) :
    StartsWith kinds (t :: w) :=
  ⟨t, w, rfl, hkind ▸ hmem⟩

/-- The phrases that stand behind another one and may be empty. -/
def ExprPhrase.IsRest : ExprPhrase → Prop
  | .binaryRest _ _ _ => True
  | .callRest _ _ => True
  | _ => False

theorem BinaryRule.not_isRest_operand (rule : BinaryRule) (e : Expr) :
    ¬ (rule.operand e).IsRest := by
  cases rule <;> exact id

theorem ExprDerives.starts {phrase : ExprPhrase} {w : List Token} (h : ExprDerives phrase w)
    (hphrase : ¬ phrase.IsRest) : StartsWith expressionStarts w := by
  induction h with
  | assign hname => exact startsWith_cons hname (by decide)
  | set _ _ _ _ _ ih => exact (ih id).append _
  | operation _ ih => exact ih id
  | binary _ _ ih => exact (ih (BinaryRule.not_isRest_operand _ _)).append _
  | binaryEnd => exact absurd trivial hphrase
  | binaryMore => exact absurd trivial hphrase
  | prefixed hoperator =>
    rcases hoperator with hbang | hminus
    · exact startsWith_cons hbang (by decide)
    · exact startsWith_cons hminus (by decide)
  | unprefixed _ ih => exact ih id
  | call _ _ ih => exact (ih id).append _
  | callEnd => exact absurd trivial hphrase
  | callEmpty => exact absurd trivial hphrase
  | callWith => exact absurd trivial hphrase
  | property => exact absurd trivial hphrase
  | argument _ ih => exact ih id
  | argumentsMore _ _ _ ih => exact (ih id).append _
  | number hkind => exact startsWith_cons hkind (by decide)
  | string hkind => exact startsWith_cons hkind (by decide)
  | kwTrue hkind => exact startsWith_cons hkind (by decide)
  | kwFalse hkind => exact startsWith_cons hkind (by decide)
  | kwNil hkind => exact startsWith_cons hkind (by decide)
  | kwThis hkind => exact startsWith_cons hkind (by decide)
  | name hkind => exact startsWith_cons hkind (by decide)
  | group hkind => exact startsWith_cons hkind (by decide)
  | kwSuper hkind => exact startsWith_cons hkind (by decide)

/-- A call starts like an expression, but with no prefix operator. -/
theorem ExprDerives.call_starts {e : Expr} {w : List Token} (h : ExprDerives (.call e) w) :
    ∃ t w', w = t :: w' ∧ t.kind ∉ [TokenKind.bang, .minus] := by
  cases h with
  | call hprimary _ =>
    cases hprimary with
    | number hkind => exact ⟨_, _, rfl, by rw [hkind]; decide⟩
    | string hkind => exact ⟨_, _, rfl, by rw [hkind]; decide⟩
    | kwTrue hkind => exact ⟨_, _, rfl, by rw [hkind]; decide⟩
    | kwFalse hkind => exact ⟨_, _, rfl, by rw [hkind]; decide⟩
    | kwNil hkind => exact ⟨_, _, rfl, by rw [hkind]; decide⟩
    | kwThis hkind => exact ⟨_, _, rfl, by rw [hkind]; decide⟩
    | name hkind => exact ⟨_, _, rfl, by rw [hkind]; decide⟩
    | group hkind => exact ⟨_, _, rfl, by rw [hkind]; decide⟩
    | kwSuper hkind => exact ⟨_, _, rfl, by rw [hkind]; decide⟩

/-! ### Statements and declarations -/

def statementStarts : List TokenKind :=
  [.kwFor, .kwIf, .kwReturn, .kwWhile, .kwBreak, .kwContinue, .leftBrace] ++ expressionStarts

def declarationStarts : List TokenKind := [.kwClass, .kwFun, .kwVar] ++ statementStarts

theorem ExprStmt.starts {s : Stmt} {w : List Token} (h : ExprStmt s w) :
    StartsWith expressionStarts w := by
  cases h with
  | mk he _ => exact (he.starts id).append _

theorem StmtDerives.statement_starts {attachment : Attachment} {ending : Ending} {s : Stmt}
    {w : List Token} (h : StmtDerives attachment (.statement ending s) w) :
    StartsWith statementStarts w := by
  cases h with
  | exprStmt he => exact he.starts.mono (by decide)
  | forStmt hkind => exact startsWith_cons hkind (by decide)
  | ifStmt hkind => exact startsWith_cons hkind (by decide)
  | ifElseStmt hkind => exact startsWith_cons hkind (by decide)
  | returnStmt hkind => exact startsWith_cons hkind (by decide)
  | whileStmt hkind => exact startsWith_cons hkind (by decide)
  | breakStmt hkind => exact startsWith_cons hkind (by decide)
  | continueStmt hkind => exact startsWith_cons hkind (by decide)
  | block hkind => exact startsWith_cons hkind (by decide)

theorem VarDecl.starts {s : Stmt} {w : List Token} (h : VarDecl s w) :
    StartsWith [.kwVar] w := by
  cases h with
  | plain hkind => exact startsWith_cons hkind (by decide)
  | initialized hkind => exact startsWith_cons hkind (by decide)

theorem StmtDerives.declaration_starts {attachment : Attachment} {s : Stmt} {w : List Token}
    (h : StmtDerives attachment (.declaration s) w) : StartsWith declarationStarts w := by
  cases h with
  | classDecl hkind => exact startsWith_cons hkind (by decide)
  | funDecl hkind => exact startsWith_cons hkind (by decide)
  | varDecl hvar => exact hvar.starts.mono (by decide)
  | plain hstmt => exact hstmt.statement_starts.mono (by decide)

theorem StmtDerives.function_starts {attachment : Attachment} {d : FunctionDecl}
    {w : List Token} (h : StmtDerives attachment (.function d) w) :
    StartsWith [.identifier] w := by
  cases h with
  | function hname => exact startsWith_cons hname (by decide)

/-! ### No phrase contains the end of input -/

def NoEof (w : List Token) : Prop := ∀ t ∈ w, t.kind ≠ .eof

@[simp]
theorem noEof_nil : NoEof [] := by
  intro t ht
  cases ht

@[simp]
theorem noEof_cons {t : Token} {w : List Token} : NoEof (t :: w) ↔ t.kind ≠ .eof ∧ NoEof w := by
  simp [NoEof]

@[simp]
theorem noEof_append {w w' : List Token} : NoEof (w ++ w') ↔ NoEof w ∧ NoEof w' := by
  simp [NoEof, or_imp, forall_and]

theorem BinaryRule.ne_eof_of_mem {rule : BinaryRule} {t : Token}
    (h : t.kind ∈ rule.operators) : t.kind ≠ .eof := by
  intro heq
  rw [heq] at h
  cases rule <;> simp [BinaryRule.operators] at h

theorem ExprDerives.noEof {phrase : ExprPhrase} {w : List Token} (h : ExprDerives phrase w) :
    NoEof w := by
  induction h with
  | binaryMore hoperator _ _ ih ih' =>
    simp [BinaryRule.ne_eof_of_mem hoperator, ih, ih']
  | prefixed hoperator _ ih =>
    rcases hoperator with hkind | hkind <;> simp [hkind, ih]
  | _ => simp [*]

theorem OptionalExpr.noEof {e : Option Expr} {w : List Token} (h : OptionalExpr e w) :
    NoEof w := by
  cases h with
  | absent => exact noEof_nil
  | present he => exact he.noEof

theorem ExprStmt.noEof {s : Stmt} {w : List Token} (h : ExprStmt s w) : NoEof w := by
  cases h with
  | mk he hsemicolon => simp [he.noEof, hsemicolon]

theorem VarDecl.noEof {s : Stmt} {w : List Token} (h : VarDecl s w) : NoEof w := by
  cases h with
  | plain => simp [*]
  | initialized _ _ _ he => simp [he.noEof, *]

theorem ForInit.noEof {s : Option Stmt} {w : List Token} (h : ForInit s w) : NoEof w := by
  cases h with
  | var hvar => exact hvar.noEof
  | expression he => exact he.noEof
  | absent hkind => simp [hkind]

theorem Parameters.noEof {names w : List Token} (h : Parameters names w) : NoEof w := by
  induction h with
  | one hname => simp [hname]
  | more hname hcomma _ ih => simp [hname, hcomma, ih]

theorem OptionalParameters.noEof {names w : List Token} (h : OptionalParameters names w) :
    NoEof w := by
  cases h with
  | absent => exact noEof_nil
  | present hnames => exact hnames.noEof

theorem Superclass.noEof {superclass : Option Occurrence} {w : List Token}
    (h : Superclass superclass w) : NoEof w := by
  cases h with
  | absent => exact noEof_nil
  | present hless hname => simp [hless, hname]

theorem StmtDerives.noEof {attachment : Attachment} {phrase : StmtPhrase} {w : List Token}
    (h : StmtDerives attachment phrase w) : NoEof w := by
  induction h with
  | classDecl _ _ hsuper => simp [hsuper.noEof, *]
  | varDecl hvar => exact hvar.noEof
  | function _ _ hparameters => simp [hparameters.noEof, *]
  | exprStmt he => exact he.noEof
  | forStmt _ _ hinit hcondition _ hincrement =>
    simp [hinit.noEof, hcondition.noEof, hincrement.noEof, *]
  | ifStmt _ _ hcondition => simp [hcondition.noEof, *]
  | ifElseStmt _ _ hcondition => simp [hcondition.noEof, *]
  | returnStmt _ hvalue => simp [hvalue.noEof, *]
  | whileStmt _ _ hcondition => simp [hcondition.noEof, *]
  | _ => simp [*]

end Lox.Grammar
