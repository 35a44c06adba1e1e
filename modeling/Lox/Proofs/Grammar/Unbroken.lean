import Lox.Proofs.Grammar.Relaxed

/-!
# The grammar as it is, relaxed

What the grammar derives, the relaxed grammar derives too, to the same tree and without
errors.  An assignment to a property is one to the whole property access on the left, and
the arguments of a call stand behind fewer others than the list may have.
-/

namespace Lox.Grammar.Relaxed

/-- A property access behind a call. -/
theorem ExprDerives.get {object : Expr} {w : List Token} {es : List GrammarError}
    {dot name : Token} (h : ExprDerives (.call object) w es) (hdot : dot.kind = .dot)
    (hname : name.kind = .identifier) :
    ExprDerives (.call (.get object name)) (w ++ [dot, name]) es := by
  have hrest : ∀ {phrase w es}, ExprDerives phrase w es →
      ∀ {callee e}, phrase = .callRest callee e → ExprDerives (.callRest callee (.get e name)) (w ++ [dot, name]) es := by
    intro phrase w es h
    induction h with
    | callEnd =>
      rintro _ _ ⟨⟩
      exact .property hdot hname .callEnd
    | callEmpty hopening hclosing _ ih =>
      rintro _ _ ⟨⟩
      exact .callEmpty hopening hclosing (ih rfl)
    | callWith hopening harguments hclosing _ _ ih =>
      rintro _ _ ⟨⟩
      simpa only [List.cons_append, List.append_assoc] using
        ExprDerives.callWith hopening harguments hclosing (ih rfl)
    | property hdot' hname' _ ih =>
      rintro _ _ ⟨⟩
      exact .property hdot' hname' (ih rfl)
    | _ => rintro _ _ ⟨⟩
  cases h with
  | call hprimary h =>
    rw [List.append_assoc]
    exact .call hprimary (hrest h rfl)

theorem derives_level {rule : BinaryRule} {e : Expr} {w : List Token} {es : List GrammarError}
    (h : ExprDerives (operand rule e) w es) : ExprDerives (.binary rule e) w es := by
  simpa only [List.append_nil] using ExprDerives.binary h .binaryEnd

/-- A call can stand on either side of any operator. -/
theorem ExprDerives.logicOr_of_call {e : Expr} {w : List Token} {es : List GrammarError}
    (h : ExprDerives (.call e) w es) : ExprDerives (.binary .logicOr e) w es := by
  have hfactor := @derives_level .factor _ _ _ (.unprefixed h)
  have hterm := @derives_level .term _ _ _ hfactor
  have hcomparison := @derives_level .comparison _ _ _ hterm
  have hequality := @derives_level .equality _ _ _ hcomparison
  have hand := @derives_level .logicAnd _ _ _ hequality
  exact @derives_level .logicOr _ _ _ hand

/-- The phrase of the relaxed grammar, without errors in it. -/
def Unbroken : Grammar.ExprPhrase → List Token → Prop
  | .expression e, w => ExprDerives (.expression e) w []
  | .binary rule e, w => ExprDerives (.binary rule e) w []
  | .binaryRest rule left e, w => ExprDerives (.binaryRest rule left e) w []
  | .unary e, w => ExprDerives (.unary e) w []
  | .call e, w => ExprDerives (.call e) w []
  | .callRest callee e, w => ExprDerives (.callRest callee e) w []
  | .arguments trees, w => ∀ before, before + trees.length ≤ longestList →
    ExprDerives (.arguments before trees) w []
  | .primary e, w => ExprDerives (.primary e) w []

theorem unbroken_operand {rule : BinaryRule} {e : Expr} {w : List Token}
    (h : Unbroken (rule.operand e) w) : ExprDerives (operand rule e) w [] := by
  cases rule <;> exact h

theorem excess_of_lt {list : LimitedList} {before : Nat} {first : Token}
    (h : before < longestList) : excess list before first = [] := by
  rw [excess, if_pos h]

theorem unbroken_expr {phrase : Grammar.ExprPhrase} {w : List Token}
    (h : Grammar.ExprDerives phrase w) : Unbroken phrase w := by
  induction h with
  -- In the relaxed grammar any operation may stand in front of `=`, here one that is a name.
  | @assign id name equals value w hname hequals _ ih =>
    have hplace : ExprDerives (.call (.read ⟨id, name⟩)) ([name] ++ []) ([] ++ []) :=
      .call (.simple (.name hname) nofun) .callEnd
    exact .assignment hplace.logicOr_of_call hequals ih
  | set _ hdot hname hequals _ ih ih' =>
    have hplace := (ExprDerives.get ih hdot hname).logicOr_of_call
    have hset := ExprDerives.assignment hplace hequals ih'
    rwa [List.append_assoc] at hset
  | operation _ ih => exact .operation ih
  | binary _ _ ih ih' => exact .binary (unbroken_operand ih) ih'
  | binaryEnd => exact .binaryEnd
  | binaryMore hoperator _ _ ih ih' => exact .binaryMore hoperator (unbroken_operand ih) ih'
  | prefixed hoperator _ ih => exact .prefixed hoperator ih
  | unprefixed _ ih => exact .unprefixed ih
  | call _ _ ih ih' => exact .call ih ih'
  | callEnd => exact .callEnd
  | callEmpty hopening hclosing _ ih => exact .callEmpty hopening hclosing ih
  | callWith hopening _ hlength hclosing _ ih ih' =>
    exact .callWith hopening (ih 0 (by omega)) hclosing ih'
  | property hdot hname _ ih => exact .property hdot hname ih
  -- An argument is counted from the ones before it, and below the limit it is no excess.
  | argument h ih =>
    intro before hlength
    obtain ⟨first, w, rfl, -⟩ := h.starts id
    rw [List.length_singleton] at hlength
    have hone := @ExprDerives.argument before _ _ _ _ ih
    rwa [excess_of_lt hlength] at hone
  | argumentsMore h hcomma _ ih ih' =>
    intro before hlength
    obtain ⟨first, w, rfl, -⟩ := h.starts id
    rw [List.length_cons] at hlength
    have hmore := ExprDerives.argumentsMore ih hcomma (ih' (before + 1) (by omega))
    rwa [excess_of_lt (by omega : before < longestList)] at hmore
  | number hkind => exact .simple (.number hkind) nofun
  | string hkind => exact .simple (.string hkind) nofun
  | kwTrue hkind => exact .simple (.kwTrue hkind) nofun
  | kwFalse hkind => exact .simple (.kwFalse hkind) nofun
  | kwNil hkind => exact .simple (.kwNil hkind) nofun
  | kwThis hkind => exact .simple (.kwThis hkind) nofun
  | name hkind => exact .simple (.name hkind) nofun
  | group hopening _ hclosing ih => exact .group hopening ih hclosing
  | kwSuper hkeyword hdot hmethod => exact .simple (.kwSuper hkeyword hdot hmethod) nofun

theorem unbroken_optionalExpr {e : Option Expr} {w : List Token} (h : Grammar.OptionalExpr e w) :
    OptionalExpr e w [] := by
  cases h with
  | absent => exact .absent
  | present he => exact .present (unbroken_expr he)

theorem unbroken_exprStmt {s : Stmt} {w : List Token} (h : Grammar.ExprStmt s w) :
    ExprStmt s w [] := by
  cases h with
  | mk he hsemi => exact .mk (unbroken_expr he) hsemi

theorem unbroken_varDecl {s : Stmt} {w : List Token} (h : Grammar.VarDecl s w) :
    VarDecl s w [] := by
  cases h with
  | plain hkind hname hsemi => exact .plain hkind hname hsemi
  | initialized hkind hname hequals he hsemi =>
    exact .initialized hkind hname hequals (unbroken_expr he) hsemi

theorem unbroken_forInit {initializer : Option Stmt} {w : List Token}
    (h : Grammar.ForInit initializer w) : ForInit initializer w [] := by
  cases h with
  | var hvar => exact .var (unbroken_varDecl hvar)
  | expression he => exact .expression (unbroken_exprStmt he)
  | absent hsemi => exact .absent hsemi

theorem unbroken_parameters {names w : List Token} (h : Grammar.Parameters names w) {before : Nat}
    (hlength : before + names.length ≤ longestList) : Parameters before names w [] := by
  induction h generalizing before with
  | @one name hname =>
    rw [List.length_singleton] at hlength
    have hone := @Parameters.one before _ hname
    rwa [excess_of_lt hlength] at hone
  | more hname hcomma _ ih =>
    rw [List.length_cons] at hlength
    have hmore := Parameters.more hname hcomma (ih (by omega : before + 1 + _ ≤ longestList))
    rwa [excess_of_lt (by omega : before < longestList)] at hmore

theorem unbroken_optionalParameters {names w : List Token}
    (h : Grammar.OptionalParameters names w) : OptionalParameters names w [] := by
  cases h with
  | absent => exact .absent
  | present hnames hlength => exact .present (unbroken_parameters hnames (by omega))

/-- What the grammar derives, the relaxed grammar derives without errors. -/
theorem unbroken {attachment : Attachment} {phrase : StmtPhrase} {w : List Token}
    (h : Grammar.StmtDerives attachment phrase w) : StmtDerives attachment phrase w [] := by
  induction h with
  | classDecl hkind hname hsuper hopening _ hclosing ih =>
    exact .classDecl hkind hname hsuper hopening ih hclosing
  | funDecl hkind _ ih => exact .funDecl hkind ih
  | varDecl hvar => exact .varDecl (unbroken_varDecl hvar)
  | plain _ ih => exact .plain ih
  | declarationsEnd => exact .declarationsEnd
  | declarationsMore _ _ ih ih' => exact .declarationsMore ih ih'
  | function hname hleft hparameters hright hopening _ hclosing ih =>
    exact .function hname hleft (unbroken_optionalParameters hparameters) hright hopening ih
      hclosing
  | functionsEnd => exact .functionsEnd
  | functionsMore _ _ ih ih' => exact .functionsMore ih ih'
  | exprStmt he => exact .exprStmt (unbroken_exprStmt he)
  | forStmt hkind hleft hinit hcondition hsemi hincrement hright _ ih =>
    exact .forStmt hkind hleft (unbroken_forInit hinit) (unbroken_optionalExpr hcondition) hsemi
      (unbroken_optionalExpr hincrement) hright ih
  | ifStmt hkind hleft hcondition hright _ ih =>
    exact .ifStmt hkind hleft (unbroken_expr hcondition) hright ih
  | ifElseStmt hkind hleft hcondition hright _ hending hkwElse _ ih ih' =>
    exact .ifElseStmt hkind hleft (unbroken_expr hcondition) hright ih hending hkwElse ih'
  | returnStmt hkind hvalue hsemi => exact .returnStmt hkind (unbroken_optionalExpr hvalue) hsemi
  | whileStmt hkind hleft hcondition hright _ ih =>
    exact .whileStmt hkind hleft (unbroken_expr hcondition) hright ih
  | breakStmt hkind hsemi => exact .breakStmt hkind hsemi
  | continueStmt hkind hsemi => exact .continueStmt hkind hsemi
  | block hopening _ hclosing ih => exact .block hopening ih hclosing

end Lox.Grammar.Relaxed
