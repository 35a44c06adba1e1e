import Lox.Proofs.Likeness.Code
import Lox.Proofs.Token.Spelling

/-!
# What derived trees are made of

A tree that is derived from tokens is made of these tokens: those that it holds are among
them, the names of variables are identifiers, and a place where a name is looked up holds
an identifier, `this` or `super`.  This is said as a likeness of the tree with itself.
-/

namespace Lox

/-- Names that are looked up: identifiers, and those of instances and superclasses. -/
def Occurrence.Plain (p : Occurrence) : Prop :=
  p.token.kind = .identifier ∨ p.name = "this" ∨ p.name = "super"

/--
The same likeness, for trees that are made of tokens with a property as the grammar has it,
and of occurrences with known identities.
-/
def Likeness.restrict (K : Likeness) (Q : Token → Prop) (known : NodeId → Prop) : Likeness where
  allowed := K.allowed
  token t t' := K.token t t' ∧ Q t
  binder σ t t' := K.binder σ t t' ∧ Q t ∧ t.kind = .identifier
  place Γ p p' := K.place Γ p p' ∧ Q p.token ∧ p.Plain ∧ known p.id

def Likeness.equal : Likeness where
  allowed σ := σ = .same
  token t t' := t' = t
  binder σ t t' := σ = .same ∧ t' = t
  place Γ p p' := Γ = .top ∧ p' = p

/-- Equal trees that are made of tokens with a property. -/
abbrev Likeness.madeOf (Q : Token → Prop) : Likeness := Likeness.equal.restrict Q fun _ => True

namespace Grammar

variable {Q : Token → Prop}

/-- The tokens are spelled right and have the property. -/
def Stock (Q : Token → Prop) (w : List Token) : Prop := ∀ t ∈ w, t.Spelled ∧ Q t

@[simp]
theorem stock_cons {t : Token} {w : List Token} :
    Stock Q (t :: w) ↔ (t.Spelled ∧ Q t) ∧ Stock Q w :=
  List.forall_mem_cons

@[simp]
theorem stock_append {w w' : List Token} : Stock Q (w ++ w') ↔ Stock Q w ∧ Stock Q w' :=
  List.forall_mem_append

theorem madeOf_name {id : NodeId} {t : Token} (ht : t.Spelled ∧ Q t) (hkind : t.kind = .identifier) :
    (Likeness.madeOf Q).place .top ⟨id, t⟩ ⟨id, t⟩ :=
  ⟨⟨rfl, rfl⟩, ht.2, .inl hkind, trivial⟩

/-! ### Expressions -/

/-- The tree of a phrase is made of tokens with the property; of what an operand becomes, the rest is. -/
def ExprPhrase.MadeOf (Q : Token → Prop) : ExprPhrase → Prop
  | .expression e | .binary _ e | .unary e | .call e | .primary e => ExprLike (.madeOf Q) .top e e
  | .binaryRest _ operand e | .callRest operand e =>
    ExprLike (.madeOf Q) .top operand operand → ExprLike (.madeOf Q) .top e e
  | .arguments es => ExprEachLike (.madeOf Q) .top es es

theorem ExprPhrase.MadeOf.operand {rule : BinaryRule} {e : Expr}
    (h : (rule.operand e).MadeOf Q) : ExprLike (.madeOf Q) .top e e := by
  cases rule <;> exact h

theorem madeOf_node {rule : BinaryRule} {left right : Expr} {operator : Token}
    (hleft : ExprLike (.madeOf Q) .top left left) (hoperator : Q operator)
    (hright : ExprLike (.madeOf Q) .top right right) :
    ExprLike (.madeOf Q) .top (rule.node left operator right) (rule.node left operator right) := by
  cases rule with
  | logicOr | logicAnd => exact .logical hleft ⟨rfl, hoperator⟩ hright
  | equality | comparison | term | factor => exact .binary hleft ⟨rfl, hoperator⟩ hright

theorem ExprDerives.madeOf {phrase : ExprPhrase} {w : List Token} (h : ExprDerives phrase w)
    (hw : Stock Q w) : phrase.MadeOf Q := by
  -- Each token of a tree is one of those that it is derived from; names and keywords are what
  -- they are spelled as.
  induction h with
  | assign hname _ _ ih =>
    simp only [stock_cons] at hw
    exact .assign (madeOf_name hw.1 hname) (ih hw.2.2)
  | set _ _ _ _ _ ih₁ ih₂ =>
    simp only [stock_append, stock_cons] at hw
    exact .set (ih₁ hw.1) ⟨rfl, hw.2.2.1.2⟩ (ih₂ hw.2.2.2.2)
  | operation _ ih | unprefixed _ ih => exact ih hw
  | binary _ _ ih₁ ih₂ =>
    rw [stock_append] at hw
    exact ih₂ hw.2 (ih₁ hw.1).operand
  -- Nothing follows: what stood in front is handed on.
  | binaryEnd | callEnd => exact id
  | binaryMore _ _ _ ih₁ ih₂ =>
    simp only [stock_append, stock_cons] at hw
    intro hleft
    exact ih₂ hw.2.2 (madeOf_node hleft hw.1.2 (ih₁ hw.2.1).operand)
  | prefixed _ _ ih =>
    rw [stock_cons] at hw
    exact .unary ⟨rfl, hw.1.2⟩ (ih hw.2)
  | call _ _ ih₁ ih₂ =>
    rw [stock_append] at hw
    exact ih₂ hw.2 (ih₁ hw.1)
  | callEmpty _ _ _ ih =>
    simp only [stock_cons] at hw
    -- The token of a call is its closing parenthesis.
    intro hcallee
    exact ih hw.2.2 (.call hcallee ⟨rfl, hw.2.1.2⟩ .nil)
  | callWith _ _ _ _ _ ih₁ ih₂ =>
    simp only [stock_append, stock_cons] at hw
    intro hcallee
    exact ih₂ hw.2.2.2 (.call hcallee ⟨rfl, hw.2.2.1.2⟩ (ih₁ hw.2.1))
  | property _ _ _ ih =>
    simp only [stock_cons] at hw
    intro hcallee
    exact ih hw.2.2 (.get hcallee ⟨rfl, hw.2.1.2⟩)
  | argument _ ih => exact .cons (ih hw) .nil
  | argumentsMore _ _ _ ih₁ ih₂ =>
    simp only [stock_append, stock_cons] at hw
    exact .cons (ih₁ hw.1) (ih₂ hw.2.2)
  -- Literals have no token.
  | number | string | kwTrue | kwFalse | kwNil => exact .literal
  | kwThis ht =>
    rw [stock_cons] at hw
    exact .this ⟨⟨rfl, rfl⟩, hw.1.2, .inr (.inl (hw.1.1.kwThis ht)), trivial⟩
  | name ht =>
    rw [stock_cons] at hw
    exact .read (madeOf_name hw.1 ht)
  | group _ _ _ ih =>
    simp only [stock_append, stock_cons] at hw
    exact .group (ih hw.2.1)
  | kwSuper hkeyword _ _ =>
    simp only [stock_cons] at hw
    exact .super ⟨⟨rfl, rfl⟩, hw.1.2, .inr (.inr (hw.1.1.kwSuper hkeyword)), trivial⟩
      ⟨rfl, hw.2.2.1.2⟩

theorem OptionalExpr.madeOf {e : Option Expr} {w : List Token} (h : OptionalExpr e w)
    (hw : Stock Q w) : ExprIn?Like (.madeOf Q) .top e e := by
  cases h with
  | absent => exact .none
  | present he => exact .some (he.madeOf hw)

/-! ### Statements -/

/-- The tree of a phrase is made of tokens with the property. -/
def StmtPhrase.MadeOf (Q : Token → Prop) : StmtPhrase → Prop
  | .declaration s | .statement _ s => StmtLike (.madeOf Q) .top s s
  | .declarations ss => StmtEachLike (.madeOf Q) .top ss ss
  | .function d => FunctionLike (.madeOf Q) .top d d
  | .functions ds => FunctionEachLike (.madeOf Q) .top ds ds

theorem madeOf_block {body : List Stmt} (h : StmtEachLike (.madeOf Q) .top body body) :
    StmtLike (.madeOf Q) .top (.block body) (.block body) := by
  rw [← Surroundings.enter_top] at h
  exact .block rfl h

theorem ExprStmt.madeOf {s : Stmt} {w : List Token} (h : ExprStmt s w) (hw : Stock Q w) :
    StmtLike (.madeOf Q) .top s s := by
  cases h with
  | mk he _ =>
    rw [stock_append] at hw
    exact .expression (he.madeOf hw.1)

theorem VarDecl.madeOf {s : Stmt} {w : List Token} (h : VarDecl s w) (hw : Stock Q w) :
    StmtLike (.madeOf Q) .top s s := by
  cases h with
  | plain _ hname _ =>
    simp only [stock_cons] at hw
    exact .var ⟨⟨rfl, rfl⟩, hw.2.1.2, hname⟩ .none
  | initialized _ hname _ he _ =>
    simp only [stock_append, stock_cons] at hw
    exact .var ⟨⟨rfl, rfl⟩, hw.2.1.2, hname⟩ (.some (he.madeOf hw.2.2.2.1))

theorem Parameters.madeOf {names w : List Token} (h : Parameters names w) (hw : Stock Q w) :
    List.Forall₂ ((Likeness.madeOf Q).binder .same) names names := by
  induction h with
  | one hname =>
    rw [stock_cons] at hw
    exact .cons ⟨⟨rfl, rfl⟩, hw.1.2, hname⟩ .nil
  | more hname _ _ ih =>
    simp only [stock_cons] at hw
    exact .cons ⟨⟨rfl, rfl⟩, hw.1.2, hname⟩ (ih hw.2.2)

theorem OptionalParameters.madeOf {names w : List Token} (h : OptionalParameters names w)
    (hw : Stock Q w) : List.Forall₂ ((Likeness.madeOf Q).binder .same) names names := by
  cases h with
  | absent => exact .nil
  | present hnames _ => exact hnames.madeOf hw

theorem Superclass.madeOf {place : Option Occurrence} {w : List Token} (h : Superclass place w)
    (hw : Stock Q w) : Option.Rel ((Likeness.madeOf Q).place .top) place place := by
  cases h with
  | absent => exact .none
  | present _ hname =>
    simp only [stock_cons] at hw
    exact .some (madeOf_name hw.2.1 hname)

theorem madeOf_forTree {initializer : Option Stmt} {condition increment : Option Expr}
    {body : Stmt} {w₁ w₂ w₃ : List Token} (hinit : ForInit initializer w₁)
    (hcondition : OptionalExpr condition w₂) (hincrement : OptionalExpr increment w₃)
    (hw₁ : Stock Q w₁) (hw₂ : Stock Q w₂) (hw₃ : Stock Q w₃)
    (hbody : StmtLike (.madeOf Q) .top body body) :
    StmtLike (.madeOf Q) .top (forTree initializer condition increment body)
      (forTree initializer condition increment body) := by
  have htest : ExprLike (.madeOf Q) .top (condition.getD (.literal (.bool true)))
      (condition.getD (.literal (.bool true))) := by
    cases hcondition with
    | absent => exact .literal
    | present he => exact he.madeOf hw₂
  have hloop := StmtLike.loop htest hbody (hincrement.madeOf hw₃)
  cases hinit with
  | var hvar => exact madeOf_block (.cons (hvar.madeOf hw₁) (.cons hloop .nil))
  | expression he => exact madeOf_block (.cons (he.madeOf hw₁) (.cons hloop .nil))
  | absent => exact hloop

/-- What is derived from tokens is made of them. -/
theorem StmtDerives.madeOf {attachment : Attachment} {phrase : StmtPhrase} {w : List Token}
    (h : StmtDerives attachment phrase w) (hw : Stock Q w) : phrase.MadeOf Q := by
  -- A statement stands at the top for its likeness, since all surroundings are the same there.
  induction h with
  -- Entering a class or a function at the top stays at the top.
  | @classDecl _ _ _ _ superclass _ _ _ _ _ hsuper _ _ _ ih =>
    simp only [stock_append, stock_cons] at hw
    have hmethods := ih hw.2.2.2.2.1
    rw [StmtPhrase.MadeOf, ← Surroundings.enterClass_top superclass.isSome] at hmethods
    exact .class rfl ⟨rfl, hw.2.1.2⟩ (hsuper.madeOf hw.2.2.1) hmethods
  | funDecl _ _ ih => exact .function rfl (ih (stock_cons.mp hw).2)
  | varDecl hvar => exact hvar.madeOf hw
  | plain _ ih => exact ih hw
  | declarationsEnd => exact .nil
  | declarationsMore _ _ ih ih' =>
    rw [stock_append] at hw
    exact .cons (ih hw.1) (ih' hw.2)
  | function _ _ hparameters _ _ _ _ ih =>
    simp only [stock_append, stock_cons] at hw
    have hbody := ih hw.2.2.2.2.2.1
    rw [StmtPhrase.MadeOf, ← Surroundings.enter_top] at hbody
    exact .mk rfl ⟨rfl, hw.1.2⟩ (hparameters.madeOf hw.2.2.1) hbody
  | functionsEnd => exact .nil
  | functionsMore _ _ ih ih' =>
    rw [stock_append] at hw
    exact .cons (ih hw.1) (ih' hw.2)
  | exprStmt he => exact he.madeOf hw
  -- A `for` is made of tokens as the loop that it abbreviates.
  | forStmt _ _ hinit hcondition _ hincrement _ _ ih =>
    simp only [stock_append, stock_cons] at hw
    exact madeOf_forTree hinit hcondition hincrement hw.2.2.1 hw.2.2.2.1 hw.2.2.2.2.2.1
      (ih hw.2.2.2.2.2.2.2)
  | ifStmt _ _ hcondition _ _ ih =>
    simp only [stock_append, stock_cons] at hw
    exact .conditional (hcondition.madeOf hw.2.2.1) (ih hw.2.2.2.2)
  | ifElseStmt _ _ hcondition _ _ _ _ _ ih ih' =>
    simp only [stock_append, stock_cons] at hw
    exact .alternative (hcondition.madeOf hw.2.2.1) (ih hw.2.2.2.2.1) (ih' hw.2.2.2.2.2.2)
  | returnStmt _ hvalue _ =>
    simp only [stock_append, stock_cons] at hw
    exact .returning ⟨rfl, hw.1.2⟩ (hvalue.madeOf hw.2.1)
  | whileStmt _ _ hcondition _ _ ih =>
    simp only [stock_append, stock_cons] at hw
    exact .loop (hcondition.madeOf hw.2.2.1) (ih hw.2.2.2.2) .none
  | breakStmt =>
    simp only [stock_cons] at hw
    exact .breaking ⟨rfl, hw.1.2⟩
  | continueStmt =>
    simp only [stock_cons] at hw
    exact .continuing ⟨rfl, hw.1.2⟩
  | block _ _ _ ih =>
    simp only [stock_append, stock_cons] at hw
    exact madeOf_block (ih hw.2.1)

end Grammar

end Lox
