import Lox.Proofs.Grammar

/-!
# Trees with lists of limited length

In a tree that the grammar derives no list of parameters or arguments is longer than the
limit, and what stands in the place of a superclass is a name.
-/

namespace Lox

open Grammar (longestList)

mutual

/-- No call in the expression has more arguments than are allowed. -/
def Expr.Limited : Expr → Prop
  | .literal _ => True
  | .unary _ operand => operand.Limited
  | .binary left _ right => left.Limited ∧ right.Limited
  | .logical left _ right => left.Limited ∧ right.Limited
  | .group inner => inner.Limited
  | .read _ => True
  | .assign _ value => value.Limited
  | .call callee _ arguments =>
    arguments.length ≤ longestList ∧ callee.Limited ∧ Expr.LimitedEach arguments
  | .get object _ => object.Limited
  | .set object _ value => object.Limited ∧ value.Limited
  | .this _ => True
  | .super _ _ => True
termination_by structural e => e

def Expr.LimitedEach : List Expr → Prop
  | [] => True
  | e :: rest => e.Limited ∧ Expr.LimitedEach rest
termination_by structural es => es

end

mutual

/--
No call in the statement has more arguments than are allowed and no function more parameters,
and each superclass is a name.
-/
def Stmt.Limited : Stmt → Prop
  | .expression value => value.Limited
  | .var _ initializer => ∀ e ∈ initializer, e.Limited
  | .block body => Stmt.LimitedEach body
  | .conditional condition thenBranch none => condition.Limited ∧ thenBranch.Limited
  | .conditional condition thenBranch (some elseBranch) =>
    condition.Limited ∧ thenBranch.Limited ∧ elseBranch.Limited
  | .loop condition body increment =>
    condition.Limited ∧ body.Limited ∧ ∀ e ∈ increment, e.Limited
  | .function declaration => declaration.Limited
  | .returning _ value => ∀ e ∈ value, e.Limited
  | .breaking _ => True
  | .continuing _ => True
  | .class _ superclass methods =>
    (∀ place ∈ superclass, place.token.kind = .identifier) ∧ FunctionDecl.LimitedEach methods
termination_by structural s => s

def Stmt.LimitedEach : List Stmt → Prop
  | [] => True
  | s :: rest => s.Limited ∧ Stmt.LimitedEach rest
termination_by structural ss => ss

def FunctionDecl.Limited : FunctionDecl → Prop
  | ⟨_, parameters, body⟩ => parameters.length ≤ longestList ∧ Stmt.LimitedEach body
termination_by structural d => d

def FunctionDecl.LimitedEach : List FunctionDecl → Prop
  | [] => True
  | d :: rest => d.Limited ∧ FunctionDecl.LimitedEach rest
termination_by structural ds => ds

end

namespace Grammar

/-! ### Derived trees -/

/-- The tree of the phrase is limited, if that is which it continues. -/
def ExprPhrase.Limited : ExprPhrase → Prop
  | .expression e => e.Limited
  | .binary _ e => e.Limited
  | .binaryRest _ left e => left.Limited → e.Limited
  | .unary e => e.Limited
  | .call e => e.Limited
  | .callRest callee e => callee.Limited → e.Limited
  | .arguments es => Expr.LimitedEach es
  | .primary e => e.Limited

theorem limited_operand {rule : BinaryRule} {e : Expr} (h : (rule.operand e).Limited) :
    e.Limited := by
  cases rule <;> exact h

theorem limited_node {rule : BinaryRule} {left right : Expr} {operator : Token}
    (hleft : left.Limited) (hright : right.Limited) : (rule.node left operator right).Limited := by
  cases rule <;> exact ⟨hleft, hright⟩

theorem ExprDerives.limited {phrase : ExprPhrase} {w : List Token} (h : ExprDerives phrase w) :
    phrase.Limited := by
  induction h with
  | assign _ _ _ ih => exact ih
  | set _ _ _ _ _ ih ih' => exact ⟨ih, ih'⟩
  | operation _ ih => exact ih
  | binary _ _ ih ih' => exact ih' (limited_operand ih)
  | binaryEnd => exact id
  | binaryMore _ _ _ ih ih' => exact fun hleft => ih' (limited_node hleft (limited_operand ih))
  | prefixed _ _ ih => exact ih
  | unprefixed _ ih => exact ih
  | call _ _ ih ih' => exact ih' ih
  | callEnd => exact id
  | callEmpty _ _ _ ih => exact fun hcallee => ih ⟨Nat.zero_le _, hcallee, trivial⟩
  | callWith _ _ hlength _ _ ih ih' => exact fun hcallee => ih' ⟨hlength, hcallee, ih⟩
  | property _ _ _ ih => exact fun hcallee => ih hcallee
  | argument _ ih => exact ⟨ih, trivial⟩
  | argumentsMore _ _ _ ih ih' => exact ⟨ih, ih'⟩
  | number | string | kwTrue | kwFalse | kwNil | kwThis | name | kwSuper => exact trivial
  | group _ _ _ ih => exact ih

theorem OptionalExpr.limited {found : Option Expr} {w : List Token} (h : OptionalExpr found w) :
    ∀ e ∈ found, e.Limited := by
  rintro e ⟨⟩
  cases h with
  | present he => exact he.limited

theorem VarDecl.limited {s : Stmt} {w : List Token} (h : VarDecl s w) : s.Limited := by
  cases h with
  | plain => rintro e ⟨⟩
  | initialized _ _ _ he =>
    rintro e ⟨⟩
    exact he.limited

theorem ExprStmt.limited {s : Stmt} {w : List Token} (h : ExprStmt s w) : s.Limited := by
  cases h with
  | mk he => exact he.limited

theorem ForInit.limited {initializer : Option Stmt} {w : List Token}
    (h : ForInit initializer w) : ∀ s ∈ initializer, s.Limited := by
  rintro s ⟨⟩
  cases h with
  | var hvar => exact hvar.limited
  | expression he => exact he.limited

theorem OptionalParameters.limited {names w : List Token} (h : OptionalParameters names w) :
    names.length ≤ longestList := by
  cases h with
  | absent => exact Nat.zero_le _
  | present _ hlength => exact hlength

theorem Superclass.limited {superclass : Option Occurrence} {w : List Token}
    (h : Superclass superclass w) : ∀ place ∈ superclass, place.token.kind = .identifier := by
  rintro place ⟨⟩
  cases h with
  | present _ hname => exact hname

theorem limited_forTree {initializer : Option Stmt} {condition increment : Option Expr}
    {body : Stmt} (hinit : ∀ s ∈ initializer, s.Limited) (hcondition : ∀ e ∈ condition, e.Limited)
    (hincrement : ∀ e ∈ increment, e.Limited) (hbody : body.Limited) :
    (forTree initializer condition increment body).Limited := by
  have hloop : (Stmt.loop (condition.getD (.literal (.bool true))) body increment).Limited := by
    refine ⟨?_, hbody, hincrement⟩
    cases condition with
    | none => exact trivial
    | some e => exact hcondition e rfl
  cases initializer with
  | none => exact hloop
  | some first => exact ⟨hinit first rfl, hloop, trivial⟩

def StmtPhrase.Limited : StmtPhrase → Prop
  | .declaration s => s.Limited
  | .declarations ss => Stmt.LimitedEach ss
  | .function d => d.Limited
  | .functions ds => FunctionDecl.LimitedEach ds
  | .statement _ s => s.Limited

/-- What the grammar derives is limited. -/
theorem StmtDerives.limited {attachment : Attachment} {phrase : StmtPhrase} {w : List Token}
    (h : StmtDerives attachment phrase w) : phrase.Limited := by
  induction h with
  | classDecl _ _ hsuper _ _ _ ih => exact ⟨hsuper.limited, ih⟩
  | funDecl _ _ ih => exact ih
  | varDecl hvar => exact hvar.limited
  | plain _ ih => exact ih
  | declarationsEnd => exact trivial
  | declarationsMore _ _ ih ih' => exact ⟨ih, ih'⟩
  | function _ _ hparameters _ _ _ _ ih => exact ⟨hparameters.limited, ih⟩
  | functionsEnd => exact trivial
  | functionsMore _ _ ih ih' => exact ⟨ih, ih'⟩
  | exprStmt he => exact he.limited
  | forStmt _ _ hinit hcondition _ hincrement _ _ ih =>
    exact limited_forTree hinit.limited hcondition.limited hincrement.limited ih
  | ifStmt _ _ hcondition _ _ ih => exact ⟨hcondition.limited, ih⟩
  | ifElseStmt _ _ hcondition _ _ _ _ _ ih ih' => exact ⟨hcondition.limited, ih, ih'⟩
  | returnStmt _ hvalue _ => exact hvalue.limited
  | whileStmt _ _ hcondition _ _ ih =>
    refine ⟨hcondition.limited, ih, ?_⟩
    rintro e ⟨⟩
  | breakStmt | continueStmt => exact trivial
  | block _ _ _ ih => exact ih

end Grammar

end Lox
