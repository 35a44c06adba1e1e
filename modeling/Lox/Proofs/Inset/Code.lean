import Mathlib.Data.List.Forall2
import Lox.Proofs.Numbering
import Lox.Proofs.Tree.Shape
import Lox.Proofs.Tree.WhileForm

/-!
# Code with further scopes

The second of two trees can have scopes that the first one lacks: a statement can stand in
a block of its own, and a loop that carries its increment can run it at the end of its body
and in front of each `continue` instead.  An inset says how far out the scope at each
distance of the first tree is in the second one.  Apart from these scopes, the trees have
the same tokens in the same places; how occurrences correspond is left open.
-/

namespace Lox

/-- How far out the scope at each distance is in code with further scopes. -/
abbrev Inset := Nat → Nat

namespace Inset

def flush : Inset := fun d => d

/-- Inside of one more scope on both sides. -/
def enter (σ : Inset) : Inset
  | 0 => 0
  | d + 1 => σ d + 1

/-- Inside of a scope that only the second side has. -/
def further (σ : Inset) : Inset := fun d => σ d + 1

def enterClass (σ : Inset) (derived : Bool) : Inset :=
  if derived then σ.enter.enter else σ.enter

/-- Outside of the innermost `k` scopes of the first side. -/
def outer (σ : Inset) (k : Nat) : Inset := fun d => σ (k + d)

@[simp]
theorem enter_zero (σ : Inset) : σ.enter 0 = 0 := rfl

@[simp]
theorem enter_succ (σ : Inset) (d : Nat) : σ.enter (d + 1) = σ d + 1 := rfl

@[simp]
theorem further_apply (σ : Inset) (d : Nat) : σ.further d = σ d + 1 := rfl

@[simp]
theorem outer_apply (σ : Inset) (k d : Nat) : σ.outer k d = σ (k + d) := rfl

@[simp]
theorem flush_apply (d : Nat) : flush d = d := rfl

theorem enter_flush : flush.enter = flush := by
  funext d
  cases d <;> rfl

end Inset

/-! ### The relation -/

/-- How occurrences correspond at an inset. -/
abbrev Counterparts := Inset → OccurrenceKind → Occurrence → Occurrence → Prop

section

variable (R : Counterparts)

mutual

inductive ExprInset (σ : Inset) : Expr → Expr → Prop where
  | literal {value : Literal} : ExprInset σ (.literal value) (.literal value)
  | unary {operator : Token} {e e' : Expr} :
      ExprInset σ e e' → ExprInset σ (.unary operator e) (.unary operator e')
  | binary {left left' right right' : Expr} {operator : Token} :
      ExprInset σ left left' → ExprInset σ right right' →
      ExprInset σ (.binary left operator right) (.binary left' operator right')
  | logical {left left' right right' : Expr} {operator : Token} :
      ExprInset σ left left' → ExprInset σ right right' →
      ExprInset σ (.logical left operator right) (.logical left' operator right')
  | group {inner inner' : Expr} :
      ExprInset σ inner inner' → ExprInset σ (.group inner) (.group inner')
  | read {place place' : Occurrence} :
      R σ .read place place' → ExprInset σ (.read place) (.read place')
  | assign {place place' : Occurrence} {value value' : Expr} :
      R σ .assign place place' → ExprInset σ value value' →
      ExprInset σ (.assign place value) (.assign place' value')
  | call {callee callee' : Expr} {paren : Token} {arguments arguments' : List Expr} :
      ExprInset σ callee callee' → ExprEachInset σ arguments arguments' →
      ExprInset σ (.call callee paren arguments) (.call callee' paren arguments')
  | get {object object' : Expr} {name : Token} :
      ExprInset σ object object' → ExprInset σ (.get object name) (.get object' name)
  | set {object object' value value' : Expr} {name : Token} :
      ExprInset σ object object' → ExprInset σ value value' →
      ExprInset σ (.set object name value) (.set object' name value')
  | this {place place' : Occurrence} :
      R σ .this place place' → ExprInset σ (.this place) (.this place')
  | super {place place' : Occurrence} {method : Token} :
      R σ .super place place' → ExprInset σ (.super place method) (.super place' method)

inductive ExprEachInset (σ : Inset) : List Expr → List Expr → Prop where
  | nil : ExprEachInset σ [] []
  | cons {e e' : Expr} {rest rest' : List Expr} :
      ExprInset σ e e' → ExprEachInset σ rest rest' → ExprEachInset σ (e :: rest) (e' :: rest')

end

abbrev ExprIn?Inset (σ : Inset) : Option Expr → Option Expr → Prop :=
  Option.Rel (ExprInset R σ)

mutual

/--
Statements at an inset.  They stand inside of `k` scopes of the body of a loop, each
`continue` of which also evaluates the increment in the second tree, if there is one.
-/
inductive StmtInset : Inset → Nat → Option Expr → Stmt → Stmt → Prop where
  | expression {σ : Inset} {k : Nat} {step : Option Expr} {value value' : Expr} :
      ExprInset R σ value value' →
      StmtInset σ k step (.expression value) (.expression value')
  | var {σ : Inset} {k : Nat} {step : Option Expr} {name : Token} {value value' : Option Expr} :
      σ 0 = 0 → FreeOf step name.lexeme → ExprIn?Inset R σ value value' →
      StmtInset σ k step (.var name value) (.var name value')
  | block {σ : Inset} {k : Nat} {step : Option Expr} {body body' : List Stmt} :
      StmtEachInset σ.enter (k + 1) step body body' →
      StmtInset σ k step (.block body) (.block body')
  | conditional {σ : Inset} {k : Nat} {step : Option Expr} {condition condition' : Expr}
      {thenBranch thenBranch' : Stmt} :
      ExprInset R σ condition condition' → StmtInset σ k step thenBranch thenBranch' →
      StmtInset σ k step (.conditional condition thenBranch none)
        (.conditional condition' thenBranch' none)
  | alternative {σ : Inset} {k : Nat} {step : Option Expr} {condition condition' : Expr}
      {thenBranch thenBranch' elseBranch elseBranch' : Stmt} :
      ExprInset R σ condition condition' → StmtInset σ k step thenBranch thenBranch' →
      StmtInset σ k step elseBranch elseBranch' →
      StmtInset σ k step (.conditional condition thenBranch (some elseBranch))
        (.conditional condition' thenBranch' (some elseBranch'))
  | loop {σ : Inset} {k : Nat} {step : Option Expr} {condition condition' : Expr}
      {body body' : Stmt} {increment increment' : Option Expr} :
      ExprInset R σ condition condition' → StmtInset σ 0 none body body' →
      ExprIn?Inset R σ increment increment' →
      StmtInset σ k step (.loop condition body increment) (.loop condition' body' increment')
  | function {σ : Inset} {k : Nat} {step : Option Expr} {d d' : FunctionDecl} :
      σ 0 = 0 → FreeOf step d.name.lexeme → FunctionInset σ d d' →
      StmtInset σ k step (.function d) (.function d')
  | returning {σ : Inset} {k : Nat} {step : Option Expr} {keyword : Token}
      {value value' : Option Expr} :
      ExprIn?Inset R σ value value' →
      StmtInset σ k step (.returning keyword value) (.returning keyword value')
  | breaking {σ : Inset} {k : Nat} {step : Option Expr} {keyword : Token} :
      StmtInset σ k step (.breaking keyword) (.breaking keyword)
  | continuing {σ : Inset} {k : Nat} {keyword : Token} :
      StmtInset σ k none (.continuing keyword) (.continuing keyword)
  | class {σ : Inset} {k : Nat} {step : Option Expr} {name : Token}
      {superclass superclass' : Option Occurrence} {methods methods' : List FunctionDecl} :
      σ 0 = 0 → FreeOf step name.lexeme → Option.Rel (R σ .read) superclass superclass' →
      FunctionEachInset (σ.enterClass superclass.isSome) methods methods' →
      StmtInset σ k step (.class name superclass methods) (.class name superclass' methods')
  /-- The second loop evaluates the increment at the end of its body. -/
  | unrolled {σ : Inset} {k : Nat} {step : Option Expr} {s s' : Stmt} :
      LoopInset σ s s' → StmtInset σ k step s s'
  /-- It stands in a block of its own besides. -/
  | boxed {σ : Inset} {k : Nat} {step : Option Expr} {s s' : Stmt} :
      LoopInset σ.further s s' → StmtInset σ k step s (.block [s'])
  /-- The second `continue` evaluates the increment first. -/
  | stepping {σ : Inset} {k : Nat} {step step' : Option Expr} {keyword : Token} :
      ExprIn?Inset R (σ.outer k).further step step' →
      StmtInset σ k step (.continuing keyword)
        (.block (Stmt.steps step' ++ [.continuing keyword]))

/-- A loop that carries its increment, and one that evaluates it at the end of its body. -/
inductive LoopInset : Inset → Stmt → Stmt → Prop where
  | mk {σ : Inset} {condition condition' : Expr} {body body' : Stmt}
      {increment increment' : Option Expr} :
      ExprInset R σ condition condition' → StmtInset σ.further 0 increment body body' →
      ExprIn?Inset R σ.further increment increment' →
      LoopInset σ (.loop condition body increment)
        (.loop condition' (.block (body' :: Stmt.steps increment')) none)

inductive StmtEachInset : Inset → Nat → Option Expr → List Stmt → List Stmt → Prop where
  | nil {σ : Inset} {k : Nat} {step : Option Expr} : StmtEachInset σ k step [] []
  | cons {σ : Inset} {k : Nat} {step : Option Expr} {s s' : Stmt} {rest rest' : List Stmt} :
      StmtInset σ k step s s' → StmtEachInset σ k step rest rest' →
      StmtEachInset σ k step (s :: rest) (s' :: rest')

/-- Functions at an inset; parameters and body share one scope. -/
inductive FunctionInset : Inset → FunctionDecl → FunctionDecl → Prop where
  | mk {σ : Inset} {name : Token} {parameters : List Token} {body body' : List Stmt} :
      StmtEachInset σ.enter 0 none body body' →
      FunctionInset σ ⟨name, parameters, body⟩ ⟨name, parameters, body'⟩

inductive FunctionEachInset : Inset → List FunctionDecl → List FunctionDecl → Prop where
  | nil {σ : Inset} : FunctionEachInset σ [] []
  | cons {σ : Inset} {d d' : FunctionDecl} {rest rest' : List FunctionDecl} :
      FunctionInset σ d d' → FunctionEachInset σ rest rest' →
      FunctionEachInset σ (d :: rest) (d' :: rest')

end

end

variable {R : Counterparts} {σ : Inset}

theorem FunctionInset.name_eq {d d' : FunctionDecl} (h : FunctionInset R σ d d') :
    d'.name = d.name := by
  cases h
  rfl

theorem FunctionInset.arity_eq {d d' : FunctionDecl} (h : FunctionInset R σ d d') :
    d'.arity = d.arity := by
  cases h
  rfl

/-! ### Declared names -/

/-- What declares a name stands directly in the same scope on both sides. -/
theorem StmtInset.declared?_eq_none {k : Nat} {step : Option Expr} {s s' : Stmt}
    (h : StmtInset R σ k step s s') (hσ : σ 0 ≠ 0) : s.declared? = none := by
  cases h with
  | var hzero | function hzero | «class» hzero => exact absurd hzero hσ
  | unrolled hloop | boxed hloop =>
    cases hloop
    rfl
  | _ => rfl

theorem LoopInset.declares_eq {s s' : Stmt} (h : LoopInset R σ s s') (hshaped : s.Shaped) :
    s'.declares = [] ∧ s.declares = [] := by
  cases h with
  | @mk _ _ _ body =>
    refine ⟨rfl, ?_⟩
    rw [Stmt.declares, body.declares_of_shaped hshaped.2, hshaped.1]
    rfl

/-- Both sides declare the same names. -/
theorem StmtInset.declares_eq : {σ : Inset} → {k : Nat} → {step : Option Expr} →
    {s s' : Stmt} → StmtInset R σ k step s s' → s.Shaped → s'.declares = s.declares
  | _, _, _, _, _, .conditional _ hthen, hshaped => hthen.declares_eq hshaped.2
  | _, _, _, _, _, .alternative _ hthen helse, hshaped => by
    simp only [Stmt.declares, hthen.declares_eq hshaped.1.2, helse.declares_eq hshaped.2.2]
  | _, _, _, _, _, .loop _ hbody _, hshaped => hbody.declares_eq hshaped.2
  | _, _, _, _, _, .function _ _ hd, _ => by simp only [Stmt.declares, hd.name_eq]
  | _, _, _, _, _, .unrolled hloop, hshaped =>
    (hloop.declares_eq hshaped).1.trans (hloop.declares_eq hshaped).2.symm
  | _, _, _, _, _, .boxed hloop, hshaped => (hloop.declares_eq hshaped).2.symm
  | _, _, _, _, _, .var _ _ _, _ | _, _, _, _, _, .class _ _ _ _, _
  | _, _, _, _, _, .expression _, _ | _, _, _, _, _, .block _, _
  | _, _, _, _, _, .returning _, _ | _, _, _, _, _, .breaking, _
  | _, _, _, _, _, .continuing, _ | _, _, _, _, _, .stepping _, _ => rfl

/-! ### Identities -/

/-- The correspondence of occurrences does not depend on the identity of the second one. -/
def Counterparts.Anonymous (R : Counterparts) : Prop :=
  ∀ σ kind p p' n, R σ kind p p' → R σ kind p ⟨n, p'.token⟩

theorem Stmt.numberedEach_steps (n : Nat) (step : Option Expr) (rest : List Stmt) :
    Stmt.numberedEach n (Stmt.steps step ++ rest) =
      Stmt.steps (Expr.numberedIn? n step) ++
        Stmt.numberedEach (n + Expr.drawnIn? step) rest := by
  cases step <;> rfl

theorem Stmt.numberedEach_steps_only (n : Nat) (step : Option Expr) :
    Stmt.numberedEach n (Stmt.steps step) = Stmt.steps (Expr.numberedIn? n step) := by
  cases step <;> rfl

mutual

theorem ExprInset.numbered (hR : R.Anonymous) {e e' : Expr} (h : ExprInset R σ e e') (n : Nat) :
    ExprInset R σ e (e'.numbered n) := by
  cases h with
  | literal => exact .literal
  | unary he => exact .unary (he.numbered hR n)
  | binary hleft hright => exact .binary (hleft.numbered hR n) (hright.numbered hR _)
  | logical hleft hright => exact .logical (hleft.numbered hR n) (hright.numbered hR _)
  | group he => exact .group (he.numbered hR n)
  | read hplace => exact .read (hR _ _ _ _ n hplace)
  | assign hplace hvalue => exact .assign (hR _ _ _ _ _ hplace) (hvalue.numbered hR _)
  | call hcallee harguments => exact .call (hcallee.numbered hR n) (harguments.numbered hR _)
  | get hobject => exact .get (hobject.numbered hR n)
  | set hobject hvalue => exact .set (hobject.numbered hR n) (hvalue.numbered hR _)
  | this hplace => exact .this (hR _ _ _ _ n hplace)
  | super hplace => exact .super (hR _ _ _ _ n hplace)

theorem ExprEachInset.numbered (hR : R.Anonymous) {es es' : List Expr}
    (h : ExprEachInset R σ es es') (n : Nat) :
    ExprEachInset R σ es (Expr.numberedEach n es') := by
  cases h with
  | nil => exact .nil
  | cons he hrest => exact .cons (he.numbered hR n) (hrest.numbered hR _)

end

theorem ExprIn?Inset.numbered (hR : R.Anonymous) {e e' : Option Expr} (h : ExprIn?Inset R σ e e')
    (n : Nat) : ExprIn?Inset R σ e (Expr.numberedIn? n e') := by
  cases h with
  | none => exact .none
  | some he => exact .some (he.numbered hR n)

mutual

/-- A parse that numbers the second tree anew changes nothing. -/
theorem StmtInset.numbered (hR : R.Anonymous) : {σ : Inset} → {k : Nat} → {step : Option Expr} →
    {s s' : Stmt} → StmtInset R σ k step s s' → (n : Nat) →
      StmtInset R σ k step s (s'.numbered n)
  | _, _, _, _, _, .expression he, n => .expression (he.numbered hR n)
  | _, _, _, _, _, .var hzero hfree he, n =>
    .var hzero hfree (ExprIn?Inset.numbered hR he n)
  | _, _, _, _, _, .block hbody, n => .block (hbody.numbered hR n)
  | _, _, _, _, _, .conditional hc ht, n => .conditional (hc.numbered hR n) (ht.numbered hR _)
  | _, _, _, _, _, .alternative hc ht he, n =>
    .alternative (hc.numbered hR n) (ht.numbered hR _) (he.numbered hR _)
  | _, _, _, _, _, .loop hc hb hi, n =>
    .loop (hc.numbered hR n) (hb.numbered hR _) (ExprIn?Inset.numbered hR hi _)
  | _, _, _, _, _, .function hzero hfree hd, n => .function hzero hfree (hd.numbered hR n)
  | _, _, _, _, _, .returning he, n => .returning (ExprIn?Inset.numbered hR he n)
  | _, _, _, _, _, .breaking, _ => .breaking
  | _, _, _, _, _, .continuing, _ => .continuing
  | _, _, _, _, _, .class hzero hfree .none hmethods, _ =>
    .class hzero hfree .none (hmethods.numbered hR _)
  | _, _, _, _, _, .class hzero hfree (.some hplace) hmethods, _ =>
    .class hzero hfree (.some (hR _ _ _ _ _ hplace)) (hmethods.numbered hR _)
  | _, _, _, _, _, .unrolled hloop, n => .unrolled (hloop.numbered hR n)
  | _, _, _, _, _, .boxed hloop, n => .boxed (hloop.numbered hR n)
  | _, _, _, _, _, .stepping hi, n => by
    simp only [Stmt.numbered, Stmt.numberedEach_steps, Stmt.numberedEach]
    exact .stepping (ExprIn?Inset.numbered hR hi n)

theorem LoopInset.numbered (hR : R.Anonymous) : {σ : Inset} → {s s' : Stmt} →
    LoopInset R σ s s' → (n : Nat) → LoopInset R σ s (s'.numbered n)
  | _, _, _, .mk hc hb hi, n => by
    simp only [Stmt.numbered, Stmt.numberedEach, Expr.numberedIn?, Stmt.numberedEach_steps_only]
    exact .mk (hc.numbered hR n) (hb.numbered hR _) (ExprIn?Inset.numbered hR hi _)

theorem StmtEachInset.numbered (hR : R.Anonymous) : {σ : Inset} → {k : Nat} →
    {step : Option Expr} → {ss ss' : List Stmt} → StmtEachInset R σ k step ss ss' → (n : Nat) →
      StmtEachInset R σ k step ss (Stmt.numberedEach n ss')
  | _, _, _, _, _, .nil, _ => .nil
  | _, _, _, _, _, .cons hs hrest, n => .cons (hs.numbered hR n) (hrest.numbered hR _)

theorem FunctionInset.numbered (hR : R.Anonymous) : {σ : Inset} → {d d' : FunctionDecl} →
    FunctionInset R σ d d' → (n : Nat) → FunctionInset R σ d (d'.numbered n)
  | _, _, _, .mk hbody, n => .mk (hbody.numbered hR n)

theorem FunctionEachInset.numbered (hR : R.Anonymous) : {σ : Inset} →
    {ds ds' : List FunctionDecl} → FunctionEachInset R σ ds ds' → (n : Nat) →
      FunctionEachInset R σ ds (FunctionDecl.numberedEach n ds')
  | _, _, _, .nil, _ => .nil
  | _, _, _, .cons hd hrest, n => .cons (hd.numbered hR n) (hrest.numbered hR _)

end

/-! ### Code against itself -/

/-- At some insets occurrences of a kind correspond to themselves. -/
structure Counterparts.Reflexive (R : Counterparts) (I : Inset → Prop) (P : Occurrence → Prop) :
    Prop where
  enter : ∀ σ, I σ → I σ.enter
  place : ∀ σ kind p, I σ → P p → R σ kind p p

section

variable {I : Inset → Prop} {P : Occurrence → Prop}

theorem Counterparts.Reflexive.enterClass (hR : R.Reflexive I P) (hσ : I σ) (derived : Bool) :
    I (σ.enterClass derived) := by
  cases derived with
  | false => exact hR.enter σ hσ
  | true => exact hR.enter _ (hR.enter σ hσ)

mutual

theorem Expr.inset_self (hR : R.Reflexive I P) (hσ : I σ) :
    (e : Expr) → (∀ o ∈ e.occurrences, P o.2) → ExprInset R σ e e
  | .literal _, _ => .literal
  | .unary _ operand, h => .unary (operand.inset_self hR hσ h)
  | .binary left _ right, h =>
    .binary (left.inset_self hR hσ (List.forall_mem_append.mp h).1)
      (right.inset_self hR hσ (List.forall_mem_append.mp h).2)
  | .logical left _ right, h =>
    .logical (left.inset_self hR hσ (List.forall_mem_append.mp h).1)
      (right.inset_self hR hσ (List.forall_mem_append.mp h).2)
  | .group inner, h => .group (inner.inset_self hR hσ h)
  | .read place, h => .read (hR.place σ .read place hσ (List.forall_mem_cons.mp h).1)
  | .assign place value, h =>
    .assign (hR.place σ .assign place hσ (List.forall_mem_cons.mp h).1)
      (value.inset_self hR hσ (List.forall_mem_cons.mp h).2)
  | .call callee _ arguments, h =>
    .call (callee.inset_self hR hσ (List.forall_mem_append.mp h).1)
      (Expr.insetEach_self hR hσ arguments (List.forall_mem_append.mp h).2)
  | .get object _, h => .get (object.inset_self hR hσ h)
  | .set object _ value, h =>
    .set (object.inset_self hR hσ (List.forall_mem_append.mp h).1)
      (value.inset_self hR hσ (List.forall_mem_append.mp h).2)
  | .this place, h => .this (hR.place σ .this place hσ (List.forall_mem_cons.mp h).1)
  | .super place _, h => .super (hR.place σ .super place hσ (List.forall_mem_cons.mp h).1)
termination_by structural e => e

theorem Expr.insetEach_self (hR : R.Reflexive I P) (hσ : I σ) :
    (es : List Expr) → (∀ o ∈ Expr.occurrencesEach es, P o.2) → ExprEachInset R σ es es
  | [], _ => .nil
  | e :: rest, h =>
    .cons (e.inset_self hR hσ (List.forall_mem_append.mp h).1)
      (Expr.insetEach_self hR hσ rest (List.forall_mem_append.mp h).2)
termination_by structural es => es

end

theorem Expr.insetIn?_self (hR : R.Reflexive I P) (hσ : I σ) (e : Option Expr)
    (h : ∀ o ∈ Expr.occurrencesIn? e, P o.2) : ExprIn?Inset R σ e e := by
  cases e with
  | none => exact .none
  | some e => exact .some (e.inset_self hR hσ h)

mutual

/-- A statement corresponds to itself, where it has no increment to care for. -/
theorem Stmt.inset_self (hR : R.Reflexive I P) {σ : Inset} (hσ : I σ) (k : Nat) :
    (s : Stmt) → s.Shaped → (s.declared? = none ∨ σ 0 = 0) → (∀ o ∈ s.occurrences, P o.2) →
      StmtInset R σ k none s s
  | .expression value, _, _, h => .expression (value.inset_self hR hσ h)
  | .var name value, _, hplain, h =>
    -- A declaration adds nothing to its scope if it may be passed by a further statement.
    .var (hplain.resolve_left (by simp [Stmt.declared?])) (.none _)
      (Expr.insetIn?_self hR hσ value h)
  | .block body, hshaped, _, h =>
    -- Inside a block the inset starts anew.
    .block (Stmt.insetEach_self hR (hR.enter σ hσ) rfl _ body hshaped h)
  | .conditional condition thenBranch none, hshaped, _, h =>
    .conditional (condition.inset_self hR hσ (List.forall_mem_append.mp h).1)
      (thenBranch.inset_self hR hσ k hshaped.2 (.inl hshaped.1) (List.forall_mem_append.mp h).2)
  | .conditional condition thenBranch (some elseBranch), hshaped, _, h => by
    obtain ⟨hbefore, helse⟩ := List.forall_mem_append.mp h
    obtain ⟨hcondition, hthen⟩ := List.forall_mem_append.mp hbefore
    exact .alternative (condition.inset_self hR hσ hcondition)
      (thenBranch.inset_self hR hσ k hshaped.1.2 (.inl hshaped.1.1) hthen)
      (elseBranch.inset_self hR hσ k hshaped.2.2 (.inl hshaped.2.1) helse)
  | .loop condition body increment, hshaped, _, h => by
    obtain ⟨hbefore, hincrement⟩ := List.forall_mem_append.mp h
    obtain ⟨hcondition, hbody⟩ := List.forall_mem_append.mp hbefore
    exact .loop (condition.inset_self hR hσ hcondition)
      -- The body of a loop is no declaration, as the grammar has it.
      (body.inset_self hR hσ 0 hshaped.2 (.inl hshaped.1) hbody)
      (Expr.insetIn?_self hR hσ increment hincrement)
  | .function d, hshaped, hplain, h =>
    .function (hplain.resolve_left (by simp [Stmt.declared?])) (.none _)
      (d.inset_self hR hσ hshaped.2 h)
  | .returning _ value, _, _, h => .returning (Expr.insetIn?_self hR hσ value h)
  | .breaking _, _, _, _ => .breaking
  | .continuing _, _, _, _ => .continuing
  | .class name none methods, hshaped, hplain, h =>
    .class (hplain.resolve_left (by simp [Stmt.declared?])) (.none _) .none
      (FunctionDecl.insetEach_self hR (hR.enterClass hσ false) methods hshaped.2 h)
  | .class name (some place) methods, hshaped, hplain, h =>
    .class (hplain.resolve_left (by simp [Stmt.declared?])) (.none _)
      (.some (hR.place σ .read place hσ (List.forall_mem_cons.mp h).1))
      (FunctionDecl.insetEach_self hR (hR.enterClass hσ true) methods hshaped.2
        (List.forall_mem_cons.mp h).2)
termination_by structural s => s

theorem Stmt.insetEach_self (hR : R.Reflexive I P) {σ : Inset} (hσ : I σ) (hzero : σ 0 = 0)
    (k : Nat) : (ss : List Stmt) → Stmt.ShapedEach ss → (∀ o ∈ Stmt.occurrencesEach ss, P o.2) →
      StmtEachInset R σ k none ss ss
  | [], _, _ => .nil
  | s :: rest, hshaped, h =>
    .cons (s.inset_self hR hσ k hshaped.1 (.inr hzero) (List.forall_mem_append.mp h).1)
      (Stmt.insetEach_self hR hσ hzero k rest hshaped.2 (List.forall_mem_append.mp h).2)
termination_by structural ss => ss

theorem FunctionDecl.inset_self (hR : R.Reflexive I P) {σ : Inset} (hσ : I σ) :
    (d : FunctionDecl) → d.Shaped → (∀ o ∈ d.occurrences, P o.2) → FunctionInset R σ d d
  | ⟨_, _, body⟩, hshaped, h =>
    .mk (Stmt.insetEach_self hR (hR.enter σ hσ) rfl 0 body hshaped.2 h)
termination_by structural d => d

theorem FunctionDecl.insetEach_self (hR : R.Reflexive I P) {σ : Inset} (hσ : I σ) :
    (ds : List FunctionDecl) → FunctionDecl.ShapedEach ds →
      (∀ o ∈ FunctionDecl.occurrencesEach ds, P o.2) → FunctionEachInset R σ ds ds
  | [], _, _ => .nil
  | d :: rest, hshaped, h =>
    .cons (d.inset_self hR hσ hshaped.1 (List.forall_mem_append.mp h).1)
      (FunctionDecl.insetEach_self hR hσ rest hshaped.2 (List.forall_mem_append.mp h).2)
termination_by structural ds => ds

end

end

end Lox
