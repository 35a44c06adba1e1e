import Mathlib.Data.List.Forall2
import Lox.Tree.Occurrences

/-!
# Code that looks alike

Two trees look alike if they have the same shape and if the tokens and occurrences
in the same places correspond.  What corresponds is left open: `Likeness` says which
tokens, which names that are bound, and which occurrences.  Each scope of the first
tree has a renaming that takes the names bound in it to those of the second tree, and
the surroundings give the renaming of the scope at each distance.
-/

namespace Lox

/-- A renaming of the names that are bound in a scope. -/
structure Renaming where
  apply : String → String
  injective : ∀ a b, apply a = apply b → a = b
  this : apply "this" = "this"
  super : apply "super" = "super"

instance : CoeFun Renaming fun _ => String → String := ⟨Renaming.apply⟩

namespace Renaming

def same : Renaming := ⟨id, fun _ _ h => h, rfl, rfl⟩

@[simp]
theorem same_apply (name : String) : same name = name := rfl

end Renaming

/-- The renamings of the scopes at all distances; far outside nothing is renamed. -/
abbrev Surroundings := Nat → Renaming

namespace Surroundings

def top : Surroundings := fun _ => .same

def enter (σ : Renaming) (Γ : Surroundings) : Surroundings
  | 0 => σ
  | d + 1 => Γ d

/-- The surroundings inside of a class body, where only `this` and `super` are bound. -/
def enterClass (derived : Bool) (Γ : Surroundings) : Surroundings :=
  if derived then (Γ.enter .same).enter .same else Γ.enter .same

@[simp]
theorem enter_zero (σ : Renaming) (Γ : Surroundings) : Γ.enter σ 0 = σ := rfl

@[simp]
theorem enter_succ (σ : Renaming) (Γ : Surroundings) (d : Nat) : Γ.enter σ (d + 1) = Γ d := rfl

theorem enter_top : top.enter .same = top := by
  funext d
  cases d <;> rfl

theorem enterClass_top (derived : Bool) : top.enterClass derived = top := by
  cases derived <;> simp [enterClass, enter_top]

end Surroundings

/-- What corresponds in trees that look alike. -/
structure Likeness where
  /-- The renamings that a scope can have. -/
  allowed : Renaming → Prop
  /-- Tokens that bind nothing in a scope: operators, keywords, names of functions and properties. -/
  token : Token → Token → Prop
  /-- Names that are bound in a scope. -/
  binder : Renaming → Token → Token → Prop
  place : Surroundings → Occurrence → Occurrence → Prop

/-! ### The relation -/

section

variable (K : Likeness)

mutual

inductive ExprLike (Γ : Surroundings) : Expr → Expr → Prop where
  | literal {value : Literal} : ExprLike Γ (.literal value) (.literal value)
  | unary {operator operator' : Token} {e e' : Expr} :
      K.token operator operator' → ExprLike Γ e e' →
      ExprLike Γ (.unary operator e) (.unary operator' e')
  | binary {left left' right right' : Expr} {operator operator' : Token} :
      ExprLike Γ left left' → K.token operator operator' → ExprLike Γ right right' →
      ExprLike Γ (.binary left operator right) (.binary left' operator' right')
  | logical {left left' right right' : Expr} {operator operator' : Token} :
      ExprLike Γ left left' → K.token operator operator' → ExprLike Γ right right' →
      ExprLike Γ (.logical left operator right) (.logical left' operator' right')
  | group {inner inner' : Expr} :
      ExprLike Γ inner inner' → ExprLike Γ (.group inner) (.group inner')
  | read {place place' : Occurrence} :
      K.place Γ place place' → ExprLike Γ (.read place) (.read place')
  | assign {place place' : Occurrence} {value value' : Expr} :
      K.place Γ place place' → ExprLike Γ value value' →
      ExprLike Γ (.assign place value) (.assign place' value')
  | call {callee callee' : Expr} {paren paren' : Token} {arguments arguments' : List Expr} :
      ExprLike Γ callee callee' → K.token paren paren' → ExprEachLike Γ arguments arguments' →
      ExprLike Γ (.call callee paren arguments) (.call callee' paren' arguments')
  | get {object object' : Expr} {name name' : Token} :
      ExprLike Γ object object' → K.token name name' →
      ExprLike Γ (.get object name) (.get object' name')
  | set {object object' value value' : Expr} {name name' : Token} :
      ExprLike Γ object object' → K.token name name' → ExprLike Γ value value' →
      ExprLike Γ (.set object name value) (.set object' name' value')
  | this {place place' : Occurrence} :
      K.place Γ place place' → ExprLike Γ (.this place) (.this place')
  | super {place place' : Occurrence} {method method' : Token} :
      K.place Γ place place' → K.token method method' →
      ExprLike Γ (.super place method) (.super place' method')

inductive ExprEachLike (Γ : Surroundings) : List Expr → List Expr → Prop where
  | nil : ExprEachLike Γ [] []
  | cons {e e' : Expr} {rest rest' : List Expr} :
      ExprLike Γ e e' → ExprEachLike Γ rest rest' → ExprEachLike Γ (e :: rest) (e' :: rest')

end

abbrev ExprIn?Like (Γ : Surroundings) : Option Expr → Option Expr → Prop :=
  Option.Rel (ExprLike K Γ)

mutual

inductive StmtLike : Surroundings → Stmt → Stmt → Prop where
  | expression {Γ : Surroundings} {value value' : Expr} :
      ExprLike K Γ value value' → StmtLike Γ (.expression value) (.expression value')
  | var {Γ : Surroundings} {name name' : Token} {value value' : Option Expr} :
      K.binder (Γ 0) name name' → ExprIn?Like K Γ value value' →
      StmtLike Γ (.var name value) (.var name' value')
  | block {Γ : Surroundings} {σ : Renaming} {body body' : List Stmt} :
      K.allowed σ → StmtEachLike (Γ.enter σ) body body' →
      StmtLike Γ (.block body) (.block body')
  | conditional {Γ : Surroundings} {condition condition' : Expr}
      {thenBranch thenBranch' : Stmt} :
      ExprLike K Γ condition condition' → StmtLike Γ thenBranch thenBranch' →
      StmtLike Γ (.conditional condition thenBranch none)
        (.conditional condition' thenBranch' none)
  | alternative {Γ : Surroundings} {condition condition' : Expr}
      {thenBranch thenBranch' elseBranch elseBranch' : Stmt} :
      ExprLike K Γ condition condition' → StmtLike Γ thenBranch thenBranch' →
      StmtLike Γ elseBranch elseBranch' →
      StmtLike Γ (.conditional condition thenBranch (some elseBranch))
        (.conditional condition' thenBranch' (some elseBranch'))
  | loop {Γ : Surroundings} {condition condition' : Expr} {body body' : Stmt}
      {increment increment' : Option Expr} :
      ExprLike K Γ condition condition' → StmtLike Γ body body' →
      ExprIn?Like K Γ increment increment' →
      StmtLike Γ (.loop condition body increment) (.loop condition' body' increment')
  | function {Γ : Surroundings} {d d' : FunctionDecl} :
      Γ 0 d.name.lexeme = d.name.lexeme → FunctionLike Γ d d' →
      StmtLike Γ (.function d) (.function d')
  | returning {Γ : Surroundings} {keyword keyword' : Token} {value value' : Option Expr} :
      K.token keyword keyword' → ExprIn?Like K Γ value value' →
      StmtLike Γ (.returning keyword value) (.returning keyword' value')
  | breaking {Γ : Surroundings} {keyword keyword' : Token} :
      K.token keyword keyword' → StmtLike Γ (.breaking keyword) (.breaking keyword')
  | continuing {Γ : Surroundings} {keyword keyword' : Token} :
      K.token keyword keyword' → StmtLike Γ (.continuing keyword) (.continuing keyword')
  | class {Γ : Surroundings} {name name' : Token} {superclass superclass' : Option Occurrence}
      {methods methods' : List FunctionDecl} :
      Γ 0 name.lexeme = name.lexeme → K.token name name' →
      Option.Rel (K.place Γ) superclass superclass' →
      FunctionEachLike (Γ.enterClass superclass.isSome) methods methods' →
      StmtLike Γ (.class name superclass methods) (.class name' superclass' methods')

inductive StmtEachLike : Surroundings → List Stmt → List Stmt → Prop where
  | nil {Γ : Surroundings} : StmtEachLike Γ [] []
  | cons {Γ : Surroundings} {s s' : Stmt} {rest rest' : List Stmt} :
      StmtLike Γ s s' → StmtEachLike Γ rest rest' → StmtEachLike Γ (s :: rest) (s' :: rest')

/-- Functions that look alike; parameters and body share one scope. -/
inductive FunctionLike : Surroundings → FunctionDecl → FunctionDecl → Prop where
  | mk {Γ : Surroundings} {σ : Renaming} {name name' : Token} {parameters parameters' : List Token}
      {body body' : List Stmt} :
      K.allowed σ → K.token name name' → List.Forall₂ (K.binder σ) parameters parameters' →
      StmtEachLike (Γ.enter σ) body body' →
      FunctionLike Γ ⟨name, parameters, body⟩ ⟨name', parameters', body'⟩

inductive FunctionEachLike : Surroundings → List FunctionDecl → List FunctionDecl → Prop where
  | nil {Γ : Surroundings} : FunctionEachLike Γ [] []
  | cons {Γ : Surroundings} {d d' : FunctionDecl} {rest rest' : List FunctionDecl} :
      FunctionLike Γ d d' → FunctionEachLike Γ rest rest' →
      FunctionEachLike Γ (d :: rest) (d' :: rest')

end

end

variable {K K' : Likeness}

theorem FunctionLike.name {Γ : Surroundings} {d d' : FunctionDecl} (h : FunctionLike K Γ d d') :
    K.token d.name d'.name := by
  cases h with
  | mk _ hname _ _ => exact hname

/-! ### Weaker likenesses -/

structure Likeness.Le (K K' : Likeness) : Prop where
  allowed : ∀ σ, K.allowed σ → K'.allowed σ
  token : ∀ t t', K.token t t' → K'.token t t'
  binder : ∀ σ t t', K.binder σ t t' → K'.binder σ t t'
  place : ∀ Γ p p', K.place Γ p p' → K'.place Γ p p'

theorem Option.Rel.imp {α β : Type} {r r' : α → β → Prop} {a : Option α} {b : Option β}
    (h : Option.Rel r a b) (himp : ∀ a b, r a b → r' a b) : Option.Rel r' a b := by
  cases h with
  | some hab => exact .some (himp _ _ hab)
  | none => exact .none

mutual

theorem ExprLike.mono (hK : K.Le K') {Γ : Surroundings} {e e' : Expr} (h : ExprLike K Γ e e') :
    ExprLike K' Γ e e' := by
  cases h with
  | literal => exact .literal
  | unary hop he => exact .unary (hK.token _ _ hop) (he.mono hK)
  | binary hl hop hr => exact .binary (hl.mono hK) (hK.token _ _ hop) (hr.mono hK)
  | logical hl hop hr => exact .logical (hl.mono hK) (hK.token _ _ hop) (hr.mono hK)
  | group he => exact .group (he.mono hK)
  | read hp => exact .read (hK.place _ _ _ hp)
  | assign hp he => exact .assign (hK.place _ _ _ hp) (he.mono hK)
  | call hc ht ha => exact .call (hc.mono hK) (hK.token _ _ ht) (ha.mono hK)
  | get ho ht => exact .get (ho.mono hK) (hK.token _ _ ht)
  | set ho ht hv => exact .set (ho.mono hK) (hK.token _ _ ht) (hv.mono hK)
  | this hp => exact .this (hK.place _ _ _ hp)
  | super hp ht => exact .super (hK.place _ _ _ hp) (hK.token _ _ ht)

theorem ExprEachLike.mono (hK : K.Le K') {Γ : Surroundings} {es es' : List Expr}
    (h : ExprEachLike K Γ es es') : ExprEachLike K' Γ es es' := by
  cases h with
  | nil => exact .nil
  | cons he hrest => exact .cons (he.mono hK) (hrest.mono hK)

end

theorem ExprIn?Like.mono (hK : K.Le K') {Γ : Surroundings} {e e' : Option Expr}
    (h : ExprIn?Like K Γ e e') : ExprIn?Like K' Γ e e' :=
  Option.Rel.imp h fun _ _ he => he.mono hK

mutual

theorem StmtLike.mono (hK : K.Le K') {Γ : Surroundings} {s s' : Stmt} (h : StmtLike K Γ s s') :
    StmtLike K' Γ s s' := by
  cases h with
  | expression he => exact .expression (he.mono hK)
  | var hb he => exact .var (hK.binder _ _ _ hb) (ExprIn?Like.mono hK he)
  | block hσ hb => exact .block (hK.allowed _ hσ) (hb.mono hK)
  | conditional hc ht => exact .conditional (hc.mono hK) (ht.mono hK)
  | alternative hc ht he => exact .alternative (hc.mono hK) (ht.mono hK) (he.mono hK)
  | loop hc hb hi => exact .loop (hc.mono hK) (hb.mono hK) (ExprIn?Like.mono hK hi)
  | function hn hd => exact .function hn (hd.mono hK)
  | returning ht he => exact .returning (hK.token _ _ ht) (ExprIn?Like.mono hK he)
  | breaking ht => exact .breaking (hK.token _ _ ht)
  | continuing ht => exact .continuing (hK.token _ _ ht)
  | «class» hn ht hs hm =>
    exact .class hn (hK.token _ _ ht) (Option.Rel.imp hs (hK.place _)) (hm.mono hK)

theorem StmtEachLike.mono (hK : K.Le K') {Γ : Surroundings} {ss ss' : List Stmt}
    (h : StmtEachLike K Γ ss ss') : StmtEachLike K' Γ ss ss' := by
  cases h with
  | nil => exact .nil
  | cons hs hrest => exact .cons (hs.mono hK) (hrest.mono hK)

theorem FunctionLike.mono (hK : K.Le K') {Γ : Surroundings} {d d' : FunctionDecl}
    (h : FunctionLike K Γ d d') : FunctionLike K' Γ d d' := by
  cases h with
  | mk hσ hn hp hb =>
    exact .mk (hK.allowed _ hσ) (hK.token _ _ hn) (hp.imp (hK.binder _)) (hb.mono hK)

theorem FunctionEachLike.mono (hK : K.Le K') {Γ : Surroundings} {ds ds' : List FunctionDecl}
    (h : FunctionEachLike K Γ ds ds') : FunctionEachLike K' Γ ds ds' := by
  cases h with
  | nil => exact .nil
  | cons hd hrest => exact .cons (hd.mono hK) (hrest.mono hK)

end

end Lox
