import Lox.Proofs.Execution.Sound
import Lox.Proofs.Likeness.Derivations
import Lox.Proofs.Likeness.MadeOf
import Lox.Proofs.Likeness.Numbering
import Lox.Proofs.Likeness.Reflexive
import Lox.Proofs.Likeness.Resolution
import Lox.Proofs.Resolution.LocalScopes

/-!
# Renaming variables

Each local scope of a program can be given a renaming of the names that it declares.  The
names of its variables and parameters are then spelled anew, and so are the occurrences
whose distance leads to the scope, and no others.  If the only renaming besides the
trivial one exchanges a name for a new one, the program looks like before.
-/

namespace Lox

open Resolution

/-! ### Spelling anew -/

namespace Renaming

/-- The two names in each other's place, unless one of them is a keyword. -/
def exchange (x y : String) : Renaming :=
  if h : IsName x ∧ IsName y then
    { apply := fun name => if name = x then y else if name = y then x else name
      injective := by
        intro a b hab
        grind
      this := by rw [if_neg h.1.1.symm, if_neg h.2.1.symm]
      super := by rw [if_neg h.1.2.symm, if_neg h.2.2.symm] }
  else same

variable {x y : String}

theorem exchange_apply (hx : IsName x) (hy : IsName y) (name : String) :
    exchange x y name = if name = x then y else if name = y then x else name := by
  rw [exchange, dif_pos ⟨hx, hy⟩]

/-- A name that is not new stays or becomes the new one. -/
theorem exchange_cases {name : String} (hname : name ≠ y) :
    exchange x y name = name ∨ name = x ∧ exchange x y name = y := by
  unfold exchange
  split
  · by_cases hx : name = x
    · exact .inr ⟨hx, if_pos hx⟩
    · exact .inl ((if_neg hx).trans (if_neg hname))
  · exact .inl rfl

end Renaming

def Token.respell (σ : Renaming) (t : Token) : Token := { t with lexeme := σ t.lexeme }

/-- The occurrence with the name that it is declared with now. -/
def Occurrence.respell (distances : Distances) (Γ : Surroundings) (p : Occurrence) : Occurrence :=
  match distances[p.id]? with
  | some d => ⟨p.id, p.token.respell (Γ d)⟩
  | none => p

section

variable (distances : Distances) (Γ : Surroundings)

mutual

def Expr.respell : Expr → Expr
  | .literal value => .literal value
  | .unary operator operand => .unary operator operand.respell
  | .binary left operator right => .binary left.respell operator right.respell
  | .logical left operator right => .logical left.respell operator right.respell
  | .group inner => .group inner.respell
  | .read place => .read (place.respell distances Γ)
  | .assign place value => .assign (place.respell distances Γ) value.respell
  | .call callee paren arguments => .call callee.respell paren (Expr.respellEach arguments)
  | .get object name => .get object.respell name
  | .set object name value => .set object.respell name value.respell
  | .this place => .this (place.respell distances Γ)
  | .super place method => .super (place.respell distances Γ) method
termination_by structural e => e

def Expr.respellEach : List Expr → List Expr
  | [] => []
  | e :: rest => e.respell :: Expr.respellEach rest
termination_by structural es => es

end

def Expr.respellIn? : Option Expr → Option Expr
  | none => none
  | some e => some (e.respell distances Γ)

end

def Renaming.only (k : Nat) (σ : Renaming) : Nat → Renaming := fun i => if i = k then σ else .same

/-- The renamings of the scopes behind the first ones. -/
def Renaming.behind (ρ : Nat → Renaming) (count : Nat) : Nat → Renaming := fun i => ρ (count + i)

mutual

/-- The statement with the names that its scopes, in the order in which they begin, give anew. -/
def Stmt.respell (distances : Distances) : Stmt → (Nat → Renaming) → Surroundings → Stmt
  | .expression value, _, Γ => .expression (value.respell distances Γ)
  | .var name value, _, Γ => .var (name.respell (Γ 0)) (Expr.respellIn? distances Γ value)
  | .block body, ρ, Γ => .block (Stmt.respellEach distances body (.behind ρ 1) (Γ.enter (ρ 0)))
  | .conditional condition thenBranch none, ρ, Γ =>
    .conditional (condition.respell distances Γ) (thenBranch.respell distances ρ Γ) none
  | .conditional condition thenBranch (some elseBranch), ρ, Γ =>
    .conditional (condition.respell distances Γ) (thenBranch.respell distances ρ Γ)
      (some (elseBranch.respell distances (.behind ρ thenBranch.localScopes.length) Γ))
  | .loop condition body increment, ρ, Γ =>
    .loop (condition.respell distances Γ) (body.respell distances ρ Γ)
      (Expr.respellIn? distances Γ increment)
  | .function d, ρ, Γ => .function (d.respell distances ρ Γ)
  | .returning keyword value, _, Γ => .returning keyword (Expr.respellIn? distances Γ value)
  | .breaking keyword, _, _ => .breaking keyword
  | .continuing keyword, _, _ => .continuing keyword
  | .class name superclass methods, ρ, Γ =>
    .class name (superclass.map (Occurrence.respell distances Γ))
      (FunctionDecl.respellEach distances methods ρ (Γ.enterClass superclass.isSome))
termination_by structural s => s

def Stmt.respellEach (distances : Distances) : List Stmt → (Nat → Renaming) → Surroundings → List Stmt
  | [], _, _ => []
  | s :: rest, ρ, Γ =>
    s.respell distances ρ Γ ::
      Stmt.respellEach distances rest (.behind ρ s.localScopes.length) Γ
termination_by structural ss => ss

def FunctionDecl.respell (distances : Distances) :
    FunctionDecl → (Nat → Renaming) → Surroundings → FunctionDecl
  | ⟨name, parameters, body⟩, ρ, Γ =>
    ⟨name, parameters.map (Token.respell (ρ 0)),
      Stmt.respellEach distances body (.behind ρ 1) (Γ.enter (ρ 0))⟩
termination_by structural d => d

def FunctionDecl.respellEach (distances : Distances) :
    List FunctionDecl → (Nat → Renaming) → Surroundings → List FunctionDecl
  | [], _, _ => []
  | d :: rest, ρ, Γ =>
    d.respell distances ρ Γ ::
      FunctionDecl.respellEach distances rest (.behind ρ d.localScopes.length) Γ
termination_by structural ds => ds

end

/-! ### Surroundings and scopes -/

/-- Only this renaming is used, besides the trivial one. -/
def Surroundings.Of (σ : Renaming) (Γ : Surroundings) : Prop := ∀ d, Γ d = .same ∨ Γ d = σ

namespace Surroundings

variable {σ τ : Renaming} {Γ : Surroundings}

theorem of_top (σ : Renaming) : top.Of σ := fun _ => .inl rfl

theorem Of.enter (h : Γ.Of σ) (hτ : τ = .same ∨ τ = σ) : (Γ.enter τ).Of σ
  | 0 => hτ
  | d + 1 => h d

theorem Of.enterClass (h : Γ.Of σ) (derived : Bool) : (Γ.enterClass derived).Of σ := by
  cases derived with
  | false => exact h.enter (.inl rfl)
  | true => exact (h.enter (.inl rfl)).enter (.inl rfl)

end Surroundings

/-- The renaming leaves the names of the functions and classes of a scope, as far as `Q` holds of them. -/
def LocalScope.Kept (Q : Token → Prop) (τ : Renaming) (scope : LocalScope) : Prop :=
  ∀ d ∈ scope, d.isVariable = false → Q d.name → τ d.name.lexeme = d.name.lexeme

theorem LocalScope.kept_append {Q : Token → Prop} {τ : Renaming} {first second : LocalScope} :
    LocalScope.Kept Q τ (first ++ second) ↔
      LocalScope.Kept Q τ first ∧ LocalScope.Kept Q τ second :=
  List.forall_mem_append

/-- Scopes can be given these renamings of their variables. -/
structure Suits (σ : Renaming) (Q : Token → Prop) (ρ : Nat → Renaming) (scopes : List LocalScope) :
    Prop where
  allowed : ∀ i, ρ i = .same ∨ ρ i = σ
  kept : ∀ i scope, scopes[i]? = some scope → LocalScope.Kept Q (ρ i) scope

namespace Suits

variable {σ : Renaming} {Q : Token → Prop} {ρ : Nat → Renaming} {scope : LocalScope}
  {scopes first second : List LocalScope}

theorem head (h : Suits σ Q ρ (scope :: scopes)) : LocalScope.Kept Q (ρ 0) scope := h.kept 0 scope rfl

theorem tail (h : Suits σ Q ρ (scope :: scopes)) : Suits σ Q (.behind ρ 1) scopes := by
  refine ⟨fun i => h.allowed _, ?_⟩
  intro i found hfound
  apply h.kept (1 + i) found
  rw [Nat.add_comm]
  exact hfound

theorem left (h : Suits σ Q ρ (first ++ second)) : Suits σ Q ρ first := by
  refine ⟨h.allowed, ?_⟩
  intro i found hfound
  exact h.kept i found (List.getElem?_append_left (List.getElem?_eq_some_iff.mp hfound).1 ▸ hfound)

theorem right (h : Suits σ Q ρ (first ++ second)) : Suits σ Q (.behind ρ first.length) second := by
  refine ⟨fun i => h.allowed _, ?_⟩
  intro i found hfound
  apply h.kept (first.length + i) found
  rw [List.getElem?_append_right (Nat.le_add_right _ _), Nat.add_sub_cancel_left]
  exact hfound

end Suits

/-! ### The likeness -/

/-- Trees of which one has its variables spelled anew, with this renaming in some of the scopes. -/
def Likeness.respelled (σ : Renaming) (distances : Distances) : Likeness where
  allowed τ := τ = .same ∨ τ = σ
  token t t' := t' = t
  binder τ t t' := (τ = .same ∨ τ = σ) ∧ t' = t.respell τ
  place Γ p p' := Γ.Of σ ∧ p' = p.respell distances Γ

section

variable {σ : Renaming} {distances : Distances} {Q : Token → Prop} {known : NodeId → Prop}
  {Γ₀ Γ : Surroundings} {ρ : Nat → Renaming}

open Occurrence

theorem Occurrence.like_respell (p : Occurrence) (h : (Likeness.madeOf Q).place Γ₀ p p)
    (hΓ : Γ.Of σ) (hknown : known p.id) :
    ((Likeness.respelled σ distances).restrict Q known).place Γ p (p.respell distances Γ) :=
  ⟨⟨hΓ, rfl⟩, h.2.1, h.2.2.1, hknown⟩

theorem Token.like_respell (t : Token) {τ τ₀ : Renaming} (h : (Likeness.madeOf Q).binder τ₀ t t)
    (hτ : τ = .same ∨ τ = σ) :
    ((Likeness.respelled σ distances).restrict Q known).binder τ t (t.respell τ) :=
  ⟨⟨hτ, rfl⟩, h.2⟩

mutual

theorem Expr.like_respell (hΓ : Γ.Of σ) : (e : Expr) → ExprLike (.madeOf Q) Γ₀ e e →
    AllOf (fun p => known p.id) e.occurrences →
    ExprLike ((Likeness.respelled σ distances).restrict Q known) Γ e (e.respell distances Γ)
  | .literal _, _, _ => .literal
  | .unary _ operand, h, hknown => by
    cases h with
    | unary hoperator hoperand => exact .unary hoperator (operand.like_respell hΓ hoperand hknown)
  | .binary left _ right, h, hknown => by
    obtain ⟨hknown₁, hknown₂⟩ := allOf_append.mp hknown
    cases h with
    | binary hleft hoperator hright =>
      exact .binary (left.like_respell hΓ hleft hknown₁) hoperator
        (right.like_respell hΓ hright hknown₂)
  | .logical left _ right, h, hknown => by
    obtain ⟨hknown₁, hknown₂⟩ := allOf_append.mp hknown
    cases h with
    | logical hleft hoperator hright =>
      exact .logical (left.like_respell hΓ hleft hknown₁) hoperator
        (right.like_respell hΓ hright hknown₂)
  | .group inner, h, hknown => by
    cases h with
    | group hinner => exact .group (inner.like_respell hΓ hinner hknown)
  -- The places of variables are respelled by the scope that they are resolved in.
  | .read place, h, hknown => by
    cases h with
    | read hplace => exact .read (place.like_respell hplace hΓ (allOf_cons.mp hknown).1)
  | .assign place value, h, hknown => by
    obtain ⟨hid, hknown⟩ := allOf_cons.mp hknown
    cases h with
    | assign hplace hvalue =>
      exact .assign (place.like_respell hplace hΓ hid) (value.like_respell hΓ hvalue hknown)
  | .call callee _ arguments, h, hknown => by
    obtain ⟨hknown₁, hknown₂⟩ := allOf_append.mp hknown
    cases h with
    | call hcallee hparen harguments =>
      exact .call (callee.like_respell hΓ hcallee hknown₁) hparen
        (Expr.like_respellEach hΓ arguments harguments hknown₂)
  | .get object _, h, hknown => by
    cases h with
    | get hobject hname => exact .get (object.like_respell hΓ hobject hknown) hname
  | .set object _ value, h, hknown => by
    obtain ⟨hknown₁, hknown₂⟩ := allOf_append.mp hknown
    cases h with
    | set hobject hname hvalue =>
      exact .set (object.like_respell hΓ hobject hknown₁) hname
        (value.like_respell hΓ hvalue hknown₂)
  -- `this` and `super` are keywords, which no renaming touches.
  | .this place, h, hknown => by
    cases h with
    | this hplace => exact .this (place.like_respell hplace hΓ (allOf_cons.mp hknown).1)
  | .super place _, h, hknown => by
    cases h with
    | super hplace hmethod =>
      exact .super (place.like_respell hplace hΓ (allOf_cons.mp hknown).1) hmethod
termination_by structural e => e

theorem Expr.like_respellEach (hΓ : Γ.Of σ) : (es : List Expr) →
    ExprEachLike (.madeOf Q) Γ₀ es es → AllOf (fun p => known p.id) (Expr.occurrencesEach es) →
    ExprEachLike ((Likeness.respelled σ distances).restrict Q known) Γ es
      (Expr.respellEach distances Γ es)
  | [], _, _ => .nil
  | e :: rest, h, hknown => by
    obtain ⟨hknown₁, hknown₂⟩ := allOf_append.mp hknown
    cases h with
    | cons he hrest =>
      exact .cons (e.like_respell hΓ he hknown₁) (Expr.like_respellEach hΓ rest hrest hknown₂)
termination_by structural es => es

end

theorem Expr.like_respellIn? (hΓ : Γ.Of σ) {e : Option Expr} (h : ExprIn?Like (.madeOf Q) Γ₀ e e)
    (hknown : AllOf (fun p => known p.id) (Expr.occurrencesIn? e)) :
    ExprIn?Like ((Likeness.respelled σ distances).restrict Q known) Γ e
      (Expr.respellIn? distances Γ e) := by
  cases e with
  | none => exact .none
  | some e =>
    cases h with
    | some he => exact .some (e.like_respell hΓ he hknown)

theorem List.like_respell {parameters : List Token} {τ τ₀ : Renaming} (hτ : τ = .same ∨ τ = σ)
    (h : List.Forall₂ ((Likeness.madeOf Q).binder τ₀) parameters parameters) :
    List.Forall₂ (((Likeness.respelled σ distances).restrict Q known).binder τ) parameters
      (parameters.map (Token.respell τ)) := by
  induction parameters with
  | nil => exact .nil
  | cons t parameters ih =>
    cases h with
    | cons ht hrest => exact .cons (t.like_respell ht hτ) (ih hrest)

mutual

theorem Stmt.like_respell : (s : Stmt) → {Γ₀ Γ : Surroundings} → {ρ : Nat → Renaming} →
    StmtLike (.madeOf Q) Γ₀ s s → Γ.Of σ → Suits σ Q ρ s.localScopes →
    LocalScope.Kept Q (Γ 0) s.declarations → AllOf (fun p => known p.id) s.occurrences →
    StmtLike ((Likeness.respelled σ distances).restrict Q known) Γ s (s.respell distances ρ Γ)
  | .expression value, _, _, _, h, hΓ, _, _, hknown => by
    cases h with
    | expression hvalue => exact .expression (value.like_respell hΓ hvalue hknown)
  | .var name _, _, Γ, _, h, hΓ, _, _, hknown => by
    cases h with
    | var hname hvalue =>
      exact .var (name.like_respell hname (hΓ 0)) (Expr.like_respellIn? hΓ hvalue hknown)
  -- The block begins with the renaming of its own scope.
  | .block body, _, _, _, h, hΓ, hρ, _, hknown => by
    cases h with
    | block _ hbody =>
      have hσ := hρ.allowed 0
      exact .block hσ
        (Stmt.like_respellEach body hbody (hΓ.enter hσ) hρ.tail hρ.head hknown)
  | .conditional condition thenBranch none, _, _, _, h, hΓ, hρ, hkept, hknown => by
    obtain ⟨hknown₁, hknown₂⟩ := allOf_append.mp hknown
    cases h with
    | conditional hcondition hthen =>
      exact .conditional (condition.like_respell hΓ hcondition hknown₁)
        (thenBranch.like_respell hthen hΓ hρ hkept hknown₂)
  | .conditional condition thenBranch (some elseBranch), _, _, _, h, hΓ, hρ, hkept, hknown => by
    obtain ⟨hbefore, hknown₃⟩ := allOf_append.mp hknown
    -- The scopes of the first branch come before those of the second one.
    obtain ⟨hknown₁, hknown₂⟩ := allOf_append.mp hbefore
    obtain ⟨hkept₁, hkept₂⟩ := LocalScope.kept_append.mp hkept
    cases h with
    | alternative hcondition hthen helse =>
      exact .alternative (condition.like_respell hΓ hcondition hknown₁)
        (thenBranch.like_respell hthen hΓ hρ.left hkept₁ hknown₂)
        (elseBranch.like_respell helse hΓ hρ.right hkept₂ hknown₃)
  | .loop condition body increment, _, _, _, h, hΓ, hρ, hkept, hknown => by
    obtain ⟨hbefore, hknown₃⟩ := allOf_append.mp hknown
    obtain ⟨hknown₁, hknown₂⟩ := allOf_append.mp hbefore
    cases h with
    | loop hcondition hbody hincrement =>
      exact .loop (condition.like_respell hΓ hcondition hknown₁)
        (body.like_respell hbody hΓ hρ hkept hknown₂)
        (Expr.like_respellIn? hΓ hincrement hknown₃)
  | .function d, _, _, _, h, hΓ, hρ, hkept, hknown => by
    cases h with
    | function _ hd =>
      -- The name of a function is kept, since only variables are renamed.
      have hname := hkept ⟨false, d.name⟩ List.mem_cons_self rfl hd.name.2
      exact .function hname (d.like_respell hd hΓ hρ hknown)
  | .returning _ _, _, _, _, h, hΓ, _, _, hknown => by
    cases h with
    | returning hkeyword hvalue => exact .returning hkeyword (Expr.like_respellIn? hΓ hvalue hknown)
  -- Keywords stay what they are.
  | .breaking _, _, _, _, h, _, _, _, _ => by
    cases h with
    | breaking hkeyword => exact .breaking hkeyword
  | .continuing _, _, _, _, h, _, _, _, _ => by
    cases h with
    | continuing hkeyword => exact .continuing hkeyword
  | .class name none methods, _, _, _, h, hΓ, hρ, hkept, hknown => by
    cases h with
    | «class» _ hname _ hmethods =>
      -- The name of a class is kept as well; its methods' scopes have no renaming of their own.
      have hsame := hkept ⟨false, name⟩ List.mem_cons_self rfl hname.2
      exact .class hsame hname .none
        (FunctionDecl.like_respellEach methods hmethods (hΓ.enterClass false) hρ hknown)
  | .class name (some superclass) methods, _, _, _, h, hΓ, hρ, hkept, hknown => by
    obtain ⟨hid, hknown⟩ := allOf_cons.mp hknown
    cases h with
    | «class» _ hname hplace hmethods =>
      cases hplace with
      -- The superclass is spelled as it is declared.
      | some hplace =>
        have hsame := hkept ⟨false, name⟩ List.mem_cons_self rfl hname.2
        exact .class hsame hname (.some (superclass.like_respell hplace hΓ hid))
          (FunctionDecl.like_respellEach methods hmethods (hΓ.enterClass true) hρ hknown)
termination_by structural s => s

theorem Stmt.like_respellEach : (ss : List Stmt) → {Γ₀ Γ : Surroundings} → {ρ : Nat → Renaming} →
    StmtEachLike (.madeOf Q) Γ₀ ss ss → Γ.Of σ → Suits σ Q ρ (Stmt.localScopesEach ss) →
    LocalScope.Kept Q (Γ 0) (Stmt.declarationsEach ss) →
    AllOf (fun p => known p.id) (Stmt.occurrencesEach ss) →
    StmtEachLike ((Likeness.respelled σ distances).restrict Q known) Γ ss
      (Stmt.respellEach distances ss ρ Γ)
  | [], _, _, _, _, _, _, _, _ => .nil
  | s :: rest, _, _, _, h, hΓ, hρ, hkept, hknown => by
    obtain ⟨hknown₁, hknown₂⟩ := allOf_append.mp hknown
    obtain ⟨hkept₁, hkept₂⟩ := LocalScope.kept_append.mp hkept
    cases h with
    | cons hs hrest =>
      exact .cons (s.like_respell hs hΓ hρ.left hkept₁ hknown₁)
        (Stmt.like_respellEach rest hrest hΓ hρ.right hkept₂ hknown₂)
termination_by structural ss => ss

theorem FunctionDecl.like_respell : (d : FunctionDecl) → {Γ₀ Γ : Surroundings} →
    {ρ : Nat → Renaming} → FunctionLike (.madeOf Q) Γ₀ d d → Γ.Of σ → Suits σ Q ρ d.localScopes →
    AllOf (fun p => known p.id) d.occurrences →
    FunctionLike ((Likeness.respelled σ distances).restrict Q known) Γ d (d.respell distances ρ Γ)
  | ⟨_, parameters, body⟩, _, _, _, h, hΓ, hρ, hknown => by
    cases h with
    | mk _ hname hparameters hbody =>
      have hσ := hρ.allowed 0
      have hkept := (LocalScope.kept_append.mp hρ.head).2
      exact .mk hσ hname (List.like_respell hσ hparameters)
        (Stmt.like_respellEach body hbody (hΓ.enter hσ) hρ.tail hkept hknown)
termination_by structural d => d

theorem FunctionDecl.like_respellEach : (ds : List FunctionDecl) → {Γ₀ Γ : Surroundings} →
    {ρ : Nat → Renaming} → FunctionEachLike (.madeOf Q) Γ₀ ds ds → Γ.Of σ →
    Suits σ Q ρ (FunctionDecl.localScopesEach ds) →
    AllOf (fun p => known p.id) (FunctionDecl.occurrencesEach ds) →
    FunctionEachLike ((Likeness.respelled σ distances).restrict Q known) Γ ds
      (FunctionDecl.respellEach distances ds ρ Γ)
  | [], _, _, _, _, _, _, _ => .nil
  | d :: rest, _, _, _, h, hΓ, hρ, hknown => by
    obtain ⟨hknown₁, hknown₂⟩ := allOf_append.mp hknown
    cases h with
    | cons hd hrest =>
      exact .cons (d.like_respell hd hΓ hρ.left hknown₁)
        (FunctionDecl.like_respellEach rest hrest hΓ hρ.right hknown₂)
termination_by structural ds => ds

end

end

/-! ### Scopes spelled anew -/

/-- The declaration spelled anew, if it is one of a variable. -/
def Declaration.respell (σ : Renaming) (d : Declaration) : Declaration :=
  if d.isVariable then ⟨true, d.name.respell σ⟩ else d

def LocalScope.respellEach (ρ : Nat → Renaming) (scopes : List LocalScope) : List LocalScope :=
  scopes.mapIdx fun i scope => scope.map (Declaration.respell (ρ i))

theorem LocalScope.respellEach_cons (ρ : Nat → Renaming) (scope : LocalScope)
    (scopes : List LocalScope) :
    respellEach ρ (scope :: scopes) =
      scope.map (Declaration.respell (ρ 0)) :: respellEach (.behind ρ 1) scopes := by
  rw [respellEach, List.mapIdx_cons, respellEach]
  simp only [Renaming.behind, Nat.add_comm]

theorem LocalScope.respellEach_append (ρ : Nat → Renaming) (first second : List LocalScope) :
    respellEach ρ (first ++ second) =
      respellEach ρ first ++ respellEach (.behind ρ first.length) second := by
  rw [respellEach, List.mapIdx_append, respellEach, respellEach]
  simp only [Renaming.behind, Nat.add_comm]

section

variable (distances : Distances)

theorem Stmt.declarations_respell : (s : Stmt) → (ρ : Nat → Renaming) → (Γ : Surroundings) →
    (s.respell distances ρ Γ).declarations = s.declarations.map (Declaration.respell (Γ 0))
  | .conditional _ thenBranch none, ρ, Γ => thenBranch.declarations_respell ρ Γ
  | .conditional _ thenBranch (some elseBranch), ρ, Γ => by
    rw [declarations, List.map_append, ← thenBranch.declarations_respell ρ Γ,
      ← elseBranch.declarations_respell (.behind ρ thenBranch.localScopes.length) Γ]
    rfl
  | .loop _ body _, ρ, Γ => body.declarations_respell ρ Γ
  | .var _ _, _, _ | .function ⟨_, _, _⟩, _, _ | .class _ _ _, _, _ | .expression _, _, _
  | .block _, _, _ | .returning _ _, _, _ | .breaking _, _, _ | .continuing _, _, _ => rfl
termination_by structural s => s

theorem Stmt.declarationsEach_respell (ss : List Stmt) (ρ : Nat → Renaming) (Γ : Surroundings) :
    Stmt.declarationsEach (Stmt.respellEach distances ss ρ Γ) =
      (Stmt.declarationsEach ss).map (Declaration.respell (Γ 0)) := by
  induction ss generalizing ρ with
  | nil => rfl
  | cons s ss ih =>
    rw [declarationsEach, List.map_append, ← s.declarations_respell distances ρ Γ,
      ← ih (.behind ρ s.localScopes.length)]
    rfl

mutual

theorem Stmt.localScopes_respell : (s : Stmt) → (ρ : Nat → Renaming) → (Γ : Surroundings) →
    (s.respell distances ρ Γ).localScopes = LocalScope.respellEach ρ s.localScopes
  | .block body, ρ, Γ => by
    rw [Stmt.localScopes, LocalScope.respellEach_cons, ← Stmt.localScopesEach_respell body _ (Γ.enter (ρ 0)),
      ← Γ.enter_zero (ρ 0), ← Stmt.declarationsEach_respell distances body (.behind ρ 1)]
    rfl
  | .conditional _ thenBranch none, ρ, Γ => thenBranch.localScopes_respell ρ Γ
  | .conditional _ thenBranch (some elseBranch), ρ, Γ => by
    rw [Stmt.localScopes, LocalScope.respellEach_append, ← thenBranch.localScopes_respell ρ Γ,
      ← elseBranch.localScopes_respell _ Γ]
    rfl
  | .loop _ body _, ρ, Γ => body.localScopes_respell ρ Γ
  | .function d, ρ, Γ => d.localScopes_respell ρ Γ
  | .class _ superclass methods, ρ, Γ =>
    FunctionDecl.localScopesEach_respell methods ρ (Γ.enterClass superclass.isSome)
  | .expression _, _, _ | .var _ _, _, _ | .returning _ _, _, _ | .breaking _, _, _
  | .continuing _, _, _ => rfl
termination_by structural s => s

theorem Stmt.localScopesEach_respell : (ss : List Stmt) → (ρ : Nat → Renaming) →
    (Γ : Surroundings) → Stmt.localScopesEach (Stmt.respellEach distances ss ρ Γ) =
      LocalScope.respellEach ρ (Stmt.localScopesEach ss)
  | [], _, _ => rfl
  | s :: rest, ρ, Γ => by
    rw [Stmt.localScopesEach, LocalScope.respellEach_append, ← s.localScopes_respell ρ Γ,
      ← Stmt.localScopesEach_respell rest _ Γ]
    rfl
termination_by structural ss => ss

theorem FunctionDecl.localScopes_respell : (d : FunctionDecl) → (ρ : Nat → Renaming) →
    (Γ : Surroundings) →
    (d.respell distances ρ Γ).localScopes = LocalScope.respellEach ρ d.localScopes
  | ⟨_, parameters, body⟩, ρ, Γ => by
    have hparameters : (parameters.map (Token.respell (ρ 0))).map (Declaration.mk true) =
        (parameters.map (Declaration.mk true)).map (Declaration.respell (ρ 0)) := by
      rw [List.map_map, List.map_map]
      rfl
    rw [FunctionDecl.localScopes, LocalScope.respellEach_cons, List.map_append, ← hparameters,
      ← Stmt.localScopesEach_respell body _ (Γ.enter (ρ 0)), ← Γ.enter_zero (ρ 0),
      ← Stmt.declarationsEach_respell distances body (.behind ρ 1)]
    rfl
termination_by structural d => d

theorem FunctionDecl.localScopesEach_respell : (ds : List FunctionDecl) → (ρ : Nat → Renaming) →
    (Γ : Surroundings) → FunctionDecl.localScopesEach (FunctionDecl.respellEach distances ds ρ Γ) =
      LocalScope.respellEach ρ (FunctionDecl.localScopesEach ds)
  | [], _, _ => rfl
  | d :: rest, ρ, Γ => by
    rw [FunctionDecl.localScopesEach, LocalScope.respellEach_append, ← d.localScopes_respell ρ Γ,
      ← FunctionDecl.localScopesEach_respell rest _ Γ]
    rfl
termination_by structural ds => ds

end

end

/-- If only one scope has a renaming, the others stay as they are. -/
theorem LocalScope.respellEach_only (k : Nat) (σ : Renaming) (scopes : List LocalScope) :
    respellEach (.only k σ) scopes = scopes.modify k (List.map (Declaration.respell σ)) := by
  have hsame : ∀ scope : LocalScope, scope.map (Declaration.respell .same) = scope := by
    intro scope
    have hid : Declaration.respell .same = id := by
      funext d
      obtain ⟨_ | _, name⟩ := d <;> rfl
    rw [hid, List.map_id]
  apply List.ext_getElem?
  intro i
  rw [respellEach, List.getElem?_mapIdx, List.getElem?_modify]
  cases scopes[i]? with
  | none => rfl
  | some scope =>
    by_cases hi : k = i
    · simp [Renaming.only, hi]
    · have hne : i ≠ k := fun heq => hi heq.symm
      simp [Renaming.only, hi, hne, hsame]

end Lox
