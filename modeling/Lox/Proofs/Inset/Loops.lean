import Lox.Proofs.Inset.Resolution

/-!
# Loops and their long forms

A tree in which loops are replaced by their long form is at an inset of the old one.  What
is declared directly in the body of a loop must not be a name of its increment, and neither
may what the blocks around one of its `continue` statements declare.
-/

namespace Lox

variable {increment : Option Expr}

/-- Apart from identities, code corresponds to itself at every inset. -/
theorem Expr.spelled_self (σ : Inset) (e : Expr) : ExprInset Spelled σ e e :=
  e.inset_self Spelled.reflexive trivial fun _ _ => trivial

theorem Expr.spelledIn?_self (σ : Inset) (e : Option Expr) : ExprIn?Inset Spelled σ e e :=
  Expr.insetIn?_self Spelled.reflexive trivial e fun _ _ => trivial

theorem Stmt.spelled_self {σ : Inset} {s : Stmt} (hshaped : s.Shaped)
    (hplain : s.declared? = none ∨ σ 0 = 0) (k : Nat) : StmtInset Spelled σ k none s s :=
  s.inset_self Spelled.reflexive trivial k hshaped hplain fun _ _ => trivial

/-! ### The body of a loop -/

mutual

/-- A body, and the body that does the increment in front of each `continue`. -/
theorem Stmt.inset_stepping {σ : Inset} {k : Nat} : (s : Stmt) → s.Shaped →
    (s.declared? = none ∨ σ 0 = 0 ∧ s.declarations.SparedBy increment) → s.Spares increment →
      StmtInset Spelled σ k increment s (s.stepping increment)
  | .block body, hshaped, _, hspares => by
    obtain ⟨hhere, hinside⟩ := List.forall_mem_cons.mp hspares
    exact .block (Stmt.inset_steppingEach body hshaped rfl hhere hinside)
  | .conditional condition thenBranch none, hshaped, _, hspares =>
    .conditional (condition.spelled_self σ)
      (thenBranch.inset_stepping hshaped.2 (.inl hshaped.1) hspares)
  | .conditional condition thenBranch (some elseBranch), hshaped, _, hspares => by
    obtain ⟨hthen, helse⟩ := List.forall_mem_append.mp hspares
    exact .alternative (condition.spelled_self σ)
      (thenBranch.inset_stepping hshaped.1.2 (.inl hshaped.1.1) hthen)
      (elseBranch.inset_stepping hshaped.2.2 (.inl hshaped.2.1) helse)
  -- A `continue` of the loop itself runs the increment first.
  | .continuing _, _, _, _ => .stepping (Expr.spelledIn?_self _ increment)
  -- One within an inner loop belongs to that loop.
  | .loop condition body step, hshaped, _, _ =>
    .loop (condition.spelled_self σ) (Stmt.spelled_self hshaped.2 (.inl hshaped.1) 0)
      (Expr.spelledIn?_self σ step)
  -- A name declared beside the increment is none that the increment mentions.
  | .var name value, _, hplaced, _ => by
    obtain ⟨hzero, hfree⟩ := hplaced.resolve_left (Option.some_ne_none _)
    exact .var hzero (hfree _ List.mem_cons_self) (Expr.spelledIn?_self σ value)
  | .function d, hshaped, hplaced, _ => by
    obtain ⟨hzero, hfree⟩ := hplaced.resolve_left (Option.some_ne_none _)
    exact .function hzero (hfree _ List.mem_cons_self)
      (d.inset_self Spelled.reflexive trivial hshaped.2 fun _ _ => trivial)
  | .class name superclass methods, hshaped, hplaced, _ => by
    obtain ⟨hzero, hfree⟩ := hplaced.resolve_left (Option.some_ne_none _)
    refine .class hzero (hfree _ List.mem_cons_self) ?_
      (FunctionDecl.insetEach_self Spelled.reflexive trivial methods hshaped.2 fun _ _ => trivial)
    cases superclass with
    | none => exact .none
    | some place => exact .some rfl
  | .expression value, _, _, _ => .expression (value.spelled_self σ)
  | .returning _ value, _, _, _ => .returning (Expr.spelledIn?_self σ value)
  | .breaking _, _, _, _ => .breaking
termination_by structural s => s

theorem Stmt.inset_steppingEach {σ : Inset} {k : Nat} : (ss : List Stmt) → Stmt.ShapedEach ss →
    σ 0 = 0 → (Stmt.declarationsEach ss).SparedBy increment →
    (∀ scope ∈ Stmt.localScopesEach ss, scope.SparedBy increment) →
      StmtEachInset Spelled σ k increment ss (Stmt.steppingEach increment ss)
  | [], _, _, _, _ => .nil
  | s :: rest, hshaped, hzero, hdeclared, hinside => by
    obtain ⟨hhere, hrest⟩ := List.forall_mem_append.mp hdeclared
    obtain ⟨hspares, hbehind⟩ := List.forall_mem_append.mp hinside
    exact .cons (s.inset_stepping hshaped.1 (.inr ⟨hzero, hhere⟩) hspares)
      (Stmt.inset_steppingEach rest hshaped.2 hzero hrest hbehind)
termination_by structural ss => ss

end

/-! ### Replaced loops -/

/-- The loop of a long form does the increment at the end of its body. -/
theorem Stmt.inset_loop {condition : Expr} {body : Stmt}
    (hshaped : (Stmt.loop condition body increment).Shaped) (hspares : body.Spares increment)
    (σ : Inset) :
    LoopInset Spelled σ (.loop condition body increment)
      (.loop condition (.block (body.stepping increment :: Stmt.steps increment)) none) :=
  .mk (condition.spelled_self σ) (body.inset_stepping hshaped.2 (.inl hshaped.1) hspares)
    (Expr.spelledIn?_self _ increment)

/-- The long form stands at the inset of the loop. -/
theorem Grammar.Unrolls.inset {s s' : Stmt} (h : Unrolls s s') (hshaped : s.Shaped) (σ : Inset)
    (k : Nat) : StmtInset Spelled σ k none s s' := by
  cases h with
  | @mk initializer condition increment body hspares =>
    cases initializer with
    | none => exact .boxed (Stmt.inset_loop hshaped hspares _)
    | some first =>
      obtain ⟨hfirst, hloop, -⟩ := hshaped
      exact .block (.cons (Stmt.spelled_self hfirst (.inr rfl) _)
        (.cons (.unrolled (Stmt.inset_loop hloop hspares _)) .nil))

mutual

/-- A statement in which loops are replaced stands at the inset of the old one. -/
theorem StmtReplaced.inset : {s s' : Stmt} → StmtReplaced Grammar.Unrolls s s' → s.Shaped →
    {σ : Inset} → (s.declared? = none ∨ σ 0 = 0) → (k : Nat) → StmtInset Spelled σ k none s s'
  | _, _, .same, hshaped, _, hplain, k => Stmt.spelled_self hshaped hplain k
  | _, _, .here hloop, hshaped, σ, _, k => hloop.inset hshaped σ k
  | _, _, .block hbody, hshaped, _, _, _ => .block (hbody.inset hshaped rfl _)
  | _, _, @StmtReplaced.conditional _ condition _ _ hthen, hshaped, σ, _, k =>
    .conditional (condition.spelled_self σ) (hthen.inset hshaped.2 (.inl hshaped.1) k)
  | _, _, @StmtReplaced.alternative _ condition _ _ _ _ hthen helse, hshaped, σ, _, k =>
    .alternative (condition.spelled_self σ) (hthen.inset hshaped.1.2 (.inl hshaped.1.1) k)
      (helse.inset hshaped.2.2 (.inl hshaped.2.1) k)
  | _, _, @StmtReplaced.loop _ condition _ _ increment hbody, hshaped, σ, _, _ =>
    .loop (condition.spelled_self σ) (hbody.inset hshaped.2 (.inl hshaped.1) 0)
      (Expr.spelledIn?_self σ increment)
  | _, _, .function hd, hshaped, _, hplain, _ =>
    .function (hplain.resolve_left (Option.some_ne_none _)) (.none _) (hd.inset hshaped.2)
  | _, _, @StmtReplaced.class _ _ none _ _ hmethods, hshaped, _, hplain, _ =>
    .class (hplain.resolve_left (Option.some_ne_none _)) (.none _) .none
      (hmethods.inset hshaped.2)
  | _, _, @StmtReplaced.class _ _ (some _) _ _ hmethods, hshaped, _, hplain, _ =>
    .class (hplain.resolve_left (Option.some_ne_none _)) (.none _) (.some rfl)
      (hmethods.inset hshaped.2)

theorem StmtEachReplaced.inset : {ss ss' : List Stmt} →
    StmtEachReplaced Grammar.Unrolls ss ss' → Stmt.ShapedEach ss → {σ : Inset} → σ 0 = 0 →
    (k : Nat) → StmtEachInset Spelled σ k none ss ss'
  | _, _, .nil, _, _, _, _ => .nil
  | _, _, .cons hs hrest, hshaped, _, hzero, k =>
    .cons (hs.inset hshaped.1 (.inr hzero) k) (hrest.inset hshaped.2 hzero k)

theorem FunctionReplaced.inset : {d d' : FunctionDecl} →
    FunctionReplaced Grammar.Unrolls d d' → d.Shaped → {σ : Inset} → FunctionInset Spelled σ d d'
  | _, _, .mk hbody, hshaped, _ => .mk (hbody.inset hshaped.2 rfl 0)

theorem FunctionEachReplaced.inset : {ds ds' : List FunctionDecl} →
    FunctionEachReplaced Grammar.Unrolls ds ds' → FunctionDecl.ShapedEach ds → {σ : Inset} →
    FunctionEachInset Spelled σ ds ds'
  | _, _, .nil, _, _ => .nil
  | _, _, .cons hd hrest, hshaped, _ => .cons (hd.inset hshaped.1) (hrest.inset hshaped.2)

end

end Lox
