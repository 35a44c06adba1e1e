import Lox.Proofs.Likeness.Code
import Lox.Proofs.Numbering

/-!
# Numbered trees that look alike

Trees that look alike use up equally many identities, so they still look alike when both
are numbered.  Their occurrences are then numbered in step: between the identities of two
that correspond there is always the same distance.
-/

namespace Lox

/-- The same tokens correspond, at identities that are as far apart as `n` and `m`. -/
def Likeness.renumbered (K : Likeness) (n m : Nat) : Likeness where
  allowed := K.allowed
  token := K.token
  binder := K.binder
  place Γ p p' :=
    (∃ q q', K.place Γ q q' ∧ q.token = p.token ∧ q'.token = p'.token) ∧ p.id + m = p'.id + n

variable {K : Likeness} {n m a b : Nat}

theorem Likeness.renumbered_place {Γ : Surroundings} {p p' : Occurrence} (h : K.place Γ p p')
    (hab : a + m = b + n) : (K.renumbered n m).place Γ ⟨a, p.token⟩ ⟨b, p'.token⟩ :=
  ⟨⟨p, p', h, rfl, rfl⟩, hab⟩

/-! ### Expressions -/

mutual

theorem ExprLike.drawn_eq {Γ : Surroundings} {e e' : Expr} (h : ExprLike K Γ e e') :
    e'.drawn = e.drawn := by
  cases h with
  | literal | read _ | this _ | super _ _ => rfl
  | unary _ he | group he | get he _ => exact he.drawn_eq
  | binary hleft _ hright | logical hleft _ hright =>
    rw [Expr.drawn, Expr.drawn, hleft.drawn_eq, hright.drawn_eq]
  | assign _ hvalue => rw [Expr.drawn, Expr.drawn, hvalue.drawn_eq]
  | call hcallee _ harguments =>
    rw [Expr.drawn, Expr.drawn, hcallee.drawn_eq, harguments.drawn_eq]
  | set hobject _ hvalue => rw [Expr.drawn, Expr.drawn, hobject.drawn_eq, hvalue.drawn_eq]

theorem ExprEachLike.drawn_eq {Γ : Surroundings} {es es' : List Expr}
    (h : ExprEachLike K Γ es es') : Expr.drawnEach es' = Expr.drawnEach es := by
  cases h with
  | nil => rfl
  | cons he hrest => rw [Expr.drawnEach, Expr.drawnEach, he.drawn_eq, hrest.drawn_eq]

end

theorem ExprIn?Like.drawn_eq {Γ : Surroundings} {e e' : Option Expr} (h : ExprIn?Like K Γ e e') :
    Expr.drawnIn? e' = Expr.drawnIn? e := by
  cases h with
  | none => rfl
  | some he => exact he.drawn_eq

/-- Numbers that are in step stay so behind expressions that look alike. -/
theorem step_of_drawn {k k' : Nat} (hab : a + m = b + n) (hk : k' = k) :
    (a + k) + m = (b + k') + n := by
  omega

mutual

theorem ExprLike.numbered {a b : Nat} {Γ : Surroundings} {e e' : Expr} (h : ExprLike K Γ e e')
    (hab : a + m = b + n) :
    ExprLike (K.renumbered n m) Γ (e.numbered a) (e'.numbered b) := by
  cases h with
  | literal => exact .literal
  | unary hop he => exact .unary hop (he.numbered hab)
  | binary hleft hop hright =>
    exact .binary (hleft.numbered hab) hop (hright.numbered (step_of_drawn hab hleft.drawn_eq))
  | logical hleft hop hright =>
    exact .logical (hleft.numbered hab) hop (hright.numbered (step_of_drawn hab hleft.drawn_eq))
  | group he => exact .group (he.numbered hab)
  | read hplace => exact .read (Likeness.renumbered_place hplace hab)
  | assign hplace hvalue =>
    have hvalue' := hvalue.numbered (step_of_drawn hab (rfl : 1 = 1))
    have hstep : (a + _ + 1) + m = (b + _ + 1) + n :=
      step_of_drawn (step_of_drawn hab hvalue.drawn_eq) (rfl : 1 = 1)
    exact .assign (Likeness.renumbered_place hplace hstep) hvalue'
  | call hcallee ht harguments =>
    exact .call (hcallee.numbered hab) ht
      (harguments.numbered (step_of_drawn hab hcallee.drawn_eq))
  | get hobject ht => exact .get (hobject.numbered hab) ht
  | set hobject ht hvalue =>
    exact .set (hobject.numbered hab) ht (hvalue.numbered (step_of_drawn hab hobject.drawn_eq))
  | this hplace => exact .this (Likeness.renumbered_place hplace hab)
  | super hplace ht => exact .super (Likeness.renumbered_place hplace hab) ht

theorem ExprEachLike.numbered {a b : Nat} {Γ : Surroundings} {es es' : List Expr}
    (h : ExprEachLike K Γ es es') (hab : a + m = b + n) :
    ExprEachLike (K.renumbered n m) Γ (Expr.numberedEach a es) (Expr.numberedEach b es') := by
  cases h with
  | nil => exact .nil
  | cons he hrest =>
    exact .cons (he.numbered hab) (hrest.numbered (step_of_drawn hab he.drawn_eq))

end

theorem ExprIn?Like.numbered {Γ : Surroundings} {e e' : Option Expr} (h : ExprIn?Like K Γ e e')
    (hab : a + m = b + n) :
    ExprIn?Like (K.renumbered n m) Γ (Expr.numberedIn? a e) (Expr.numberedIn? b e') := by
  cases h with
  | none => exact .none
  | some he => exact .some (he.numbered hab)

/-! ### Statements -/

theorem superclassLike_drawn_eq {Γ : Surroundings} {place place' : Option Occurrence}
    (h : Option.Rel (K.place Γ) place place') :
    Occurrence.drawnIn? place' = Occurrence.drawnIn? place := by
  cases h <;> rfl

theorem superclassLike_numbered {Γ : Surroundings} {place place' : Option Occurrence}
    (h : Option.Rel (K.place Γ) place place') (hab : a + m = b + n) :
    Option.Rel ((K.renumbered n m).place Γ) (Occurrence.numberedIn? a place)
      (Occurrence.numberedIn? b place') := by
  cases h with
  | none => exact .none
  | some hplace => exact .some (Likeness.renumbered_place hplace hab)

mutual

theorem StmtLike.drawn_eq {Γ : Surroundings} {s s' : Stmt} (h : StmtLike K Γ s s') :
    s'.drawn = s.drawn := by
  cases h with
  | expression he => exact he.drawn_eq
  | var _ he => exact ExprIn?Like.drawn_eq he
  | block _ hbody => exact hbody.drawn_eq
  | conditional hcondition hthen =>
    rw [Stmt.drawn, Stmt.drawn, hcondition.drawn_eq, hthen.drawn_eq]
  | alternative hcondition hthen helse =>
    rw [Stmt.drawn, Stmt.drawn, hcondition.drawn_eq, hthen.drawn_eq, helse.drawn_eq]
  | loop hcondition hbody hincrement =>
    rw [Stmt.drawn, Stmt.drawn, hcondition.drawn_eq, hbody.drawn_eq,
      ExprIn?Like.drawn_eq hincrement]
  | function _ hd => exact hd.drawn_eq
  | returning _ he => exact ExprIn?Like.drawn_eq he
  | breaking _ | continuing _ => rfl
  | «class» _ _ hplace hmethods =>
    rw [Stmt.drawn, Stmt.drawn, superclassLike_drawn_eq hplace, hmethods.drawn_eq]

theorem StmtEachLike.drawn_eq {Γ : Surroundings} {ss ss' : List Stmt}
    (h : StmtEachLike K Γ ss ss') : Stmt.drawnEach ss' = Stmt.drawnEach ss := by
  cases h with
  | nil => rfl
  | cons hs hrest => rw [Stmt.drawnEach, Stmt.drawnEach, hs.drawn_eq, hrest.drawn_eq]

theorem FunctionLike.drawn_eq {Γ : Surroundings} {d d' : FunctionDecl}
    (h : FunctionLike K Γ d d') : d'.drawn = d.drawn := by
  cases h with
  | mk _ _ _ hbody => exact hbody.drawn_eq

theorem FunctionEachLike.drawn_eq {Γ : Surroundings} {ds ds' : List FunctionDecl}
    (h : FunctionEachLike K Γ ds ds') :
    FunctionDecl.drawnEach ds' = FunctionDecl.drawnEach ds := by
  cases h with
  | nil => rfl
  | cons hd hrest =>
    rw [FunctionDecl.drawnEach, FunctionDecl.drawnEach, hd.drawn_eq, hrest.drawn_eq]

end

mutual

theorem StmtLike.numbered {a b : Nat} {Γ : Surroundings} {s s' : Stmt} (h : StmtLike K Γ s s')
    (hab : a + m = b + n) : StmtLike (K.renumbered n m) Γ (s.numbered a) (s'.numbered b) := by
  cases h with
  | expression he => exact .expression (he.numbered hab)
  | var hb he => exact .var hb (ExprIn?Like.numbered he hab)
  | block hσ hbody => exact .block hσ (hbody.numbered hab)
  | conditional hcondition hthen =>
    exact .conditional (hcondition.numbered hab)
      (hthen.numbered (step_of_drawn hab hcondition.drawn_eq))
  | alternative hcondition hthen helse =>
    have hstep := step_of_drawn hab hcondition.drawn_eq
    exact .alternative (hcondition.numbered hab) (hthen.numbered hstep)
      (helse.numbered (step_of_drawn hstep hthen.drawn_eq))
  | loop hcondition hbody hincrement =>
    have hstep := step_of_drawn hab hcondition.drawn_eq
    exact .loop (hcondition.numbered hab)
      (hbody.numbered (step_of_drawn hstep (ExprIn?Like.drawn_eq hincrement)))
      (ExprIn?Like.numbered hincrement hstep)
  | @function _ d d' hname hd =>
    refine .function ?_ (hd.numbered hab)
    cases d
    exact hname
  | returning ht he => exact .returning ht (ExprIn?Like.numbered he hab)
  | breaking ht => exact .breaking ht
  | continuing ht => exact .continuing ht
  | @«class» _ _ _ superclass _ _ _ hname ht hplace hmethods =>
    refine .class hname ht (superclassLike_numbered hplace hab) ?_
    have hstep := step_of_drawn hab (superclassLike_drawn_eq hplace)
    have hsome : (Occurrence.numberedIn? a superclass).isSome = superclass.isSome := by
      cases superclass <;> rfl
    rw [hsome]
    exact hmethods.numbered hstep

theorem StmtEachLike.numbered {a b : Nat} {Γ : Surroundings} {ss ss' : List Stmt}
    (h : StmtEachLike K Γ ss ss') (hab : a + m = b + n) :
    StmtEachLike (K.renumbered n m) Γ (Stmt.numberedEach a ss) (Stmt.numberedEach b ss') := by
  cases h with
  | nil => exact .nil
  | cons hs hrest =>
    exact .cons (hs.numbered hab) (hrest.numbered (step_of_drawn hab hs.drawn_eq))

theorem FunctionLike.numbered {a b : Nat} {Γ : Surroundings} {d d' : FunctionDecl}
    (h : FunctionLike K Γ d d') (hab : a + m = b + n) :
    FunctionLike (K.renumbered n m) Γ (d.numbered a) (d'.numbered b) := by
  cases h with
  | mk hσ hn hparameters hbody => exact .mk hσ hn hparameters (hbody.numbered hab)

theorem FunctionEachLike.numbered {a b : Nat} {Γ : Surroundings} {ds ds' : List FunctionDecl}
    (h : FunctionEachLike K Γ ds ds') (hab : a + m = b + n) :
    FunctionEachLike (K.renumbered n m) Γ (FunctionDecl.numberedEach a ds)
      (FunctionDecl.numberedEach b ds') := by
  cases h with
  | nil => exact .nil
  | cons hd hrest =>
    exact .cons (hd.numbered hab) (hrest.numbered (step_of_drawn hab hd.drawn_eq))

end

/-! ### Trees that are numbered already -/

abbrev Likeness.KeepsIds (K : Likeness) : Prop := ∀ Γ p p', K.place Γ p p' → p'.id = p.id

theorem Occurrence.renumber_eq {p p' : Occurrence} (hid : p'.id = p.id) {k : Nat}
    (hp : (⟨k, p.token⟩ : Occurrence) = p) : (⟨k, p'.token⟩ : Occurrence) = p' := by
  have hk : k = p.id := congrArg Occurrence.id hp
  rw [hk, ← hid]

mutual

/-- A tree that looks like a numbered one, with the same identities, is numbered as well. -/
theorem ExprLike.numbered_eq (hK : K.KeepsIds) {Γ : Surroundings} {e e' : Expr} {a : Nat}
    (h : ExprLike K Γ e e') (he : e.numbered a = e) : e'.numbered a = e' := by
  cases h with
  | literal => rfl
  | unary _ ho =>
    simp only [Expr.numbered, Expr.unary.injEq, true_and] at he ⊢
    exact ho.numbered_eq hK he
  | binary hleft _ hright =>
    simp only [Expr.numbered, Expr.binary.injEq, true_and] at he ⊢
    -- Like expressions draw the same number of identities, so the numbering goes on alike behind.
    rw [hleft.drawn_eq]
    exact ⟨hleft.numbered_eq hK he.1, hright.numbered_eq hK he.2⟩
  | logical hleft _ hright =>
    simp only [Expr.numbered, Expr.logical.injEq, true_and] at he ⊢
    rw [hleft.drawn_eq]
    exact ⟨hleft.numbered_eq hK he.1, hright.numbered_eq hK he.2⟩
  | group hinner =>
    simp only [Expr.numbered, Expr.group.injEq] at he ⊢
    exact hinner.numbered_eq hK he
  | read hplace =>
    simp only [Expr.numbered, Expr.read.injEq] at he ⊢
    exact Occurrence.renumber_eq (hK _ _ _ hplace) he
  | assign hplace hvalue =>
    simp only [Expr.numbered, Expr.assign.injEq] at he ⊢
    rw [hvalue.drawn_eq]
    exact ⟨Occurrence.renumber_eq (hK _ _ _ hplace) he.1, hvalue.numbered_eq hK he.2⟩
  | call hcallee _ harguments =>
    simp only [Expr.numbered, Expr.call.injEq, true_and] at he ⊢
    rw [hcallee.drawn_eq]
    exact ⟨hcallee.numbered_eq hK he.1, harguments.numbered_eq hK he.2⟩
  | get hobject _ =>
    simp only [Expr.numbered, Expr.get.injEq, and_true] at he ⊢
    exact hobject.numbered_eq hK he
  | set hobject _ hvalue =>
    simp only [Expr.numbered, Expr.set.injEq, true_and] at he ⊢
    rw [hobject.drawn_eq]
    exact ⟨hobject.numbered_eq hK he.1, hvalue.numbered_eq hK he.2⟩
  | this hplace =>
    simp only [Expr.numbered, Expr.this.injEq] at he ⊢
    exact Occurrence.renumber_eq (hK _ _ _ hplace) he
  | super hplace _ =>
    simp only [Expr.numbered, Expr.super.injEq, and_true] at he ⊢
    exact Occurrence.renumber_eq (hK _ _ _ hplace) he

theorem ExprEachLike.numbered_eq (hK : K.KeepsIds) {Γ : Surroundings} {es es' : List Expr} {a : Nat}
    (h : ExprEachLike K Γ es es') (hes : Expr.numberedEach a es = es) : Expr.numberedEach a es' =
    es' := by
  cases h with
  | nil => rfl
  | cons he hrest =>
    simp only [Expr.numberedEach, List.cons.injEq] at hes ⊢
    rw [he.drawn_eq]
    exact ⟨he.numbered_eq hK hes.1, hrest.numbered_eq hK hes.2⟩

end

theorem ExprIn?Like.numbered_eq (hK : K.KeepsIds) {Γ : Surroundings} {e e' : Option Expr} {a : Nat}
    (h : ExprIn?Like K Γ e e') (he : Expr.numberedIn? a e = e) : Expr.numberedIn? a e' = e' := by
  cases h with
  | none => rfl
  | some h =>
    simp only [Expr.numberedIn?, Option.some.injEq] at he ⊢
    exact h.numbered_eq hK he

theorem superclassLike_numbered_eq (hK : K.KeepsIds) {Γ : Surroundings}
    {place place' : Option Occurrence} {a : Nat} (h : Option.Rel (K.place Γ) place place')
    (hplace : Occurrence.numberedIn? a place = place) : Occurrence.numberedIn? a place' = place' :=
    by
  cases h with
  | none => rfl
  | some h =>
    simp only [Occurrence.numberedIn?, Option.some.injEq] at hplace ⊢
    exact Occurrence.renumber_eq (hK _ _ _ h) hplace

mutual

theorem StmtLike.numbered_eq (hK : K.KeepsIds) {Γ : Surroundings} {s s' : Stmt} {a : Nat}
    (h : StmtLike K Γ s s') (hs : s.numbered a = s) : s'.numbered a = s' := by
  cases h with
  | expression he =>
    simp only [Stmt.numbered, Stmt.expression.injEq] at hs ⊢
    exact he.numbered_eq hK hs
  | var _ he =>
    simp only [Stmt.numbered, Stmt.var.injEq, true_and] at hs ⊢
    exact ExprIn?Like.numbered_eq hK he hs
  | block _ hbody =>
    simp only [Stmt.numbered, Stmt.block.injEq] at hs ⊢
    exact hbody.numbered_eq hK hs
  | conditional hcondition hthen =>
    simp only [Stmt.numbered, Stmt.conditional.injEq, and_true] at hs ⊢
    rw [hcondition.drawn_eq]
    exact ⟨hcondition.numbered_eq hK hs.1, hthen.numbered_eq hK hs.2⟩
  | alternative hcondition hthen helse =>
    simp only [Stmt.numbered, Stmt.conditional.injEq, Option.some.injEq] at hs ⊢
    rw [hcondition.drawn_eq, hthen.drawn_eq]
    exact ⟨hcondition.numbered_eq hK hs.1, hthen.numbered_eq hK hs.2.1,
      helse.numbered_eq hK hs.2.2⟩
  | loop hcondition hbody hincrement =>
    simp only [Stmt.numbered, Stmt.loop.injEq] at hs ⊢
    rw [hcondition.drawn_eq, ExprIn?Like.drawn_eq hincrement]
    exact ⟨hcondition.numbered_eq hK hs.1, hbody.numbered_eq hK hs.2.1,
      ExprIn?Like.numbered_eq hK hincrement hs.2.2⟩
  | function _ hd =>
    simp only [Stmt.numbered, Stmt.function.injEq] at hs ⊢
    exact hd.numbered_eq hK hs
  | returning _ he =>
    simp only [Stmt.numbered, Stmt.returning.injEq, true_and] at hs ⊢
    exact ExprIn?Like.numbered_eq hK he hs
  | breaking _ | continuing _ => rfl
  | «class» _ _ hplace hmethods =>
    simp only [Stmt.numbered, Stmt.class.injEq, true_and] at hs ⊢
    rw [superclassLike_drawn_eq hplace]
    exact ⟨superclassLike_numbered_eq hK hplace hs.1, hmethods.numbered_eq hK hs.2⟩

theorem StmtEachLike.numbered_eq (hK : K.KeepsIds) {Γ : Surroundings} {ss ss' : List Stmt} {a : Nat}
    (h : StmtEachLike K Γ ss ss') (hss : Stmt.numberedEach a ss = ss) : Stmt.numberedEach a ss' =
    ss' := by
  cases h with
  | nil => rfl
  | cons hs hrest =>
    simp only [Stmt.numberedEach, List.cons.injEq] at hss ⊢
    rw [hs.drawn_eq]
    exact ⟨hs.numbered_eq hK hss.1, hrest.numbered_eq hK hss.2⟩

theorem FunctionLike.numbered_eq (hK : K.KeepsIds) {Γ : Surroundings} {d d' : FunctionDecl}
    {a : Nat} (h : FunctionLike K Γ d d') (hd : d.numbered a = d) : d'.numbered a = d' := by
  cases h with
  | mk _ _ _ hbody =>
    simp only [FunctionDecl.numbered, FunctionDecl.mk.injEq, true_and] at hd ⊢
    exact hbody.numbered_eq hK hd

theorem FunctionEachLike.numbered_eq (hK : K.KeepsIds) {Γ : Surroundings}
    {ds ds' : List FunctionDecl} {a : Nat} (h : FunctionEachLike K Γ ds ds')
    (hds : FunctionDecl.numberedEach a ds = ds) : FunctionDecl.numberedEach a ds' = ds' := by
  cases h with
  | nil => rfl
  | cons hd hrest =>
    simp only [FunctionDecl.numberedEach, List.cons.injEq] at hds ⊢
    rw [hd.drawn_eq]
    exact ⟨hd.numbered_eq hK hds.1, hrest.numbered_eq hK hds.2⟩

end

end Lox
