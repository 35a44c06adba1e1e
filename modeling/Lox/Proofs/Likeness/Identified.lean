import Lox.Proofs.Likeness.Sources

/-!
# Programs that differ in their identities only

The identities that are handed out for a source depend on how many were handed out before.
Compiled from other identities on, a source is the same program except for a shift of its
identities: occurrences in the same places have the same distance.
-/

namespace Lox

open Occurrence

/-! ### The occurrences of a tree -/

def Likeness.among (K : Likeness) (P : Occurrence → Prop) : Likeness :=
  { K with place := fun Γ p p' => K.place Γ p p' ∧ P p }

variable {K : Likeness} {P : Occurrence → Prop}

mutual

theorem ExprLike.among {Γ : Surroundings} {e e' : Expr} (h : ExprLike K Γ e e')
    (hP : AllOf P e.occurrences) : ExprLike (K.among P) Γ e e' := by
  cases h with
  | literal => exact .literal
  | unary hop he => exact .unary hop (he.among hP)
  | binary hleft hop hright =>
    exact .binary (hleft.among (allOf_append.mp hP).1) hop (hright.among (allOf_append.mp hP).2)
  | logical hleft hop hright =>
    exact .logical (hleft.among (allOf_append.mp hP).1) hop (hright.among (allOf_append.mp hP).2)
  | group he => exact .group (he.among hP)
  | read hplace => exact .read ⟨hplace, (allOf_cons.mp hP).1⟩
  | assign hplace hvalue =>
    exact .assign ⟨hplace, (allOf_cons.mp hP).1⟩ (hvalue.among (allOf_cons.mp hP).2)
  | call hcallee ht harguments =>
    exact .call (hcallee.among (allOf_append.mp hP).1) ht (harguments.among (allOf_append.mp hP).2)
  | get hobject ht => exact .get (hobject.among hP) ht
  | set hobject ht hvalue =>
    exact .set (hobject.among (allOf_append.mp hP).1) ht (hvalue.among (allOf_append.mp hP).2)
  | this hplace => exact .this ⟨hplace, (allOf_cons.mp hP).1⟩
  | super hplace ht => exact .super ⟨hplace, (allOf_cons.mp hP).1⟩ ht

theorem ExprEachLike.among {Γ : Surroundings} {es es' : List Expr} (h : ExprEachLike K Γ es es')
    (hP : AllOf P (Expr.occurrencesEach es)) : ExprEachLike (K.among P) Γ es es' := by
  cases h with
  | nil => exact .nil
  | cons he hrest =>
    exact .cons (he.among (allOf_append.mp hP).1) (hrest.among (allOf_append.mp hP).2)

end

theorem ExprIn?Like.among {Γ : Surroundings} {e e' : Option Expr} (h : ExprIn?Like K Γ e e')
    (hP : AllOf P (Expr.occurrencesIn? e)) : ExprIn?Like (K.among P) Γ e e' := by
  cases h with
  | none => exact .none
  | some he => exact .some (he.among hP)

mutual

theorem StmtLike.among {Γ : Surroundings} {s s' : Stmt} (h : StmtLike K Γ s s')
    (hP : AllOf P s.occurrences) : StmtLike (K.among P) Γ s s' := by
  cases h with
  | expression he => exact .expression (he.among hP)
  | var hb he => exact .var hb (ExprIn?Like.among he hP)
  | block hσ hbody => exact .block hσ (hbody.among hP)
  | conditional hcondition hthen =>
    exact .conditional (hcondition.among (allOf_append.mp hP).1)
      (hthen.among (allOf_append.mp hP).2)
  | alternative hcondition hthen helse =>
    obtain ⟨hfront, hP₃⟩ := allOf_append.mp hP
    obtain ⟨hP₁, hP₂⟩ := allOf_append.mp hfront
    exact .alternative (hcondition.among hP₁) (hthen.among hP₂) (helse.among hP₃)
  | loop hcondition hbody hincrement =>
    obtain ⟨hfront, hP₃⟩ := allOf_append.mp hP
    obtain ⟨hP₁, hP₂⟩ := allOf_append.mp hfront
    exact .loop (hcondition.among hP₁) (hbody.among hP₂) (ExprIn?Like.among hincrement hP₃)
  | function hn hd => exact .function hn (hd.among hP)
  | returning ht he => exact .returning ht (ExprIn?Like.among he hP)
  | breaking ht => exact .breaking ht
  | continuing ht => exact .continuing ht
  | «class» hn ht hplace hmethods =>
    cases hplace with
    | none => exact .class hn ht .none (hmethods.among hP)
    | some hplace =>
      obtain ⟨hfirst, hrest⟩ := allOf_cons.mp hP
      exact .class hn ht (.some ⟨hplace, hfirst⟩) (hmethods.among hrest)

theorem StmtEachLike.among {Γ : Surroundings} {ss ss' : List Stmt} (h : StmtEachLike K Γ ss ss')
    (hP : AllOf P (Stmt.occurrencesEach ss)) : StmtEachLike (K.among P) Γ ss ss' := by
  cases h with
  | nil => exact .nil
  | cons hs hrest =>
    exact .cons (hs.among (allOf_append.mp hP).1) (hrest.among (allOf_append.mp hP).2)

theorem FunctionLike.among {Γ : Surroundings} {d d' : FunctionDecl} (h : FunctionLike K Γ d d')
    (hP : AllOf P d.occurrences) : FunctionLike (K.among P) Γ d d' := by
  cases h with
  | mk hσ hn hparameters hbody => exact .mk hσ hn hparameters (hbody.among hP)

theorem FunctionEachLike.among {Γ : Surroundings} {ds ds' : List FunctionDecl}
    (h : FunctionEachLike K Γ ds ds') (hP : AllOf P (FunctionDecl.occurrencesEach ds)) :
    FunctionEachLike (K.among P) Γ ds ds' := by
  cases h with
  | nil => exact .nil
  | cons hd hrest =>
    exact .cons (hd.among (allOf_append.mp hP).1) (hrest.among (allOf_append.mp hP).2)

end

/-! ### Other identities -/

/-- Everything is equal, except that the identities of occurrences correspond. -/
def Likeness.identified (ρ : NodeId → NodeId → Prop) : Likeness where
  allowed σ := σ = .same
  token t t' := t' = t
  binder σ t t' := σ = .same ∧ t' = t
  place Γ p p' := Γ = .top ∧ ρ p.id p'.id ∧ p'.token = p.token

/-- The identities from `a` up to `a'`, and as many from `b` on. -/
def shifted (a a' b : Nat) (i j : Nat) : Prop := a ≤ i ∧ i < a' ∧ i + b = j + a

theorem le_of_shifted {a a' b i j : Nat} (h : shifted a a' b i j) : b ≤ j := by
  obtain ⟨hlow, -, hshift⟩ := h
  omega

namespace Likeness

variable {ρ ρ' : NodeId → NodeId → Prop}

theorem identified_le (h : ∀ i j, ρ i j → ρ' i j) : (identified ρ).Le (identified ρ') :=
  ⟨fun _ h => h, fun _ _ h => h, fun _ _ _ h => h, fun _ _ _ hp => ⟨hp.1, h _ _ hp.2.1, hp.2.2⟩⟩

theorem identified_faithful {distances distances' : Distances}
    (h : ∀ i j, ρ i j → distances'[j]? = distances[i]?) :
    Faithful (identified ρ) Eq distances distances' := by
  constructor
  · rfl
  · rintro t t' rfl
    exact ⟨rfl, rfl, rfl⟩
  · rintro σ t t' ⟨rfl, rfl⟩
    rfl
  · rintro Γ p p' ⟨-, hid, -⟩
    exact h _ _ hid
  · rintro Γ p p' ⟨rfl, -, htoken⟩ d -
    exact congrArg Token.lexeme htoken
  · rintro Γ p p' ⟨-, -, htoken⟩ -
    exact congrArg Token.lexeme htoken
  · rintro Γ p p' ⟨-, -, htoken⟩
    exact congrArg Token.line htoken.symm

end Likeness

theorem Token.Moved.eq {t t' : Token} (h : t.Moved Eq t') : t' = t := by
  obtain ⟨kind, lexeme, line⟩ := t
  obtain ⟨hkind, hlexeme, hline⟩ := h
  cases t'
  simp_all

/-- Visits of identities that are shifted note the same distances at shifted identities. -/
theorem getElem?_foldl_note_shifted {a b : Nat}
    (hids : ∀ Γ p p', K.place Γ p p' → p.id + b = p'.id + a) {visits visits' : List Visit}
    (h : List.Forall₂ (VisitLike K) visits visits') {distances distances' : Distances}
    (hdistances : ∀ i j : Nat, i + b = j + a → distances'[j]? = distances[i]?) (i j : Nat)
    (hij : i + b = j + a) :
    (visits'.foldl Visit.note distances')[j]? = (visits.foldl Visit.note distances)[i]? := by
  induction h generalizing distances distances' with
  | nil => exact hdistances i j hij
  | @cons v v' _ _ hv _ ih =>
    obtain ⟨Γ, hplace⟩ := hv.place
    have hid := hids Γ _ _ hplace
    refine ih fun i' j' hij' => ?_
    have hshift : ∀ x y : Nat, x + b = y + a → (j' = y ↔ i' = x) := by
      intro x y hxy
      omega
    have hsame := hshift _ _ hid
    rw [Visit.getElem?_note, Visit.getElem?_note, hv.distance, hdistances i' j' hij']
    simp only [hsame]

namespace Program

variable {source : String} {program : Program} {a a' : Nat}

/-- From other identities on, a source compiles to the same program with shifted identities. -/
theorem compile_identified (h : compile source a = (.ok program, a')) (b : Nat) :
    ∃ program' b', compile source b = (.ok program', b') ∧ a' + b = b' + a ∧
      StmtEachLike (.identified (shifted a a' b)) .top program.statements program'.statements ∧
      ∀ i j, shifted a a' b i j → program'.distances[j]? = program.distances[i]? := by
  obtain ⟨w, last, htokens, hlast, hderives, -, hnext⟩ := derives_of_compile h
  obtain ⟨herrors, -, hrun⟩ := compile_eq_ok_iff.mp h
  have hself : StmtEachLike (.moved Eq fun _ => True) .top program.statements program.statements :=
    Stmt.likeEach_self (Likeness.moved_reflexive fun _ => rfl) _ fun _ _ => trivial
  obtain ⟨program', hcompile, hlike, -⟩ := compile_like h herrors htokens hlast hderives hself b
  have hids : AllOf (fun p => a ≤ p.id ∧ p.id < a') (Stmt.occurrencesEach program.statements) :=
    fun o ho => (wellMade_of_compile h).ids.bounds o ho
  refine ⟨program', _, hcompile, ?_, (hlike.among hids).mono ?_, ?_⟩
  · rw [hnext, Nat.add_right_comm, Nat.add_comm a b, Nat.add_right_comm]
  · refine ⟨fun _ h => h, fun _ _ h => h.eq, fun _ _ _ h => ⟨h.1, h.2.eq⟩, ?_⟩
    rintro Γ p p' ⟨⟨⟨q, q', ⟨hΓ, -, -, hmoved⟩, hq, hq'⟩, hid⟩, hlow, hhigh⟩
    exact ⟨hΓ, ⟨hlow, hhigh, hid⟩, hq' ▸ hq ▸ hmoved.eq⟩
  · rintro i j ⟨-, -, hij⟩
    have hvisits := (hlike.run_isOk (Likeness.moved_static Eq _ a b) (fun _ _ => trivial) hrun).2
    rw [(distances_of_run hrun).2, (distances_of_run (compile_eq_ok_iff.mp hcompile).2.2).2]
    have hids : ∀ Γ p p', ((Likeness.moved Eq fun _ => True).renumbered a b).place Γ p p' →
        p.id + b = p'.id + a := fun _ _ _ hplace => hplace.2
    exact getElem?_foldl_note_shifted hids hvisits (fun _ _ _ => rfl) i j hij

end Program

end Lox
