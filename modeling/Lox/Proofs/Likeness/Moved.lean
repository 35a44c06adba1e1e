import Lox.Proofs.Compiled
import Lox.Proofs.Likeness.Derivations
import Lox.Proofs.Likeness.Machine
import Lox.Proofs.Likeness.Numbering
import Lox.Proofs.Likeness.Reflexive
import Lox.Proofs.Likeness.Resolution
import Lox.Proofs.Token.Lines

/-!
# Programs that differ in their lines only

The plainest way for trees to look alike is to be equal except for the lines of their
tokens.  Such trees come from sources that differ in blank lines, and from sources that
are compiled one by one or together.
-/

namespace Lox

open Resolution

/-- The same token, on lines that correspond. -/
structure Token.Moved (line : Nat → Nat → Prop) (t t' : Token) : Prop where
  kind : t'.kind = t.kind
  lexeme : t'.lexeme = t.lexeme
  line : line t.line t'.line

/-- Nothing is renamed, and the occurrences keep their identities, all of which are known. -/
def Likeness.moved (line : Nat → Nat → Prop) (known : NodeId → Prop) : Likeness where
  allowed σ := σ = .same
  token := Token.Moved line
  binder σ t t' := σ = .same ∧ Token.Moved line t t'
  place Γ p p' := Γ = .top ∧ known p.id ∧ p'.id = p.id ∧ Token.Moved line p.token p'.token

namespace Likeness

variable {line line' : Nat → Nat → Prop} {known known' : NodeId → Prop}

theorem moved_le (hline : ∀ n n', line n n' → line' n n') (hknown : ∀ id, known id → known' id) :
    (moved line known).Le (moved line' known') := by
  have htoken : ∀ t t', Token.Moved line t t' → Token.Moved line' t t' :=
    fun _ _ h => ⟨h.kind, h.lexeme, hline _ _ h.line⟩
  refine ⟨fun _ h => h, htoken, fun _ _ _ h => ⟨h.1, htoken _ _ h.2⟩, ?_⟩
  rintro Γ p p' ⟨hΓ, hid, hsame, hmoved⟩
  exact ⟨hΓ, hknown _ hid, hsame, htoken _ _ hmoved⟩

/-- Identities that start alike are the same. -/
theorem renumbered_moved_le (line : Nat → Nat → Prop) (n : NodeId) :
    ((moved line fun _ => True).renumbered n n).Le (moved line fun _ => True) := by
  refine ⟨fun _ h => h, fun _ _ h => h, fun _ _ _ h => h, ?_⟩
  rintro Γ p p' ⟨⟨q, q', ⟨hΓ, -, -, hmoved⟩, hq, hq'⟩, hid⟩
  exact ⟨hΓ, trivial, (Nat.add_right_cancel hid).symm, hq ▸ hq' ▸ hmoved⟩

theorem moved_faithful {distances distances' : Distances}
    (h : ∀ id, known id → distances'[id]? = distances[id]?) :
    Faithful (moved line known) line distances distances' := by
  constructor
  · rfl
  · intro t t' ht
    exact ⟨ht.kind, ht.lexeme, ht.line⟩
  · rintro σ t t' ⟨rfl, ht⟩
    exact ht.lexeme
  · rintro Γ p p' ⟨-, hid, hsame, -⟩
    rw [hsame, h _ hid]
  · rintro Γ p p' ⟨rfl, -, -, hp⟩ d -
    exact hp.lexeme
  · rintro Γ p p' ⟨-, -, -, hp⟩ -
    exact hp.lexeme
  · rintro Γ p p' ⟨-, -, -, hp⟩
    exact hp.line

theorem moved_reflexive (hline : ∀ n, line n n) :
    (moved line known).Reflexive fun p => known p.id :=
  ⟨rfl, fun t => ⟨rfl, rfl, hline t.line⟩, fun t => ⟨rfl, rfl, rfl, hline t.line⟩,
    fun p hp => ⟨rfl, hp, rfl, rfl, rfl, hline p.token.line⟩⟩

theorem moved_respelling (known : NodeId → Prop) (hline : ∀ n, ∃ n', line n n') :
    Grammar.Respelling (moved line known) (Token.Moved line) := by
  refine ⟨fun _ _ h => h.kind, ?_, fun _ _ _ h => h, fun _ _ _ _ h => h.2,
    fun _ _ _ _ h => h.2.2.2⟩
  intro t
  obtain ⟨n, hn⟩ := hline t.line
  exact ⟨{ t with line := n }, ⟨rfl, rfl, hn⟩, fun _ => rfl⟩

end Likeness

/-- Without renamings a name is found at the same distance. -/
theorem ScopesLike.distance?_eq {fresh : String → Prop} {Γ : Surroundings}
    {scopes scopes' : List Scope} (h : ScopesLike fresh Γ scopes scopes')
    (hsame : ∀ d, Γ d = .same) (name : String) :
    distance? scopes' name = distance? scopes name := by
  induction h with
  | nil _ => rfl
  | @cons _ scope scope' _ _ _ hfind _ ih =>
    have hcontains : scope'.contains name = scope.contains name := by
      have hname := hfind name
      rw [hsame, Renaming.same_apply] at hname
      rw [Bindings.contains, Bindings.contains, hname]
    rw [distance?_cons, distance?_cons, ih fun d => hsame (d + 1), hcontains]

theorem Likeness.moved_static (line : Nat → Nat → Prop) (known : NodeId → Prop) (n m : Nat) :
    ((moved line known).renumbered n m).Static (fun _ => False) (fun _ => True) := by
  refine ⟨fun _ _ h => ⟨h.lexeme, id⟩, ?_, ⟨id, id⟩, ?_⟩
  · rintro σ t t' ⟨rfl, h⟩
    exact ⟨h.lexeme, id⟩
  · rintro Γ kind p p' r scopes' - hscopes ⟨⟨q, q', ⟨rfl, -, -, hmoved⟩, hq, hq'⟩, -⟩
    have hname : p'.name = p.name := by
      rw [Occurrence.name, Occurrence.name, ← hq, ← hq', hmoved.lexeme]
    refine ⟨?_, fun _ _ => hname, fun _ => hname⟩
    rw [hname]
    exact hscopes.distance?_eq (fun _ => rfl) p.name

/-- Where nothing may be renamed, nothing is. -/
theorem MachineLike.world_eq {line line' : Nat → Nat → Prop} {known : NodeId → Prop} {W : World}
    {m m' : Machine} (h : MachineLike (.moved line known) line' W m m') : W = .same :=
  funext h.renamings

/-! ### Trees further down -/

/-- Everything has a counterpart, without renamings. -/
structure Likeness.Total (K : Likeness) : Prop where
  allowed : K.allowed .same
  token : ∀ t, ∃ t', K.token t t'
  binder : ∀ t, ∃ t', K.binder .same t t'
  place : ∀ p, ∃ p', K.place .top p p'

theorem Likeness.moved_total {line : Nat → Nat → Prop} (hline : ∀ n, ∃ n', line n n') :
    (moved line fun _ => True).Total := by
  have htoken : ∀ t : Token, ∃ t' : Token, t.Moved line t' := by
    intro t
    obtain ⟨n, hn⟩ := hline t.line
    exact ⟨{ t with line := n }, rfl, rfl, hn⟩
  refine ⟨rfl, htoken, ?_, ?_⟩
  · intro t
    obtain ⟨t', ht⟩ := htoken t
    exact ⟨t', rfl, ht⟩
  · intro p
    obtain ⟨t', ht⟩ := htoken p.token
    exact ⟨⟨p.id, t'⟩, rfl, trivial, rfl, ht⟩

section

variable {K : Likeness}

mutual

theorem Expr.exists_like (hK : K.Total) : (e : Expr) → ∃ e', ExprLike K .top e e'
  | .literal _ => ⟨_, .literal⟩
  | .unary operator operand => by
    obtain ⟨operator', hoperator⟩ := hK.token operator
    obtain ⟨operand', hoperand⟩ := operand.exists_like hK
    exact ⟨_, .unary hoperator hoperand⟩
  | .binary left operator right => by
    obtain ⟨left', hleft⟩ := left.exists_like hK
    obtain ⟨operator', hoperator⟩ := hK.token operator
    obtain ⟨right', hright⟩ := right.exists_like hK
    exact ⟨_, .binary hleft hoperator hright⟩
  | .logical left operator right => by
    obtain ⟨left', hleft⟩ := left.exists_like hK
    obtain ⟨operator', hoperator⟩ := hK.token operator
    obtain ⟨right', hright⟩ := right.exists_like hK
    exact ⟨_, .logical hleft hoperator hright⟩
  | .group inner => by
    obtain ⟨inner', hinner⟩ := inner.exists_like hK
    exact ⟨_, .group hinner⟩
  | .read place => by
    obtain ⟨place', hplace⟩ := hK.place place
    exact ⟨_, .read hplace⟩
  | .assign place value => by
    obtain ⟨place', hplace⟩ := hK.place place
    obtain ⟨value', hvalue⟩ := value.exists_like hK
    exact ⟨_, .assign hplace hvalue⟩
  | .call callee paren arguments => by
    obtain ⟨callee', hcallee⟩ := callee.exists_like hK
    obtain ⟨paren', hparen⟩ := hK.token paren
    obtain ⟨arguments', harguments⟩ := Expr.exists_likeEach hK arguments
    exact ⟨_, .call hcallee hparen harguments⟩
  | .get object name => by
    obtain ⟨object', hobject⟩ := object.exists_like hK
    obtain ⟨name', hname⟩ := hK.token name
    exact ⟨_, .get hobject hname⟩
  | .set object name value => by
    obtain ⟨object', hobject⟩ := object.exists_like hK
    obtain ⟨name', hname⟩ := hK.token name
    obtain ⟨value', hvalue⟩ := value.exists_like hK
    exact ⟨_, .set hobject hname hvalue⟩
  | .this place => by
    obtain ⟨place', hplace⟩ := hK.place place
    exact ⟨_, .this hplace⟩
  | .super place method => by
    obtain ⟨place', hplace⟩ := hK.place place
    obtain ⟨method', hmethod⟩ := hK.token method
    exact ⟨_, .super hplace hmethod⟩
termination_by structural e => e

theorem Expr.exists_likeEach (hK : K.Total) : (es : List Expr) → ∃ es', ExprEachLike K .top es es'
  | [] => ⟨_, .nil⟩
  | e :: rest => by
    obtain ⟨e', he⟩ := e.exists_like hK
    obtain ⟨rest', hrest⟩ := Expr.exists_likeEach hK rest
    exact ⟨_, .cons he hrest⟩
termination_by structural es => es

end

theorem Expr.exists_likeIn? (hK : K.Total) (e : Option Expr) : ∃ e', ExprIn?Like K .top e e' := by
  cases e with
  | none => exact ⟨_, .none⟩
  | some e =>
    obtain ⟨e', he⟩ := e.exists_like hK
    exact ⟨_, .some he⟩

theorem exists_bindersLike (hK : K.Total) (parameters : List Token) :
    ∃ parameters', List.Forall₂ (K.binder .same) parameters parameters' := by
  induction parameters with
  | nil => exact ⟨_, .nil⟩
  | cons t parameters ih =>
    obtain ⟨t', ht⟩ := hK.binder t
    obtain ⟨parameters', hparameters⟩ := ih
    exact ⟨_, .cons ht hparameters⟩

mutual

theorem Stmt.exists_like (hK : K.Total) : (s : Stmt) → ∃ s', StmtLike K .top s s'
  | .expression value => by
    obtain ⟨value', hvalue⟩ := value.exists_like hK
    exact ⟨_, .expression hvalue⟩
  | .var name value => by
    obtain ⟨name', hname⟩ := hK.binder name
    obtain ⟨value', hvalue⟩ := Expr.exists_likeIn? hK value
    exact ⟨_, .var hname hvalue⟩
  -- A block, a function and a class open scopes of their own, all of them with the same renaming.
  | .block body => by
    obtain ⟨body', hbody⟩ := Stmt.exists_likeEach hK body
    rw [← Surroundings.enter_top] at hbody
    exact ⟨_, .block hK.allowed hbody⟩
  | .conditional condition thenBranch none => by
    obtain ⟨condition', hcondition⟩ := condition.exists_like hK
    obtain ⟨thenBranch', hthen⟩ := thenBranch.exists_like hK
    exact ⟨_, .conditional hcondition hthen⟩
  | .conditional condition thenBranch (some elseBranch) => by
    obtain ⟨condition', hcondition⟩ := condition.exists_like hK
    obtain ⟨thenBranch', hthen⟩ := thenBranch.exists_like hK
    obtain ⟨elseBranch', helse⟩ := elseBranch.exists_like hK
    exact ⟨_, .alternative hcondition hthen helse⟩
  | .loop condition body increment => by
    obtain ⟨condition', hcondition⟩ := condition.exists_like hK
    obtain ⟨body', hbody⟩ := body.exists_like hK
    obtain ⟨increment', hincrement⟩ := Expr.exists_likeIn? hK increment
    exact ⟨_, .loop hcondition hbody hincrement⟩
  | .function d => by
    obtain ⟨d', hd⟩ := d.exists_like hK
    exact ⟨_, .function rfl hd⟩
  | .returning keyword value => by
    obtain ⟨keyword', hkeyword⟩ := hK.token keyword
    obtain ⟨value', hvalue⟩ := Expr.exists_likeIn? hK value
    exact ⟨_, .returning hkeyword hvalue⟩
  | .breaking keyword => by
    obtain ⟨keyword', hkeyword⟩ := hK.token keyword
    exact ⟨_, .breaking hkeyword⟩
  | .continuing keyword => by
    obtain ⟨keyword', hkeyword⟩ := hK.token keyword
    exact ⟨_, .continuing hkeyword⟩
  | .class name superclass methods => by
    obtain ⟨name', hname⟩ := hK.token name
    obtain ⟨methods', hmethods⟩ := FunctionDecl.exists_likeEach hK methods
    rw [← Surroundings.enterClass_top superclass.isSome] at hmethods
    cases superclass with
    | none => exact ⟨_, .class rfl hname .none hmethods⟩
    | some place =>
      obtain ⟨place', hplace⟩ := hK.place place
      exact ⟨_, .class rfl hname (.some hplace) hmethods⟩
termination_by structural s => s

theorem Stmt.exists_likeEach (hK : K.Total) : (ss : List Stmt) → ∃ ss', StmtEachLike K .top ss ss'
  | [] => ⟨_, .nil⟩
  | s :: rest => by
    obtain ⟨s', hs⟩ := s.exists_like hK
    obtain ⟨rest', hrest⟩ := Stmt.exists_likeEach hK rest
    exact ⟨_, .cons hs hrest⟩
termination_by structural ss => ss

theorem FunctionDecl.exists_like (hK : K.Total) : (d : FunctionDecl) →
    ∃ d', FunctionLike K .top d d'
  | ⟨name, parameters, body⟩ => by
    obtain ⟨name', hname⟩ := hK.token name
    obtain ⟨parameters', hparameters⟩ := exists_bindersLike hK parameters
    obtain ⟨body', hbody⟩ := Stmt.exists_likeEach hK body
    rw [← Surroundings.enter_top] at hbody
    exact ⟨_, .mk hK.allowed hname hparameters hbody⟩
termination_by structural d => d

theorem FunctionDecl.exists_likeEach (hK : K.Total) : (ds : List FunctionDecl) →
    ∃ ds', FunctionEachLike K .top ds ds'
  | [] => ⟨_, .nil⟩
  | d :: rest => by
    obtain ⟨d', hd⟩ := d.exists_like hK
    obtain ⟨rest', hrest⟩ := FunctionDecl.exists_likeEach hK rest
    exact ⟨_, .cons hd hrest⟩
termination_by structural ds => ds

end

end

end Lox
