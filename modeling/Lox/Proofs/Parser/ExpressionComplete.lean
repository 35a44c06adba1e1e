import Lox.Proofs.Grammar.Relaxed
import Lox.Proofs.Numbering
import Lox.Proofs.Parser.ExpressionSound
import Lox.Proofs.Parser.Reading

/-!
# The parser reads every expression of the grammar

By induction on the derivation in the relaxed grammar: before a token that cannot continue
the phrase, the parser steps over exactly the tokens of a phrase and notes exactly the
errors in it.  What it returns is a name or a property access if the tree of the phrase is
one, so that the next assignment is taken as the grammar takes it; and it is that tree,
with the identities from the next unused one on, if the phrase is without errors.
-/

namespace Lox.Parser

open Lox.Grammar
open Lox.Grammar.Relaxed (operand assigned misplaced excess)

/-! ### Levels -/

def ruleLevel : BinaryRule → Level
  | .logicOr => .disjunction
  | .logicAnd => .conjunction
  | .equality => .equality
  | .comparison => .comparison
  | .term => .sum
  | .factor => .product

/-- The levels that bind tighter than a rule. -/
def tighterLevels : BinaryRule → List Level
  | .logicOr => [.conjunction, .equality, .comparison, .sum, .product]
  | .logicAnd => [.equality, .comparison, .sum, .product]
  | .equality => [.comparison, .sum, .product]
  | .comparison => [.sum, .product]
  | .term => [.product]
  | .factor => []

theorem operators_ruleLevel (rule : BinaryRule) :
    (ruleLevel rule).operators = rule.operators := by
  cases rule <;> rfl

theorem combine_ruleLevel (rule : BinaryRule) : (ruleLevel rule).combine = rule.node := by
  cases rule <;> rfl

/-- No operator of the levels and no call goes on with a token of this kind. -/
def Stops (levels : List Level) (kind : TokenKind) : Prop :=
  kind ≠ .leftParen ∧ kind ≠ .dot ∧ ∀ level ∈ levels, kind ∉ level.operators

instance (levels : List Level) (kind : TokenKind) : Decidable (Stops levels kind) := by
  unfold Stops
  infer_instance

def expressionEnds : List TokenKind := [.semicolon, .rightParen, .comma]

theorem stops_of_expressionEnds {kind : TokenKind} (h : kind ∈ expressionEnds) :
    Stops Level.all kind := by
  simp only [expressionEnds, List.mem_cons, List.not_mem_nil, or_false] at h
  rcases h with rfl | rfl | rfl <;> decide

theorem ne_equal_of_expressionEnds {kind : TokenKind} (h : kind ∈ expressionEnds) :
    kind ≠ .equal := by
  rintro rfl
  revert h
  decide

theorem stops_tighter_of_operator {rule : BinaryRule} {kind : TokenKind}
    (h : kind ∈ rule.operators) : Stops (tighterLevels rule) kind := by
  cases rule <;>
    simp only [BinaryRule.operators, List.mem_cons, List.not_mem_nil, or_false] at h <;>
    rcases h with rfl | h <;> first | decide | skip
  all_goals rcases h with rfl | h <;> first | decide | skip
  all_goals rcases h with rfl | rfl <;> decide

theorem Stops.tighter {level : Level} {tighter : List Level} {kind : TokenKind}
    (h : Stops (level :: tighter) kind) : Stops tighter kind :=
  ⟨h.1, h.2.1, fun l hl => h.2.2 l (List.mem_cons_of_mem _ hl)⟩

theorem Stops.operator {level : Level} {tighter : List Level} {kind : TokenKind}
    (h : Stops (level :: tighter) kind) : kind ∉ level.operators :=
  h.2.2 level List.mem_cons_self

/-! ### Phrases -/

variable {n : NodeId}

/--
The parser has read `e'` for the tree `e`, and `m` is the next unused identity: both agree
on whether an assignment can follow, and without errors they differ in identities only.
-/
structure Fits (es : List GrammarError) (e : Expr) (n : NodeId) (e' : Expr) (m : NodeId) :
    Prop where
  target : e'.isTarget = e.isTarget
  exact : es = [] → e' = e.numbered n ∧ m = n + e.drawn

def FitsEach (es : List GrammarError) (trees : List Expr) (n : NodeId) (trees' : List Expr)
    (m : NodeId) : Prop :=
  es = [] → trees' = Expr.numberedEach n trees ∧ m = n + Expr.drawnEach trees

/-- What the parser does with the tokens of a phrase, in which there are the errors `es`. -/
def ReadsExpr : Relaxed.ExprPhrase → List Token → List GrammarError → Prop
  | .expression e, w, es => ∀ n, ReadsFrom n expression w es (· ∈ expressionEnds) (Fits es e n)
  | .binary rule e, w, es => ∀ n,
    ReadsFrom n (fun fuel => operation fuel (ruleLevel rule :: tighterLevels rule)) w es
      (Stops (ruleLevel rule :: tighterLevels rule)) (Fits es e n)
  | .binaryRest rule left e, w, es => ∀ n es₀ left' m, Fits es₀ left n left' m →
    ReadsFrom m (fun fuel => operationTail fuel (ruleLevel rule) (tighterLevels rule) left') w es
      (Stops (ruleLevel rule :: tighterLevels rule)) (Fits (es₀ ++ es) e n)
  | .unary e, w, es => ∀ n, ReadsFrom n unary w es (Stops []) (Fits es e n)
  | .call e, w, es => ∀ n,
    ReadsFrom n (fun fuel => primary fuel >>= callTail fuel) w es (Stops []) (Fits es e n)
  | .callRest callee e, w, es => ∀ n es₀ callee' m, Fits es₀ callee n callee' m →
    ReadsFrom m (fun fuel => callTail fuel callee') w es (Stops []) (Fits (es₀ ++ es) e n)
  | .arguments before trees, w, es => ∀ n,
    ReadsFrom n (fun fuel => argumentList fuel before) w es (· = .rightParen)
      (FitsEach es trees n)
  | .primary e, w, es => ∀ n, ReadsFrom n primary w es (fun _ => True) (Fits es e n)

/-- The operands of a rule are operations of the tighter levels. -/
theorem readsExpr_operand {rule : BinaryRule} {e : Expr} {w : List Token}
    {es : List GrammarError} (h : ReadsExpr (operand rule e) w es) (n : NodeId) :
    ReadsFrom n (fun fuel => operation fuel (tighterLevels rule)) w es
      (Stops (tighterLevels rule)) (Fits es e n) := by
  cases rule with
  | factor => exact .succ (h n)
  | _ => exact h n

theorem nextKind_of_startsWith {kinds : List TokenKind} {w : List Token}
    (h : StartsWith kinds w) (rest : List Token) : nextKind (w ++ rest) ∈ kinds := by
  obtain ⟨t, w', rfl, hkind⟩ := h
  exact hkind

theorem ne_of_startsWith {kinds : List TokenKind} {kind : TokenKind} {w : List Token}
    (h : StartsWith kinds w) (hkind : kind ∉ kinds) (rest : List Token) :
    nextKind (w ++ rest) ≠ kind := by
  intro heq
  exact hkind (heq ▸ nextKind_of_startsWith h rest)

theorem nextKind_binaryRest {rule : BinaryRule} {left e : Expr} {w : List Token}
    {es : List GrammarError} (h : Relaxed.ExprDerives (.binaryRest rule left e) w es)
    (rest : List Token) (hstops : Stops (ruleLevel rule :: tighterLevels rule) (nextKind rest)) :
    Stops (tighterLevels rule) (nextKind (w ++ rest)) := by
  rcases h.binaryRest_starts with rfl | hstarts
  · exact hstops.tighter
  · exact stops_tighter_of_operator (nextKind_of_startsWith hstarts rest)

/-- An entry of a list too many is noted before it is read. -/
theorem ReadsFrom.checkLength {α : Type} {list : LimitedList} {count : Nat} {q : Nat → Parser α}
    {first : Token} {w : List Token} {es : List GrammarError} {behind : TokenKind → Prop}
    {post : α → NodeId → Prop} (hq : ReadsFrom n q (first :: w) es behind post) :
    ReadsFrom n (fun fuel => Parser.checkLength list count >>= fun _ => q fuel) (first :: w)
      (excess list count first ++ es) behind post := by
  intro rest errors hnext
  have hlimit : longestList = LimitedList.limit := rfl
  by_cases hshort : count < LimitedList.limit
  · obtain ⟨a, m, hrun, ha⟩ := hq rest errors hnext
    rw [excess, hlimit, if_pos hshort]
    exact ⟨a, m, (Settles.const (checkLength_short hshort)).bind hrun, ha⟩
  · obtain ⟨a, m, hrun, ha⟩ := hq rest (errors ++ [⟨.tooMany list, first⟩]) hnext
    have hnote : Parser.checkLength list count ⟨first :: w ++ rest, errors, n⟩ =
        .ok () ⟨first :: w ++ rest, errors ++ [⟨.tooMany list, first⟩], n⟩ := by
      rw [Parser.checkLength, if_pos (Nat.le_of_not_lt hshort)]
      rfl
    rw [excess, hlimit, if_neg hshort, ← List.append_assoc]
    exact ⟨a, m, (Settles.const hnote).bind hrun, ha⟩

/-! ### The rules -/

theorem reads_binary {rule : BinaryRule} {left e : Expr} {w₁ w₂ : List Token}
    {es₁ es₂ : List GrammarError} (hrest : Relaxed.ExprDerives (.binaryRest rule left e) w₂ es₂)
    (ihLeft : ReadsExpr (operand rule left) w₁ es₁)
    (ihRest : ReadsExpr (.binaryRest rule left e) w₂ es₂) :
    ReadsExpr (.binary rule e) (w₁ ++ w₂) (es₁ ++ es₂) := by
  intro n
  refine .succ ((readsExpr_operand ihLeft n).bind (nextKind_binaryRest hrest) ?_)
  intro left' m hleft
  exact ihRest n es₁ left' m hleft

theorem reads_binaryEnd {rule : BinaryRule} {left : Expr} :
    ReadsExpr (.binaryRest rule left left) [] [] := by
  intro n es₀ left' m hleft
  refine .succ (.acceptAny_none (fun rest hstops => hstops.operator) (.pure ?_))
  rwa [List.append_nil]

theorem reads_binaryMore {rule : BinaryRule} {left right e : Expr} {operator : Token}
    {w₁ w₂ : List Token} {es₁ es₂ : List GrammarError} (hoperator : operator.kind ∈ rule.operators)
    (hrest : Relaxed.ExprDerives (.binaryRest rule (rule.node left operator right) e) w₂ es₂)
    (ihRight : ReadsExpr (operand rule right) w₁ es₁)
    (ihRest : ReadsExpr (.binaryRest rule (rule.node left operator right) e) w₂ es₂) :
    ReadsExpr (.binaryRest rule left e) (operator :: (w₁ ++ w₂)) (es₁ ++ es₂) := by
  intro n es₀ left' m hleft
  have hkind := (operators_ruleLevel rule).symm ▸ hoperator
  refine .succ (.step
    (fun _ _ => acceptAny_cons hkind (BinaryRule.ne_eof_of_mem hoperator)) ?_)
  refine (readsExpr_operand ihRight m).bind (nextKind_binaryRest hrest) fun right' k hright => ?_
  have hnode : Fits (es₀ ++ es₁) (rule.node left operator right) n
      (rule.node left' operator right') k := by
    refine ⟨by cases rule <;> rfl, fun hclean => ?_⟩
    obtain ⟨hclean₀, hclean₁⟩ := List.append_eq_nil_iff.mp hclean
    obtain ⟨rfl, rfl⟩ := hleft.exact hclean₀
    obtain ⟨rfl, rfl⟩ := hright.exact hclean₁
    cases rule <;> exact ⟨rfl, by rw [Nat.add_assoc]; rfl⟩
  have htail := ihRest n (es₀ ++ es₁) _ k hnode
  rwa [List.append_assoc, ← combine_ruleLevel] at htail

theorem reads_prefixed {operator : Token} {e : Expr} {w : List Token} {es : List GrammarError}
    (hoperator : operator.kind = .bang ∨ operator.kind = .minus) (ih : ReadsExpr (.unary e) w es) :
    ReadsExpr (.unary (.unary operator e)) (operator :: w) es := by
  intro n
  have hmem : operator.kind ∈ [TokenKind.bang, .minus] := by simpa using hoperator
  have heof : operator.kind ≠ .eof := by
    rcases hoperator with hkind | hkind <;> rw [hkind] <;> decide
  refine .succ (.step (fun _ _ => acceptAny_cons hmem heof) ((ih n).bind_pure ?_))
  intro e' m he
  refine ⟨rfl, fun hclean => ?_⟩
  obtain ⟨rfl, rfl⟩ := he.exact hclean
  exact ⟨rfl, rfl⟩

theorem reads_unprefixed {e : Expr} {w : List Token} {es : List GrammarError}
    (h : Relaxed.ExprDerives (.call e) w es) (ih : ReadsExpr (.call e) w es) :
    ReadsExpr (.unary e) w es := by
  intro n
  obtain ⟨t, w', rfl, hkind⟩ := h.call_starts
  exact .succ (.acceptAny_none (fun _ _ => hkind) (ih n))

theorem reads_call {callee e : Expr} {w₁ w₂ : List Token} {es₁ es₂ : List GrammarError}
    (ihPrimary : ReadsExpr (.primary callee) w₁ es₁)
    (ihRest : ReadsExpr (.callRest callee e) w₂ es₂) :
    ReadsExpr (.call e) (w₁ ++ w₂) (es₁ ++ es₂) := by
  intro n
  exact (ihPrimary n).bind (fun _ _ => trivial) fun callee' m hcallee => ihRest n es₁ callee' m hcallee

theorem callTail_end {fuel : Nat} {callee : Expr} {s : State}
    (hstops : Stops [] s.ahead.kind) : callTail (fuel + 1) callee s = .ok callee s := by
  obtain ⟨hparen, hdot, -⟩ := hstops
  rw [callTail, peek_bind]
  generalize s.ahead.kind = kind at hparen hdot ⊢
  cases kind <;> first | rfl | contradiction

theorem reads_callEnd {callee : Expr} : ReadsExpr (.callRest callee callee) [] [] := by
  intro n es₀ callee' m hcallee
  have hend : ReadsFrom m (fun _ => pure callee') [] [] (Stops []) (Fits (es₀ ++ []) callee n) :=
    .pure (by rwa [List.append_nil])
  exact .succ (hend.congr fun fuel rest errors hstops => callTail_end hstops)

/-- A call is what its callee and its arguments are. -/
theorem fits_call {callee callee' : Expr} {arguments arguments' : List Expr}
    {es₀ es₁ : List GrammarError} {m k : NodeId} (closing : Token)
    (hcallee : Fits es₀ callee n callee' m) (harguments : FitsEach es₁ arguments m arguments' k) :
    Fits (es₀ ++ es₁) (.call callee closing arguments) n (.call callee' closing arguments') k := by
  refine ⟨rfl, fun hclean => ?_⟩
  obtain ⟨hclean₀, hclean₁⟩ := List.append_eq_nil_iff.mp hclean
  obtain ⟨rfl, rfl⟩ := hcallee.exact hclean₀
  obtain ⟨rfl, rfl⟩ := harguments hclean₁
  exact ⟨rfl, by rw [Nat.add_assoc]; rfl⟩

theorem reads_callEmpty {callee e : Expr} {opening closing : Token} {w : List Token}
    {es : List GrammarError} (hopening : opening.kind = .leftParen)
    (hclosing : closing.kind = .rightParen)
    (ih : ReadsExpr (.callRest (.call callee closing []) e) w es) :
    ReadsExpr (.callRest callee e) (opening :: closing :: w) es := by
  intro n es₀ callee' m hcallee
  have hcall : Fits es₀ (.call callee closing []) n (.call callee' closing []) m := by
    have hempty := fits_call closing hcallee (fun _ => ⟨rfl, rfl⟩ : FitsEach [] [] m [] m)
    rwa [List.append_nil] at hempty
  refine .succ (.peek ?_)
  simp only [hopening]
  refine .advance (by rw [hopening]; decide) (.peek ?_)
  simp only [hclosing, if_true, pure_bind]
  exact .step (fun _ _ => expect_cons hclosing (by decide)) (ih n es₀ _ m hcall)

theorem reads_property {callee e : Expr} {dot name : Token} {w : List Token}
    {es : List GrammarError} (hdot : dot.kind = .dot) (hname : name.kind = .identifier)
    (ih : ReadsExpr (.callRest (.get callee name) e) w es) :
    ReadsExpr (.callRest callee e) (dot :: name :: w) es := by
  intro n es₀ callee' m hcallee
  have hget : Fits es₀ (.get callee name) n (.get callee' name) m := by
    refine ⟨rfl, fun hclean => ?_⟩
    obtain ⟨rfl, rfl⟩ := hcallee.exact hclean
    exact ⟨rfl, rfl⟩
  refine .succ (.peek ?_)
  simp only [hdot]
  exact .advance (by rw [hdot]; decide) (.name hname (ih n es₀ _ m hget))

theorem reads_callWith {callee e : Expr} {arguments : List Expr} {opening closing : Token}
    {w₁ w₂ : List Token} {es₁ es₂ : List GrammarError} (hopening : opening.kind = .leftParen)
    (harguments : Relaxed.ExprDerives (.arguments 0 arguments) w₁ es₁)
    (hclosing : closing.kind = .rightParen)
    (ihArguments : ReadsExpr (.arguments 0 arguments) w₁ es₁)
    (ihRest : ReadsExpr (.callRest (.call callee closing arguments) e) w₂ es₂) :
    ReadsExpr (.callRest callee e) (opening :: (w₁ ++ closing :: w₂)) (es₁ ++ es₂) := by
  intro n es₀ callee' m hcallee
  have hstarts := harguments.starts id
  refine .succ (.peek ?_)
  simp only [hopening]
  refine .advance (by rw [hopening]; decide) ?_
  obtain ⟨t, w, rfl, hkind⟩ := hstarts
  have ht : t.kind ≠ .rightParen := fun heq => absurd (heq ▸ hkind) (by decide)
  refine .peek ?_
  simp only [if_neg ht]
  refine (ihArguments m).bind (fun rest _ => hclosing) fun arguments' k harguments => ?_
  have hcall := fits_call closing hcallee harguments
  have htail := ihRest n (es₀ ++ es₁) _ k hcall
  rw [List.append_assoc] at htail
  exact .step (fun _ _ => expect_cons hclosing (by decide)) htail

theorem reads_argument {before : Nat} {e : Expr} {first : Token} {w : List Token}
    {es : List GrammarError} (ih : ReadsExpr (.expression e) (first :: w) es) :
    ReadsExpr (.arguments before [e]) (first :: w) (excess .arguments before first ++ es) := by
  intro n
  refine .succ (.checkLength ((ih n).last ?_ fun e' m he => ?_))
  · rintro kind rfl
    decide
  · refine .accept_none (fun rest hnext => ?_) (.pure fun hclean => ?_)
    · rw [List.nil_append, hnext]
      decide
    · obtain ⟨rfl, rfl⟩ := he.exact (List.append_eq_nil_iff.mp hclean).2
      exact ⟨rfl, rfl⟩

theorem reads_argumentsMore {before : Nat} {e : Expr} {trees : List Expr} {first comma : Token}
    {w₁ w₂ : List Token} {es₁ es₂ : List GrammarError} (hcomma : comma.kind = .comma)
    (ihFirst : ReadsExpr (.expression e) (first :: w₁) es₁)
    (ihRest : ReadsExpr (.arguments (before + 1) trees) w₂ es₂) :
    ReadsExpr (.arguments before (e :: trees)) (first :: w₁ ++ comma :: w₂)
      (excess .arguments before first ++ (es₁ ++ es₂)) := by
  intro n
  refine .succ (.checkLength ((ihFirst n).bind ?_ fun e' m he => ?_))
  · intro rest _
    rw [nextKind, List.cons_append, List.headD_cons, hcomma]
    decide
  · refine .accept hcomma (by decide) ((ihRest m).bind_pure fun trees' k htrees hclean => ?_)
    obtain ⟨-, hclean⟩ := List.append_eq_nil_iff.mp hclean
    obtain ⟨hclean₁, hclean₂⟩ := List.append_eq_nil_iff.mp hclean
    obtain ⟨rfl, rfl⟩ := he.exact hclean₁
    obtain ⟨rfl, rfl⟩ := htrees hclean₂
    exact ⟨rfl, by rw [Nat.add_assoc]; rfl⟩

theorem reads_literal {t : Token} {value : Literal} (hliteral : t.literal? = some value) :
    ReadsExpr (.primary (.literal value)) [t] [] := by
  intro n
  refine .succ (.peek ?_)
  simp only [hliteral]
  exact .advance (kind_ne_eof_of_literal? hliteral) (.pure ⟨rfl, fun _ => ⟨rfl, rfl⟩⟩)

theorem literal?_none {t : Token} {kind : TokenKind} (hkind : t.kind = kind)
    (hplain : kind ∈ [TokenKind.kwThis, .kwSuper, .identifier, .leftParen]) :
    t.literal? = none := by
  simp only [List.mem_cons, List.not_mem_nil, or_false] at hplain
  rcases hplain with rfl | rfl | rfl | rfl <;> simp only [Token.literal?, hkind]

theorem reads_this {id : NodeId} {t : Token} (hkind : t.kind = .kwThis) :
    ReadsExpr (.primary (.this ⟨id, t⟩)) [t] [] := by
  intro n
  refine .succ (.peek ?_)
  simp only [literal?_none hkind (by decide), hkind]
  exact .advance (by rw [hkind]; decide) (.occurrence (.pure ⟨rfl, fun _ => ⟨rfl, rfl⟩⟩))

theorem reads_name {id : NodeId} {t : Token} (hkind : t.kind = .identifier) :
    ReadsExpr (.primary (.read ⟨id, t⟩)) [t] [] := by
  intro n
  refine .succ (.peek ?_)
  simp only [literal?_none hkind (by decide), hkind]
  exact .advance (by rw [hkind]; decide) (.occurrence (.pure ⟨rfl, fun _ => ⟨rfl, rfl⟩⟩))

theorem reads_super {id : NodeId} {keyword dot method : Token} (hkind : keyword.kind = .kwSuper)
    (hdot : dot.kind = .dot) (hmethod : method.kind = .identifier) :
    ReadsExpr (.primary (.super ⟨id, keyword⟩ method)) [keyword, dot, method] [] := by
  intro n
  refine .succ (.peek ?_)
  simp only [literal?_none hkind (by decide), hkind]
  exact .advance (by rw [hkind]; decide) (.mark hdot (by decide) (.name hmethod
    (.occurrence (.pure ⟨rfl, fun _ => ⟨rfl, rfl⟩⟩))))

theorem reads_group {e : Expr} {opening closing : Token} {w : List Token}
    {es : List GrammarError} (hopening : opening.kind = .leftParen)
    (hclosing : closing.kind = .rightParen) (ih : ReadsExpr (.expression e) w es) :
    ReadsExpr (.primary (.group e)) (opening :: (w ++ [closing])) es := by
  intro n
  refine .succ (.peek ?_)
  simp only [literal?_none hopening (by decide), hopening]
  refine .advance (by rw [hopening]; decide) ((ih n).snoc (by rw [hclosing]; decide) ?_)
  intro e' m he
  refine .mark hclosing (by decide) (.pure ⟨rfl, fun hclean => ?_⟩)
  obtain ⟨rfl, rfl⟩ := he.exact hclean
  exact ⟨rfl, rfl⟩

/-- The primaries that contain no others. -/
theorem reads_simple {e : Expr} {w : List Token} (h : Grammar.ExprDerives (.primary e) w)
    (hsimple : ∀ inner, e ≠ .group inner) : ReadsExpr (.primary e) w [] := by
  cases h with
  | number hkind => exact reads_literal (by simp only [Token.literal?, hkind])
  | string hkind => exact reads_literal (by simp only [Token.literal?, hkind])
  | kwTrue hkind => exact reads_literal (by simp only [Token.literal?, hkind])
  | kwFalse hkind => exact reads_literal (by simp only [Token.literal?, hkind])
  | kwNil hkind => exact reads_literal (by simp only [Token.literal?, hkind])
  | kwThis hkind => exact reads_this hkind
  | name hkind => exact reads_name hkind
  | group => exact absurd rfl (hsimple _)
  | kwSuper hkind hdot hmethod => exact reads_super hkind hdot hmethod

/-! ### Assignments -/

theorem reads_operation {e : Expr} {w : List Token} {es : List GrammarError}
    (ih : ReadsExpr (.binary .logicOr e) w es) : ReadsExpr (.expression e) w es := by
  intro n
  refine .succ ((ih n).last (fun kind h => stops_of_expressionEnds h) fun e' m he => ?_)
  exact .accept_none (fun rest hends => ne_equal_of_expressionEnds hends) (.pure he)

theorem isTarget_assigned (left value : Expr) : (assigned left value).isTarget = false := by
  cases left <;> rfl

/-- Whether an assignment has a target is told by what was read on its left. -/
theorem reads_assignTo {left left' value value' : Expr} {equals : Token}
    {es₁ es₂ : List GrammarError} {behind : TokenKind → Prop} {m k : NodeId}
    (hleft : Fits es₁ left n left' m) (hvalue : Fits es₂ value m value' k) :
    ReadsFrom k (fun _ => assignTo left' equals value') [] (misplaced left equals) behind
      (Fits (es₁ ++ (es₂ ++ misplaced left equals)) (assigned left value) n) := by
  -- If no error was recorded, both sides were read as they are.
  have hparts : ∀ {es₃ : List GrammarError}, es₁ ++ (es₂ ++ es₃) = [] →
      (left' = left.numbered n ∧ m = n + left.drawn) ∧
        value' = value.numbered m ∧ k = m + value.drawn := by
    intro es₃ hclean
    obtain ⟨hclean₁, hclean⟩ := List.append_eq_nil_iff.mp hclean
    exact ⟨hleft.exact hclean₁, hvalue.exact (List.append_eq_nil_iff.mp hclean).1⟩
  have htarget := hleft.target
  by_cases hgood : left.isTarget = true
  · -- A target: the name gets a new occurrence, the property none.
    rw [misplaced, if_pos hgood]
    rw [hgood] at htarget
    cases left' with
    | read place =>
      refine .occurrence (.pure ⟨(isTarget_assigned left value).symm, fun hclean => ?_⟩)
      obtain ⟨⟨hsame, rfl⟩, rfl, rfl⟩ := hparts hclean
      cases left with
      | read place' =>
        cases hsame
        have hcount : ∀ a b : Nat, a + 1 + b + 1 = a + (b + 2) := by omega
        exact ⟨by simp only [assigned, Expr.numbered, Expr.drawn, Nat.add_right_comm],
          hcount n value.drawn⟩
      | _ => cases hsame
    | get object name =>
      refine .pure ⟨(isTarget_assigned left value).symm, fun hclean => ?_⟩
      obtain ⟨⟨hsame, rfl⟩, rfl, rfl⟩ := hparts hclean
      cases left with
      | get object' name' =>
        cases hsame
        exact ⟨rfl, by rw [Nat.add_assoc]; rfl⟩
      | _ => cases hsame
    | _ => cases htarget
  · -- No target: the error is recorded, and the left side stands as it was read.
    have hbad : left.isTarget = false := by simpa using hgood
    rw [misplaced, if_neg hgood]
    rw [hbad] at htarget
    intro rest errors _
    refine ⟨left', k, .const ?_, ?_, ?_⟩
    · cases left' <;> first | rfl | cases htarget
    · rw [htarget, isTarget_assigned]
    · intro hclean
      simp at hclean

theorem reads_assignment {left value : Expr} {equals : Token} {w₁ w₂ : List Token}
    {es₁ es₂ : List GrammarError} (hequals : equals.kind = .equal)
    (ihLeft : ReadsExpr (.binary .logicOr left) w₁ es₁)
    (ihValue : ReadsExpr (.expression value) w₂ es₂) :
    ReadsExpr (.expression (assigned left value)) (w₁ ++ equals :: w₂)
      (es₁ ++ (es₂ ++ misplaced left equals)) := by
  intro n
  refine .succ ((ihLeft n).bind (fun rest _ => ?_) fun left' m hleft => ?_)
  · rw [nextKind, List.cons_append, List.headD_cons, hequals]
    decide
  · exact .accept hequals (by decide) ((ihValue m).ending (fun _ h => h)
      fun value' k hvalue => reads_assignTo hleft hvalue)

/-! ### All phrases -/

/-- The parser reads the tokens of every phrase and notes the errors in it. -/
theorem readsExpr {phrase : Relaxed.ExprPhrase} {w : List Token} {es : List GrammarError}
    (h : Relaxed.ExprDerives phrase w es) : ReadsExpr phrase w es := by
  induction h with
  | assignment _ hequals _ ih ih' => exact reads_assignment hequals ih ih'
  | operation _ ih => exact reads_operation ih
  | binary _ hrest ih ih' => exact reads_binary hrest ih ih'
  | binaryEnd => exact reads_binaryEnd
  | binaryMore hoperator _ hrest ih ih' => exact reads_binaryMore hoperator hrest ih ih'
  | prefixed hoperator _ ih => exact reads_prefixed hoperator ih
  | unprefixed hcall ih => exact reads_unprefixed hcall ih
  | call _ _ ih ih' => exact reads_call ih ih'
  | callEnd => exact reads_callEnd
  | callEmpty hopening hclosing _ ih => exact reads_callEmpty hopening hclosing ih
  | callWith hopening harguments hclosing _ ih ih' =>
    exact reads_callWith hopening harguments hclosing ih ih'
  | property hdot hname _ ih => exact reads_property hdot hname ih
  | argument _ ih => exact reads_argument ih
  | argumentsMore _ hcomma _ ih ih' => exact reads_argumentsMore hcomma ih ih'
  | simple hprimary hsimple => exact reads_simple hprimary hsimple
  | group hopening _ hclosing ih => exact reads_group hopening hclosing ih

end Lox.Parser
