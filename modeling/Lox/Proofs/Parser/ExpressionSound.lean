import Lox.Parser.Expression
import Lox.Proofs.Grammar
import Lox.Proofs.Parser.Ensures

/-!
# What the parser reads as an expression follows the grammar

By induction on the bound of the recursion: if a function of the parser succeeds
and no error was noted, then the tokens it stepped over form a phrase of the
grammar, and the phrase stands for the tree that was returned.  The one place
where the parser and the grammar take different ways is an assignment, whose
target is read as an operation first.  The shape of that operation's tree tells
which tokens it was read from.
-/

namespace Lox.Parser

open Lox.Grammar

/-! ### Levels and rules -/

def Level.rule : Level → BinaryRule
  | disjunction => .logicOr
  | conjunction => .logicAnd
  | equality => .equality
  | comparison => .comparison
  | sum => .term
  | product => .factor

/-- The phrases that operands joined by operators of the given levels form. -/
def Level.phrase : List Level → Expr → ExprPhrase
  | [] => .unary
  | level :: _ => .binary level.rule

/-- Levels of which each has the next one's phrases as its operands. -/
def Level.Nested : List Level → Prop
  | [] => True
  | level :: tighter => level.rule.operand = Level.phrase tighter ∧ Level.Nested tighter

theorem Level.nested_all : Level.Nested Level.all := ⟨rfl, rfl, rfl, rfl, rfl, rfl, trivial⟩

theorem Level.operators_rule (level : Level) : level.rule.operators = level.operators := by
  cases level <;> rfl

theorem Level.node_rule (level : Level) : level.rule.node = level.combine := by
  cases level <;> rfl

/-! ### The tokens of an assignment target -/

/-- What a level makes of an operand is the operand itself or an operator node. -/
theorem binaryRest_cases {rule : BinaryRule} {left e : Expr} {w : List Token}
    (h : ExprDerives (.binaryRest rule left e) w) :
    (w = [] ∧ e = left) ∨ ∃ l operator r, e = rule.node l operator r := by
  generalize hphrase : ExprPhrase.binaryRest rule left e = phrase at h
  induction h generalizing left with
  | binaryEnd =>
    cases hphrase
    exact .inl ⟨rfl, rfl⟩
  | @binaryMore _ _ right _ operator _ _ _ _ _ _ ih =>
    cases hphrase
    rcases ih rfl with ⟨-, rfl⟩ | hnode
    · exact .inr ⟨_, _, _, rfl⟩
    · exact .inr hnode
  | _ => cases hphrase

/-- An expression that is no operator node is read alike at all levels. -/
def IsOperation : Expr → Prop
  | .unary _ _ => True
  | .binary _ _ _ => True
  | .logical _ _ _ => True
  | _ => False

theorem isOperation_node (rule : BinaryRule) (left right : Expr) (operator : Token) :
    IsOperation (rule.node left operator right) := by
  cases rule <;> trivial

theorem operand_of_binary {rule : BinaryRule} {e : Expr} {w : List Token}
    (h : ExprDerives (.binary rule e) w) (hplain : ¬ IsOperation e) :
    ExprDerives (rule.operand e) w := by
  cases h with
  | binary hleft hrest =>
    rcases binaryRest_cases hrest with ⟨rfl, rfl⟩ | ⟨l, operator, r, rfl⟩
    · rw [List.append_nil]
      exact hleft
    · exact absurd (isOperation_node _ _ _ _) hplain

theorem call_of_binary {e : Expr} {w : List Token}
    (h : ExprDerives (.binary .logicOr e) w) (hplain : ¬ IsOperation e) :
    ExprDerives (.call e) w := by
  have hAnd := operand_of_binary h hplain
  have hEquality := operand_of_binary hAnd hplain
  have hComparison := operand_of_binary hEquality hplain
  have hTerm := operand_of_binary hComparison hplain
  have hFactor := operand_of_binary hTerm hplain
  have hUnary := operand_of_binary hFactor hplain
  cases hUnary with
  | prefixed => exact absurd trivial hplain
  | unprefixed hcall => exact hcall

/-- The last step of a chain of calls and property accesses. -/
theorem callRest_cases {callee e : Expr} {w : List Token}
    (h : ExprDerives (.callRest callee e) w) :
    (w = [] ∧ e = callee) ∨ (∃ c paren arguments, e = .call c paren arguments) ∨
      ∃ object name dot w', e = .get object name ∧ w = w' ++ [dot, name] ∧
        dot.kind = .dot ∧ name.kind = .identifier ∧ ExprDerives (.callRest callee object) w' := by
  generalize hphrase : ExprPhrase.callRest callee e = phrase at h
  induction h generalizing callee with
  | callEnd =>
    cases hphrase
    exact .inl ⟨rfl, rfl⟩
  | callEmpty hopening hclosing _ ih =>
    cases hphrase
    rcases ih rfl with ⟨rfl, rfl⟩ | hcall | ⟨object, name, dot, w', rfl, rfl, hdot, hname, hrest⟩
    · exact .inr (.inl ⟨_, _, _, rfl⟩)
    · exact .inr (.inl hcall)
    · exact .inr (.inr ⟨object, name, dot, _, rfl, rfl, hdot, hname,
        .callEmpty hopening hclosing hrest⟩)
  | callWith hopening harguments hlength hclosing _ _ ih =>
    cases hphrase
    rcases ih rfl with ⟨rfl, rfl⟩ | hcall | ⟨object, name, dot, w', rfl, rfl, hdot, hname, hrest⟩
    · exact .inr (.inl ⟨_, _, _, rfl⟩)
    · exact .inr (.inl hcall)
    · refine .inr (.inr ⟨object, name, dot, _, rfl, ?_, hdot, hname,
        .callWith hopening harguments hlength hclosing hrest⟩)
      simp only [List.cons_append, List.append_assoc]
  | @property _ _ dot name _ hdot hname _ ih =>
    cases hphrase
    rcases ih rfl with ⟨rfl, rfl⟩ | hcall | ⟨object, name', dot', w', rfl, rfl, hdot', hname', hrest⟩
    · exact .inr (.inr ⟨_, name, dot, [], rfl, rfl, hdot, hname, .callEnd⟩)
    · exact .inr (.inl hcall)
    · exact .inr (.inr ⟨object, name', dot', _, rfl, rfl, hdot', hname',
        .property hdot hname hrest⟩)
  | _ => cases hphrase

/-- A name that was read as an operation is one token. -/
theorem read_of_binary {place : Occurrence} {w : List Token}
    (h : ExprDerives (.binary .logicOr (.read place)) w) :
    w = [place.token] ∧ place.token.kind = .identifier := by
  cases call_of_binary h id with
  | call hprimary hrest =>
    rcases callRest_cases hrest with ⟨rfl, rfl⟩ | ⟨_, _, _, heq⟩ | ⟨_, _, _, _, heq, _⟩
    · cases hprimary with
      | name hkind => exact ⟨rfl, hkind⟩
    · cases heq
    · cases heq

/-- A property access that was read as an operation ends in a dot and a name. -/
theorem get_of_binary {object : Expr} {name : Token} {w : List Token}
    (h : ExprDerives (.binary .logicOr (.get object name)) w) :
    ∃ dot w', w = w' ++ [dot, name] ∧ dot.kind = .dot ∧ name.kind = .identifier ∧
      ExprDerives (.call object) w' := by
  cases call_of_binary h id with
  | call hprimary hrest =>
    rcases callRest_cases hrest with ⟨rfl, rfl⟩ | ⟨_, _, _, heq⟩ |
      ⟨_, _, dot, w', heq, rfl, hdot, hname, hobject⟩
    · cases hprimary
    · cases heq
    · cases heq
      exact ⟨dot, _, by rw [List.append_assoc], hdot, hname, .call hprimary hobject⟩

/-! ### The functions of the parser -/

/-- What a recursion bounded by `fuel` reads is derived by the grammar. -/
structure ExprSound (fuel : Nat) : Prop where
  expression (s : State) : Ensures (expression fuel) s fun e s' =>
    Took (ExprDerives (.expression e)) s s'
  operation (levels : List Level) (hnested : Level.Nested levels) (s : State) :
    Ensures (operation fuel levels) s fun e s' =>
      Took (ExprDerives (Level.phrase levels e)) s s'
  operationTail (level : Level) (tighter : List Level) (left : Expr)
    (hnested : Level.Nested (level :: tighter)) (s : State) :
    Ensures (operationTail fuel level tighter left) s fun e s' =>
      Took (ExprDerives (.binaryRest level.rule left e)) s s'
  unary (s : State) : Ensures (unary fuel) s fun e s' => Took (ExprDerives (.unary e)) s s'
  callTail (callee : Expr) (s : State) : Ensures (callTail fuel callee) s fun e s' =>
    Took (ExprDerives (.callRest callee e)) s s'
  argumentList (count : Nat) (s : State) : Ensures (argumentList fuel count) s fun es s' =>
    Took (fun w => ExprDerives (.arguments es) w ∧ count + es.length ≤ longestList) s s'
  primary (s : State) : Ensures (primary fuel) s fun e s' => Took (ExprDerives (.primary e)) s s'

variable {fuel : Nat}

theorem assignTo_sound {target value : Expr} {equals : Token} {s s₁ s₂ s₃ : State}
    (htarget : Took (ExprDerives (.binary .logicOr target)) s s₁)
    (hequals : Took (· = [equals]) s₁ s₂) (hkind : equals.kind = .equal)
    (hvalue : Took (ExprDerives (.expression value)) s₂ s₃) :
    Ensures (assignTo target equals value) s₃ fun e s' =>
      Took (ExprDerives (.expression e)) s s' := by
  have hall := htarget.trans (hequals.cons hvalue)
  unfold assignTo
  split
  · refine Ensures.bind ensures_occurrence ?_
    rintro ⟨id, token⟩ s' ⟨rfl, hplace⟩
    refine ensures_pure ((hall.trans hplace).imp ?_)
    rintro w ⟨_, _, rfl, ⟨w₁, _, rfl, hread, w₂, rfl, hvalue⟩, rfl⟩
    obtain ⟨rfl, hname⟩ := read_of_binary hread
    rw [List.append_nil]
    exact .assign hname hkind hvalue
  · refine ensures_pure (hall.imp ?_)
    rintro w ⟨w₁, _, rfl, hget, w₂, rfl, hvalue⟩
    obtain ⟨dot, w', rfl, hdot, hname, hobject⟩ := get_of_binary hget
    rw [List.append_assoc]
    exact .set hobject hdot hname hkind hvalue
  · have hrecord : Ensures (record .invalidTarget equals) s₃ fun _ s' =>
        Took (fun _ => False) s₃ s' := ensures_record
    refine Ensures.bind hrecord fun _ s' hrecorded => ?_
    refine ensures_pure fun hclean => ?_
    obtain ⟨-, _, -, hfalse⟩ := hrecorded hclean
    exact hfalse.elim

theorem expression_sound (ih : ExprSound fuel) (s : State) :
    Ensures (expression (fuel + 1)) s fun e s' => Took (ExprDerives (.expression e)) s s' := by
  unfold expression
  refine Ensures.bind (ih.operation Level.all Level.nested_all s) fun target s₁ htarget => ?_
  refine Ensures.bind (ensures_accept (by decide)) fun found s₂ hfound => ?_
  rcases hfound with ⟨equals, rfl, hkind, hequals⟩ | ⟨rfl, rfl, -⟩
  · exact Ensures.bind (ih.expression s₂) fun value s₃ hvalue =>
      assignTo_sound htarget hequals hkind hvalue
  · exact ensures_pure (htarget.imp fun w hw => .operation hw)

theorem operation_sound (ih : ExprSound fuel) (levels : List Level)
    (hnested : Level.Nested levels) (s : State) :
    Ensures (operation (fuel + 1) levels) s fun e s' =>
      Took (ExprDerives (Level.phrase levels e)) s s' := by
  cases levels with
  | nil =>
    unfold operation
    exact ih.unary s
  | cons level tighter =>
    unfold operation
    refine Ensures.bind (ih.operation tighter hnested.2 s) fun left s₁ hleft => ?_
    refine (ih.operationTail level tighter left hnested s₁).mono fun e s₂ hrest => ?_
    refine (hleft.trans hrest).imp ?_
    rintro w ⟨w₁, w₂, rfl, hleft, hrest⟩
    rw [← hnested.1] at hleft
    exact .binary hleft hrest

theorem operationTail_sound (ih : ExprSound fuel) (level : Level) (tighter : List Level)
    (left : Expr) (hnested : Level.Nested (level :: tighter)) (s : State) :
    Ensures (operationTail (fuel + 1) level tighter left) s fun e s' =>
      Took (ExprDerives (.binaryRest level.rule left e)) s s' := by
  unfold operationTail
  refine Ensures.bind (ensures_acceptAny (by cases level <;> decide)) fun found s₁ hfound => ?_
  rcases hfound with ⟨operator, rfl, hkind, hoperator⟩ | ⟨rfl, rfl, -⟩
  · refine Ensures.bind (ih.operation tighter hnested.2 s₁) fun right s₂ hright => ?_
    refine (ih.operationTail level tighter _ hnested s₂).mono fun e s₃ hrest => ?_
    refine (hoperator.cons (hright.trans hrest)).imp ?_
    rintro w ⟨_, rfl, w₁, w₂, rfl, hright, hrest⟩
    rw [← hnested.1] at hright
    rw [← Level.node_rule] at hrest
    rw [← Level.operators_rule] at hkind
    exact .binaryMore hkind hright hrest
  · exact ensures_pure (.nothing .binaryEnd)

theorem unary_sound (ih : ExprSound fuel) (s : State) :
    Ensures (unary (fuel + 1)) s fun e s' => Took (ExprDerives (.unary e)) s s' := by
  unfold unary
  refine Ensures.bind (ensures_acceptAny (by decide)) fun found s₁ hfound => ?_
  rcases hfound with ⟨operator, rfl, hkind, hoperator⟩ | ⟨rfl, rfl, -⟩
  · refine Ensures.bind (ih.unary s₁) fun operand s₂ hoperand => ?_
    refine ensures_pure ((hoperator.cons hoperand).imp ?_)
    rintro w ⟨w', rfl, hoperand⟩
    exact .prefixed (by simpa using hkind) hoperand
  · refine Ensures.bind (ih.primary s₁) fun callee s₂ hcallee => ?_
    refine (ih.callTail callee s₂).mono fun e s₃ hrest => (hcallee.trans hrest).imp ?_
    rintro w ⟨w₁, w₂, rfl, hcallee, hrest⟩
    exact .unprefixed (.call hcallee hrest)

theorem callTail_sound (ih : ExprSound fuel) (callee : Expr) (s : State) :
    Ensures (callTail (fuel + 1) callee) s fun e s' =>
      Took (ExprDerives (.callRest callee e)) s s' := by
  unfold callTail
  refine Ensures.peek_bind ?_
  split
  · rename_i hkind
    refine Ensures.bind (ensures_advance (by rw [hkind]; decide)) ?_
    rintro opening s₁ ⟨rfl, hopening⟩
    refine Ensures.peek_bind ?_
    -- The arguments are absent, or a list that was not too long.
    have hfinish : ∀ arguments s₂, Took (fun w => (w = [] ∧ arguments = []) ∨
        (ExprDerives (.arguments arguments) w ∧ arguments.length ≤ longestList)) s₁ s₂ →
        Ensures (do
          let paren ← expect .rightParen (.noMark .rightParen .afterArguments)
          callTail fuel (.call callee paren arguments)) s₂ fun e s' =>
            Took (ExprDerives (.callRest callee e)) s s' := by
      intro arguments s₂ harguments
      refine Ensures.bind (ensures_expect (by decide)) fun paren s₃ hparen => ?_
      refine (ih.callTail _ s₃).mono fun e s₄ hrest => ?_
      refine (hopening.cons (harguments.trans (hparen.2.cons hrest))).imp ?_
      rintro w ⟨_, rfl, w₁, _, rfl, ⟨rfl, rfl⟩ | ⟨harguments, hlength⟩, w₂, rfl, hrest⟩
      · exact .callEmpty hkind hparen.1 hrest
      · exact .callWith hkind harguments hlength hparen.1 hrest
    split
    · exact hfinish [] s₁ (.nothing (.inl ⟨rfl, rfl⟩))
    · refine Ensures.bind (ih.argumentList 0 s₁) fun es s₂ hes => ?_
      refine hfinish es s₂ (hes.imp fun w hw => .inr ?_)
      rwa [Nat.zero_add] at hw
  · rename_i hkind
    refine Ensures.bind (ensures_advance (by rw [hkind]; decide)) ?_
    rintro dot s₁ ⟨rfl, hdot⟩
    refine Ensures.bind ensures_expectName fun name s₂ hname => ?_
    refine (ih.callTail _ s₂).mono fun e s₃ hrest => ?_
    refine (hdot.cons (hname.2.cons hrest)).imp ?_
    rintro w ⟨_, rfl, w', rfl, hrest⟩
    exact .property hkind hname.1 hrest
  · exact ensures_pure (.nothing .callEnd)

theorem argumentList_sound (ih : ExprSound fuel) (count : Nat) (s : State) :
    Ensures (argumentList (fuel + 1) count) s fun es s' =>
      Took (fun w => ExprDerives (.arguments es) w ∧ count + es.length ≤ longestList) s s' := by
  unfold argumentList
  refine Ensures.bind ensures_checkLength fun _ s₁ hlength => ?_
  refine Ensures.bind (ih.expression s₁) fun argument s₂ hargument => ?_
  refine Ensures.bind (ensures_accept (by decide)) fun found s₃ hfound => ?_
  rcases hfound with ⟨comma, rfl, hkind, hcomma⟩ | ⟨rfl, rfl, -⟩
  · refine Ensures.bind (ih.argumentList (count + 1) s₃) fun es s₄ hes => ?_
    refine ensures_pure ((hlength.trans (hargument.trans (hcomma.cons hes))).imp ?_)
    rintro w ⟨_, _, rfl, ⟨rfl, -⟩, w₁, _, rfl, hargument, w₂, rfl, hes, hcount⟩
    refine ⟨.argumentsMore hargument hkind hes, ?_⟩
    rw [List.length_cons]
    omega
  · refine ensures_pure ((hlength.trans hargument).imp ?_)
    rintro w ⟨_, w', rfl, ⟨rfl, hcount⟩, hargument⟩
    exact ⟨.argument hargument, hcount⟩

theorem literal?_sound {t : Token} {value : Literal} (h : t.literal? = some value) :
    ExprDerives (.primary (.literal value)) [t] := by
  unfold Token.literal? at h
  split at h <;> cases h
  · exact .number ‹_›
  · exact .string ‹_›
  · exact .kwTrue ‹_›
  · exact .kwFalse ‹_›
  · exact .kwNil ‹_›

theorem kind_ne_eof_of_literal? {t : Token} {value : Literal} (h : t.literal? = some value) :
    t.kind ≠ .eof := by
  intro heof
  simp [Token.literal?, heof] at h

theorem primary_sound (ih : ExprSound fuel) (s : State) :
    Ensures (primary (fuel + 1)) s fun e s' => Took (ExprDerives (.primary e)) s s' := by
  unfold primary
  refine Ensures.peek_bind ?_
  split
  · -- A literal.
    rename_i hliteral
    refine Ensures.bind (ensures_advance (kind_ne_eof_of_literal? hliteral)) ?_
    rintro t s₁ ⟨rfl, htoken⟩
    exact ensures_pure (htoken.imp fun w hw => hw ▸ literal?_sound hliteral)
  · -- `this`, whose occurrence takes an identity and no token.
    rename_i hkind
    refine Ensures.bind (ensures_advance (by rw [hkind]; decide)) ?_
    rintro t s₁ ⟨rfl, htoken⟩
    refine Ensures.bind ensures_occurrence ?_
    rintro ⟨id, token⟩ s₂ ⟨rfl, hplace⟩
    refine ensures_pure ((htoken.trans hplace).imp ?_)
    rintro w ⟨_, _, rfl, rfl, rfl⟩
    exact .kwThis hkind
  · -- `super`, with the name of a method behind a dot.
    rename_i hkind
    refine Ensures.bind (ensures_advance (by rw [hkind]; decide)) ?_
    rintro keyword s₁ ⟨rfl, hkeyword⟩
    refine Ensures.bind (ensures_expectMark (by decide)) ?_
    rintro _ s₂ ⟨dot, hdot, htook⟩
    refine Ensures.bind ensures_expectName fun method s₃ hmethod => ?_
    refine Ensures.bind ensures_occurrence ?_
    rintro ⟨id, token⟩ s₄ ⟨rfl, hplace⟩
    refine ensures_pure ((hkeyword.cons (htook.cons (hmethod.2.trans hplace))).imp ?_)
    rintro w ⟨_, rfl, _, rfl, _, _, rfl, rfl, rfl⟩
    exact .kwSuper hkind hdot hmethod.1
  · -- A name.
    rename_i hkind
    refine Ensures.bind (ensures_advance (by rw [hkind]; decide)) ?_
    rintro t s₁ ⟨rfl, htoken⟩
    refine Ensures.bind ensures_occurrence ?_
    rintro ⟨id, token⟩ s₂ ⟨rfl, hplace⟩
    refine ensures_pure ((htoken.trans hplace).imp ?_)
    rintro w ⟨_, _, rfl, rfl, rfl⟩
    exact .name hkind
  · -- A group.
    rename_i hkind
    refine Ensures.bind (ensures_advance (by rw [hkind]; decide)) ?_
    rintro opening s₁ ⟨rfl, hopening⟩
    refine Ensures.bind (ih.expression s₁) fun inner s₂ hinner => ?_
    refine Ensures.bind (ensures_expectMark (by decide)) ?_
    rintro _ s₃ ⟨closing, hclosing, htook⟩
    refine ensures_pure ((hopening.cons (hinner.snoc htook)).imp ?_)
    rintro w ⟨_, rfl, w', rfl, hinner⟩
    exact .group hkind hinner hclosing
  · -- No expression starts here.
    exact ensures_fail

theorem exprSound : ∀ fuel, ExprSound fuel := by
  intro fuel
  induction fuel with
  | zero =>
    exact {
      expression := fun _ => ensures_outOfFuel
      operation := fun _ _ _ => ensures_outOfFuel
      operationTail := fun _ _ _ _ _ => ensures_outOfFuel
      unary := fun _ => ensures_outOfFuel
      callTail := fun _ _ => ensures_outOfFuel
      argumentList := fun _ _ => ensures_outOfFuel
      primary := fun _ => ensures_outOfFuel }
  | succ fuel ih =>
    exact {
      expression := expression_sound ih
      operation := operation_sound ih
      operationTail := operationTail_sound ih
      unary := unary_sound ih
      callTail := callTail_sound ih
      argumentList := argumentList_sound ih
      primary := primary_sound ih }

end Lox.Parser
