import Lox.Proofs.Parser.Acceptance
import Lox.Proofs.Parser.InBounds
import Lox.Proofs.Parser.Settled
import Lox.Proofs.Token.Spelling

/-!
# The parser goes on and comes to its end

Each loop of the parser is a function that calls itself where another turn begins.  Here a
turn is taken by itself, so that it can be said what it does: it steps over a token, or
leaves the loop, or stops with an error.  Together with what holds of all functions this
shows that every parse ends at the end of input, without having looked beyond it.
-/

namespace Lox.Parser

open Lox.Grammar

variable {ι α : Type} {tokens : List Token}

/-! ### Turns of loops -/

/-- What a turn comes to: another turn, with what is done to its result, or the end of the loop. -/
inductive Turn (ι α : Type) where
  | again (next : ι) (finish : α → α)
  | leave (result : α)

def Turn.go (loop : ι → Parser α) : Turn ι α → Parser α
  | .again next finish => finish <$> loop next
  | .leave result => pure result

/-- The loop consists of the turns, and a turn that another one follows has stepped over a token. -/
structure LoopAdvances (tokens : List Token) (loop : Nat → ι → Parser α)
    (turn : Nat → ι → Parser (Turn ι α)) : Prop where
  unfold : ∀ fuel i, loop (fuel + 1) i = turn fuel i >>= Turn.go (loop fuel)
  advances : ∀ {fuel i s s' next finish}, Within tokens s →
    turn fuel i s = .ok (.again next finish) s' → s'.rest.length < s.rest.length

def declarationsTurn (endings : List TokenKind) (fuel : Nat) (_ : Unit) :
    Parser (Turn Unit (List Stmt)) := do
  if (← peek).kind ∈ endings then return .leave []
  else
    let found ← declaration fuel
    return .again () (found.toList ++ ·)

def methodsTurn (fuel : Nat) (_ : Unit) : Parser (Turn Unit (List FunctionDecl)) := do
  if (← peek).kind ∈ [TokenKind.rightBrace, .eof] then return .leave []
  else
    let first ← routine fuel .method
    return .again () (first :: ·)

def parameterTurn (_ count : Nat) : Parser (Turn Nat (List Token)) := do
  checkLength .parameters count
  let parameter ← expectName .parameterName
  match ← accept .comma with
  | none => return .leave [parameter]
  | some _ => return .again (count + 1) (parameter :: ·)

def argumentTurn (fuel count : Nat) : Parser (Turn Nat (List Expr)) := do
  checkLength .arguments count
  let argument ← expression fuel
  match ← accept .comma with
  | none => return .leave [argument]
  | some _ => return .again (count + 1) (argument :: ·)

def callTurn (fuel : Nat) (callee : Expr) : Parser (Turn Expr Expr) := do
  match (← peek).kind with
  | .leftParen =>
    let _ ← advance
    let arguments ←
      if (← peek).kind = .rightParen then pure [] else argumentList fuel 0
    let paren ← expect .rightParen (.noMark .rightParen .afterArguments)
    return .again (.call callee paren arguments) id
  | .dot =>
    let _ ← advance
    let name ← expectName .propertyName
    return .again (.get callee name) id
  | _ => return .leave callee

def operationTurn (level : Level) (tighter : List Level) (fuel : Nat) (left : Expr) :
    Parser (Turn Expr Expr) := do
  match ← acceptAny level.operators with
  | none => return .leave left
  | some operator =>
    let right ← operation fuel tighter
    return .again (level.combine left operator right) id

/-- Turns that step over a token even if they leave the loop. -/
theorem LoopAdvances.of_inBounds {loop : Nat → ι → Parser α}
    {turn : Nat → ι → Parser (Turn ι α)}
    (hunfold : ∀ fuel i, loop (fuel + 1) i = turn fuel i >>= Turn.go (loop fuel))
    (hturn : ∀ fuel i s, Within tokens s → InBounds tokens 1 (turn fuel i) s) :
    LoopAdvances tokens loop turn :=
  ⟨hunfold, fun hs hrun => ((hturn _ _ _ hs).ok hrun).2⟩

theorem declarations_advance {endings : List TokenKind} (heof : .eof ∈ endings) :
    LoopAdvances tokens (fun fuel _ => declarations fuel endings) (declarationsTurn endings) := by
  refine ⟨fun fuel _ => ?_, ?_⟩
  · simp only [declarations, declarationsTurn, bind_assoc]
    congr 1
    funext token
    split
    · rfl
    · rw [bind_assoc]
      congr 1
      funext found
      cases found with
      | some first => exact bind_pure_comp _ _
      | none => exact (id_map (declarations fuel endings)).symm
  · intro fuel _ s s' next finish hs hrun
    rw [declarationsTurn, peek_bind] at hrun
    split at hrun
    · cases hrun
    · rename_i hgoes
      have hahead : s.ahead.kind ≠ .eof := fun hkind => hgoes (hkind ▸ heof)
      have hturn : InBounds tokens 1 (declaration fuel >>= fun found =>
          pure (Turn.again () (found.toList ++ ·))) s :=
        ((stmtInBounds tokens fuel).declaration hs hahead).bind fun _ _ _ hs₁ => .pure hs₁ _
      exact (hturn.ok hrun).2

theorem methods_advance :
    LoopAdvances tokens (fun fuel (_ : Unit) => methods fuel) methodsTurn := by
  refine ⟨fun fuel _ => ?_, ?_⟩
  · simp only [methods, methodsTurn, bind_assoc]
    congr 1
    funext token
    split
    · rfl
    · rw [bind_assoc]
      rfl
  · intro fuel _ s s' next finish hs hrun
    rw [methodsTurn, peek_bind] at hrun
    split at hrun
    · cases hrun
    · have hturn : InBounds tokens 1 (routine fuel .method >>= fun first =>
          pure (Turn.again () (first :: ·))) s :=
        ((stmtInBounds tokens fuel).routine .method hs).bind fun _ _ _ hs₁ => .pure hs₁ _
      exact (hturn.ok hrun).2

theorem parameterList_advances : LoopAdvances tokens parameterList parameterTurn := by
  refine .of_inBounds (fun fuel count => ?_) fun fuel count s hs => ?_
  · simp only [parameterList, parameterTurn, bind_assoc]
    congr 1
    funext _
    congr 1
    funext parameter
    congr 1
    funext found
    cases found with
    | none => rfl
    | some comma => exact bind_pure_comp _ _
  · refine (InBounds.checkLength hs _ _).bind fun _ s₁ _ hs₁ => ?_
    refine (InBounds.expectName hs₁ _).bind fun parameter s₂ _ hs₂ => ?_
    exact .accept_bind hs₂ (by decide) (fun comma s₃ _ hs₃ => .pure hs₃ _) (.pure hs₂ _)

theorem argumentList_advances : LoopAdvances tokens argumentList argumentTurn := by
  refine .of_inBounds (fun fuel count => ?_) fun fuel count s hs => ?_
  · simp only [argumentList, argumentTurn, bind_assoc]
    congr 1
    funext _
    congr 1
    funext argument
    congr 1
    funext found
    cases found with
    | none => rfl
    | some comma => exact bind_pure_comp _ _
  · refine (InBounds.checkLength hs _ _).bind fun _ s₁ _ hs₁ => ?_
    refine ((exprInBounds tokens fuel).expression hs₁).bind fun argument s₂ _ hs₂ => ?_
    exact .accept_bind hs₂ (by decide) (fun comma s₃ _ hs₃ => .pure hs₃ _) (.pure hs₂ _)

/-- A turn before a parenthesis or a dot. -/
theorem inBounds_callTurn {fuel : Nat} {callee : Expr} {s : State} (hs : Within tokens s)
    (hahead : s.ahead.kind = .leftParen ∨ s.ahead.kind = .dot) :
    InBounds tokens 1 (callTurn fuel callee) s := by
  have heof : s.ahead.kind ≠ .eof := by
    rcases hahead with hkind | hkind <;> rw [hkind] <;> decide
  unfold callTurn
  refine .peek_bind hs ?_
  split
  · refine (InBounds.advance hs heof).bind fun _ s₁ _ hs₁ => .peek_bind hs₁ ?_
    have hfinish : ∀ arguments s₂, Within tokens s₂ → InBounds tokens 0 (do
        let paren ← expect .rightParen (.noMark .rightParen .afterArguments)
        return (Turn.again (.call callee paren arguments) id : Turn Expr Expr)) s₂ :=
      fun arguments s₂ hs₂ => ((InBounds.expect hs₂ (by decide) _).weaken (Nat.zero_le 1)).bind
        fun paren _ _ hs₃ => .pure hs₃ _
    split
    · exact (InBounds.pure hs₁ []).bind fun arguments s₂ _ hs₂ => hfinish arguments s₂ hs₂
    · exact (((exprInBounds tokens fuel).argumentList 0 hs₁).weaken (Nat.zero_le 1)).bind
        fun arguments s₂ _ hs₂ => hfinish arguments s₂ hs₂
  · refine (InBounds.advance hs heof).bind fun _ s₁ _ hs₁ => ?_
    exact ((InBounds.expectName hs₁ _).weaken (Nat.zero_le 1)).bind fun _ _ _ hs₂ => .pure hs₂ _
  · rename_i hparen hdot
    exact absurd hahead (not_or.mpr ⟨hparen, hdot⟩)

theorem callTail_advances : LoopAdvances tokens callTail callTurn := by
  refine ⟨fun fuel callee => ?_, ?_⟩
  · simp only [callTail, callTurn, bind_assoc]
    congr 1
    funext token
    generalize token.kind = kind
    cases kind
    case leftParen =>
      simp only [bind_assoc]
      congr 1
      funext _
      congr 1
      funext token'
      split
      all_goals simp only [bind_assoc, pure_bind, Turn.go, id_map]
    case dot => simp only [bind_assoc, pure_bind, Turn.go, id_map]
    all_goals rfl
  · intro fuel callee s s' next finish hs hrun
    by_cases hkind : s.ahead.kind = .leftParen ∨ s.ahead.kind = .dot
    · exact ((inBounds_callTurn hs hkind).ok hrun).2
    · obtain ⟨hparen, hdot⟩ := not_or.mp hkind
      have hleave : callTurn fuel callee s = .ok (.leave callee) s := by
        rw [callTurn, peek_bind]
        generalize s.ahead.kind = kind at hparen hdot ⊢
        cases kind <;> first | rfl | contradiction
      rw [hleave] at hrun
      cases hrun

theorem operationTail_advances {level : Level} {tighter : List Level} :
    LoopAdvances tokens (fun fuel left => operationTail fuel level tighter left)
      (operationTurn level tighter) := by
  refine ⟨fun fuel left => ?_, ?_⟩
  · simp only [operationTail, operationTurn, bind_assoc]
    congr 1
    funext found
    cases found with
    | none => rfl
    | some operator => simp only [bind_assoc, pure_bind, Turn.go, id_map]
  · intro fuel left s s' next finish hs hrun
    by_cases hmem : s.ahead.kind ∈ level.operators
    · have hahead : s.ahead.kind ≠ .eof := fun h => eof_notMem_operators level (h ▸ hmem)
      have hturn : InBounds tokens 1 (operationTurn level tighter fuel left) s := by
        unfold operationTurn acceptAny
        rw [bind_assoc]
        refine .peek_bind hs ?_
        rw [if_pos hmem, bind_assoc]
        refine (InBounds.advance hs hahead).bind fun operator s₁ _ hs₁ => ?_
        exact (((exprInBounds tokens fuel).operation tighter hs₁).weaken (Nat.zero_le 1)).bind
          fun _ _ _ hs₂ => .pure hs₂ _
      exact (hturn.ok hrun).2
    · rw [operationTurn, bind_of_ok (acceptAny_none hmem)] at hrun
      cases hrun

/-! ### Declarations that cannot be read -/

/-- A declaration that is not read is stepped over in part, unless the input has ended. -/
theorem declaration_advances {fuel : Nat} {s s' : State} {found : Option Stmt}
    (hs : Within tokens s) (hahead : s.ahead.kind ≠ .eof)
    (hrun : declaration fuel s = .ok found s') : s'.rest.length < s.rest.length :=
  (((stmtInBounds tokens fuel).declaration hs hahead).ok hrun).2

/-! ### Whole parses -/

/-- The state at the beginning of a parse. -/
theorem within_start {nextId : NodeId} (h : EndsWithOnlyEof tokens) :
    Within tokens ⟨tokens, [], nextId⟩ :=
  ⟨List.suffix_refl _, h, fun _ he => absurd he List.not_mem_nil⟩

/-- Where the declarations up to the end of input end, only the end of input is ahead. -/
theorem rest_of_declarations {fuel : Nat} {s s' : State} {program : List Stmt}
    (hs : Within tokens s) (hrun : declarations fuel [.eof] s = .ok program s') :
    ∃ last, s'.rest = [last] ∧ last.kind = .eof := by
  have hwithin := (((stmtInBounds tokens fuel).declarations [.eof] (by decide) hs).ok hrun).1.within
  have hahead : s'.ahead.kind ∈ [TokenKind.eof] := ((stmtSound fuel).declarations [.eof] s
    program s' hrun).2
  obtain ⟨body, last, hrest, hlast, hbody⟩ := hwithin.ends
  cases body with
  | nil => exact ⟨last, hrest, hlast⟩
  | cons t body =>
    rw [State.ahead, hrest] at hahead
    exact absurd (List.mem_singleton.mp hahead) (hbody t List.mem_cons_self)

/-- What a parse comes to, and where. -/
structure Finishes (tokens : List Token) (nextId : NodeId) (program : List Stmt) (s : State) :
    Prop where
  ends : ∀ fuel, enoughFuel tokens ≤ fuel →
    declarations fuel [.eof] ⟨tokens, [], nextId⟩ = .ok program s
  atEnd : ∃ last, s.rest = [last] ∧ last.kind = .eof
  accepted : s.errors = [] → (parse tokens nextId).1 = .ok program
  rejected : s.errors ≠ [] → (parse tokens nextId).1 = .error s.errors
  errors : ∀ e ∈ s.errors, e.token ∈ tokens

theorem exists_finishes (h : EndsWithOnlyEof tokens) (nextId : NodeId) :
    ∃ program s, Finishes tokens nextId program s := by
  obtain ⟨program, s, hrun⟩ := exists_declarations_settle tokens nextId
  have hfirst := hrun _ (Nat.le_refl _)
  have hwithin : Within tokens ⟨tokens, [], nextId⟩ := within_start h
  have hparse := parse_of_settles ⟨_, hrun⟩
  refine ⟨program, s, hrun, rest_of_declarations hwithin hfirst, fun hclean => ?_,
    fun hnoted => ?_, ?_⟩
  · rw [hparse, hclean]
    rfl
  · have hempty : s.errors.isEmpty = false := by simpa using hnoted
    rw [hparse, hempty]
    rfl
  · exact (((stmtInBounds tokens _).declarations [.eof] (by decide) hwithin).ok
      hfirst).1.within.errors

/-- All loops of the parser: those of a program and of a block are the same function. -/
structure LoopsAdvance (tokens : List Token) : Prop where
  program : LoopAdvances tokens (fun fuel _ => declarations fuel [.eof]) (declarationsTurn [.eof])
  block : LoopAdvances tokens (fun fuel _ => declarations fuel [.rightBrace, .eof])
    (declarationsTurn [.rightBrace, .eof])
  classBody : LoopAdvances tokens (fun fuel _ => methods fuel) methodsTurn
  parameters : LoopAdvances tokens parameterList parameterTurn
  arguments : LoopAdvances tokens argumentList argumentTurn
  calls : LoopAdvances tokens callTail callTurn
  operators : ∀ level tighter, LoopAdvances tokens
    (fun fuel left => operationTail fuel level tighter left) (operationTurn level tighter)

theorem loopsAdvance (tokens : List Token) : LoopsAdvance tokens :=
  ⟨declarations_advance (by decide), declarations_advance (by decide), methods_advance,
    parameterList_advances, argumentList_advances, callTail_advances,
    fun _ _ => operationTail_advances⟩

/--
Whatever the tokens are, as long as only the last one is the end of input: the parse comes
to an end, with the end of input ahead; it succeeds if and only if no error was noted, and
all errors show at tokens of the sequence.  It looks at places of the sequence only, one
behind the other.  A turn of a loop that another one follows has stepped over a token, and
so has a declaration that cannot be read before the end of input.  The tokens of every
source are such a sequence.
-/
theorem parse_finishes_in_bounds (h : EndsWithOnlyEof tokens) (nextId : NodeId) :
    (∃ program s, Finishes tokens nextId program s) ∧
    (∀ fuel, ∃ looks, Looks tokens (declarations fuel [.eof]) ⟨tokens, [], nextId⟩ looks ∧
      looks.Pairwise (· ≤ ·) ∧ ∀ i ∈ looks, i < tokens.length) ∧
    LoopsAdvance tokens ∧
    (∀ fuel s s', Within tokens s → declaration fuel s = .ok none s' →
      s.ahead.kind ≠ .eof → s'.rest.length < s.rest.length) ∧
    ∀ source, EndsWithOnlyEof (Item.tokens (Item.scan source)) := by
  refine ⟨exists_finishes h nextId, fun fuel => ?_, loopsAdvance tokens,
    fun fuel s s' hs hrun hahead => declaration_advances hs hahead hrun,
    Item.endsWithOnlyEof_scan⟩
  exact ((stmtInBounds tokens fuel).declarations [.eof] (by decide) (within_start h)).exists_looks

/-- The tokens of `) fun`, which form no declaration. -/
def garbled : List Token := [⟨.rightParen, ")", 1⟩, ⟨.kwFun, "fun", 1⟩, .endOfInput 1]

theorem garbled_finishes :
    EndsWithOnlyEof garbled ∧ ∃ program s, Finishes garbled 0 program s := by
  have honly : EndsWithOnlyEof garbled :=
    ⟨garbled.dropLast, .endOfInput 1, rfl, rfl, by decide⟩
  exact ⟨honly, (parse_finishes_in_bounds honly 0).1⟩

end Lox.Parser
