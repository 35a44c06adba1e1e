import Lox.Proofs.Number.Texts
import Lox.Proofs.Token.Respelled
import Lox.Proofs.Tree.Printed

/-!
# Reading forms as trees

A form is read from the inside out.  The head of a node says which tree it is: an operator
is one before an operand or between two, and any other head belongs to one construct.  A
word is a number, a constant or a name.  That is enough to tell the trees apart, since a
token that can be read is known by what is written of it: one of a fixed kind by its kind, a
name because it starts with a letter and is no keyword, a number because it starts with a
digit.
-/

namespace Lox

namespace Form

/-! ### Reading -/

def operators : List (String × TokenKind) :=
  [("!", .bang), ("-", .minus), ("+", .plus), ("/", .slash), ("*", .star), ("%", .percent),
   ("!=", .bangEqual), ("==", .equalEqual), (">", .greater), (">=", .greaterEqual),
   ("<", .less), ("<=", .lessEqual), ("and", .kwAnd), ("or", .kwOr)]

inductive Reading where
  | word (text : String)
  | signature (name : String) (parameters : List String)
  | expr (tree : Expr)
  | stmt (tree : Stmt)
  | function (tree : FunctionDecl)

def identifier (name : String) : Token := ⟨.identifier, name, 0⟩

namespace Reading

def ofWord (w : String) : Expr :=
  if w.toList.head?.any Char.isDigit then .literal (.number (Number.ofLexeme w.toList))
  else match TokenKind.ofWord w.toList with
    | .kwTrue => .literal (.bool true)
    | .kwFalse => .literal (.bool false)
    | .kwNil => .literal .nil
    | .kwThis => .this ⟨0, ⟨.kwThis, w, 0⟩⟩
    | _ => .read ⟨0, identifier w⟩

/-- The expression that was read; `nil` stands for anything else. -/
def toExpr : Reading → Expr
  | word w => ofWord w
  | expr e => e
  | _ => .literal .nil

def toStmt : Reading → Stmt
  | stmt s => s
  | _ => .block []

def toBody : Reading → List Stmt
  | stmt (.block body) => body
  | _ => []

def toFunction : Reading → FunctionDecl
  | function d => d
  | _ => ⟨identifier "", [], []⟩

def ofOperator (operator : Token) : List Reading → Reading
  | [operand] => .expr (.unary operator operand.toExpr)
  | [left, right] =>
    if operator.kind = .kwAnd ∨ operator.kind = .kwOr then
      .expr (.logical left.toExpr operator right.toExpr)
    else .expr (.binary left.toExpr operator right.toExpr)
  | _ => .word ""

def ofClass (name : String) : List Reading → Stmt
  -- no method is read as a word, so that two words in front are `<` and the superclass
  | .word _ :: .word superclass :: methods =>
    .class (identifier name) (some ⟨0, identifier superclass⟩) (methods.map toFunction)
  | methods => .class (identifier name) none (methods.map toFunction)

def ofConstruct : String → List Reading → Reading
  | "group", [inner] => .expr (.group inner.toExpr)
  | "call", callee :: arguments =>
    .expr (.call callee.toExpr ⟨.rightParen, ")", 0⟩ (arguments.map toExpr))
  | ".", [object, .word name] => .expr (.get object.toExpr (identifier name))
  -- a variable and a property are assigned under one head, and their left sides differ
  | "=", [.word name, value] => .expr (.assign ⟨0, identifier name⟩ value.toExpr)
  | "=", [.expr (.get object name), value] => .expr (.set object name value.toExpr)
  | "super", [.word method] => .expr (.super ⟨0, ⟨.kwSuper, "super", 0⟩⟩ (identifier method))
  | ";", [value] => .stmt (.expression value.toExpr)
  | "var", [.word name] => .stmt (.var (identifier name) none)
  | "var", [.word name, value] => .stmt (.var (identifier name) (some value.toExpr))
  | "block", statements => .stmt (.block (statements.map toStmt))
  | "if", [condition, thenBranch] =>
    .stmt (.conditional condition.toExpr thenBranch.toStmt none)
  | "if", [condition, thenBranch, elseBranch] =>
    .stmt (.conditional condition.toExpr thenBranch.toStmt (some elseBranch.toStmt))
  | "while", [condition, body] => .stmt (.loop condition.toExpr body.toStmt none)
  | "while", [condition, body, increment] =>
    .stmt (.loop condition.toExpr body.toStmt (some increment.toExpr))
  | "fun", [.signature name parameters, block] =>
    .stmt (.function ⟨identifier name, parameters.map identifier, block.toBody⟩)
  | "method", [.signature name parameters, block] =>
    .function ⟨identifier name, parameters.map identifier, block.toBody⟩
  | "return", [] => .stmt (.returning ⟨.kwReturn, "return", 0⟩ none)
  | "return", [value] => .stmt (.returning ⟨.kwReturn, "return", 0⟩ (some value.toExpr))
  | "break", [] => .stmt (.breaking ⟨.kwBreak, "break", 0⟩)
  | "continue", [] => .stmt (.continuing ⟨.kwContinue, "continue", 0⟩)
  | "class", .word name :: more => .stmt (ofClass name more)
  | _, _ => .word ""

def ofNode (head : String) (parts : List Reading) : Reading :=
  match operators.lookup head with
  | some kind => ofOperator ⟨kind, head, 0⟩ parts
  | none => ofConstruct head parts

end Reading

mutual

def read : Form → Reading
  | word w => .word w
  | signature name parameters => .signature name parameters
  | node head parts => .ofNode head (readEach parts)
termination_by structural form => form

def readEach : List Form → List Reading
  | [] => []
  | form :: rest => form.read :: readEach rest
termination_by structural forms => forms

end

end Form

open Piece

/-! ### Tokens -/

namespace Token

/-- The tokens that are always written in one way. -/
def fixed : List (String × TokenKind) :=
  marks.map (fun mark => (String.ofList mark.2, mark.1)) ++ TokenKind.keywords

theorem Readable.lexeme {t : Token} (h : t.Readable) (hkind : t.kind ≠ .semicolon) :
    Reads (.token t.kind) t.lexeme.toList := by
  have hwritten : t.writtenOut = t.lexeme := by simp [writtenOut, isSupplied, hkind]
  rwa [Readable, hwritten] at h

theorem Readable.mem_fixed {t : Token} (h : t.Readable) (hsemicolon : t.kind ≠ .semicolon)
    (hidentifier : t.kind ≠ .identifier) (hnumber : t.kind ≠ .number) (hstring : t.kind ≠ .string) :
    (t.lexeme, t.kind) ∈ fixed := by
  have hreads := h.lexeme hsemicolon
  have hlexeme : String.ofList t.lexeme.toList = t.lexeme := String.ofList_toList
  generalize hkind : PieceKind.token t.kind = kind at hreads
  generalize t.lexeme.toList = text at hreads hlexeme
  rw [← hlexeme]
  cases hreads with
  | mark hmark =>
    cases hkind
    exact List.mem_append_left _ (List.mem_map.mpr ⟨_, hmark, rfl⟩)
  | keyword hkeyword =>
    cases hkind
    exact List.mem_append_right _ hkeyword
  | identifier => exact absurd (PieceKind.token.inj hkind) hidentifier
  | integer | fraction => exact absurd (PieceKind.token.inj hkind) hnumber
  | string => exact absurd (PieceKind.token.inj hkind) hstring
  | blank | comment => cases hkind

/-- An operator is known by how it is written. -/
theorem Readable.operator {t : Token} (h : t.Readable)
    (hkind : t.kind ∈ Form.operators.map Prod.snd) :
    Form.operators.lookup t.lexeme = some t.kind ∧ Form.Solid t.lexeme := by
  have hall : ∀ entry ∈ fixed, entry.2 ∈ Form.operators.map Prod.snd →
      Form.operators.lookup entry.1 = some entry.2 ∧ Form.Solid entry.1 := by
    decide
  have hno : ∀ kind ∈ Form.operators.map Prod.snd, kind ≠ .semicolon ∧ kind ≠ .identifier ∧
      kind ≠ .number ∧ kind ≠ .string := by
    decide
  obtain ⟨hsemicolon, hidentifier, hnumber, hstring⟩ := hno _ hkind
  exact hall _ (h.mem_fixed hsemicolon hidentifier hnumber hstring) hkind

/-- A token of a kind with one writing is known by its kind. -/
theorem Readable.bare_eq {t : Token} (h : t.Readable) {kind : TokenKind} {written : String}
    (hkind : t.kind = kind)
    (hfixed : ∀ entry ∈ fixed, entry.2 = kind → entry.1 = written)
    (hno : kind ≠ .semicolon ∧ kind ≠ .identifier ∧ kind ≠ .number ∧ kind ≠ .string) :
    t.bare = ⟨kind, written, 0⟩ := by
  subst hkind
  have hlexeme := hfixed _ (h.mem_fixed hno.1 hno.2.1 hno.2.2.1 hno.2.2.2) rfl
  rw [bare]
  exact congrArg (Token.mk t.kind · 0) hlexeme

/-- A token is a name: it is an identifier that is read as one. -/
structure Names (t : Token) : Prop where
  bare_eq : t.bare = Form.identifier t.lexeme
  solid : Form.Solid t.lexeme
  ofWord : Form.Reading.ofWord t.lexeme = .read ⟨0, Form.identifier t.lexeme⟩

theorem isSolid_of_continuesWord {c : Char} (h : continuesWord c = true) : Form.isSolid c = true := by
  by_contra hsolid
  simp only [Form.isSolid, Bool.and_eq_true, decide_eq_true_eq, not_and_or, not_not] at hsolid
  rcases hsolid with (rfl | rfl) | rfl <;> cases h

theorem Readable.names {t : Token} (h : t.Readable) (hkind : t.kind = .identifier) : t.Names := by
  have hreads := h.lexeme (by rw [hkind]; decide)
  rw [hkind] at hreads
  have hword := hreads.ofWord_eq
  obtain ⟨c, more, hlexeme, hc, hmore⟩ := hreads.isWord
  refine ⟨?_, ⟨?_, ?_⟩, ?_⟩
  · rw [bare, hkind]
    rfl
  · rw [hlexeme]
    exact List.cons_ne_nil c more
  · rw [hlexeme]
    exact List.forall_mem_cons.mpr ⟨isSolid_of_continuesWord (continuesWord_of_startsWord hc),
      fun d hd => isSolid_of_continuesWord (hmore d hd)⟩
  · have hdigit : t.lexeme.toList.head?.any Char.isDigit = false := by
      rw [hlexeme]
      exact not_isDigit_of_startsWord hc
    simp only [Form.Reading.ofWord, hdigit, Bool.false_eq_true, if_false, hword]

end Token

/-! ### Literals -/

namespace Literal

/-- The literal is no string, and finite if it is a number. -/
def isPlain : Literal → Bool
  | number value => value.isFinite
  | string _ => false
  | _ => true

/-- The literal comes back from its text. -/
def ReadsBack (value : Literal) : Prop :=
  value.isPlain = true → Form.Solid value.print ∧ Form.Reading.ofWord value.print = .literal value

theorem readsBack_number (lexeme : List Char) :
    (Literal.number (Number.ofLexeme lexeme)).ReadsBack := by
  intro hplain
  obtain ⟨figures, hproper, htext, hsame⟩ := Number.exists_figures_treeText hplain
  have hprint : (Literal.number (Number.ofLexeme lexeme)).print = String.ofList figures.text := htext
  rw [hprint]
  refine ⟨⟨?_, ?_⟩, ?_⟩
  · rw [String.toList_ofList]
    exact hproper.reads.ne_nil
  · rw [String.toList_ofList]
    intro c hc
    rcases hproper.isDigit_or_point c hc with hdigit | rfl
    · exact Token.isSolid_of_continuesWord (by simp [continuesWord, Char.isAlphanum, hdigit])
    · rfl
  · have hdigit : (String.ofList figures.text).toList.head?.any Char.isDigit = true := by
      obtain ⟨c, hhead, hc⟩ := hproper.exists_head?
      rw [String.toList_ofList, hhead]
      exact hc
    rw [Form.Reading.ofWord, if_pos hdigit, String.toList_ofList, hsame]

theorem readsBack_bool (value : Bool) : (Literal.bool value).ReadsBack := by
  intro _
  cases value
  · exact ⟨by decide, rfl⟩
  · exact ⟨by decide, rfl⟩

theorem readsBack_nil : Literal.nil.ReadsBack := fun _ => ⟨by decide, rfl⟩

end Literal

end Lox
