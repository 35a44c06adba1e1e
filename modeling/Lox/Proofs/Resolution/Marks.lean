import Mathlib.Data.List.Induction
import Lox.Proofs.Resolution.Walk

/-!
# Scopes in the text of a program

What matters for the meaning of a name is where scopes are opened and closed in the text,
where names are declared, and where they occur.  A program is read here as the list of
these marks, in the order of the text: the clauses of a loop stand in front of its body,
and a variable is declared by its name, in front of its initializer.  A scope encloses a
point of the text if it was opened in front of it and not closed since, and it binds a
name there if the name was declared directly in it.
-/

namespace Lox

/-- A point of the text that matters for the meaning of names. -/
inductive Mark where
  | opens
  | closes
  | declares (name : String)
  | occurs (kind : OccurrenceKind) (place : Occurrence)

/-! ### The text of a tree -/

/-- The marks of an expression, whose occurrences are listed in the order of the text. -/
def Expr.marks (e : Expr) : List Mark := e.occurrences.map fun entry => .occurs entry.1 entry.2

def Expr.marksIn? (e : Option Expr) : List Mark :=
  (Expr.occurrencesIn? e).map fun entry => .occurs entry.1 entry.2

mutual

def Stmt.marks : Stmt → List Mark
  | .expression value => value.marks
  | .var name initializer => .declares name.lexeme :: Expr.marksIn? initializer
  | .block body => .opens :: (Stmt.marksEach body ++ [.closes])
  | .conditional condition thenBranch none => condition.marks ++ thenBranch.marks
  | .conditional condition thenBranch (some elseBranch) =>
    condition.marks ++ (thenBranch.marks ++ elseBranch.marks)
  | .loop condition body increment => condition.marks ++ (Expr.marksIn? increment ++ body.marks)
  | .function declaration => .declares declaration.name.lexeme :: declaration.marks
  | .returning _ value => Expr.marksIn? value
  | .breaking _ | .continuing _ => []
  | .class name none methods =>
    .declares name.lexeme :: .opens :: .declares "this" ::
      (FunctionDecl.marksEach methods ++ [.closes])
  | .class name (some parent) methods =>
    .declares name.lexeme :: .occurs .read parent :: .opens :: .declares "super" ::
      .opens :: .declares "this" :: (FunctionDecl.marksEach methods ++ [.closes, .closes])
termination_by structural s => s

def Stmt.marksEach : List Stmt → List Mark
  | [] => []
  | s :: rest => s.marks ++ Stmt.marksEach rest
termination_by structural ss => ss

/-- The marks of a function, whose parameters and body share a scope. -/
def FunctionDecl.marks : FunctionDecl → List Mark
  | ⟨_, parameters, body⟩ =>
    .opens :: (parameters.map (fun parameter => .declares parameter.lexeme) ++
      (Stmt.marksEach body ++ [.closes]))
termination_by structural d => d

/-- The marks of methods, whose names are declared in no scope. -/
def FunctionDecl.marksEach : List FunctionDecl → List Mark
  | [] => []
  | d :: rest => d.marks ++ FunctionDecl.marksEach rest
termination_by structural ds => ds

end

namespace Mark

/-! ### Enclosing scopes -/

/-- The number of scopes left open, if none is closed that was opened elsewhere. -/
def count : Option Nat → Mark → Option Nat
  | some n, opens => some (n + 1)
  | some (n + 1), closes => some n
  | some 0, closes => none
  | some n, declares _ | some n, occurs _ _ => some n
  | none, _ => none

/-- How many of the scopes opened in a text are open behind it. -/
def leftOpen? (text : List Mark) : Option Nat := text.foldl count (some 0)

/-- A scope that is open behind a text, with `d` more scopes inside of it. -/
def Encloses (text : List Mark) (d : Nat) : Prop :=
  ∃ outside inside, text = outside ++ opens :: inside ∧ leftOpen? inside = some d

/--
A scope that is open behind a text, with `d` more scopes inside of it, directly declares
a name in the text.
-/
def Binds (text : List Mark) (d : Nat) (name : String) : Prop :=
  ∃ outside first rest, text = outside ++ opens :: (first ++ declares name :: rest) ∧
    leftOpen? first = some 0 ∧ leftOpen? (first ++ declares name :: rest) = some d

/-- The innermost scope that binds a name behind a text has `d` scopes inside of it. -/
def BindsFirst (text : List Mark) (d : Nat) (name : String) : Prop :=
  Binds text d name ∧ ∀ nearer < d, ¬ Binds text nearer name

/-! ### The names of the open scopes -/

/-- The names that the open scopes declare, behind one more mark. -/
def enter : List (List String) → Mark → List (List String)
  | scopes, opens => [] :: scopes
  | scopes, closes => scopes.tail
  | [], declares _ => []
  | names :: outer, declares name => (name :: names) :: outer
  | scopes, occurs _ _ => scopes

/-- The names that the open scopes declare behind a text, those of the innermost scope first. -/
def scopesBehind (text : List Mark) : List (List String) := text.foldl enter []

theorem leftOpen?_append_singleton (text : List Mark) (x : Mark) :
    leftOpen? (text ++ [x]) = count (leftOpen? text) x := by
  simp [leftOpen?]

theorem scopesBehind_append (text more : List Mark) :
    scopesBehind (text ++ more) = more.foldl enter (scopesBehind text) := by
  simp [scopesBehind]

theorem scopesBehind_append_singleton (text : List Mark) (x : Mark) :
    scopesBehind (text ++ [x]) = enter (scopesBehind text) x :=
  scopesBehind_append text [x]

variable {text : List Mark} {x : Mark} {d n : Nat} {name : String}

theorem count_opens {open? : Option Nat} :
    count open? opens = some n ↔ ∃ k, open? = some k ∧ n = k + 1 := by
  cases open? with
  | none => simp [count]
  | some k => simp [count, eq_comm]

theorem count_closes {open? : Option Nat} : count open? closes = some n ↔ open? = some (n + 1) := by
  cases open? with
  | none => simp [count]
  | some k => cases k <;> simp [count]

def IsPlain : Mark → Prop
  | opens | closes => False
  | declares _ | occurs _ _ => True

theorem count_of_isPlain (h : x.IsPlain) (open? : Option Nat) : count open? x = open? := by
  cases x with
  | opens | closes => cases h
  | declares | occurs => cases open? <;> rfl

/-- Behind one more mark a scope is the one it opens, or one that was there before. -/
theorem encloses_append_singleton :
    Encloses (text ++ [x]) d ↔
      (x = opens ∧ d = 0) ∨ ∃ outside inside, text = outside ++ opens :: inside ∧
        count (leftOpen? inside) x = some d := by
  constructor
  · rintro ⟨outside, inside, htext, hopen⟩
    rcases List.eq_nil_or_concat inside with rfl | ⟨front, last, rfl⟩
    · obtain ⟨rfl, hlast⟩ := List.append_inj' htext rfl
      cases hopen
      exact .inl ⟨List.head_eq_of_cons_eq hlast, rfl⟩
    · rw [List.concat_eq_append, leftOpen?_append_singleton] at hopen
      rw [List.concat_eq_append, ← List.cons_append, ← List.append_assoc] at htext
      obtain ⟨rfl, hlast⟩ := List.append_inj' htext rfl
      cases hlast
      exact .inr ⟨outside, front, rfl, hopen⟩
  · rintro (⟨rfl, rfl⟩ | ⟨outside, inside, rfl, hopen⟩)
    · exact ⟨text, [], rfl, rfl⟩
    · refine ⟨outside, inside ++ [x], by simp, ?_⟩
      rw [leftOpen?_append_singleton]
      exact hopen

/-- Behind one more mark a name is bound by it, or was bound before. -/
theorem binds_append_singleton :
    Binds (text ++ [x]) d name ↔
      (x = declares name ∧ d = 0 ∧ Encloses text 0) ∨ ∃ outside first rest,
        text = outside ++ opens :: (first ++ declares name :: rest) ∧
          leftOpen? first = some 0 ∧
          count (leftOpen? (first ++ declares name :: rest)) x = some d := by
  constructor
  · rintro ⟨outside, first, rest, htext, hfirst, hopen⟩
    rcases List.eq_nil_or_concat rest with rfl | ⟨front, last, rfl⟩
    · rw [← List.cons_append, ← List.append_assoc] at htext
      obtain ⟨rfl, hlast⟩ := List.append_inj' htext rfl
      rw [leftOpen?_append_singleton, hfirst] at hopen
      cases hopen
      exact .inl ⟨List.head_eq_of_cons_eq hlast, rfl, outside, first, rfl, hfirst⟩
    · have hmove : first ++ declares name :: front.concat last =
          (first ++ declares name :: front) ++ [last] := by simp
      rw [hmove, leftOpen?_append_singleton] at hopen
      rw [hmove, ← List.cons_append, ← List.append_assoc] at htext
      obtain ⟨rfl, hlast⟩ := List.append_inj' htext rfl
      cases hlast
      exact .inr ⟨outside, first, front, rfl, hfirst, hopen⟩
  · rintro (⟨rfl, rfl, outside, inside, rfl, hopen⟩ | ⟨outside, first, rest, rfl, hfirst, hopen⟩)
    · refine ⟨outside, inside, [], by simp, hopen, ?_⟩
      rw [leftOpen?_append_singleton, hopen]
      rfl
    · refine ⟨outside, first, rest ++ [x], by simp, hfirst, ?_⟩
      rw [← List.cons_append, ← List.append_assoc, leftOpen?_append_singleton]
      exact hopen

theorem encloses_opens :
    Encloses (text ++ [opens]) d ↔ d = 0 ∨ ∃ k, d = k + 1 ∧ Encloses text k := by
  rw [encloses_append_singleton]
  constructor
  · rintro (⟨-, rfl⟩ | ⟨outside, inside, rfl, hopen⟩)
    · exact .inl rfl
    · obtain ⟨k, hinside, rfl⟩ := count_opens.mp hopen
      exact .inr ⟨k, rfl, outside, inside, rfl, hinside⟩
  · rintro (rfl | ⟨k, rfl, outside, inside, rfl, hinside⟩)
    · exact .inl ⟨rfl, rfl⟩
    · exact .inr ⟨outside, inside, rfl, count_opens.mpr ⟨k, hinside, rfl⟩⟩

theorem encloses_closes : Encloses (text ++ [closes]) d ↔ Encloses text (d + 1) := by
  rw [encloses_append_singleton]
  simp only [reduceCtorEq, false_and, false_or, count_closes]
  rfl

theorem encloses_of_isPlain (h : x.IsPlain) : Encloses (text ++ [x]) d ↔ Encloses text d := by
  have hx : x ≠ opens := by
    rintro rfl
    exact h
  rw [encloses_append_singleton]
  simp only [hx, false_and, false_or, count_of_isPlain h]
  rfl

/-- The open scopes are those whose names are listed. -/
theorem encloses_iff : Encloses text d ↔ d < (scopesBehind text).length := by
  induction text using List.reverseRecOn generalizing d with
  | nil =>
    constructor
    · rintro ⟨outside, inside, htext, -⟩
      simp at htext
    · intro h
      exact absurd h (Nat.not_lt_zero d)
  | append_singleton text x ih =>
    rw [scopesBehind_append_singleton]
    cases x with
    | opens =>
      rw [encloses_opens]
      cases d with
      | zero => simp [enter]
      | succ d => simp [enter, ih]
    | closes =>
      rw [encloses_closes, ih]
      simp only [enter, List.length_tail]
      omega
    | declares name =>
      rw [encloses_of_isPlain (by trivial), ih]
      cases scopesBehind text <;> rfl
    | occurs kind place =>
      rw [encloses_of_isPlain (by trivial), ih]
      cases scopesBehind text <;> rfl

theorem binds_opens : Binds (text ++ [opens]) d name ↔ ∃ k, d = k + 1 ∧ Binds text k name := by
  rw [binds_append_singleton]
  constructor
  · rintro (⟨h, -⟩ | ⟨outside, first, rest, rfl, hfirst, hopen⟩)
    · cases h
    · obtain ⟨k, hrest, rfl⟩ := count_opens.mp hopen
      exact ⟨k, rfl, outside, first, rest, rfl, hfirst, hrest⟩
  · rintro ⟨k, rfl, outside, first, rest, rfl, hfirst, hrest⟩
    exact .inr ⟨outside, first, rest, rfl, hfirst, count_opens.mpr ⟨k, hrest, rfl⟩⟩

theorem binds_closes : Binds (text ++ [closes]) d name ↔ Binds text (d + 1) name := by
  rw [binds_append_singleton]
  simp only [reduceCtorEq, false_and, false_or, count_closes]
  rfl

theorem binds_of_isPlain (h : x.IsPlain) :
    Binds (text ++ [x]) d name ↔
      (x = declares name ∧ d = 0 ∧ Encloses text 0) ∨ Binds text d name := by
  rw [binds_append_singleton]
  simp only [count_of_isPlain h]
  rfl

/-- A scope binds the names that are listed for it. -/
theorem binds_iff : Binds text d name ↔ ∃ names ∈ (scopesBehind text)[d]?, name ∈ names := by
  induction text using List.reverseRecOn generalizing d with
  | nil =>
    constructor
    · rintro ⟨outside, first, rest, htext, -⟩
      simp at htext
    · rintro ⟨names, hnames, -⟩
      cases hnames
  | append_singleton text x ih =>
    rw [scopesBehind_append_singleton]
    cases x with
    | opens =>
      rw [binds_opens]
      cases d with
      | zero => simp [enter]
      | succ d => simp [enter, ih]
    | closes =>
      rw [binds_closes, ih]
      simp [enter]
    | occurs kind place =>
      rw [binds_of_isPlain (by trivial), ih]
      cases scopesBehind text <;> simp [enter]
    | declares other =>
      rw [binds_of_isPlain (by trivial), ih, encloses_iff]
      cases scopesBehind text with
      | nil => simp [enter]
      | cons names outer =>
        cases d with
        | zero => simp [enter, eq_comm]
        | succ d => simp [enter]

end Mark

end Lox
