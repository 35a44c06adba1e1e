import Lox.Tree.Occurrences

/-!
# How the occurrences of a tree are numbered

A parse hands out identities from a given one on, in the order in which it meets
the occurrences.  An assignment uses up two of them, since its target has been
read as an expression before the assignment was recognised.  The identities of a
numbered tree are therefore distinct and lie in an interval whose length is
determined by the tree.
-/

namespace Lox

/-! ### Expressions -/

mutual

/-- The number of identities that are used up for an expression. -/
def Expr.drawn : Expr → Nat
  | .literal _ => 0
  | .unary _ operand => operand.drawn
  | .binary left _ right | .logical left _ right => left.drawn + right.drawn
  | .group inner => inner.drawn
  | .read _ | .this _ | .super _ _ => 1
  | .assign _ value => value.drawn + 2
  | .call callee _ arguments => callee.drawn + Expr.drawnEach arguments
  | .get object _ => object.drawn
  | .set object _ value => object.drawn + value.drawn
termination_by structural e => e

def Expr.drawnEach : List Expr → Nat
  | [] => 0
  | e :: rest => e.drawn + Expr.drawnEach rest
termination_by structural es => es

end

mutual

/-- The expression with the identities that a parse hands out from `n` on. -/
def Expr.numbered (n : Nat) : Expr → Expr
  | .literal value => .literal value
  | .unary operator operand => .unary operator (operand.numbered n)
  | .binary left operator right =>
    .binary (left.numbered n) operator (right.numbered (n + left.drawn))
  | .logical left operator right =>
    .logical (left.numbered n) operator (right.numbered (n + left.drawn))
  | .group inner => .group (inner.numbered n)
  | .read place => .read ⟨n, place.token⟩
  | .assign place value => .assign ⟨n + value.drawn + 1, place.token⟩ (value.numbered (n + 1))
  | .call callee paren arguments =>
    .call (callee.numbered n) paren (Expr.numberedEach (n + callee.drawn) arguments)
  | .get object name => .get (object.numbered n) name
  | .set object name value => .set (object.numbered n) name (value.numbered (n + object.drawn))
  | .this place => .this ⟨n, place.token⟩
  | .super place method => .super ⟨n, place.token⟩ method
termination_by structural e => e

def Expr.numberedEach (n : Nat) : List Expr → List Expr
  | [] => []
  | e :: rest => e.numbered n :: Expr.numberedEach (n + e.drawn) rest
termination_by structural es => es

end

namespace Expr

def drawnIn? : Option Expr → Nat
  | none => 0
  | some e => e.drawn

def numberedIn? (n : Nat) : Option Expr → Option Expr
  | none => none
  | some e => some (e.numbered n)

end Expr

/-! ### Statements -/

/-- A superclass uses up one identity. -/
def Occurrence.drawnIn? : Option Occurrence → Nat
  | none => 0
  | some _ => 1

def Occurrence.numberedIn? (n : Nat) : Option Occurrence → Option Occurrence
  | none => none
  | some place => some ⟨n, place.token⟩

mutual

def Stmt.drawn : Stmt → Nat
  | .expression value => value.drawn
  | .var _ initializer => Expr.drawnIn? initializer
  | .block body => Stmt.drawnEach body
  | .conditional condition thenBranch none => condition.drawn + thenBranch.drawn
  | .conditional condition thenBranch (some elseBranch) =>
    condition.drawn + thenBranch.drawn + elseBranch.drawn
  | .loop condition body increment =>
    condition.drawn + Expr.drawnIn? increment + body.drawn
  | .function declaration => declaration.drawn
  | .returning _ value => Expr.drawnIn? value
  | .breaking _ | .continuing _ => 0
  | .class _ superclass methods =>
    Occurrence.drawnIn? superclass + FunctionDecl.drawnEach methods
termination_by structural s => s

def Stmt.drawnEach : List Stmt → Nat
  | [] => 0
  | s :: rest => s.drawn + Stmt.drawnEach rest
termination_by structural ss => ss

def FunctionDecl.drawn : FunctionDecl → Nat
  | ⟨_, _, body⟩ => Stmt.drawnEach body
termination_by structural d => d

def FunctionDecl.drawnEach : List FunctionDecl → Nat
  | [] => 0
  | d :: rest => d.drawn + FunctionDecl.drawnEach rest
termination_by structural ds => ds

end

mutual

/--
The statement with the identities that a parse hands out from `n` on.  The
increment of a loop is read before its body.
-/
def Stmt.numbered (n : Nat) : Stmt → Stmt
  | .expression value => .expression (value.numbered n)
  | .var name initializer => .var name (Expr.numberedIn? n initializer)
  | .block body => .block (Stmt.numberedEach n body)
  | .conditional condition thenBranch none =>
    .conditional (condition.numbered n) (thenBranch.numbered (n + condition.drawn)) none
  | .conditional condition thenBranch (some elseBranch) =>
    .conditional (condition.numbered n) (thenBranch.numbered (n + condition.drawn))
      (some (elseBranch.numbered (n + condition.drawn + thenBranch.drawn)))
  | .loop condition body increment =>
    .loop (condition.numbered n)
      (body.numbered (n + condition.drawn + Expr.drawnIn? increment))
      (Expr.numberedIn? (n + condition.drawn) increment)
  | .function declaration => .function (declaration.numbered n)
  | .returning keyword value => .returning keyword (Expr.numberedIn? n value)
  | .breaking keyword => .breaking keyword
  | .continuing keyword => .continuing keyword
  | .class name superclass methods =>
    .class name (Occurrence.numberedIn? n superclass)
      (FunctionDecl.numberedEach (n + Occurrence.drawnIn? superclass) methods)
termination_by structural s => s

def Stmt.numberedEach (n : Nat) : List Stmt → List Stmt
  | [] => []
  | s :: rest => s.numbered n :: Stmt.numberedEach (n + s.drawn) rest
termination_by structural ss => ss

def FunctionDecl.numbered (n : Nat) : FunctionDecl → FunctionDecl
  | ⟨name, parameters, body⟩ => ⟨name, parameters, Stmt.numberedEach n body⟩
termination_by structural d => d

def FunctionDecl.numberedEach (n : Nat) : List FunctionDecl → List FunctionDecl
  | [] => []
  | d :: rest => d.numbered n :: FunctionDecl.numberedEach (n + d.drawn) rest
termination_by structural ds => ds

end

theorem Stmt.drawnEach_append (ss ts : List Stmt) :
    Stmt.drawnEach (ss ++ ts) = Stmt.drawnEach ss + Stmt.drawnEach ts := by
  induction ss with
  | nil => simp [Stmt.drawnEach]
  | cons s ss ih => simp only [List.cons_append, Stmt.drawnEach, ih, Nat.add_assoc]

theorem Stmt.numberedEach_append (n : Nat) (ss ts : List Stmt) :
    Stmt.numberedEach n (ss ++ ts) =
      Stmt.numberedEach n ss ++ Stmt.numberedEach (n + Stmt.drawnEach ss) ts := by
  induction ss generalizing n with
  | nil => simp [Stmt.numberedEach, Stmt.drawnEach]
  | cons s ss ih =>
      simp only [List.cons_append, Stmt.numberedEach, Stmt.drawnEach, ih, Nat.add_assoc]

/-! ### The identities of a numbered tree -/

/-- The identities of occurrences are distinct and lie between two bounds. -/
structure IdsBetween (lo hi : Nat) (places : List (OccurrenceKind × Occurrence)) : Prop where
  nodup : (places.map fun entry => entry.2.id).Nodup
  bounds : ∀ entry ∈ places, lo ≤ entry.2.id ∧ entry.2.id < hi

namespace IdsBetween

variable {lo hi a b : Nat} {first second : List (OccurrenceKind × Occurrence)}

theorem nil : IdsBetween lo hi [] := ⟨by simp, by simp⟩

theorem one (kind : OccurrenceKind) (token : Token) (n : Nat) :
    IdsBetween n (n + 1) [(kind, ⟨n, token⟩)] :=
  ⟨by simp, by simp⟩

theorem widen {lo' hi' : Nat} (h : IdsBetween lo hi first) (hlo : lo' ≤ lo) (hhi : hi ≤ hi') :
    IdsBetween lo' hi' first := by
  refine ⟨h.nodup, fun entry hentry => ?_⟩
  have hbounds := h.bounds entry hentry
  exact ⟨Nat.le_trans hlo hbounds.1, Nat.lt_of_lt_of_le hbounds.2 hhi⟩

theorem append_of_disjoint (hfirst : IdsBetween lo hi first) (hsecond : IdsBetween lo hi second)
    (hdisjoint : ∀ x ∈ first, ∀ y ∈ second, x.2.id ≠ y.2.id) :
    IdsBetween lo hi (first ++ second) := by
  constructor
  · rw [List.map_append, List.nodup_append]
    refine ⟨hfirst.nodup, hsecond.nodup, ?_⟩
    intro i hi j hj
    obtain ⟨x, hx, rfl⟩ := List.mem_map.mp hi
    obtain ⟨y, hy, rfl⟩ := List.mem_map.mp hj
    exact hdisjoint x hx y hy
  · intro entry hentry
    rcases List.mem_append.mp hentry with h | h
    · exact hfirst.bounds entry h
    · exact hsecond.bounds entry h

/-- Lists whose identities lie in neighbouring intervals can be joined. -/
theorem append (hfirst : IdsBetween lo (lo + a) first)
    (hsecond : IdsBetween (lo + a) (lo + a + b) second) :
    IdsBetween lo (lo + (a + b)) (first ++ second) := by
  refine append_of_disjoint (hfirst.widen (Nat.le_refl _) (by omega))
    (hsecond.widen (by omega) (by omega)) ?_
  intro x hx y hy
  exact Nat.ne_of_lt (Nat.lt_of_lt_of_le (hfirst.bounds x hx).2 (hsecond.bounds y hy).1)

/-- They can also be joined in the other order. -/
theorem append_swapped (hfirst : IdsBetween (lo + a) (lo + a + b) first)
    (hsecond : IdsBetween lo (lo + a) second) :
    IdsBetween lo (lo + (a + b)) (first ++ second) := by
  refine append_of_disjoint (hfirst.widen (by omega) (by omega))
    (hsecond.widen (Nat.le_refl _) (by omega)) ?_
  intro x hx y hy
  exact Nat.ne_of_gt (Nat.lt_of_lt_of_le (hsecond.bounds y hy).2 (hfirst.bounds x hx).1)

end IdsBetween

mutual

theorem Expr.idsBetween_numbered (n : Nat) :
    (e : Expr) → IdsBetween n (n + e.drawn) (e.numbered n).occurrences
  | .literal _ => .nil
  | .unary _ operand => operand.idsBetween_numbered n
  | .binary left _ right | .logical left _ right =>
    (left.idsBetween_numbered n).append (right.idsBetween_numbered (n + left.drawn))
  | .group inner => inner.idsBetween_numbered n
  | .read place => .one .read place.token n
  | .this place => .one .this place.token n
  | .super place _ => .one .super place.token n
  | .assign place value => by
    -- The value lies between the identity that was read first and that of the assignment.
    have hvalue := (value.idsBetween_numbered (n + 1)).widen (Nat.le_succ n)
      (Nat.le_of_eq (Nat.succ_add n value.drawn))
    have hplace := IdsBetween.one .assign place.token (n + value.drawn + 1)
    exact IdsBetween.append_swapped (a := value.drawn + 1) hplace hvalue
  | .call callee _ arguments =>
    (callee.idsBetween_numbered n).append
      (Expr.idsBetween_numberedEach (n + callee.drawn) arguments)
  | .get object _ => object.idsBetween_numbered n
  | .set object _ value =>
    (object.idsBetween_numbered n).append (value.idsBetween_numbered (n + object.drawn))
termination_by structural e => e

theorem Expr.idsBetween_numberedEach (n : Nat) :
    (es : List Expr) →
      IdsBetween n (n + Expr.drawnEach es) (Expr.occurrencesEach (Expr.numberedEach n es))
  | [] => .nil
  | e :: rest =>
    (e.idsBetween_numbered n).append (Expr.idsBetween_numberedEach (n + e.drawn) rest)
termination_by structural es => es

end

theorem Expr.idsBetween_numberedIn? (n : Nat) (e : Option Expr) :
    IdsBetween n (n + Expr.drawnIn? e) (Expr.occurrencesIn? (Expr.numberedIn? n e)) := by
  cases e with
  | none => exact .nil
  | some e => exact e.idsBetween_numbered n

mutual

theorem Stmt.idsBetween_numbered (n : Nat) :
    (s : Stmt) → IdsBetween n (n + s.drawn) (s.numbered n).occurrences
  | .expression value => value.idsBetween_numbered n
  | .var _ initializer => Expr.idsBetween_numberedIn? n initializer
  | .block body => Stmt.idsBetween_numberedEach n body
  | .conditional condition thenBranch none =>
    (condition.idsBetween_numbered n).append
      (thenBranch.idsBetween_numbered (n + condition.drawn))
  | .conditional condition thenBranch (some elseBranch) => by
    have hthen := (condition.idsBetween_numbered n).append
      (thenBranch.idsBetween_numbered (n + condition.drawn))
    have helse := elseBranch.idsBetween_numbered (n + condition.drawn + thenBranch.drawn)
    have hsum := Nat.add_assoc n condition.drawn thenBranch.drawn
    exact hthen.append (helse.widen (Nat.le_of_eq hsum.symm) (by omega))
  | .loop condition body increment => by
    have hincrement := Expr.idsBetween_numberedIn? (n + condition.drawn) increment
    have hbody := body.idsBetween_numbered (n + condition.drawn + Expr.drawnIn? increment)
    have hrest := hbody.append_swapped hincrement
    rw [← Nat.add_assoc (n + condition.drawn)] at hrest
    have hall := (condition.idsBetween_numbered n).append (hrest.widen (Nat.le_refl _)
      (Nat.le_of_eq (Nat.add_assoc _ _ _)))
    rw [← List.append_assoc, ← Nat.add_assoc condition.drawn] at hall
    exact hall
  | .function declaration => declaration.idsBetween_numbered n
  | .returning _ value => Expr.idsBetween_numberedIn? n value
  | .breaking _ => .nil
  | .continuing _ => .nil
  | .class _ none methods => by
    have hmethods := FunctionDecl.idsBetween_numberedEach n methods
    simpa [Stmt.drawn, Stmt.numbered, Stmt.occurrences, Occurrence.drawnIn?,
      Occurrence.numberedIn?] using hmethods
  | .class _ (some place) methods =>
    (IdsBetween.one .read place.token n).append
      (FunctionDecl.idsBetween_numberedEach (n + 1) methods)
termination_by structural s => s

theorem Stmt.idsBetween_numberedEach (n : Nat) :
    (ss : List Stmt) →
      IdsBetween n (n + Stmt.drawnEach ss) (Stmt.occurrencesEach (Stmt.numberedEach n ss))
  | [] => .nil
  | s :: rest =>
    (s.idsBetween_numbered n).append (Stmt.idsBetween_numberedEach (n + s.drawn) rest)
termination_by structural ss => ss

theorem FunctionDecl.idsBetween_numbered (n : Nat) :
    (d : FunctionDecl) → IdsBetween n (n + d.drawn) (d.numbered n).occurrences
  | ⟨_, _, body⟩ => Stmt.idsBetween_numberedEach n body
termination_by structural d => d

theorem FunctionDecl.idsBetween_numberedEach (n : Nat) :
    (ds : List FunctionDecl) →
      IdsBetween n (n + FunctionDecl.drawnEach ds)
        (FunctionDecl.occurrencesEach (FunctionDecl.numberedEach n ds))
  | [] => .nil
  | d :: rest =>
    (d.idsBetween_numbered n).append
      (FunctionDecl.idsBetween_numberedEach (n + d.drawn) rest)
termination_by structural ds => ds

end

end Lox
