import Lox.Proofs.Parser.Acceptance
import Lox.Proofs.Resolution.Distances
import Lox.Proofs.Resolution.Marks
import Lox.Proofs.Resolution.Scopes

/-!
# Distances are lexical

The walk of resolution changes a stack of scopes.  At every occurrence it visits, the
stack holds the scopes that enclose the occurrence in the text, with the names that they
declare in front of it.  So the distances can be read off the text: they count the scopes
inside of the innermost one that binds the name.
-/

namespace Lox

open Resolution

/-- The scopes of the walk declare the names that are listed. -/
def Listed (scopes : List Scope) (names : List (List String)) : Prop :=
  List.Forall₂ (fun scope names => ∀ name, scope.contains name = true ↔ name ∈ names) scopes names

/--
The visits of a part of a program are the occurrences in its marks, which stand behind
`before`: each of them is visited with the scopes that are open where it stands.
-/
structure Traced (before marks : List Mark) (visits : List Visit) : Prop where
  placed : ∀ v ∈ visits, ∃ front back, marks = front ++ .occurs v.kind v.place :: back ∧
    Listed v.state.scopes (Mark.scopesBehind (before ++ front))
  visited : ∀ front kind place back, marks = front ++ .occurs kind place :: back →
    ∃ v ∈ visits, v.kind = kind ∧ v.place = place ∧
      Listed v.state.scopes (Mark.scopesBehind (before ++ front))

/-! ### Scopes and names -/

theorem contains_insert (scope : Scope) (name other : String) (readable : Bool) :
    (scope.insert name readable).contains other = true ↔
      other = name ∨ scope.contains other = true := by
  unfold Bindings.contains
  rw [Bindings.find?_insert]
  split
  · simp [*]
  · simp [*]

namespace Listed

variable {r r' : Resolution} {names : List (List String)}

theorem openScope (h : Listed r.scopes names) : Listed r.openScope.scopes ([] :: names) :=
  .cons (fun _ => by simp [Bindings.contains, Bindings.find?, Bindings.empty, Bindings.findEntry]) h

theorem mark (h : Listed r.scopes names) (name : String) (readable : Bool) :
    Listed (r.mark name readable).scopes (Mark.enter names (.declares name)) := by
  rw [scopes_mark]
  revert h
  generalize r.scopes = scopes
  intro h
  cases h with
  | nil => exact .nil
  | cons hinner houter =>
    refine .cons ?_ houter
    intro other
    rw [contains_insert, hinner other, List.mem_cons]

theorem behind (h : Listed r.scopes names) (declared : List String) :
    Listed (r.behind declared).scopes ((declared.map Mark.declares).foldl Mark.enter names) := by
  induction declared generalizing names r with
  | nil => exact h
  | cons name declared ih => exact ih (h.mark name true)

/-- The distance of the walk is that of the innermost scope that binds the name. -/
theorem distance?_eq_some_iff {scopes : List Scope} {text : List Mark} {name : String} {d : Nat}
    (h : Listed scopes (Mark.scopesBehind text)) :
    Resolution.distance? scopes name = some d ↔ Mark.BindsFirst text d name := by
  have hsame : Resolution.distance? scopes name =
      (Mark.scopesBehind text).findIdx? fun names => decide (name ∈ names) := by
    generalize Mark.scopesBehind text = names at h
    induction h with
    | nil => rfl
    | cons hhead _ ih =>
      rw [distance?_cons, List.findIdx?_cons, ih]
      simp [← hhead name]
  rw [hsame, List.findIdx?_eq_some_iff_getElem, Mark.BindsFirst]
  simp only [Mark.binds_iff, decide_eq_true_eq, Option.mem_def, List.getElem?_eq_some_iff]
  constructor
  · rintro ⟨hlt, hname, hnearer⟩
    refine ⟨⟨_, ⟨hlt, rfl⟩, hname⟩, ?_⟩
    rintro nearer hlt' ⟨names, ⟨_, rfl⟩, hmem⟩
    exact hnearer nearer hlt' hmem
  · rintro ⟨⟨names, ⟨hlt, rfl⟩, hname⟩, hnearer⟩
    refine ⟨hlt, hname, ?_⟩
    intro nearer hlt' hmem
    exact hnearer nearer hlt' ⟨_, ⟨Nat.lt_trans hlt' hlt, rfl⟩, hmem⟩

end Listed

/-! ### Behind a part of a program -/

namespace Mark

theorem foldl_enter_marks (e : Expr) (names : List (List String)) :
    e.marks.foldl enter names = names := by
  unfold Expr.marks
  induction e.occurrences with
  | nil => rfl
  | cons entry rest ih => simpa [enter] using ih

theorem foldl_enter_marksIn? (e : Option Expr) (names : List (List String)) :
    (Expr.marksIn? e).foldl enter names = names := by
  cases e with
  | none => rfl
  | some e => exact foldl_enter_marks e names

/-- Declarations change the innermost scope only. -/
theorem tail_foldl_declares (declared : List String) (names : List (List String)) :
    ((declared.map declares).foldl enter names).tail = names.tail := by
  induction declared generalizing names with
  | nil => rfl
  | cons name declared ih =>
    rw [List.map_cons, List.foldl_cons, ih]
    cases names <;> rfl

end Mark

mutual

/-- A part of a program declares its names, and closes all scopes that it opens. -/
theorem Stmt.foldl_marks : (s : Stmt) → (names : List (List String)) →
    s.marks.foldl Mark.enter names = (s.declares.map Mark.declares).foldl Mark.enter names
  | .expression value, names => Mark.foldl_enter_marks value names
  | .var name initializer, names => Mark.foldl_enter_marksIn? initializer _
  | .block body, names => by
    rw [Stmt.marks, List.foldl_cons, List.foldl_append, Stmt.foldl_marksEach body]
    exact Mark.tail_foldl_declares _ _
  | .conditional condition thenBranch none, names => by
    rw [Stmt.marks, List.foldl_append, Mark.foldl_enter_marks, thenBranch.foldl_marks]
    rfl
  | .conditional condition thenBranch (some elseBranch), names => by
    rw [Stmt.marks, List.foldl_append, Mark.foldl_enter_marks, List.foldl_append,
      thenBranch.foldl_marks, elseBranch.foldl_marks, Stmt.declares, List.map_append,
      List.foldl_append]
  | .loop condition body increment, names => by
    rw [Stmt.marks, List.foldl_append, Mark.foldl_enter_marks, List.foldl_append,
      Mark.foldl_enter_marksIn?, body.foldl_marks]
    rfl
  | .function declaration, names => declaration.foldl_marks _
  | .returning _ value, names => Mark.foldl_enter_marksIn? value names
  | .breaking _, _ | .continuing _, _ => rfl
  | .class name none methods, names => by
    rw [Stmt.marks, List.foldl_cons, List.foldl_cons, List.foldl_cons, List.foldl_append,
      FunctionDecl.foldl_marksEach methods]
    rfl
  | .class name (some parent) methods, names => by
    simp only [Stmt.marks, List.foldl_cons, List.foldl_append,
      FunctionDecl.foldl_marksEach methods]
    cases names <;> rfl
termination_by structural s => s

theorem Stmt.foldl_marksEach : (ss : List Stmt) → (names : List (List String)) →
    (Stmt.marksEach ss).foldl Mark.enter names =
      ((ss.flatMap Stmt.declares).map Mark.declares).foldl Mark.enter names
  | [], _ => rfl
  | s :: rest, names => by
    rw [Stmt.marksEach, List.foldl_append, s.foldl_marks, Stmt.foldl_marksEach rest,
      List.flatMap_cons, List.map_append, List.foldl_append]
termination_by structural ss => ss

theorem FunctionDecl.foldl_marks : (d : FunctionDecl) → (names : List (List String)) →
    d.marks.foldl Mark.enter names = names
  | ⟨name, parameters, body⟩, names => by
    have hparameters : parameters.map (fun parameter => Mark.declares parameter.lexeme) =
        (parameters.map Token.lexeme).map Mark.declares := by
      rw [List.map_map]
      rfl
    rw [FunctionDecl.marks, List.foldl_cons, List.foldl_append, List.foldl_append,
      Stmt.foldl_marksEach body, hparameters]
    exact (Mark.tail_foldl_declares _ _).trans (Mark.tail_foldl_declares _ _)
termination_by structural d => d

theorem FunctionDecl.foldl_marksEach : (ds : List FunctionDecl) → (names : List (List String)) →
    (FunctionDecl.marksEach ds).foldl Mark.enter names = names
  | [], _ => rfl
  | d :: rest, names => by
    rw [FunctionDecl.marksEach, List.foldl_append, d.foldl_marks, FunctionDecl.foldl_marksEach rest]
termination_by structural ds => ds

end

variable {r : Resolution} {before : List Mark}

/-- Behind a statement the scopes are still those that are open in the text. -/
theorem Listed.resolve (h : Listed r.scopes (Mark.scopesBehind before)) (s : Stmt) :
    Listed (s.resolve r).scopes (Mark.scopesBehind (before ++ s.marks)) := by
  rw [s.scopes_behind, Mark.scopesBehind_append, s.foldl_marks]
  exact h.behind s.declares

/-! ### The walk through the text -/

namespace Traced

variable {marks first second : List Mark} {visits visits' : List Visit}

/-- Marks that are no occurrences have no visits. -/
theorem quiet (h : ∀ kind place, .occurs kind place ∉ marks) : Traced before marks [] := by
  constructor
  · intro v hv
    cases hv
  · rintro front kind place back rfl
    exact absurd (List.mem_append_right front List.mem_cons_self) (h kind place)

/-- The order of the visits does not matter. -/
theorem perm (h : Traced before marks visits) (hperm : visits.Perm visits') :
    Traced before marks visits' := by
  constructor
  · intro v hv
    exact h.placed v (hperm.mem_iff.mpr hv)
  · intro front kind place back hmarks
    obtain ⟨v, hv, hrest⟩ := h.visited front kind place back hmarks
    exact ⟨v, hperm.mem_iff.mp hv, hrest⟩

theorem append (h : Traced before first visits) (h' : Traced (before ++ first) second visits') :
    Traced before (first ++ second) (visits ++ visits') := by
  constructor
  · intro v hv
    rcases List.mem_append.mp hv with hv | hv
    · obtain ⟨front, back, rfl, hlisted⟩ := h.placed v hv
      exact ⟨front, back ++ second, by simp, hlisted⟩
    · obtain ⟨front, back, rfl, hlisted⟩ := h'.placed v hv
      exact ⟨first ++ front, back, by simp, by simpa using hlisted⟩
  · intro front kind place back hmarks
    rcases List.append_eq_append_iff.mp hmarks with ⟨inside, rfl, rfl⟩ | ⟨inside, rfl, hback⟩
    · obtain ⟨v, hv, hkind, hplace, hlisted⟩ := h'.visited inside kind place back rfl
      exact ⟨v, List.mem_append_right _ hv, hkind, hplace, by simpa using hlisted⟩
    · cases inside with
      | nil =>
        rw [List.append_nil] at h'
        obtain ⟨v, hv, hkind, hplace, hlisted⟩ := h'.visited [] kind place back hback.symm
        exact ⟨v, List.mem_append_right _ hv, hkind, hplace, by simpa using hlisted⟩
      | cons x inside =>
        cases hback
        obtain ⟨v, hv, hrest⟩ := h.visited front kind place inside rfl
        exact ⟨v, List.mem_append_left _ hv, hrest⟩

theorem behind (h : Traced (before ++ first) second visits)
    (hquiet : ∀ kind place, .occurs kind place ∉ first) :
    Traced before (first ++ second) visits :=
  (quiet hquiet).append h

theorem inFrontOf (h : Traced before first visits)
    (hquiet : ∀ kind place, .occurs kind place ∉ second) :
    Traced before (first ++ second) visits := by
  have hsecond : Traced (before ++ first) second [] := quiet hquiet
  have happend := h.append hsecond
  rwa [List.append_nil] at happend

/-- The occurrences of a part in which no scope changes. -/
theorem occurrences {entries : List (OccurrenceKind × Occurrence)}
    (h : Listed r.scopes (Mark.scopesBehind before)) (hvisits : ∀ v ∈ visits, v.state.scopes = r.scopes)
    (hperm : (visits.map Visit.entry).Perm entries) :
    Traced before (entries.map fun entry => .occurs entry.1 entry.2) visits := by
  have hsame : ∀ front : List (OccurrenceKind × Occurrence),
      Mark.scopesBehind (before ++ front.map fun entry => Mark.occurs entry.1 entry.2) =
        Mark.scopesBehind before := by
    intro front
    rw [Mark.scopesBehind_append]
    induction front with
    | nil => rfl
    | cons entry front ih => simpa [Mark.enter] using ih
  constructor
  · intro v hv
    obtain ⟨front, back, rfl⟩ :=
      List.append_of_mem (hperm.mem_iff.mp (List.mem_map_of_mem hv))
    refine ⟨_, _, List.map_append, ?_⟩
    rw [hsame front, hvisits v hv]
    exact h
  · intro front kind place back hmarks
    obtain ⟨first, rest, rfl, rfl, hrest⟩ := List.map_eq_append_iff.mp hmarks
    obtain ⟨entry, rest', rfl, hentry, rfl⟩ := List.map_eq_cons_iff.mp hrest
    have hmem : entry ∈ first ++ entry :: rest' := List.mem_append_right _ List.mem_cons_self
    obtain ⟨v, hv, rfl⟩ := List.mem_map.mp (hperm.mem_iff.mpr hmem)
    cases hentry
    refine ⟨v, hv, rfl, rfl, ?_⟩
    rw [hsame first, hvisits v hv]
    exact h

end Traced

theorem Expr.traced (h : Listed r.scopes (Mark.scopesBehind before)) (e : Expr) :
    Traced before e.marks (e.visits r) :=
  .occurrences h (e.scopes_visits r) (e.perm_visits r)

theorem Expr.tracedIn? (h : Listed r.scopes (Mark.scopesBehind before)) (e : Option Expr) :
    Traced before (Expr.marksIn? e) (Expr.visitsIn? e r) := by
  cases e with
  | none => exact .quiet (by simp [Expr.marksIn?, Expr.occurrencesIn?])
  | some e => exact e.traced h

theorem Listed.afterExpr (h : Listed r.scopes (Mark.scopesBehind before)) (e : Expr) :
    Listed (e.resolve r).scopes (Mark.scopesBehind (before ++ e.marks)) := by
  rw [(e.sameScopes_resolve r).scopes, Mark.scopesBehind_append, Mark.foldl_enter_marks]
  exact h

theorem Listed.append_mark (h : Listed r.scopes (Mark.scopesBehind before)) (name : String)
    (readable : Bool) :
    Listed (r.mark name readable).scopes (Mark.scopesBehind (before ++ [.declares name])) := by
  rw [Mark.scopesBehind_append_singleton]
  exact h.mark name readable

theorem Listed.append_openScope (h : Listed r.scopes (Mark.scopesBehind before)) :
    Listed r.openScope.scopes (Mark.scopesBehind (before ++ [.opens])) := by
  rw [Mark.scopesBehind_append_singleton]
  exact h.openScope

theorem Listed.append_parameters (h : Listed r.scopes (Mark.scopesBehind before))
    (parameters : List Token) :
    Listed (r.declareParameters parameters).scopes (Mark.scopesBehind
      (before ++ parameters.map fun parameter => .declares parameter.lexeme)) := by
  induction parameters generalizing r before with
  | nil => simpa [declareParameters] using h
  | cons parameter parameters ih =>
    have hfirst : Listed ((r.declare parameter).define parameter).scopes
        (Mark.scopesBehind (before ++ [.declares parameter.lexeme])) := by
      rw [scopes_define_declare (SameScopes.refl (r.declare parameter))]
      exact h.append_mark parameter.lexeme true
    have hrest := ih hfirst
    rw [List.append_assoc] at hrest
    exact hrest

/-! ### Loops -/

mutual

/-- Bodies of loops declare nothing in the scope that the loop stands in. -/
def Stmt.Tidy : Stmt → Prop
  | .block body => Stmt.TidyEach body
  | .conditional _ thenBranch none => thenBranch.Tidy
  | .conditional _ thenBranch (some elseBranch) => thenBranch.Tidy ∧ elseBranch.Tidy
  | .loop _ body _ => body.declares = [] ∧ body.Tidy
  | .function declaration => declaration.Tidy
  | .class _ _ methods => FunctionDecl.TidyEach methods
  | _ => True
termination_by structural s => s

def Stmt.TidyEach : List Stmt → Prop
  | [] => True
  | s :: rest => s.Tidy ∧ Stmt.TidyEach rest
termination_by structural ss => ss

def FunctionDecl.Tidy : FunctionDecl → Prop
  | ⟨_, _, body⟩ => Stmt.TidyEach body
termination_by structural d => d

def FunctionDecl.TidyEach : List FunctionDecl → Prop
  | [] => True
  | d :: rest => d.Tidy ∧ FunctionDecl.TidyEach rest
termination_by structural ds => ds

end

mutual

/-- The walk visits the occurrences of a statement with the scopes of the text. -/
theorem Stmt.traced : (s : Stmt) → s.Tidy → {r : Resolution} → {before : List Mark} →
    Listed r.scopes (Mark.scopesBehind before) → Traced before s.marks (s.visits r)
  | .expression value, _, _, _, h => value.traced h
  | .var name none, _, _, _, _ => .quiet (by simp [Stmt.marks, Expr.marksIn?, Expr.occurrencesIn?])
  -- The name is declared in front of its initializer, in the text and in the walk.
  | .var name (some value), _, r, before, h => by
    have hname : Listed ((r.declare name).enterInitializer name.lexeme).scopes
        (Mark.scopesBehind (before ++ [.declares name.lexeme])) := by
      rw [scopes_enterInitializer, scopes_declare]
      exact h.append_mark name.lexeme false
    exact (value.traced hname).behind (by simp)
  -- The marks of the block are between those that open and close its scope.
  | .block body, htidy, _, _, h =>
    ((Stmt.tracedEach body htidy h.append_openScope).inFrontOf (by simp)).behind (by simp)
  | .conditional condition thenBranch none, htidy, _, _, h =>
    (condition.traced h).append (thenBranch.traced htidy (h.afterExpr condition))
  | .conditional condition thenBranch (some elseBranch), htidy, _, _, h => by
    -- The branches see what is declared in front of them, and the first one declares nothing.
    have hthen := h.afterExpr condition
    rw [Stmt.visits, List.append_assoc]
    exact (condition.traced h).append ((thenBranch.traced htidy.1 hthen).append
      (elseBranch.traced htidy.2 (hthen.resolve thenBranch)))
  | .loop condition body increment, htidy, r, before, h => by
    have htest := h.afterExpr condition
    -- The body is tidy, so behind it the scope is as in front of it.
    have hclosed : ((condition.resolve r).inLoop body.resolve).scopes =
        (condition.resolve r).scopes := by
      have hscopes := body.scopes_behind (condition.resolve r).enterLoop
      rw [htidy.1] at hscopes
      exact hscopes
    have hstep : Traced (before ++ condition.marks) (Expr.marksIn? increment)
        (Expr.visitsIn? increment ((condition.resolve r).inLoop body.resolve)) := by
      apply Expr.tracedIn?
      rw [hclosed]
      exact htest
    -- The clauses of the loop declare nothing either.
    have hbody : Listed (condition.resolve r).enterLoop.scopes
        (Mark.scopesBehind (before ++ condition.marks ++ Expr.marksIn? increment)) := by
      rw [Mark.scopesBehind_append, Mark.foldl_enter_marksIn?]
      exact htest
    -- The walk goes through the body first, and the text has the clauses in front of it.
    refine ((condition.traced h).append (hstep.append (body.traced htidy.2 hbody))).perm ?_
    rw [Stmt.visits, List.append_assoc]
    exact List.perm_append_comm.append_left _
  | .function declaration, htidy, r, before, h => by
    -- The name of a function can be read in its body.
    have hname : Listed ((r.declare declaration.name).define declaration.name).scopes
        (Mark.scopesBehind (before ++ [.declares declaration.name.lexeme])) := by
      rw [scopes_define_declare (SameScopes.refl (r.declare declaration.name))]
      exact h.append_mark _ true
    exact (declaration.traced htidy .function hname).behind (by simp)
  | .returning _ none, _, _, _, _ => .quiet (by simp [Stmt.marks, Expr.marksIn?, Expr.occurrencesIn?])
  | .returning keyword (some value), _, r, _, h => by
    apply value.traced
    -- Reporting an error moves no scope.
    rw [(sameScopes_reportIf _ _ _ _).scopes, (sameScopes_reportIf _ _ _ _).scopes]
    exact h
  | .breaking _, _, _, _, _ | .continuing _, _, _, _, _ => .quiet (by simp [Stmt.marks])
  | .class name none methods, htidy, r, before, h => by
    have hname : Listed (r.enterClass name none).scopes
        (Mark.scopesBehind (before ++ [.declares name.lexeme])) := by
      rw [scopes_enterClass]
      exact h.append_mark _ true
    -- Without a superclass the methods see `this` in a scope of their own.
    have hthis := hname.append_openScope.append_mark "this" true
    simp only [List.append_assoc, List.cons_append, List.nil_append] at hthis
    exact ((FunctionDecl.tracedMethods methods htidy hthis).inFrontOf (by simp)).behind (by simp)
  | .class name (some parent) methods, htidy, r, before, h => by
    have hname : Listed (r.enterSuperclass name parent).scopes
        (Mark.scopesBehind (before ++ [.declares name.lexeme])) := by
      rw [scopes_enterSuperclass]
      exact h.append_mark _ true
    -- The superclass is read behind the declaration of the name, and outside of the class.
    have hparent : Traced (before ++ [.declares name.lexeme])
        ([(OccurrenceKind.read, parent)].map fun entry => .occurs entry.1 entry.2)
        [⟨.read, parent, r.enterSuperclass name parent⟩] :=
      .occurrences hname (by simp) (.refl _)
    have hclass : Listed (r.enterClass name (some parent)).scopes
        (Mark.scopesBehind (before ++ [.declares name.lexeme] ++ [.occurs .read parent])) := by
      rw [scopes_enterClass, ← scopes_enterSuperclass name parent,
        Mark.scopesBehind_append_singleton]
      cases hnames : Mark.scopesBehind (before ++ [.declares name.lexeme]) with
      | nil => exact hnames ▸ hname
      | cons names outer => exact hnames ▸ hname
    -- Two scopes are opened, that of `super` and that of `this`.
    have hthis : Listed ((r.enterClass name (some parent)).enterClassBody true).scopes
        (Mark.scopesBehind (before ++ [.declares name.lexeme] ++ [.occurs .read parent] ++
          [.opens, .declares "super", .opens, .declares "this"])) := by
      have hinside :=
        (hclass.append_openScope.append_mark "super" true).append_openScope.append_mark "this" true
      simp only [List.append_assoc, List.cons_append, List.nil_append] at hinside ⊢
      exact hinside
    have hends : ∀ kind place, Mark.occurs kind place ∉ [Mark.closes, .closes] := by simp
    have hmethods := ((FunctionDecl.tracedMethods methods htidy hthis).inFrontOf hends).behind
      (by simp)
    have hdeclares : ∀ kind place, Mark.occurs kind place ∉ [Mark.declares name.lexeme] := by simp
    exact (hparent.append hmethods).behind hdeclares
termination_by structural s => s

theorem Stmt.tracedEach : (ss : List Stmt) → Stmt.TidyEach ss → {r : Resolution} →
    {before : List Mark} → Listed r.scopes (Mark.scopesBehind before) →
    Traced before (Stmt.marksEach ss) (Stmt.visitsEach ss r)
  | [], _, _, _, _ => .quiet (by simp [Stmt.marksEach])
  | s :: rest, htidy, _, _, h =>
    (s.traced htidy.1 h).append (Stmt.tracedEach rest htidy.2 (h.resolve s))
termination_by structural ss => ss

theorem FunctionDecl.traced : (d : FunctionDecl) → d.Tidy → (routine : EnclosingRoutine) →
    {r : Resolution} → {before : List Mark} → Listed r.scopes (Mark.scopesBehind before) →
    Traced before d.marks (d.visits routine r)
  | ⟨name, parameters, body⟩, htidy, routine, r, before, h => by
    have hopen : Listed ({ r with routine := routine, loopDepth := 0 } : Resolution).openScope.scopes
        (Mark.scopesBehind (before ++ [.opens])) := Listed.append_openScope h
    have hinside := hopen.append_parameters parameters
    exact (((Stmt.tracedEach body htidy hinside).inFrontOf (by simp)).behind (by simp)).behind
      (by simp)
termination_by structural d => d

theorem FunctionDecl.tracedMethods : (ds : List FunctionDecl) → FunctionDecl.TidyEach ds →
    {r : Resolution} → {before : List Mark} → Listed r.scopes (Mark.scopesBehind before) →
    Traced before (FunctionDecl.marksEach ds) (FunctionDecl.visitsMethods ds r)
  | [], _, _, _, _ => .quiet (by simp [FunctionDecl.marksEach])
  | d :: rest, htidy, r, before, h => by
    have hrest : Listed (d.resolve (if d.isInitializer then .initializer else .method) r).scopes
        (Mark.scopesBehind (before ++ d.marks)) := by
      rw [d.scopes_resolve, Mark.scopesBehind_append, d.foldl_marks]
      exact h
    exact (d.traced htidy.1 _ h).append (FunctionDecl.tracedMethods rest htidy.2 hrest)
termination_by structural ds => ds

end

/-! ### Trees that the parser makes -/

namespace Grammar

/-- Loops in the tree of a phrase are tidy, and statements declare nothing. -/
def StmtPhrase.Tidy : StmtPhrase → Prop
  | .declaration s => s.Tidy
  | .declarations ss => Stmt.TidyEach ss
  | .function d => d.Tidy
  | .functions ds => FunctionDecl.TidyEach ds
  | .statement _ s => s.Tidy ∧ s.declares = []

theorem ExprStmt.tidy {s : Stmt} {w : List Token} (h : ExprStmt s w) :
    s.Tidy ∧ s.declares = [] := by
  cases h with
  | mk => exact ⟨trivial, rfl⟩

theorem VarDecl.tidy {s : Stmt} {w : List Token} (h : VarDecl s w) : s.Tidy := by
  cases h with
  | plain | initialized => exact trivial

theorem tidy_forTree {initializer : Option Stmt} {condition increment : Option Expr} {body : Stmt}
    {w : List Token} (hinit : ForInit initializer w) (hbody : body.Tidy ∧ body.declares = []) :
    (forTree initializer condition increment body).Tidy ∧
      (forTree initializer condition increment body).declares = [] := by
  have hloop : (Stmt.loop (condition.getD (.literal (.bool true))) body increment).Tidy :=
    ⟨hbody.2, hbody.1⟩
  cases hinit with
  | var hvar => exact ⟨⟨hvar.tidy, hloop, trivial⟩, rfl⟩
  | expression he => exact ⟨⟨he.tidy.1, hloop, trivial⟩, rfl⟩
  | absent => exact ⟨hloop, hbody.2⟩

theorem StmtDerives.tidy {attachment : Attachment} {phrase : StmtPhrase} {w : List Token}
    (h : StmtDerives attachment phrase w) : phrase.Tidy := by
  induction h with
  | classDecl _ _ _ _ _ _ ih => exact ih
  | funDecl _ _ ih => exact ih
  | varDecl hvar => exact hvar.tidy
  | plain _ ih => exact ih.1
  | declarationsEnd | functionsEnd => trivial
  | declarationsMore _ _ ih ih' | functionsMore _ _ ih ih' => exact ⟨ih, ih'⟩
  | function _ _ _ _ _ _ _ ih => exact ih
  | exprStmt he => exact he.tidy
  | forStmt _ _ hinit _ _ _ _ _ ih => exact tidy_forTree hinit ih
  | ifStmt _ _ _ _ _ ih => exact ih
  | ifElseStmt _ _ _ _ _ _ _ _ ih ih' =>
    refine ⟨⟨ih.1, ih'.1⟩, ?_⟩
    rw [Stmt.declares, ih.2, ih'.2]
    rfl
  | returnStmt | breakStmt | continueStmt => exact ⟨trivial, rfl⟩
  | whileStmt _ _ _ _ _ ih => exact ⟨⟨ih.2, ih.1⟩, ih.2⟩
  | block _ _ _ ih => exact ⟨ih, rfl⟩

end Grammar

/-! ### The distances of a program -/

/-- A scope that binds a name is there, so there is an innermost one. -/
theorem Mark.exists_bindsFirst {text : List Mark} {name : String} :
    (∃ d, Binds text d name) ↔ ∃ d, BindsFirst text d name := by
  constructor
  · rintro ⟨d, h⟩
    induction d using Nat.strongRecOn with
    | ind d ih =>
      by_cases hnearer : ∃ nearer < d, Binds text nearer name
      · obtain ⟨nearer, hlt, hbinds⟩ := hnearer
        exact ih nearer hlt hbinds
      · exact ⟨d, h, fun nearer hlt hbinds => hnearer ⟨nearer, hlt, hbinds⟩⟩
  · rintro ⟨d, h, -⟩
    exact ⟨d, h⟩

variable {tokens : List Token} {n : NodeId} {statements : List Stmt} {distances : Distances}

/-- An occurrence of a parsed program has the distance of the walk through the text. -/
theorem Resolution.getElem?_eq_some_iff (honly : Grammar.EndsWithOnlyEof tokens)
    (hparse : (Parser.parse tokens n).1 = .ok statements)
    (hrun : Resolution.run statements = .ok distances) {id d : Nat} :
    distances[id]? = some d ↔ ∃ before kind place after,
      Stmt.marksEach statements = before ++ .occurs kind place :: after ∧ place.id = id ∧
        Mark.BindsFirst before d place.name := by
  have hderived := Parser.derives_of_parse honly hparse
  have hnodup : ((Stmt.occurrencesEach statements).map fun entry => entry.2.id).Nodup := by
    have hids := Stmt.idsBetween_numberedEach n statements
    rw [Parser.parse_eq_numbered hderived, Except.ok.injEq] at hparse
    rw [hparse] at hids
    exact hids.nodup
  have htidy : Stmt.TidyEach statements := by
    cases hderived with
    | mk hderives _ => exact hderives.tidy
  have htraced : Traced [] (Stmt.marksEach statements) (Stmt.visitsEach statements {}) :=
    Stmt.tracedEach statements htidy .nil
  constructor
  · intro hid
    obtain ⟨v, hv, rfl⟩ := List.mem_map.mp (mem_visits_of_getElem? hrun hid)
    obtain ⟨front, back, hmarks, hlisted⟩ := htraced.placed v hv
    rw [getElem?_of_run hrun hnodup hv] at hid
    exact ⟨front, v.kind, v.place, back, hmarks, rfl, hlisted.distance?_eq_some_iff.mp hid⟩
  · rintro ⟨before, kind, place, after, hmarks, rfl, hbinds⟩
    obtain ⟨v, hv, -, rfl, hlisted⟩ := htraced.visited before kind place after hmarks
    rw [getElem?_of_run hrun hnodup hv]
    exact hlisted.distance?_eq_some_iff.mpr hbinds

/--
In a program that the parser makes and that resolves, the distances belong to exactly the
occurrences for which a scope around them declares their name in front of them, and the
distance of an occurrence is the number of scopes inside of the innermost such scope.
-/
theorem Resolution.run_lexical (honly : Grammar.EndsWithOnlyEof tokens)
    (hparse : (Parser.parse tokens n).1 = .ok statements)
    (hrun : Resolution.run statements = .ok distances) :
    (∀ id, id ∈ distances ↔ ∃ before kind place after d,
      Stmt.marksEach statements = before ++ .occurs kind place :: after ∧ place.id = id ∧
        Mark.Binds before d place.name) ∧
    ∀ id d, distances[id]? = some d ↔ ∃ before kind place after,
      Stmt.marksEach statements = before ++ .occurs kind place :: after ∧ place.id = id ∧
        Mark.BindsFirst before d place.name := by
  have hdistance := fun id d => @Resolution.getElem?_eq_some_iff _ _ _ _ honly hparse hrun id d
  refine ⟨?_, hdistance⟩
  intro id
  rw [Std.TreeMap.mem_iff_isSome_getElem?, Option.isSome_iff_exists]
  constructor
  · rintro ⟨d, hid⟩
    obtain ⟨before, kind, place, after, hmarks, hplace, hbinds, -⟩ := (hdistance id d).mp hid
    exact ⟨before, kind, place, after, d, hmarks, hplace, hbinds⟩
  · rintro ⟨before, kind, place, after, d, hmarks, hplace, hbinds⟩
    obtain ⟨d', hfirst⟩ := Mark.exists_bindsFirst.mp ⟨d, hbinds⟩
    exact ⟨d', (hdistance id d').mpr ⟨before, kind, place, after, hmarks, hplace, hfirst⟩⟩

/-- A name that is declared between two functions that read it. -/
def declaredBetween : String :=
  "\x7b fun f() \x7b x; \x7d var x; fun g() \x7b x; \x7d \x7d"

theorem declaredBetween_lexical :
    ∃ statements distances,
      (Parser.parse (Item.tokens (Item.scan declaredBetween)) 0).1 = .ok statements ∧
      Resolution.run statements = .ok distances ∧
      (∀ before kind place after d,
        Stmt.marksEach statements = before ++ .occurs kind place :: after → place.id = 0 →
          ¬ Mark.Binds before d place.name) ∧
      ∃ before kind place after,
        Stmt.marksEach statements = before ++ .occurs kind place :: after ∧ place.id = 1 ∧
          Mark.BindsFirst before 1 place.name := by
  have hresolves : ((Parser.parse (Item.tokens (Item.scan declaredBetween)) 0).1.toOption.bind
      fun statements => (Resolution.run statements).toOption).any fun distances =>
        distances[0]? = none ∧ distances[1]? = some 1 := by decide +kernel
  cases hparse : (Parser.parse (Item.tokens (Item.scan declaredBetween)) 0).1 with
  | error errors =>
    rw [hparse] at hresolves
    cases hresolves
  | ok statements =>
    rw [hparse] at hresolves
    cases hrun : Resolution.run statements with
    | error errors => simp [hrun, Except.toOption] at hresolves
    | ok distances =>
      simp only [hrun, Except.toOption, Option.bind_some, Option.any_some, decide_eq_true_eq]
        at hresolves
      obtain ⟨hkeys, hdistance⟩ :=
        Resolution.run_lexical (Item.endsWithOnlyEof_scan declaredBetween) hparse hrun
      refine ⟨statements, distances, rfl, hrun, ?_, (hdistance 1 1).mp hresolves.2⟩
      intro before kind place after d hmarks hplace hbinds
      have hmem := (hkeys 0).mpr ⟨before, kind, place, after, d, hmarks, hplace, hbinds⟩
      rw [Std.TreeMap.mem_iff_isSome_getElem?, hresolves.1] at hmem
      cases hmem

end Lox
