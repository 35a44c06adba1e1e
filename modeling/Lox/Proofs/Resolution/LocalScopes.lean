import Mathlib.Data.List.Nodup
import Lox.Proofs.Resolution.Distances
import Lox.Proofs.Resolution.Offences
import Lox.Proofs.Tree.Shape

/-!
# The scopes of a program

Blocks and functions have a scope of their own, and the scopes of a program are numbered
in the order in which they begin.  In a program without errors no local scope declares a
name twice, so that a variable is never also a function or a class of the same scope.
-/

namespace Lox

open Resolution

/-- A name that is declared: that of a variable or parameter, or else of a function or class. -/
structure Declaration where
  isVariable : Bool
  name : Token
  deriving DecidableEq

abbrev LocalScope := List Declaration

/-- What a statement declares in the scope it stands in, its branches included. -/
def Stmt.declarations : Stmt → LocalScope
  | .var name _ => [⟨true, name⟩]
  | .function d => [⟨false, d.name⟩]
  | .class name _ _ => [⟨false, name⟩]
  | .conditional _ thenBranch none => thenBranch.declarations
  | .conditional _ thenBranch (some elseBranch) =>
    thenBranch.declarations ++ elseBranch.declarations
  | .loop _ body _ => body.declarations
  | _ => []

def Stmt.declarationsEach : List Stmt → LocalScope
  | [] => []
  | s :: rest => s.declarations ++ Stmt.declarationsEach rest

mutual

/-- The local scopes in a statement, in the order in which they begin. -/
def Stmt.localScopes : Stmt → List LocalScope
  | .block body => Stmt.declarationsEach body :: Stmt.localScopesEach body
  | .conditional _ thenBranch none => thenBranch.localScopes
  | .conditional _ thenBranch (some elseBranch) => thenBranch.localScopes ++ elseBranch.localScopes
  | .loop _ body _ => body.localScopes
  | .function d => d.localScopes
  | .class _ _ methods => FunctionDecl.localScopesEach methods
  | .expression _ | .var _ _ | .returning _ _ | .breaking _ | .continuing _ => []
termination_by structural s => s

def Stmt.localScopesEach : List Stmt → List LocalScope
  | [] => []
  | s :: rest => s.localScopes ++ Stmt.localScopesEach rest
termination_by structural ss => ss

/-- The scope of a function, which its parameters and its body share, and those within. -/
def FunctionDecl.localScopes : FunctionDecl → List LocalScope
  | ⟨_, parameters, body⟩ =>
    (parameters.map (Declaration.mk true) ++ Stmt.declarationsEach body) ::
      Stmt.localScopesEach body
termination_by structural d => d

def FunctionDecl.localScopesEach : List FunctionDecl → List LocalScope
  | [] => []
  | d :: rest => d.localScopes ++ FunctionDecl.localScopesEach rest
termination_by structural ds => ds

end

/-! ### Names are declared once -/

def LocalScope.names (scope : LocalScope) : List String := scope.map fun d => d.name.lexeme

theorem LocalScope.names_append (first second : LocalScope) :
    LocalScope.names (first ++ second) = LocalScope.names first ++ LocalScope.names second :=
  List.map_append

theorem Stmt.names_declarations : (s : Stmt) → LocalScope.names s.declarations = s.declares
  | .conditional _ thenBranch none => thenBranch.names_declarations
  | .conditional _ thenBranch (some elseBranch) => by
    rw [declarations, LocalScope.names_append, thenBranch.names_declarations,
      elseBranch.names_declarations, declares]
  | .loop _ body _ => body.names_declarations
  | .var _ _ | .function _ | .class _ _ _ | .expression _ | .block _ | .returning _ _ | .breaking _
  | .continuing _ => rfl
termination_by structural s => s

def Clean (spots : List Spot) : Prop := ∀ spot ∈ spots, spot.site.cause? spot.around = none

theorem clean_append {left right : List Spot} :
    Clean (left ++ right) ↔ Clean left ∧ Clean right :=
  List.forall_mem_append

theorem clean_cons {spot : Spot} {rest : List Spot} :
    Clean (spot :: rest) ↔ spot.site.cause? spot.around = none ∧ Clean rest :=
  List.forall_mem_cons

variable {a : Around}

/-- A name that may be declared was not declared in front. -/
theorem nodup_declare {name : Token} (hlocal : a.isLocal = true) (hnodup : a.declared.Nodup)
    (h : (Site.declaration name).cause? a = none) : (a.declared ++ [name.lexeme]).Nodup := by
  have hnew : name.lexeme ∉ a.declared := by
    intro hmem
    simp [Site.cause?, hlocal, hmem] at h
  rw [List.nodup_append]
  refine ⟨hnodup, List.nodup_singleton _, ?_⟩
  rintro declared hdeclared other hother rfl
  exact hnew (List.mem_singleton.mp hother ▸ hdeclared)

theorem Stmt.nodup_declares : (s : Stmt) → {a : Around} → a.isLocal = true → a.declared.Nodup →
    Clean (s.spots a) → (a.declared ++ s.declares).Nodup
  | .var name none, _, hlocal, hnodup, hclean => nodup_declare hlocal hnodup (clean_cons.mp hclean).1
  | .var name (some _), _, hlocal, hnodup, hclean =>
    nodup_declare hlocal hnodup (clean_cons.mp hclean).1
  | .function d, _, hlocal, hnodup, hclean => nodup_declare hlocal hnodup (clean_cons.mp hclean).1
  | .class name none _, _, hlocal, hnodup, hclean =>
    nodup_declare hlocal hnodup (clean_cons.mp hclean).1
  | .class name (some _) _, _, hlocal, hnodup, hclean =>
    nodup_declare hlocal hnodup (clean_cons.mp hclean).1
  | .conditional _ thenBranch none, _, hlocal, hnodup, hclean =>
    thenBranch.nodup_declares hlocal hnodup (clean_append.mp hclean).2
  | .conditional _ thenBranch (some elseBranch), a, hlocal, hnodup, hclean => by
    obtain ⟨hbefore, helse⟩ := clean_append.mp hclean
    have hthen := thenBranch.nodup_declares hlocal hnodup (clean_append.mp hbefore).2
    have hboth := @Stmt.nodup_declares elseBranch (a.behind thenBranch.declares) hlocal hthen helse
    rw [declares, ← List.append_assoc]
    exact hboth
  | .loop _ body _, a, hlocal, hnodup, hclean => by
    obtain ⟨hbefore, -⟩ := clean_append.mp hclean
    have hlocal' : a.withinLoop.isLocal = true := by
      unfold Around.isLocal Around.withinLoop
      rw [List.any_cons]
      exact Bool.or_eq_true_iff.mpr (.inr hlocal)
    exact @Stmt.nodup_declares body a.withinLoop hlocal' hnodup (clean_append.mp hbefore).2
  | .expression _, _, _, hnodup, _ | .block _, _, _, hnodup, _ | .returning _ _, _, _, hnodup, _
  | .breaking _, _, _, hnodup, _ | .continuing _, _, _, hnodup, _ => by
    change (_ ++ []).Nodup
    rw [List.append_nil]
    exact hnodup
termination_by structural s => s

theorem Stmt.nodup_declarationsEach (ss : List Stmt) {a : Around} (hlocal : a.isLocal = true)
    (hnodup : a.declared.Nodup) (hclean : Clean (Stmt.spotsEach ss a)) :
    (a.declared ++ LocalScope.names (Stmt.declarationsEach ss)).Nodup := by
  induction ss generalizing a with
  | nil =>
    rw [declarationsEach, LocalScope.names, List.map_nil, List.append_nil]
    exact hnodup
  | cons s ss ih =>
    obtain ⟨hs, hrest⟩ := clean_append.mp hclean
    have hnext := s.nodup_declares hlocal hnodup hs
    rw [declarationsEach, LocalScope.names_append, s.names_declarations, ← List.append_assoc]
    exact @ih (a.behind s.declares) hlocal hnext hrest

theorem nodup_parameters (parameters : List Token) {a : Around} (hlocal : a.isLocal = true)
    (hnodup : a.declared.Nodup) (hclean : Clean (Token.spots a parameters)) :
    (a.declared ++ parameters.map Token.lexeme).Nodup := by
  induction parameters generalizing a with
  | nil =>
    rw [List.map_nil, List.append_nil]
    exact hnodup
  | cons name parameters ih =>
    obtain ⟨hname, hrest⟩ := clean_cons.mp hclean
    have hnext := nodup_declare hlocal hnodup hname
    have hall := @ih (a.behind [name.lexeme]) hlocal hnext hrest
    rw [Around.behind, List.append_assoc] at hall
    exact hall

/-! ### The scopes of a clean program -/

def LocalScope.Distinct (scope : LocalScope) : Prop := (LocalScope.names scope).Nodup

abbrev AllDistinct (scopes : List LocalScope) : Prop := ∀ scope ∈ scopes, LocalScope.Distinct scope

theorem allDistinct_append {left right : List LocalScope} :
    AllDistinct (left ++ right) ↔ AllDistinct left ∧ AllDistinct right :=
  List.forall_mem_append

theorem allDistinct_cons {scope : LocalScope} {rest : List LocalScope} :
    AllDistinct (scope :: rest) ↔ LocalScope.Distinct scope ∧ AllDistinct rest :=
  List.forall_mem_cons

mutual

theorem Stmt.distinct : (s : Stmt) → {a : Around} → Clean (s.spots a) → AllDistinct s.localScopes
  | .block body, a, hclean =>
    allDistinct_cons.mpr ⟨@Stmt.nodup_declarationsEach body (a.within .block) rfl List.nodup_nil hclean,
      Stmt.distinctEach body hclean⟩
  | .conditional _ thenBranch none, _, hclean => thenBranch.distinct (clean_append.mp hclean).2
  | .conditional _ thenBranch (some elseBranch), _, hclean => by
    obtain ⟨hbefore, helse⟩ := clean_append.mp hclean
    exact allDistinct_append.mpr
      ⟨thenBranch.distinct (clean_append.mp hbefore).2, elseBranch.distinct helse⟩
  | .loop _ body _, _, hclean => body.distinct (clean_append.mp (clean_append.mp hclean).1).2
  | .function d, a, hclean => d.distinct rfl rfl (clean_cons.mp hclean).2
  | .class _ none methods, _, hclean =>
    FunctionDecl.distinctEach methods (clean_cons.mp hclean).2
  | .class _ (some _) methods, _, hclean =>
    FunctionDecl.distinctEach methods (clean_cons.mp (clean_cons.mp hclean).2).2
  | .expression _, _, _ | .var _ _, _, _ | .returning _ _, _, _ | .breaking _, _, _
  | .continuing _, _, _ => List.forall_mem_nil _
termination_by structural s => s

theorem Stmt.distinctEach : (ss : List Stmt) → {a : Around} → Clean (Stmt.spotsEach ss a) →
    AllDistinct (Stmt.localScopesEach ss)
  | [], _, _ => List.forall_mem_nil _
  | s :: rest, _, hclean =>
    allDistinct_append.mpr ⟨s.distinct (clean_append.mp hclean).1,
      Stmt.distinctEach rest (clean_append.mp hclean).2⟩
termination_by structural ss => ss

theorem FunctionDecl.distinct : (d : FunctionDecl) → {a : Around} → a.isLocal = true →
    a.declared = [] → Clean (d.spots a) → AllDistinct d.localScopes
  | ⟨_, parameters, body⟩, a, hlocal, hnew, hclean => by
    obtain ⟨hparameters, hbody⟩ := clean_append.mp hclean
    have hnodup := nodup_parameters parameters hlocal (hnew ▸ List.nodup_nil) hparameters
    have hall := @Stmt.nodup_declarationsEach body (a.behind (parameters.map Token.lexeme)) hlocal
      hnodup hbody
    have hnames : LocalScope.names (parameters.map (Declaration.mk true)) =
        parameters.map Token.lexeme := by
      rw [LocalScope.names, List.map_map]
      rfl
    rw [Around.behind, hnew, List.nil_append, ← hnames, ← LocalScope.names_append] at hall
    exact allDistinct_cons.mpr ⟨hall, Stmt.distinctEach body hbody⟩
termination_by structural d => d

theorem FunctionDecl.distinctEach : (ds : List FunctionDecl) → {a : Around} →
    Clean (FunctionDecl.spotsEach ds a) → AllDistinct (FunctionDecl.localScopesEach ds)
  | [], _, _ => List.forall_mem_nil _
  | d :: rest, _, hclean =>
    allDistinct_append.mpr ⟨d.distinct rfl rfl (clean_append.mp hclean).1,
      FunctionDecl.distinctEach rest (clean_append.mp hclean).2⟩
termination_by structural ds => ds

end

/-- In a program without errors, no scope declares a name twice. -/
theorem Resolution.distinct_of_run {program : List Stmt} {distances : Distances}
    (h : Resolution.run program = .ok distances) : AllDistinct (Stmt.localScopesEach program) := by
  apply Stmt.distinctEach program (a := {})
  intro spot hspot
  apply Classical.byContradiction
  intro hcause
  have hoffences := (Stmt.offences_ne_nil_iff program).mpr ⟨spot, hspot, hcause⟩
  have herrors : (Stmt.resolveEach program {}).errors = [] := (distances_of_run h).1
  rw [← errors_resolveEach, herrors] at hoffences
  exact hoffences rfl

/-- So a variable of a scope has the name of no function or class of the scope. -/
theorem LocalScope.Distinct.ne {scope : LocalScope} (h : LocalScope.Distinct scope)
    {d d' : Declaration} (hd : d ∈ scope) (hd' : d' ∈ scope) (hkind : d.isVariable ≠ d'.isVariable) :
    d.name.lexeme ≠ d'.name.lexeme := by
  intro hname
  have hsame := List.inj_on_of_nodup_map h hd hd' hname
  exact hkind (congrArg Declaration.isVariable hsame)

/-! ### What is declared can be named -/

/-- Nothing that the scope declares is called `this` or `super`. -/
abbrev LocalScope.Named (scope : LocalScope) : Prop := ∀ d ∈ scope, IsName d.name.lexeme

theorem LocalScope.named_append {first second : LocalScope} :
    LocalScope.Named (first ++ second) ↔ LocalScope.Named first ∧ LocalScope.Named second :=
  List.forall_mem_append

theorem LocalScope.named_singleton {d : Declaration} (h : IsName d.name.lexeme) :
    LocalScope.Named [d] := by
  intro other hother
  rw [List.mem_singleton.mp hother]
  exact h

abbrev AllNamed (scopes : List LocalScope) : Prop := ∀ scope ∈ scopes, LocalScope.Named scope

theorem allNamed_append {left right : List LocalScope} :
    AllNamed (left ++ right) ↔ AllNamed left ∧ AllNamed right :=
  List.forall_mem_append

theorem allNamed_cons {scope : LocalScope} {rest : List LocalScope} :
    AllNamed (scope :: rest) ↔ LocalScope.Named scope ∧ AllNamed rest :=
  List.forall_mem_cons

theorem Stmt.named_declarations : (s : Stmt) → s.Shaped → LocalScope.Named s.declarations
  | .var _ _, h => LocalScope.named_singleton h
  | .function _, h => LocalScope.named_singleton h.1
  | .class _ _ _, h => LocalScope.named_singleton h.1
  | .conditional _ thenBranch none, h => thenBranch.named_declarations h.2
  | .conditional _ thenBranch (some elseBranch), h =>
    LocalScope.named_append.mpr
      ⟨thenBranch.named_declarations h.1.2, elseBranch.named_declarations h.2.2⟩
  | .loop _ body _, h => body.named_declarations h.2
  | .expression _, _ | .block _, _ | .returning _ _, _ | .breaking _, _ | .continuing _, _ =>
    List.forall_mem_nil _
termination_by structural s => s

theorem Stmt.named_declarationsEach (ss : List Stmt) (h : Stmt.ShapedEach ss) :
    LocalScope.Named (Stmt.declarationsEach ss) := by
  induction ss with
  | nil => exact List.forall_mem_nil _
  | cons s ss ih => exact LocalScope.named_append.mpr ⟨s.named_declarations h.1, ih h.2⟩

mutual

theorem Stmt.named : (s : Stmt) → s.Shaped → AllNamed s.localScopes
  | .block body, h => allNamed_cons.mpr ⟨Stmt.named_declarationsEach body h, Stmt.namedEach body h⟩
  | .conditional _ thenBranch none, h => thenBranch.named h.2
  | .conditional _ thenBranch (some elseBranch), h =>
    allNamed_append.mpr ⟨thenBranch.named h.1.2, elseBranch.named h.2.2⟩
  | .loop _ body _, h => body.named h.2
  | .function d, h => d.named h.2
  | .class _ _ methods, h => FunctionDecl.namedEach methods h.2
  | .expression _, _ | .var _ _, _ | .returning _ _, _ | .breaking _, _ | .continuing _, _ =>
    List.forall_mem_nil _
termination_by structural s => s

theorem Stmt.namedEach : (ss : List Stmt) → Stmt.ShapedEach ss → AllNamed (Stmt.localScopesEach ss)
  | [], _ => List.forall_mem_nil _
  | s :: rest, h => allNamed_append.mpr ⟨s.named h.1, Stmt.namedEach rest h.2⟩
termination_by structural ss => ss

theorem FunctionDecl.named : (d : FunctionDecl) → d.Shaped → AllNamed d.localScopes
  | ⟨_, parameters, body⟩, h => by
    have hparameters : LocalScope.Named (parameters.map (Declaration.mk true)) :=
      List.forall_mem_map.mpr h.1
    have hbody := Stmt.named_declarationsEach body h.2
    exact allNamed_cons.mpr
      ⟨LocalScope.named_append.mpr ⟨hparameters, hbody⟩, Stmt.namedEach body h.2⟩
termination_by structural d => d

theorem FunctionDecl.namedEach : (ds : List FunctionDecl) → FunctionDecl.ShapedEach ds →
    AllNamed (FunctionDecl.localScopesEach ds)
  | [], _ => List.forall_mem_nil _
  | d :: rest, h => allNamed_append.mpr ⟨d.named h.1, FunctionDecl.namedEach rest h.2⟩
termination_by structural ds => ds

end

end Lox
