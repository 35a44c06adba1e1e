import Mathlib.Data.List.Nodup
import Lox.Program
import Lox.Proofs.Tree.Shape

/-!
# Names in the order of the text

A program declares names, and reads and assigns variables.  A declaration counts from
where it is complete in the text: that of a variable behind its initializer, and that of a
function or class behind its name.  The increment of a loop stands in front of the body.

A program is orderly if no name is declared twice, and if whoever uses a name that is
declared in a local scope does so behind its declaration.
-/

namespace Lox

/-- A name at a point of the text. -/
inductive Mention where
  /-- A declaration in a local scope or among the globals. -/
  | declares (isLocal : Bool) (name : String)
  /-- A variable that is read or assigned. -/
  | uses (place : Occurrence)
  deriving DecidableEq

namespace Mention

/-- Variables are used; `this` and `super` are not declared in the text. -/
def ofOccurrence : OccurrenceKind × Occurrence → Option Mention
  | (.read, place) | (.assign, place) => some (.uses place)
  | (.this, _) | (.super, _) => none

def declared? : Mention → Option String
  | .declares _ name => some name
  | .uses _ => none

def declaredLocally? : Mention → Option String
  | .declares true name => some name
  | .declares false _ | .uses _ => none

end Mention

/-! ### Mentions in a tree -/

namespace Expr

def mentions (e : Expr) : List Mention := e.occurrences.filterMap Mention.ofOccurrence

def mentionsIn? (e : Option Expr) : List Mention :=
  (Expr.occurrencesIn? e).filterMap Mention.ofOccurrence

end Expr

mutual

/-- The mentions in a statement, which stands in a local scope or at top level. -/
def Stmt.mentions : Stmt → Bool → List Mention
  | .expression value, _ => value.mentions
  | .var name initializer, isLocal =>
    Expr.mentionsIn? initializer ++ [.declares isLocal name.lexeme]
  | .block body, _ => Stmt.mentionsEach body true
  | .conditional condition thenBranch none, isLocal =>
    condition.mentions ++ thenBranch.mentions isLocal
  | .conditional condition thenBranch (some elseBranch), isLocal =>
    condition.mentions ++ (thenBranch.mentions isLocal ++ elseBranch.mentions isLocal)
  | .loop condition body increment, isLocal =>
    condition.mentions ++ (Expr.mentionsIn? increment ++ body.mentions isLocal)
  | .function declaration, isLocal =>
    .declares isLocal declaration.name.lexeme :: declaration.mentions
  | .returning _ value, _ => Expr.mentionsIn? value
  | .breaking _, _ | .continuing _, _ => []
  | .class name superclass methods, isLocal =>
    .declares isLocal name.lexeme ::
      (superclass.toList.map Mention.uses ++ FunctionDecl.mentionsEach methods)
termination_by structural s => s

def Stmt.mentionsEach : List Stmt → Bool → List Mention
  | [], _ => []
  | s :: rest, isLocal => s.mentions isLocal ++ Stmt.mentionsEach rest isLocal
termination_by structural ss => ss

def FunctionDecl.mentions : FunctionDecl → List Mention
  | ⟨_, parameters, body⟩ =>
    parameters.map (fun parameter => .declares true parameter.lexeme) ++
      Stmt.mentionsEach body true
termination_by structural d => d

/-- The mentions in methods, whose names are not declared. -/
def FunctionDecl.mentionsEach : List FunctionDecl → List Mention
  | [] => []
  | d :: rest => d.mentions ++ FunctionDecl.mentionsEach rest
termination_by structural ds => ds

end

def Program.mentions (program : Program) : List Mention :=
  Stmt.mentionsEach program.statements false

/-! ### Order -/

namespace Mention

/-- A use of a name that `all` declare locally comes behind such a declaration. -/
def Behind (before all : List Mention) : Mention → Prop
  | .uses place =>
    place.name ∈ all.filterMap declaredLocally? → place.name ∈ before.filterMap declaredLocally?
  | .declares _ _ => True

instance (before all : List Mention) : DecidablePred (Behind before all)
  | .uses place => inferInstanceAs (Decidable
      (place.name ∈ all.filterMap declaredLocally? → place.name ∈ before.filterMap declaredLocally?))
  | .declares _ _ => inferInstanceAs (Decidable True)

/-- No name is declared twice, and names that are declared locally are used behind that. -/
structure Orderly (all : List Mention) : Prop where
  unique : (all.filterMap declared?).Nodup
  behind : ∀ (i : Nat) (h : i < all.length), all[i].Behind (all.take i) all

instance (all : List Mention) : Decidable (Orderly all) :=
  decidable_of_iff ((all.filterMap declared?).Nodup ∧
      ∀ (i : Nat) (h : i < all.length), all[i].Behind (all.take i) all)
    ⟨fun h => ⟨h.1, h.2⟩, fun h => ⟨h.unique, h.behind⟩⟩

/-- The second mention does not declare locally what the first one uses. -/
def InOrder (first second : Mention) : Prop :=
  ∀ place, first = .uses place → second ≠ .declares true place.name

theorem mem_declaredLocally {ms : List Mention} {name : String} :
    name ∈ ms.filterMap declaredLocally? ↔ .declares true name ∈ ms := by
  rw [List.mem_filterMap]
  constructor
  · rintro ⟨mention, hmention, hname⟩
    cases mention with
    | declares isLocal other =>
      cases isLocal with
      | true =>
        cases hname
        exact hmention
      | false => cases hname
    | uses place => cases hname
  · intro hmem
    exact ⟨_, hmem, rfl⟩

/-- In an orderly program nothing is used in front of a local declaration of its name. -/
theorem Orderly.pairwise {all : List Mention} (h : Orderly all) : all.Pairwise InOrder := by
  rw [List.pairwise_iff_getElem]
  intro i j hi hj hlt place huse hdeclares
  have hbehind := h.behind i hi
  rw [huse] at hbehind
  have hlater : .declares true place.name ∈ all.drop i := by
    have hsum : i + (j - i) = j := Nat.add_sub_of_le (Nat.le_of_lt hlt)
    rw [← hdeclares]
    exact List.mem_drop_iff_getElem.mpr ⟨j - i, by omega, by simp only [hsum]⟩
  have hearlier : .declares true place.name ∈ all.take i :=
    mem_declaredLocally.mp (hbehind (mem_declaredLocally.mpr (List.mem_of_mem_drop hlater)))
  have hunique := h.unique
  rw [← List.take_append_drop i all, List.filterMap_append, List.nodup_append] at hunique
  exact hunique.2.2 place.name (List.mem_filterMap.mpr ⟨_, hearlier, rfl⟩) place.name
    (List.mem_filterMap.mpr ⟨_, hlater, rfl⟩) rfl

end Mention

end Lox
