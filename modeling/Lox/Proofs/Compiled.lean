import Lox.Program
import Lox.Proofs.Parser.Acceptance
import Lox.Proofs.Parser.Identities
import Lox.Proofs.Resolution.Distances
import Lox.Proofs.Tree.Shape

/-!
# What is known of a compiled program

A source that compiles has tokens without errors, which the grammar derives, and a
resolution without errors.  So the occurrences of the program have identities of
their own, each of which has the distance that the walk found.
-/

namespace Lox.Program

variable {source : String} {n n' : Nat} {program : Program}

/-- A source compiles if each of the three stages accepts it. -/
theorem compile_eq_ok_iff :
    compile source n = (.ok program, n') ↔
      Item.errors (Item.scan source) = [] ∧
        Parser.parse (Item.tokens (Item.scan source)) n = (.ok program.statements, n') ∧
        Resolution.run program.statements = .ok program.distances := by
  constructor
  · intro h
    simp only [compile] at h
    split at h
    · cases h
    · rename_i statements m hparse
      split at h
      · rename_i hlexical
        rw [Prod.mk.injEq] at h
        obtain ⟨hresolve, rfl⟩ := h
        have herrors : Item.errors (Item.scan source) = [] := by
          simpa only [List.isEmpty_iff, List.map_eq_nil_iff] using hlexical
        unfold resolve at hresolve
        cases hrun : Resolution.run statements with
        | error errors =>
          rw [hrun] at hresolve
          cases hresolve
        | ok distances =>
          rw [hrun] at hresolve
          cases hresolve
          exact ⟨herrors, hparse, hrun⟩
      · cases h
  · rintro ⟨herrors, hparse, hrun⟩
    simp only [compile, hparse, herrors, List.map_nil, List.isEmpty_nil, if_true, resolve, hrun]

def Compiles (source : String) : Prop := ∃ program n, compile source 0 = (.ok program, n)

theorem Compiles.of_isOk (h : (compile source 0).1.isOk = true) : Compiles source := by
  cases hcompile : compile source 0 with
  | mk compiled n =>
    rw [hcompile] at h
    cases compiled with
    | error errors => cases h
    | ok program => exact ⟨program, n, hcompile⟩

/-- A source whose program passes a test compiles to such a program. -/
theorem exists_of_any {test : Program → Bool}
    (h : (compile source n).1.toOption.any test = true) :
    ∃ program n', compile source n = (.ok program, n') ∧ test program = true := by
  cases hcompile : compile source n with
  | mk compiled n' =>
    rw [hcompile] at h
    cases compiled with
    | error errors => cases h
    | ok program => exact ⟨program, n', rfl, h⟩

/-- The tree of a compiled program, and the identities in it. -/
structure WellMade (statements : List Stmt) (n n' : Nat) : Prop where
  le : n ≤ n'
  ids : IdsBetween n n' (Stmt.occurrencesEach statements)
  fitting : Fitting (Stmt.occurrencesEach statements)
  shaped : Stmt.ShapedEach statements

theorem wellMade_of_parse {statements : List Stmt}
    (h : Parser.parse (Item.tokens (Item.scan source)) n = (.ok statements, n')) :
    WellMade statements n n' := by
  have honly := Item.endsWithOnlyEof_scan source
  have hparsed : (Parser.parse (Item.tokens (Item.scan source)) n).1 = .ok statements := by rw [h]
  have hderived := Parser.derives_of_parse honly hparsed
  have hnumbered := Parser.parse_eq_numbered hderived n
  rw [h, Prod.mk.injEq, Except.ok.injEq] at hnumbered
  obtain ⟨hsame, hnext⟩ := hnumbered
  have hids := Stmt.idsBetween_numberedEach n statements
  rw [← hsame, ← hnext] at hids
  have hspelled := Item.spelled_tokens_scan source
  generalize Item.tokens (Item.scan source) = tokens at hderived hspelled
  cases hderived with
  | mk hderives _ =>
    have hproper := hderives.proper fun t ht => hspelled t (List.mem_append_left _ ht)
    exact ⟨hnext ▸ Nat.le_add_right n _, hids, hproper.1, hproper.2⟩

theorem wellMade_of_compile (h : compile source n = (.ok program, n')) :
    WellMade program.statements n n' :=
  wellMade_of_parse (compile_eq_ok_iff.mp h).2.1

/-- Sources that do not compile use up identities as well. -/
theorem le_compile (source : String) (n : Nat) : n ≤ (compile source n).2 := by
  have hparse := Parser.le_parse (Item.tokens (Item.scan source)) n
  simp only [compile]
  split
  · rename_i heq
    rwa [heq] at hparse
  · rename_i heq
    rw [heq] at hparse
    split
    · exact hparse
    · exact hparse

end Lox.Program
