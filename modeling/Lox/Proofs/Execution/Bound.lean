import Lox.Proofs.Execution.Congruence

/-!
# The bound of the recursion

An execution that ends before it reaches the bound of the recursion gives the same result
with every greater bound.  So the bound only decides whether a result is seen, and not
what it is.
-/

namespace Lox

open Exec

variable {α β : Type}

/-- The second execution gives the result of the first, unless that one reaches its bound. -/
def Exec.Le (x x' : Exec α) : Prop := ∀ m, (∃ m', x m = .error .outOfFuel m') ∨ x' m = x m

/-- The bound is one of the reasons to stop. -/
theorem Exec.le_of_unless {x x' : Exec α} (h : Unless (· = .outOfFuel) x x') : x.Le x' := by
  intro m
  rcases h m with ⟨e, m', hout, rfl⟩ | heq
  · exact .inl ⟨m', hout⟩
  · exact .inr heq

namespace Exec.Le

variable {x x' x'' : Exec α}

theorem refl (x : Exec α) : x.Le x := fun _ => .inr rfl

theorem trans (h : x.Le x') (h' : x'.Le x'') : x.Le x'' := by
  intro m
  rcases h m with hout | heq
  · exact .inl hout
  · rcases h' m with ⟨m', hout⟩ | heq'
    · exact .inl ⟨m', heq ▸ hout⟩
    · exact .inr (heq'.trans heq)

/-- A result that is not that of the bound is the result of both. -/
theorem eq_of_ok (h : x.Le x') {m m' : Machine} {a : α} (hx : x m = .ok a m') :
    x' m = .ok a m' := by
  rcases h m with ⟨m', hout⟩ | heq
  · rw [hx] at hout
    cases hout
  · exact heq.trans hx

end Exec.Le

/-- All functions of the evaluator, with this bound and with the next one. -/
theorem deeperAt (rules : Rules) (fuel : Nat) :
    RelatedAt (Exec.Unless (· = .outOfFuel)) rules rules.callLimit fuel (fuel + 1) := by
  induction fuel with
  | zero => exact .zero fun _ m => .inl ⟨.outOfFuel, m, rfl, rfl⟩
  | succ fuel ih => exact ih.succ (Exec.Unless.congruence _) fun _ _ _ => .refl _

/-- With a greater bound statements are executed in the same way. -/
theorem Exec.executeEach_le (rules : Rules) {fuel fuel' : Nat} (h : fuel ≤ fuel')
    (ss : List Stmt) : (Exec.executeEach rules fuel ss).Le (Exec.executeEach rules fuel' ss) := by
  induction h with
  | refl => exact .refl _
  | @step k _ ih => exact ih.trans (Exec.le_of_unless ((deeperAt rules k).executeEach ss))

end Lox
