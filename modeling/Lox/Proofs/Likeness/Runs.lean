import Lox.Proofs.Execution.Signals
import Lox.Proofs.Likeness.Evaluation
import Lox.Session

/-!
# Runs that look alike

A run of statements on a machine, and one of like statements on a like machine, end in
the same way: with the same outcome, at lines that correspond, and on like machines.
-/

namespace Lox

inductive OutcomeLike (line : Nat → Nat → Prop) : Outcome → Outcome → Prop where
  | ok : OutcomeLike line .ok .ok
  | unflushed : OutcomeLike line (.failed .unflushed) (.failed .unflushed)
  | runtime {error error' : RuntimeError} :
      ErrorLike line error error' →
      OutcomeLike line (.failed (.runtime error)) (.failed (.runtime error'))
  | unfinished : OutcomeLike line .unfinished .unfinished

variable {K : Likeness} {line : Nat → Nat → Prop} {W : World} {m m' : Machine}
  {Γ : Surroundings} {rules : Rules}

/-- What the execution of the statements of a program makes of a run. -/
def Session.ended : EStateM.Result Interrupt Machine Flow → Outcome × Machine
  | .error .outOfFuel m => (.unfinished, m)
  | .error (.error e) m => (.failed (if m.sink.flushFails then .unflushed else .runtime e), m)
  | .ok _ m => (if m.sink.flushFails then .failed .unflushed else .ok, m)

theorem Session.interpret_eq (rules : Rules) (fuel : Nat) (ss : List Stmt) (m : Machine) :
    Session.interpret rules fuel ss m = Session.ended (Exec.executeEach rules fuel ss m) := by
  unfold Session.interpret Exec.interpret
  cases hrun : Exec.executeEach rules fuel ss m with
  | ok flow m' =>
    rw [Exec.bind_of_ok hrun]
    rfl
  | error e m' =>
    rw [Exec.bind_of_error hrun]
    cases e <;> rfl

/-- Machines that look alike do so in a weaker sense, and with other distances. -/
theorem MachineLike.relearn {K K' : Likeness} {line line' : Nat → Nat → Prop} {W : World}
    {m m' : Machine} (h : MachineLike K line W m m') (hK : K.Le K') {distances distances' : Distances}
    (hfaithful : Faithful K' line' distances distances') :
    MachineLike K' line' W { m with distances := distances } { m' with distances := distances' } := by
  have hmono : ∀ {v v' : Option Value}, Option.Rel (ValueLike K W m.frames) v v' →
      Option.Rel (ValueLike K' W m.frames) v v' :=
    fun hv => Option.Rel.imp hv fun _ _ hvalue => hvalue.mono hK (.refl W m.frames)
  exact ⟨hfaithful, fun f => hK.allowed _ (h.renamings f), h.global, h.size, h.enclosing,
    fun f name => hmono (h.bound f name), h.fieldsSize, fun i name => hmono (h.fields i name),
    h.nextIdentity, h.current, h.depth, h.ticks, h.sink⟩

/-- Executions that look alike end runs alike, and leave like machines behind. -/
theorem Alike.ended {post : World → Machine → Flow → Flow → Prop}
    {x x' : EStateM.Result Interrupt Machine Flow} (h : Alike K line W m post x x') :
    OutcomeLike line (Session.ended x).1 (Session.ended x').1 ∧
      ∃ W₁, Onward W m W₁ (Session.ended x).2 ∧
        MachineLike K line W₁ (Session.ended x).2 (Session.ended x').2 := by
  cases h with
  | ok honward hlike _ =>
    refine ⟨?_, _, honward, hlike⟩
    simp only [Session.ended, hlike.sink]
    split
    · exact .unflushed
    · exact .ok
  | error honward hlike he =>
    cases he with
    | outOfFuel => exact ⟨.unfinished, _, honward, hlike⟩
    | error herror =>
      refine ⟨?_, _, honward, hlike⟩
      simp only [Session.ended, hlike.sink]
      split
      · exact .unflushed
      · exact .runtime herror

/-- Like statements end alike, and leave like machines behind. -/
theorem MachineLike.interpret (hm : MachineLike K line W m m')
    (hrules : rules.lookup = .byDistance) (fuel : Nat) (hfollows : Follows W m.frames Γ m.current)
    {ss ss' : List Stmt} (hss : StmtEachLike K Γ ss ss') :
    OutcomeLike line (Session.interpret rules fuel ss m).1 (Session.interpret rules fuel ss' m').1 ∧
      ∃ W₁, Onward W m W₁ (Session.interpret rules fuel ss m).2 ∧
        MachineLike K line W₁ (Session.interpret rules fuel ss m).2
          (Session.interpret rules fuel ss' m').2 := by
  rw [Session.interpret_eq, Session.interpret_eq]
  exact ((likeAt K line hrules fuel).executeEach hm hfollows hss).ended

end Lox
