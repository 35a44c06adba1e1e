import Lox.Proofs.Likeness.Identified
import Lox.Proofs.Parser.Ending
import Lox.Proofs.Session.Outcomes
import Lox.Proofs.Session.Runs

/-!
# Sources that are rejected

A source that is rejected has an error and writes nothing.  All that it leaves behind in a
session is that its occurrences used up identities.  So a session goes on as if the source
had not been there: later programs have other identities, but these correspond one to one
to those that they would have had, and nothing that is seen depends on them.
-/

namespace Lox

def Run.isRejected (run : Run) : Bool :=
  match run.outcome with
  | .rejected _ => true
  | _ => false

theorem Run.isRejected_of_ne {run : Run} (h : ∀ errors, run.outcome ≠ .rejected errors) :
    run.isRejected = false := by
  obtain ⟨source, outcome, output⟩ := run
  cases outcome with
  | rejected errors => exact absurd rfl (h errors)
  | _ => rfl

/-- Identities correspond one to one, and all of them were handed out. -/
structure Identifies (ρ : Nat → Nat → Prop) (n n' : Nat) : Prop where
  lt : ∀ i j, ρ i j → i < n ∧ j < n'
  left_unique : ∀ i i' j, ρ i j → ρ i' j → i = i'
  right_unique : ∀ i j j', ρ i j → ρ i j' → j = j'

namespace Identifies

variable {ρ : Nat → Nat → Prop} {a a' b b' : Nat}

theorem mono (h : Identifies ρ a b) (ha : a ≤ a') : Identifies ρ a' b :=
  ⟨fun i j hij => ⟨Nat.lt_of_lt_of_le (h.lt i j hij).1 ha, (h.lt i j hij).2⟩, h.left_unique,
    h.right_unique⟩

/-- Identities that are handed out next correspond in their order. -/
theorem join (h : Identifies ρ a b) (hle : a ≤ a') (hends : a' + b = b' + a) :
    Identifies (fun i j => ρ i j ∨ shifted a a' b i j) a' b' := by
  constructor
  · rintro i j (hij | ⟨hlow, hhigh, hij⟩)
    · have hlt := h.lt i j hij
      omega
    · omega
  · rintro i i' j (hij | ⟨hlow, -, hij⟩) (hij' | ⟨hlow', -, hij'⟩)
    · exact h.left_unique i i' j hij hij'
    · have hlt := h.lt i j hij
      omega
    · have hlt := h.lt i' j hij'
      omega
    · omega
  · rintro i j j' (hij | ⟨hlow, -, hij⟩) (hij' | ⟨hlow', -, hij'⟩)
    · exact h.right_unique i j j' hij hij'
    · have hlt := h.lt i j hij
      omega
    · have hlt := h.lt i j' hij'
      omega
    · omega

end Identifies

/-! ### Errors of sources that are rejected -/

namespace Program

/-- A source is not rejected without an error. -/
theorem errors_ne_nil_of_compile {source : String} {n : NodeId} {errors : List Diagnostic}
    (h : (compile source n).1 = .error errors) : errors ≠ [] := by
  unfold compile at h
  simp only at h
  split at h
  · rename_i noted _ hparse
    have hnoted : noted ≠ [] := Parser.errors_ne_nil_of_parse (congrArg Prod.fst hparse)
    cases h
    simp [hnoted]
  · split at h
    · rename_i statements _ _ _
      unfold resolve Resolution.run at h
      by_cases hclean : (Stmt.resolveEach statements {}).errors.isEmpty = true
      · simp [hclean] at h
      · simp only [hclean] at h
        cases h
        simpa using hclean
    · rename_i hlexical
      cases h
      simpa using hlexical

end Program

namespace Session

variable {rules : Rules} {fuel : Nat} {source : String} {session : Session}

theorem ended_ne_rejected (result : EStateM.Result Interrupt Machine Flow)
    (errors : List Diagnostic) : (ended result).1 ≠ .rejected errors := by
  unfold ended
  split
  · exact nofun
  · exact nofun
  · split
    · exact nofun
    · exact nofun

/-- Only a source that does not compile is rejected. -/
theorem compile_of_rejected {errors : List Diagnostic}
    (h : (session.run rules fuel source).1 = .rejected errors) :
    ∃ n, Program.compile source session.nextId = (.error errors, n) ∧
      (session.run rules fuel source).2 = { session with nextId := n } := by
  cases hcompile : Program.compile source session.nextId with
  | mk compiled n =>
    unfold run at h ⊢
    rw [hcompile] at h ⊢
    cases compiled with
    | error found =>
      cases h
      exact ⟨n, rfl, rfl⟩
    | ok program =>
      simp only [execute, interpret_eq] at h
      exact absurd h (ended_ne_rejected _ errors)

/-- A source that is rejected has an error and writes nothing. -/
theorem seen_rejected {errors : List Diagnostic}
    (h : (session.seen rules fuel source).outcome = .rejected errors) :
    errors ≠ [] ∧ (session.seen rules fuel source).output = "" := by
  obtain ⟨n, hcompile, hbehind⟩ := compile_of_rejected h
  refine ⟨Program.errors_ne_nil_of_compile (congrArg Prod.fst hcompile), ?_⟩
  simp [seen, hbehind, Sink.outputFrom, Sink.size, String.length]

theorem runEach_rejected (sources : List String) (session : Session) :
    ∀ run ∈ (runEach rules fuel sources session).1, ∀ errors,
      run.outcome = .rejected errors → errors ≠ [] ∧ run.output = "" := by
  induction sources generalizing session with
  | nil =>
    intro run hrun
    cases hrun
  | cons source rest ih =>
    intro run hrun errors houtcome
    unfold runEach at hrun
    rcases List.mem_cons.mp hrun with hrun | hrun
    · rw [hrun] at houtcome ⊢
      exact seen_rejected houtcome
    · exact ih _ run hrun errors houtcome

end Session

/-! ### Sessions that differ in their identities -/

/-- Two sessions that can be reached and are equal except for identities. -/
structure Session.Like (sink : Sink) (ρ : Nat → Nat → Prop) (session session' : Session) :
    Prop where
  reached : ∃ units, Reached sink units session
  reached' : ∃ units, Reached sink units session'
  machines : MachineLike (.identified ρ) Eq .same session.machine session'.machine
  identities : Identifies ρ session.nextId session'.nextId

namespace Session.Like

variable {sink : Sink} {ρ : Nat → Nat → Prop} {session session' : Session} {rules : Rules}
  {fuel : Nat} {source : String}

theorem initial (sink : Sink) :
    Like sink (fun _ _ => False) (Session.initial sink) (Session.initial sink) := by
  refine ⟨⟨[], .initial⟩, ⟨[], .initial⟩, ?_, nofun, nofun, nofun⟩
  have hreflexive : (Likeness.identified fun _ _ => False).Reflexive fun _ => False :=
    ⟨rfl, fun _ => rfl, fun _ => ⟨rfl, rfl⟩, nofun⟩
  have hnone : ∀ v, Visited [] v → False := by
    rintro v ⟨unit, hunit, -⟩
    cases hunit
  exact (steady_initial sink).sound.like_self hreflexive hnone
    (Likeness.identified_faithful fun _ _ => False.elim)

/-- A source that is rejected in the first session need not run in the second one. -/
theorem rejected (h : Like sink ρ session session') {errors : List Diagnostic}
    {n : NodeId} (hcompile : Program.compile source session.nextId = (.error errors, n)) :
    Like sink ρ (session.run rules fuel source).2 session' := by
  obtain ⟨units, hreached⟩ := h.reached
  have hle := Program.le_compile source session.nextId
  rw [hcompile] at hle
  refine ⟨⟨units, .rejected hreached hcompile⟩, h.reached', ?_, ?_⟩
  · unfold Session.run
    rw [hcompile]
    exact h.machines
  · unfold Session.run
    rw [hcompile]
    exact h.identities.mono hle

/-- A source that compiles runs in both sessions, with the same outcome. -/
theorem ran (h : Like sink ρ session session') (hrules : rules.lookup = .byDistance)
    {program : Program} {n : NodeId}
    (hcompile : Program.compile source session.nextId = (.ok program, n)) (fuel : Nat) :
    (session'.run rules fuel source).1 = (session.run rules fuel source).1 ∧
      ∃ ρ', Like sink ρ' (session.run rules fuel source).2 (session'.run rules fuel source).2 := by
  obtain ⟨units, hreached⟩ := h.reached
  obtain ⟨units', hreached'⟩ := h.reached'
  have hsteady := hreached.steady
  have hsteady' := hreached'.steady
  -- The program compiles from the other state too, with other identities.
  obtain ⟨program', n', hcompile', hends, hcode, hdistances⟩ :=
    Program.compile_identified hcompile session'.nextId
  have hle := (Program.wellMade_of_compile hcompile).le
  -- The old identities correspond as before, and the new ones in their order.
  have hfaithful : Faithful (.identified fun i j => ρ i j ∨ shifted session.nextId n session'.nextId i j)
      Eq (session.machine.learn program.distances).distances
      (session'.machine.learn program'.distances).distances := by
    apply Likeness.identified_faithful
    rintro i j (hij | hij)
    · obtain ⟨hi, hj⟩ := h.identities.lt i j hij
      rw [Program.learned_old hcompile hi, Program.learned_old hcompile' hj]
      exact h.machines.faithful.distance .top ⟨i, default⟩ ⟨j, default⟩ ⟨rfl, hij, rfl⟩
    · rw [hsteady.learned_new hij.1, hsteady'.learned_new (le_of_shifted hij), hdistances i j hij]
  have hlearned : MachineLike
      (.identified fun i j => ρ i j ∨ shifted session.nextId n session'.nextId i j) Eq .same
      (session.machine.learn program.distances) (session'.machine.learn program'.distances) :=
    h.machines.relearn (Likeness.identified_le fun _ _ => .inl) hfaithful
  -- From like machines the like code runs alike.
  obtain ⟨houtcome, W, -, hmachines⟩ := hlearned.interpret hrules fuel (.same hsteady.current_lt)
    (hcode.mono (Likeness.identified_le fun _ _ => .inr))
  have hworld : W = .same := funext hmachines.renamings
  subst hworld
  -- The frames are not renamed here, so the world stays the trivial one.
  have hharmless := hreached.harmless hcompile rules fuel
  have hbehind := Session.run_eq hcompile rules fuel
  have hbehind' := Session.run_eq hcompile' rules fuel
  -- The errors that could differ in their names are not reported by a session.
  constructor
  · rw [hbehind, hbehind', Session.execute, Session.execute]
    rw [hbehind, Session.execute] at hharmless
    exact houtcome.eq hharmless
  · refine ⟨fun i j => ρ i j ∨ shifted session.nextId n session'.nextId i j,
      ⟨_, .ran hreached hcompile⟩, ⟨_, .ran hreached' hcompile'⟩, ?_, ?_⟩
    · rw [hbehind, hbehind']
      exact hmachines
    · rw [hbehind, hbehind']
      exact h.identities.join hle hends

/-- Runs of sources in one session, and of those among them that are not rejected in the other. -/
theorem runEach (h : Like sink ρ session session') (hrules : rules.lookup = .byDistance)
    (fuel : Nat) (sources : List String) :
    let all := Session.runEach rules fuel sources session
    let kept := all.1.filter fun run => !run.isRejected
    let without := Session.runEach rules fuel (kept.map Run.source) session'
    without.1 = kept ∧ ∃ ρ', Like sink ρ' all.2 without.2 := by
  induction sources generalizing ρ session session' with
  | nil => exact ⟨rfl, ρ, h⟩
  | cons source rest ih =>
    cases hcompile : Program.compile source session.nextId with
    | mk compiled n =>
      cases compiled with
      | error errors =>
        have hrejected : (session.seen rules fuel source).isRejected = true := by
          simp [Session.seen, Run.isRejected, Session.run, hcompile]
        have hskipped : Like sink ρ (session.run rules fuel source).2 session' :=
          h.rejected hcompile
        have hrest := ih hskipped
        simpa [Session.runEach, hrejected] using hrest
      | ok program =>
        obtain ⟨houtcome, ρ', hlike⟩ := h.ran hrules hcompile fuel
        have hkept : (session.seen rules fuel source).isRejected = false := by
          apply Run.isRejected_of_ne
          intro errors
          simp only [Session.seen, Session.run, hcompile, Session.execute, Session.interpret_eq]
          exact Session.ended_ne_rejected _ errors
        have hseen : session'.seen rules fuel source = session.seen rules fuel source := by
          simp only [Session.seen, houtcome, hlike.machines.sink, h.machines.sink]
        have hrest := ih hlike
        have hsource : (session.seen rules fuel source).source = source := rfl
        simpa [Session.runEach, hkept, hseen, hsource] using hrest

end Session.Like

/--
A session in which sources are rejected goes on as if they had never been there.  A source
that is rejected has an error and writes nothing; without these sources the others are seen
to do the same as with them, and in the end the machines are the same, and so is the value
of every global, up to a correspondence of the identities that occurrences have in the code.
-/
theorem Session.rejected_invisible (rules : Rules) (fuel : Nat) (sources : List String)
    (sink : Sink) :
    let all := runEach { rules with lookup := .byDistance } fuel sources (.initial sink)
    let kept := all.1.filter fun run => !run.isRejected
    let without := runEach { rules with lookup := .byDistance } fuel (kept.map Run.source)
      (.initial sink)
    (∀ run ∈ all.1, ∀ errors, run.outcome = .rejected errors →
      errors ≠ [] ∧ run.output = "") ∧
    without.1 = kept ∧
    ∃ ρ, Identifies ρ all.2.nextId without.2.nextId ∧
      MachineLike (.identified ρ) Eq .same all.2.machine without.2.machine ∧
      ∀ name, Option.Rel (ValueLike (.identified ρ) .same all.2.machine.frames)
        (all.2.machine.global? name) (without.2.machine.global? name) := by
  intro all kept without
  have hrules : ({ rules with lookup := .byDistance } : Rules).lookup = .byDistance := rfl
  obtain ⟨hkept, ρ, hlike⟩ := (Session.Like.initial sink).runEach hrules fuel sources
  exact ⟨runEach_rejected sources _, hkept, ρ, hlike.identities, hlike.machines,
    fun name => hlike.machines.bound Frames.globalFrame name⟩

end Lox
