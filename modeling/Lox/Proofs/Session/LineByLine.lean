import Lox.Proofs.Execution.Bound
import Lox.Proofs.Session.ErrorLines
import Lox.Proofs.Session.Runs

/-!
# Sources run one by one and together

Two sources that compile can be run one after the other, or as one source with a line
break between them.  If the first run ends without an error, both ways come to the same:
they write the same, they end in the same way, and they leave like machines behind.  Only
the lines of what stands in the second source differ, by the lines of the first one.
-/

namespace Lox

/-! ### Statements one behind the other -/

variable {rules : Rules} {fuel : Nat}

theorem Exec.executeEach_append_of_ok {ss : List Stmt} {m m' : Machine} (ts : List Stmt)
    (h : Exec.executeEach rules fuel ss m = .ok .normal m') :
    Exec.executeEach rules fuel (ss ++ ts) m = Exec.executeEach rules (fuel - ss.length) ts m' := by
  induction ss generalizing fuel m with
  | nil =>
    cases fuel with
    | zero => cases h
    | succ fuel =>
      cases h
      rfl
  | cons s ss ih =>
    cases fuel with
    | zero => cases h
    | succ fuel =>
      obtain ⟨flow, m₁, hs, hrest⟩ := of_bind_ok h
      cases flow with
      | normal =>
        have hnext := ih hrest
        rw [List.cons_append, Exec.executeEach, bind_of_ok hs, List.length_cons,
          Nat.add_sub_add_right]
        exact hnext
      | breaking => cases hrest
      | continuing => cases hrest
      | returning value => cases hrest

/-- A run that ends gives the same result with a greater bound. -/
theorem Session.interpret_of_le {fuel' : Nat} (h : fuel ≤ fuel') {ss : List Stmt} {m : Machine}
    (hends : (Session.interpret rules fuel ss m).1 ≠ .unfinished) :
    Session.interpret rules fuel' ss m = Session.interpret rules fuel ss m := by
  rw [Session.interpret_eq] at hends ⊢
  rw [Session.interpret_eq]
  rcases Exec.executeEach_le rules h ss m with ⟨m', hout⟩ | heq
  · rw [hout] at hends
    exact absurd rfl hends
  · rw [heq]

/-! ### Runs that end -/

variable {sink : Sink} {units : List Program} {session session₁ : Session}
  {source first second : String} {program program₁ program₂ : Program} {n n₁ n₂ : NodeId}

theorem Session.run_of_le {fuel' : Nat} (h : fuel ≤ fuel')
    (hcompile : Program.compile source session.nextId = (.ok program, n))
    (hends : (session.run rules fuel source).1 ≠ .unfinished) :
    session.run rules fuel' source = session.run rules fuel source := by
  rw [Session.run_eq hcompile] at hends ⊢
  rw [Session.run_eq hcompile, Session.execute, Session.interpret_of_le h hends]
  rfl

/-- A run that ends without an error has executed all statements, and each of them ended normally. -/
theorem Reached.executed (h : Reached sink units session)
    (hcompile : Program.compile source session.nextId = (.ok program, n))
    (hrun : session.run rules fuel source = (.ok, session₁)) :
    session₁.nextId = n ∧ Exec.executeEach rules fuel program.statements
      (session.machine.learn program.distances) = .ok .normal session₁.machine := by
  rw [Session.run_eq hcompile, Session.execute, Session.interpret_eq, Prod.mk.injEq] at hrun
  obtain ⟨hok, rfl⟩ := hrun
  have hkeeps := h.steady.keeps hcompile rules fuel
  refine ⟨rfl, ?_⟩
  generalize Exec.executeEach rules fuel program.statements
    (session.machine.learn program.distances) = x at hok hkeeps ⊢
  cases x with
  | error e m => cases e <;> cases hok
  | ok flow m =>
    -- No loop and no routine is around the statements of a program.
    cases flow with
    | normal => rfl
    | breaking | continuing => exact absurd rfl hkeeps.2
    | returning value => exact absurd rfl hkeeps.2.1

/-! ### Both sources at once -/

section

variable {fuel₁ : Nat} {distances : Distances} (h : Reached sink units session)
  (hrules : rules.lookup = .byDistance)
  (hfirst : Program.compile first session.nextId = (.ok program₁, n₁))
  (hrun : session.run rules fuel₁ first = (.ok, session₁))
  (hjoined : Program.compile source session.nextId =
    (.ok ⟨program₁.statements ++ program₂.statements, distances⟩, n₂))
  (hsecond : ∀ id d : Nat, program₂.distances[id]? = some d → n₁ ≤ id)
  (hdistances : ∀ id : NodeId, distances[id]? = program₂.distances[id]?.or program₁.distances[id]?)

include h hrules hfirst hrun hjoined hsecond hdistances

/--
The first part of a joined program leaves a machine behind that is like that of the first
program, and already has all distances.
-/
theorem Reached.run_firstPart (hfuel : fuel₁ ≤ fuel) :
    ∃ m, Exec.executeEach rules fuel program₁.statements (session.machine.learn distances) =
        .ok .normal m ∧
      MachineLike (.moved Eq (· < n₁)) Eq .same session₁.machine m ∧
      Follows .same session₁.machine.frames .top session₁.machine.current ∧
      ∀ id : NodeId, m.distances[id]? =
        (session₁.machine.learn program₂.distances).distances[id]? := by
  have hsteady := h.steady
  obtain ⟨-, hexecuted⟩ := h.executed hfirst hrun
  have hdone := (Exec.executeEach_le rules hfuel program₁.statements).eq_of_ok hexecuted
  have hknown : ∀ v, Visited (program₁ :: units) v → v.place.id < n₁ := by
    have hvisits := (@Reached.ran sink units session rules fuel first program₁ n₁ h hfirst).steady.visits_lt
    rw [Session.run_eq hfirst] at hvisits
    exact hvisits
  have hsame : ∀ id : NodeId, id < n₁ → (session.machine.learn distances).distances[id]? =
      (session.machine.learn program₁.distances).distances[id]? := by
    intro id hid
    have hnew : program₂.distances[id]? = none := by
      apply Option.eq_none_iff_forall_ne_some.mpr
      intro d hd
      exact Nat.not_le_of_lt hid (hsecond id d hd)
    rw [getElem?_learn, getElem?_learn, hdistances, hnew, Option.none_or]
  have hsound := hsteady.learn hfirst
  have hreflexive : (Likeness.moved Eq (· < n₁)).Reflexive fun p => p.id < n₁ :=
    Likeness.moved_reflexive fun _ => rfl
  have hm := hsound.like_self hreflexive hknown (Likeness.moved_faithful hsame)
  have hcode := Stmt.likeEach_self hreflexive program₁.statements
    fun o ho => ((Program.wellMade_of_compile hfirst).ids.bounds o ho).2
  have hcurrent : (session.machine.learn program₁.distances).current <
      (session.machine.learn program₁.distances).frames.size := hsteady.current_lt
  have hlike := (likeAt _ Eq hrules fuel).executeEach hm (.same hcurrent) hcode
  -- The distances stay what they were, since the joined program is sound as well.
  have hok : StmtEachOk (Visited (⟨program₁.statements ++ program₂.statements, distances⟩ :: units))
      {} program₁.statements := by
    have hfirstOk : StmtEachOk (Visited (program₁ :: units)) {} program₁.statements :=
      Program.stmtEachOk hfirst
    refine ⟨⟨hfirstOk.passed.clean, ?_⟩, hfirstOk.shaped, hfirstOk.ready⟩
    intro v hv
    refine ⟨_, List.mem_cons_self, ?_⟩
    rw [Stmt.visitsEach_append]
    exact List.mem_append_left _ hv
  have hkeeps := (soundAt _ rules fuel).executeEach (r := {}) (hsteady.learn hjoined) hsteady.current
    hok
  change Alike _ _ _ _ _ _ (Exec.executeEach rules fuel program₁.statements
    (session.machine.learn distances)) at hlike
  rw [hdone] at hlike
  generalize Exec.executeEach rules fuel program₁.statements (session.machine.learn distances) = x
    at hlike hkeeps
  cases hlike with
  | @ok W m m' _ _ honward hlike hflow =>
    cases hflow
    have hworld := hlike.world_eq
    subst hworld
    refine ⟨m', rfl, hlike, Follows.onward (.same hcurrent) honward, ?_⟩
    intro id
    have hlearned := (Keeps.of_ok (hsteady.keeps hfirst rules fuel) hdone).1.distances
    rw [hkeeps.1.distances, getElem?_learn, getElem?_learn, hlearned, getElem?_learn, hdistances,
      Option.or_assoc]

/-- A joined program ends like its second part behind the first one. -/
theorem Reached.run_joined {line : Nat → Nat → Prop} (hline : ∀ a, line a a)
    (hlike : StmtEachLike (.moved line fun _ => True) .top program.statements program₂.statements)
    (hsame : program.distances = program₂.distances)
    (hfuel : fuel₁ ≤ program₁.statements.length + fuel) :
    OutcomeLike line (Session.execute rules fuel program session₁.machine).1
        (session.run rules (program₁.statements.length + fuel) source).1 ∧
      MachineLike (.moved line fun _ => True) line .same
        (Session.execute rules fuel program session₁.machine).2
        (session.run rules (program₁.statements.length + fuel) source).2.machine := by
  obtain ⟨m, hdone, hm, hfollows, hlearned⟩ :=
    h.run_firstPart hrules hfirst hrun hjoined hsecond hdistances hfuel
  have hall := Exec.executeEach_append_of_ok program₂.statements hdone
  rw [Nat.add_sub_cancel_left] at hall
  have hle : (Likeness.moved Eq (· < n₁)).Le (.moved line fun _ => True) := by
    apply Likeness.moved_le
    · rintro a b rfl
      exact hline a
    · exact fun _ _ => trivial
  have hfaithful : Faithful (.moved line fun _ => True) line
      (session₁.machine.learn program₂.distances).distances m.distances :=
    Likeness.moved_faithful fun id _ => hlearned id
  have hm₂ := hm.relearn hle hfaithful
  have hended := ((likeAt _ line hrules fuel).executeEach hm₂ hfollows hlike).ended
  rw [Session.run_eq hjoined, Session.execute, Session.execute, Session.interpret_eq,
    Session.interpret_eq, hall, hsame]
  obtain ⟨houtcome, W, -, hmachine⟩ := hended
  have hworld := hmachine.world_eq
  subst hworld
  exact ⟨houtcome, hmachine⟩

end

/-- Trees that are equal except for lines. -/
abbrev Likeness.lineless : Likeness := .moved (fun _ _ => True) fun _ => True

/--
How both sources at once run, compared to the second one behind the first one.  They end in
the same way, and an error that is raised in code of the second source, at a token of it, is
reported further down by the lines of the first one; an error that is raised in older code
is reported at the line of its token, which is one of the first source or of an earlier one.
They have written the same, and leave machines behind that are alike except for lines.
-/
structure RunsLike (rules : Rules) (fuel : Nat) (units : List Program) (first second : String)
    (session₁ : Session) (joined : Outcome × Session) : Prop where
  outcome : (∀ e, (session₁.run rules fuel second).1 ≠ .failed (.runtime e)) →
    joined.1 = (session₁.run rules fuel second).1
  raised : ∀ e, (session₁.run rules fuel second).1 = .failed (.runtime e) →
    ∃ origin t, session₁.RaisesFrom rules fuel second origin t e
  inside : ∀ t e, (session₁.run rules fuel second).1 = .failed (.runtime e) →
    session₁.RaisesFrom rules fuel second .program t e →
    t ∈ Item.tokens (Item.scan second) ∧ e.line = t.line ∧
      joined.1 = .failed (.runtime ⟨e.cause, t.line + (lineBreaks first + 1)⟩)
  before : ∀ t e, (session₁.run rules fuel second).1 = .failed (.runtime e) →
    session₁.RaisesFrom rules fuel second .earlier t e →
    (t ∈ Item.tokens (Item.scan first) ∨ t.Of units) ∧ e.line = t.line ∧
      joined.1 = .failed (.runtime ⟨e.cause, t.line⟩)
  sink : joined.2.machine.sink = (session₁.run rules fuel second).2.machine.sink
  globals : ∀ name, Option.Rel
    (ValueLike .lineless .same (session₁.run rules fuel second).2.machine.frames)
    ((session₁.run rules fuel second).2.machine.global? name) (joined.2.machine.global? name)
  machine : MachineLike .lineless (fun _ _ => True) .same
    (session₁.run rules fuel second).2.machine joined.2.machine
  nextId : joined.2.nextId = (session₁.run rules fuel second).2.nextId

theorem OutcomeLike.unfinished_iff {line : Nat → Nat → Prop} {outcome outcome' : Outcome}
    (h : OutcomeLike line outcome outcome') : outcome = .unfinished ↔ outcome' = .unfinished := by
  cases h with
  | _ => simp

theorem Reached.ran_of_run (h : Reached sink units session)
    (hcompile : Program.compile source session.nextId = (.ok program, n))
    (hrun : session.run rules fuel source = (.ok, session₁)) :
    Reached sink (program :: units) session₁ := by
  have hran := @Reached.ran sink units session rules fuel source program n h hcompile
  rw [hrun] at hran
  exact hran

/-- The programs of two sources, and that of both, whatever identities are free. -/
theorem Program.exists_compile_lineByLine (hfirst : Compiles first) (hsecond : Compiles second)
    (n : NodeId) :
    ∃ program₁ n₁ program program₂ n₂ distances, compile first n = (.ok program₁, n₁) ∧
      compile second n₁ = (.ok program, n₂) ∧
      compile (Item.blankLines (lineBreaks first + 1) ++ second) n₁ = (.ok program₂, n₂) ∧
      program₂.distances = program.distances ∧
      StmtEachLike .lineless .top program.statements program₂.statements ∧
      compile (Item.lineByLine first second) n =
        (.ok ⟨program₁.statements ++ program₂.statements, distances⟩, n₂) ∧
      ∀ id : NodeId, distances[id]? = program₂.distances[id]?.or program₁.distances[id]? := by
  obtain ⟨program₁, n₁, h₁⟩ := hfirst.compile n
  obtain ⟨program, n₂, h₂⟩ := hsecond.compile n₁
  obtain ⟨program₂, hbelow, hsame, hlike⟩ := compile_blankLines h₂ (lineBreaks first + 1)
  obtain ⟨distances, hjoined, hdistances⟩ := compile_lineByLine h₁ hbelow
  have hle : (Likeness.moved (fun a b => b = a + (lineBreaks first + 1)) fun _ => True).Le
      .lineless :=
    Likeness.moved_le (fun _ _ _ => trivial) fun _ hid => hid
  exact ⟨_, _, _, _, _, _, h₁, h₂, hbelow, hsame, hlike.mono hle, hjoined, hdistances⟩

section

variable {fuel₁ fuel' : Nat} {distances : Distances} (h : Reached sink units session)
  (hrules : rules.lookup = .byDistance)
  (hfirst : Program.compile first session.nextId = (.ok program₁, n₁))
  (hrun : session.run rules fuel₁ first = (.ok, session₁))
  (hsecond : Program.compile second n₁ = (.ok program, n₂))
  (hbelow : Program.compile (Item.blankLines (lineBreaks first + 1) ++ second) n₁ =
    (.ok program₂, n₂))
  (hsame : program₂.distances = program.distances)
  (hlike : StmtEachLike .lineless .top program.statements program₂.statements)
  (hjoined : Program.compile (Item.lineByLine first second) session.nextId =
    (.ok ⟨program₁.statements ++ program₂.statements, distances⟩, n₂))
  (hdistances : ∀ id : NodeId, distances[id]? = program₂.distances[id]?.or program₁.distances[id]?)

include h hrules hfirst hrun hbelow hjoined hdistances

/-- With a large enough bound, both sources at once end like the second one below blank lines. -/
theorem Reached.run_below_eq (hfuel : fuel₁ ≤ program₁.statements.length + fuel) :
    (session.run rules (program₁.statements.length + fuel) (Item.lineByLine first second)).1 =
      (session₁.run rules fuel (Item.blankLines (lineBreaks first + 1) ++ second)).1 := by
  obtain ⟨rfl, -⟩ := h.executed hfirst hrun
  have hnew : ∀ id d : Nat, program₂.distances[id]? = some d → session₁.nextId ≤ id :=
    fun _ _ hd => (Program.id_of_distance? hbelow hd).1
  have hself : StmtEachLike (.moved Eq fun _ => True) .top program₂.statements
      program₂.statements :=
    Stmt.likeEach_self (Likeness.moved_reflexive fun _ => rfl) _ fun _ _ => trivial
  have houtcome := (h.run_joined hrules hfirst hrun hjoined hnew hdistances (fun _ => rfl) hself rfl
    hfuel).1
  have hharmless := (h.ran_of_run hfirst hrun).harmless hbelow rules fuel
  rw [Session.run_eq hbelow] at hharmless ⊢
  exact houtcome.eq hharmless

include hsecond hsame hlike

/-- With a large enough bound, both sources at once run like the second one behind the first. -/
theorem Reached.run_second_like (hfuel : fuel₁ ≤ program₁.statements.length + fuel) :
    OutcomeLike (fun _ _ => True) (session₁.run rules fuel second).1
        (session.run rules (program₁.statements.length + fuel) (Item.lineByLine first second)).1 ∧
      MachineLike .lineless (fun _ _ => True) .same (session₁.run rules fuel second).2.machine
        (session.run rules (program₁.statements.length + fuel)
          (Item.lineByLine first second)).2.machine := by
  obtain ⟨rfl, -⟩ := h.executed hfirst hrun
  have hnew : ∀ id d : Nat, program₂.distances[id]? = some d → session₁.nextId ≤ id :=
    fun _ _ hd => (Program.id_of_distance? hbelow hd).1
  rw [Session.run_eq hsecond]
  exact h.run_joined hrules hfirst hrun hjoined hnew hdistances (fun _ => trivial) hlike hsame.symm
    hfuel

/-- When both runs have ended, they were alike. -/
theorem Reached.runsLike (hends : (session₁.run rules fuel second).1 ≠ .unfinished)
    (hends' : (session.run rules fuel' (Item.lineByLine first second)).1 ≠ .unfinished) :
    RunsLike rules fuel units first second session₁
      (session.run rules fuel' (Item.lineByLine first second)) := by
  have hreached := h.ran_of_run hfirst hrun
  obtain ⟨hnext, -⟩ := h.executed hfirst hrun
  obtain ⟨g, hmade⟩ := h.madeOf
  obtain ⟨g₁, hmade₁⟩ := hmade.run h hfirst rules fuel₁
  rw [hrun] at hmade₁
  -- Both runs are the same with a common bound that is large enough.
  have hfuel : fuel ≤ max fuel (max fuel' fuel₁) := Nat.le_max_left ..
  have hfuel' : fuel' ≤ program₁.statements.length + max fuel (max fuel' fuel₁) := by omega
  have hfuel₁ : fuel₁ ≤ program₁.statements.length + max fuel (max fuel' fuel₁) := by omega
  generalize max fuel (max fuel' fuel₁) = bound at hfuel hfuel' hfuel₁
  have hsecond₁ : Program.compile second session₁.nextId = (.ok program, n₂) := hnext ▸ hsecond
  have hbelow₁ : Program.compile (Item.blankLines (lineBreaks first + 1) ++ second)
      session₁.nextId = (.ok program₂, n₂) := hnext ▸ hbelow
  have heq := Session.run_of_le hfuel hsecond₁ hends
  have heq' := Session.run_of_le hfuel' hjoined hends'
  have hmachine := (h.run_second_like hrules hfirst hrun hsecond hbelow hsame
    hlike hjoined hdistances hfuel₁).2
  have houtcome := h.run_below_eq hrules hfirst hrun hbelow hjoined hdistances hfuel₁
  rw [heq, heq'] at hmachine
  rw [heq'] at houtcome
  -- What both sources end with is what the second one does below blank lines.
  obtain ⟨-, -, -, -, hlines⟩ :=
    hreached.run_blankLines hrules hsecond₁ (lineBreaks first + 1) fuel
  have hendsBelow := fun hunfinished => hends (hlines.unfinished_iff.mpr hunfinished)
  rw [Session.run_of_le hfuel hbelow₁ hendsBelow] at houtcome
  constructor
  case outcome => exact fun hne => houtcome.trans (hlines.eq_of_ne hne)
  case raised => exact fun e he => hreached.exists_raisesFrom hsecond₁ he
  case inside =>
    intro t e he hraises
    exact ⟨hraises.token hreached hmade₁, hraises.line hreached he,
      houtcome.trans (hraises.run_blankLines hreached he hrules _)⟩
  case before =>
    intro t e he hraises
    exact ⟨hraises.token hreached hmade₁, hraises.line hreached he,
      houtcome.trans (hraises.run_blankLines hreached he hrules _)⟩
  case sink => exact hmachine.sink
  case globals => exact fun name => hmachine.bound Frames.globalFrame name
  case machine => exact hmachine
  case nextId => rw [Session.run_eq hjoined, Session.run_eq hsecond₁]

/-- One of the runs ends if the other does. -/
theorem Reached.run_ends_iff :
    (∃ fuel, (session₁.run rules fuel second).1 ≠ .unfinished) ↔
      ∃ fuel, (session.run rules fuel (Item.lineByLine first second)).1 ≠ .unfinished := by
  obtain ⟨hnext, -⟩ := h.executed hfirst hrun
  have hsecond₁ : Program.compile second session₁.nextId = (.ok program, n₂) := hnext ▸ hsecond
  constructor
  · rintro ⟨fuel, hends⟩
    have hfuel : fuel₁ ≤ program₁.statements.length + max fuel fuel₁ := by omega
    have hlike := (h.run_second_like hrules hfirst hrun hsecond hbelow hsame
      hlike hjoined hdistances hfuel).1
    refine ⟨program₁.statements.length + max fuel fuel₁, ?_⟩
    rw [Session.run_of_le (Nat.le_max_left fuel fuel₁) hsecond₁ hends] at hlike
    exact fun hunfinished => hends (hlike.unfinished_iff.mpr hunfinished)
  · rintro ⟨fuel, hends⟩
    have hfuel : fuel₁ ≤ program₁.statements.length + max fuel fuel₁ := by omega
    have hmore : fuel ≤ program₁.statements.length + max fuel fuel₁ := by omega
    have hlike := (h.run_second_like hrules hfirst hrun hsecond hbelow hsame
      hlike hjoined hdistances hfuel).1
    refine ⟨max fuel fuel₁, ?_⟩
    rw [Session.run_of_le hmore hjoined hends] at hlike
    exact fun hunfinished => hends (hlike.unfinished_iff.mp hunfinished)

end

/--
Two sources that compile do so together; and once the first one ran without an error,
the second one behind it and both at once come to the same.
-/
theorem Reached.run_lineByLine (h : Reached sink units session)
    (hrules : rules.lookup = .byDistance) (hfirst : Program.Compiles first)
    (hsecond : Program.Compiles second) :
    Program.Compiles (Item.lineByLine first second) ∧
      ∀ fuel₁ session₁, session.run rules fuel₁ first = (.ok, session₁) →
        ((∃ fuel, (session₁.run rules fuel second).1 ≠ .unfinished) ↔
          ∃ fuel, (session.run rules fuel (Item.lineByLine first second)).1 ≠ .unfinished) ∧
        ∀ fuel fuel', (session₁.run rules fuel second).1 ≠ .unfinished →
          (session.run rules fuel' (Item.lineByLine first second)).1 ≠ .unfinished →
          RunsLike rules fuel units first second session₁
            (session.run rules fuel' (Item.lineByLine first second)) := by
  have hcompile := Program.exists_compile_lineByLine hfirst hsecond
  constructor
  · obtain ⟨program₁, n₁, program, program₂, n₂, distances, -, -, -, -, -, hjoined, -⟩ := hcompile 0
    exact ⟨_, _, hjoined⟩
  · intro fuel₁ session₁ hrun
    obtain ⟨program₁, n₁, program, program₂, n₂, distances, hfirst', hsecond', hbelow, hsame, hlike,
      hjoined, hdistances⟩ := hcompile session.nextId
    constructor
    · exact h.run_ends_iff hrules hfirst' hrun hsecond' hbelow hsame hlike hjoined hdistances
    · intro fuel fuel' hends hends'
      exact h.runsLike hrules hfirst' hrun hsecond' hbelow hsame hlike hjoined hdistances hends hends'

/-- A function whose body fails if it is called with `nil`. -/
def negation : String := "fun f(x) \x7b return -x; \x7d"

theorem Outcome.eq_failed {outcome : Outcome} {diagnostic : Diagnostic}
    (hcode : outcome.exitCode = 70) (h : outcome.diagnostics = [diagnostic]) :
    outcome = .failed diagnostic := by
  cases outcome with
  | failed error =>
    cases h
    rfl
  | _ => cases hcode <;> cases h

/-- The call stands in the second source, but the error is raised in the body, which is older. -/
theorem negation_lineByLine :
    Program.Compiles (Item.lineByLine negation "f(nil);") ∧
      ∃ session₁, (Session.initial .unlimited).run ⟨1024, .byDistance, fun _ => 0⟩ 9 negation =
        (.ok, session₁) ∧
      RunsLike ⟨1024, .byDistance, fun _ => 0⟩ 9 [] negation "f(nil);" session₁
        ((Session.initial .unlimited).run ⟨1024, .byDistance, fun _ => 0⟩ 12
          (Item.lineByLine negation "f(nil);")) ∧
      ∃ t, session₁.RaisesFrom ⟨1024, .byDistance, fun _ => 0⟩ 9 "f(nil);" .earlier t
        ⟨.operandNotNumber, 1⟩ := by
  have hfirst : Program.Compiles negation := .of_isOk (by decide +kernel)
  have hsecond : Program.Compiles "f(nil);" := .of_isOk (by decide +kernel)
  have hreached : Reached .unlimited [] (Session.initial .unlimited) := .initial
  have hboth := @Reached.run_lineByLine ⟨1024, .byDistance, fun _ => 0⟩ _ _ _ _ _ hreached rfl
    hfirst hsecond
  refine ⟨hboth.1, ?_⟩
  have hok : ((Session.initial .unlimited).run ⟨1024, .byDistance, fun _ => 0⟩ 9 negation).1 = .ok :=
    Outcome.eq_ok_of_exitCode (by decide +kernel)
  have hfails : (((Session.initial .unlimited).run ⟨1024, .byDistance, fun _ => 0⟩ 9 negation).2.run
      ⟨1024, .byDistance, fun _ => 0⟩ 9 "f(nil);").1 =
        .failed (.runtime ⟨.operandNotNumber, 1⟩) :=
    Outcome.eq_failed (by decide +kernel) (by decide +kernel)
  have hfails' : ((Session.initial .unlimited).run ⟨1024, .byDistance, fun _ => 0⟩ 12
      (Item.lineByLine negation "f(nil);")).1 = .failed (.runtime ⟨.operandNotNumber, 1⟩) :=
    Outcome.eq_failed (by decide +kernel) (by decide +kernel)
  have hends := (hboth.2 9 _ (Prod.ext hok rfl)).2 9 12 (by rw [hfails]; nofun)
    (by rw [hfails']; nofun)
  refine ⟨_, Prod.ext hok rfl, hends, ?_⟩
  obtain ⟨origin, t, hraises⟩ := hends.raised _ hfails
  cases origin with
  | earlier => exact ⟨t, hraises⟩
  | program =>
    -- Both runs report line 1, but an error of the second source would have moved down.
    obtain ⟨-, hline, hmoved⟩ := hends.inside t _ hfails hraises
    rw [hfails', ← hline] at hmoved
    cases hmoved

end Lox
