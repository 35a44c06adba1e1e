import Lox.Proofs.Likeness.Origins
import Lox.Proofs.Likeness.Sources
import Lox.Proofs.Session.Recorded

/-!
# The tokens of code

The code that a run executes is made of tokens of the sources that it comes from: that of
the program itself of the tokens of its source, and that of earlier functions of the
tokens of earlier sources.  A task hands its tokens on to its parts, and to the functions
that it makes.
-/

namespace Lox

open Exec

variable {Q : Token → Prop} {rules : Rules} {x y : Moment} {f : Function} {m : Machine}

/-- The code of the task is made of tokens with the property. -/
abbrev Task.MadeOf (Q : Token → Prop) (task : Task) : Prop := CodeLike (.madeOf Q) task task

abbrev Function.MadeOf (Q : Token → Prop) (f : Function) : Prop := f.CodeLike (.madeOf Q) f

theorem Likeness.madeOf_le {Q' : Token → Prop} (h : ∀ t, Q t → Q' t) :
    (Likeness.madeOf Q).Le (.madeOf Q') :=
  ⟨fun _ hσ => hσ, fun _ _ ht => ⟨ht.1, h _ ht.2⟩, fun _ _ _ ht => ⟨ht.1, h _ ht.2.1, ht.2.2⟩,
    fun _ _ _ hp => ⟨hp.1, h _ hp.2.1, hp.2.2⟩⟩

theorem Function.MadeOf.mono {Q' : Token → Prop} (h : f.MadeOf Q) (hQ : ∀ t, Q t → Q' t) :
    f.MadeOf Q' := by
  obtain ⟨Γ, hcode⟩ := h
  exact ⟨Γ, hcode.mono (Likeness.madeOf_le hQ)⟩

/-! ### The parts of a task -/

/-- Code hands its tokens on to its parts, and a function to its body. -/
theorem Task.MadeOf.leads (h : x.task.MadeOf Q) (hleads : Leads rules x y)
    (hcode : y.task.IsCode) : y.task.MadeOf Q := by
  -- The tokens of a part stand in the constructor that likens the whole, so each case opens
  -- `MadeOf` down to the component that the part executes.
  cases hleads with
  -- A call is a task of its own and not code.
  | call | function | initializer => cases hcode
  -- The body of a called function is read off its declaration.
  | @body _ _ f _ _ _ _ _ =>
    cases h with
    | callFunction hf =>
      change CodeLike (.madeOf Q) (.executeEach f.declaration.body) (.executeEach f.declaration.body)
      generalize f.declaration = d at hf ⊢
      cases hf with
      | mk _ _ _ hbody => exact .executeEach hbody
  -- Expressions.
  | group =>
    cases h with
    | evaluate he =>
      cases he with
      | group hinner => exact .evaluate hinner
  | unary =>
    cases h with
    | evaluate he =>
      cases he with
      | unary _ hoperand => exact .evaluate hoperand
  | binaryLeft =>
    cases h with
    | evaluate he =>
      cases he with
      | binary hleft _ _ => exact .evaluate hleft
  | binaryRight =>
    cases h with
    | evaluate he =>
      cases he with
      | binary _ _ hright => exact .evaluate hright
  | logicalLeft =>
    cases h with
    | evaluate he =>
      cases he with
      | logical hleft _ _ => exact .evaluate hleft
  | logicalRight =>
    cases h with
    | evaluate he =>
      cases he with
      | logical _ _ hright => exact .evaluate hright
  | assign =>
    cases h with
    | evaluate he =>
      cases he with
      | assign _ hvalue => exact .evaluate hvalue
  | callee =>
    cases h with
    | evaluate he =>
      cases he with
      | call hcallee _ _ => exact .evaluate hcallee
  | arguments =>
    cases h with
    | evaluate he =>
      cases he with
      | call _ _ harguments => exact .evaluateEach harguments
  | get =>
    cases h with
    | evaluate he =>
      cases he with
      | get hobject _ => exact .evaluate hobject
  | setObject =>
    cases h with
    | evaluate he =>
      cases he with
      | set hobject _ _ => exact .evaluate hobject
  | setValue =>
    cases h with
    | evaluate he =>
      cases he with
      | set _ _ hvalue => exact .evaluate hvalue
  | firstExpr =>
    cases h with
    | evaluateEach hes =>
      cases hes with
      | cons he _ => exact .evaluate he
  | nextExprs =>
    cases h with
    | evaluateEach hes =>
      cases hes with
      | cons _ hrest => exact .evaluateEach hrest
  -- Statements; a missing initializer or value leads nowhere.
  | expression =>
    cases h with
    | execute hs =>
      cases hs with
      | expression hvalue => exact .evaluate hvalue
  | var =>
    cases h with
    | execute hs =>
      cases hs with
      | var _ hvalue =>
        cases hvalue with
        | some hvalue => exact .evaluate hvalue
  | returning =>
    cases h with
    | execute hs =>
      cases hs with
      | returning _ hvalue =>
        cases hvalue with
        | some hvalue => exact .evaluate hvalue
  | block =>
    cases h with
    | execute hs =>
      cases hs with
      | block _ hbody => exact .executeEach hbody
  | condition =>
    cases h with
    | execute hs =>
      cases hs with
      | conditional hcondition _ | alternative hcondition _ _ => exact .evaluate hcondition
  | thenBranch =>
    cases h with
    | execute hs =>
      cases hs with
      | conditional _ hthen | alternative _ hthen _ => exact .execute hthen
  | elseBranch =>
    cases h with
    | execute hs =>
      cases hs with
      | alternative _ _ helse => exact .execute helse
  | loop =>
    cases h with
    | execute hs =>
      cases hs with
      | loop hcondition hbody hincrement => exact .iterate hcondition hbody hincrement
  | firstStmt =>
    cases h with
    | executeEach hss =>
      cases hss with
      | cons hs _ => exact .execute hs
  | nextStmts =>
    cases h with
    | executeEach hss =>
      cases hss with
      | cons _ hrest => exact .executeEach hrest
  -- The parts of a loop under way, whose rest is the same loop again.
  | test =>
    cases h with
    | iterate hcondition _ _ => exact .evaluate hcondition
  | turn =>
    cases h with
    | iterate _ hbody _ => exact .execute hbody
  | increment =>
    cases h with
    | iterate _ _ hincrement =>
      cases hincrement with
      | some hstep => exact .evaluate hstep
  | again | againAfter =>
    cases h with
    | iterate hcondition hbody hincrement => exact .iterate hcondition hbody hincrement

theorem FunctionEachLike.self_of_mem {K : Likeness} {Γ : Surroundings} {ds : List FunctionDecl}
    (h : FunctionEachLike K Γ ds ds) {d : FunctionDecl} (hd : d ∈ ds) : FunctionLike K Γ d d := by
  induction ds with
  | nil => cases hd
  | cons d' rest ih =>
    cases h with
    | cons hfirst hrest =>
      rcases List.mem_cons.mp hd with rfl | hd
      · exact hfirst
      · exact ih hrest hd

/-- Code hands its tokens on to the functions that it makes. -/
theorem Makes.madeOf (hmakes : Makes rules x f m) (h : x.task.MadeOf Q)
    (hcurrent : x.machine.current < x.machine.frames.size) : f.MadeOf Q := by
  cases hmakes with
  | function hrun hfound =>
    cases hrun
    rw [Frames.findIn?_define_self hcurrent] at hfound
    cases hfound
    cases h with
    | execute hs =>
      cases hs with
      | function _ hd => exact ⟨_, hd⟩
  | @method _ _ _ methods _ _ _ _ key _ hrun hfound hmethod =>
    simp only [Exec.execute] at hrun
    obtain ⟨⟨⟩, m', hdeclare, hflow⟩ := of_bind_ok hrun
    cases hflow
    obtain ⟨frame, m₁, m₂, hown, -⟩ := methods_of_declareClass hcurrent hdeclare hfound
    have hmem : f.declaration ∈ methods := (madeOf_makeMethods hown key f hmethod).1
    cases h with
    | execute hs =>
      cases hs with
      | «class» _ _ _ hmethods => exact ⟨_, hmethods.self_of_mem hmem⟩

/-! ### Code of one origin -/

section

/--
What a run starts with is made of these tokens: the program of the ones, and the functions
that are there already of the others.
-/
structure StartMadeOf (Qs : Origin → Token → Prop) (V : Visit → Prop) (g : Census)
    (start : Moment) : Prop where
  ok : start.Ok V
  program : start.task.MadeOf (Qs .program)
  earlier : ∀ f : Function, f.In g → f.id < start.machine.nextIdentity → f.MadeOf (Qs .earlier)

variable {Qs : Origin → Token → Prop} {V : Visit → Prop} {o : Outset} {g : Census} {start : Moment}
  (hstart : StartMadeOf Qs V g start) (h : Chronicle o g (start.trace rules) m)

include hstart h

mutual

/-- The code of an origin is made of the tokens that are there. -/
theorem CodeOf.madeOf {origin : Origin} {x : Moment} : CodeOf rules start origin x →
    x.task.MadeOf (Qs origin)
  | .start => hstart.program
  | .part hx hleads hcode => hx.madeOf.leads hleads hcode
  | .body hx hcall hf hleads => by
    obtain ⟨g', hle, -, hIn⟩ := h.of_callFunction hx hcall
    have hcode := (hf.madeOf (hIn.mono hle)).task hcall hcall
    exact Task.MadeOf.leads hcode hleads (hleads.isCode_of_callFunction hcall)

/-- The functions of an origin are made of the tokens that are there. -/
theorem FunctionOf.madeOf {origin : Origin} {f : Function} : FunctionOf rules start origin f →
    f.In g → f.MadeOf (Qs origin)
  | .earlier hlt, hf => hstart.earlier f hf hlt
  | .declared hx hmakes, _ => by
    have hokx := hstart.ok.passes hx.passes
    obtain ⟨scopes, hhere⟩ := hokx.here (by cases hmakes <;> trivial)
    exact hmakes.madeOf hx.madeOf (Mirrors.lt hhere hokx.sound.global)
  | .bound hx hbinds hmethod, _ => by
    obtain ⟨Γ, hcode⟩ := hmethod.madeOf (h.of_bindsMethod hx hbinds).2.1
    rw [← hbinds.declaration] at hcode
    exact ⟨Γ, hcode⟩

end

end

/-! ### The functions of a session -/

/-- The token is one of a source that was compiled to one of the programs. -/
def Token.Of (units : List Program) (t : Token) : Prop :=
  ∃ unit ∈ units, ∃ source n n', Program.compile source n = (.ok unit, n') ∧
    t ∈ Item.tokens (Item.scan source)

theorem Function.In.of_within {g g' : Census} (hf : f.In g') (hle : g.Within g')
    (hm : m.In g) (hlt : f.id < m.nextIdentity) : f.In g := by
  rw [← hm.made] at hlt
  obtain ⟨rest, hrest⟩ := hle.made
  unfold Function.In at hf ⊢
  rwa [← hrest, List.getElem?_append_left hlt] at hf

variable {sink : Sink} {units : List Program} {session : Session} {source : String}
  {program : Program} {n : NodeId} {fuel : Nat} {g : Census}

/-- A census of a session, all of whose functions are made of tokens with the property. -/
structure Session.MadeOf (Q : Token → Prop) (g : Census) (session : Session) : Prop where
  machine : session.machine.In g
  functions : ∀ f : Function, f.In g → f.MadeOf Q

/-- The tokens that code of this origin is made of: those of the source, or older ones. -/
def Origin.Tokens (source : String) (Q : Token → Prop) : Origin → Token → Prop
  | .program => (· ∈ Item.tokens (Item.scan source))
  | .earlier => Q

/-- A run starts with the tokens of its program, and with those of the functions before it. -/
theorem Session.MadeOf.start (hmade : session.MadeOf Q g) (h : Reached sink units session)
    (hcompile : Program.compile source session.nextId = (.ok program, n)) (rules : Rules)
    (fuel : Nat) :
    ∃ g', Chronicle ⟨g, (session.start fuel program).machine, hmade.machine.of_eq rfl rfl rfl⟩ g'
        ((session.start fuel program).trace rules) ((session.start fuel program).final rules) ∧
      StartMadeOf (Origin.Tokens source Q) (Visited (program :: units)) g'
        (session.start fuel program) := by
  have hm : (session.start fuel program).machine.In g := hmade.machine.of_eq rfl rfl rfl
  obtain ⟨g', hg'⟩ := Moment.chronicle hm (List.forall_mem_nil _) rules
  refine ⟨g', hg', h.start_ok hcompile fuel, .executeEach (Program.madeOf hcompile fun _ => id), ?_⟩
  intro f hf hlt
  exact hmade.functions f (hf.of_within hg'.within hm hlt)

/-- Behind a run the functions of a session are made of these tokens and of those of the source. -/
theorem Session.MadeOf.run (hmade : session.MadeOf Q g) (h : Reached sink units session)
    (hcompile : Program.compile source session.nextId = (.ok program, n)) (rules : Rules)
    (fuel : Nat) :
    ∃ g', (session.run rules fuel source).2.MadeOf
      (fun t => t ∈ Item.tokens (Item.scan source) ∨ Q t) g' := by
  obtain ⟨g', hg', hstart⟩ := hmade.start h hcompile rules fuel
  refine ⟨g', ?_, fun f hf => ?_⟩
  · rw [Session.machine_run hcompile]
    exact hg'.In
  · obtain ⟨origin, horigin⟩ := FunctionOf.exists_of_In hg' rfl hstart.ok hf
    refine (horigin.madeOf hstart hg' hf).mono fun t ht => ?_
    cases origin with
    | program => exact .inl ht
    | earlier => exact .inr ht

/-- The functions of a session are made of tokens of its sources. -/
theorem Reached.madeOf (h : Reached sink units session) :
    ∃ g, session.MadeOf (Token.Of units) g := by
  induction h with
  | initial =>
    refine ⟨.empty, Machine.in_initial sink, fun f hf => ?_⟩
    cases hf
  | rejected _ hcompile ih =>
    obtain ⟨g, hmachine, hfunctions⟩ := ih
    exact ⟨g, by rwa [Session.machine_run_of_error hcompile], hfunctions⟩
  | @ran units session rules fuel source program n h hcompile ih =>
    obtain ⟨g, hg⟩ := ih
    obtain ⟨g', hmachine, hfunctions⟩ := hg.run h hcompile rules fuel
    refine ⟨g', hmachine, fun f hf => (hfunctions f hf).mono fun t ht => ?_⟩
    rcases ht with ht | ⟨unit, hunit, hof⟩
    · exact ⟨program, List.mem_cons_self, source, _, _, hcompile, ht⟩
    · exact ⟨unit, List.mem_cons_of_mem _ hunit, hof⟩

end Lox
