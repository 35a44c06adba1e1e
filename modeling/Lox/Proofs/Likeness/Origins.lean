import Lox.Proofs.Likeness.Moments

/-!
# Origins in runs that look alike

Runs that look alike make the same functions at the same moments, with the same numbers.
So the code of one origin can correspond in a sense of its own, whatever other code the
machines hold: if it does for the program that is run, and for the functions that were
there before, it does at every moment of the run.
-/

namespace Lox

open Exec

variable {K K₂ : Likeness} {line : Nat → Nat → Prop} {W : World} {m m' : Machine} {rules : Rules}
  {x x' : Moment} {f method : Function}

/-- Where the one computation succeeds, a like one does. -/
theorem Alike.of_ok {α : Type} {post : World → Machine → α → α → Prop} {p p' : Exec α} {a : α}
    {m₁ : Machine} (h : Alike K line W m post (p m) (p' m')) (hrun : p m = .ok a m₁) :
    ∃ W₁ a' m₁', p' m' = .ok a' m₁' ∧ Onward W m W₁ m₁ ∧ MachineLike K line W₁ m₁ m₁' ∧
      post W₁ m₁ a a' := by
  rw [hrun] at h
  generalize p' m' = r' at h ⊢
  cases h with
  | ok honward hlike hpost => exact ⟨_, _, _, rfl, honward, hlike, hpost⟩

/-- What `r` says of the value that is there, it says of a value that is there as well. -/
theorem Option.Rel.of_some {α : Type} {r : α → α → Prop} {a : α} {v v' : Option α}
    (h : Option.Rel r v v') (ha : v = some a) : ∃ a', v' = some a' ∧ r a a' := by
  subst ha
  cases h with
  | some hr => exact ⟨_, rfl, hr⟩

theorem Option.Rel.of_none {α : Type} {r : α → α → Prop} {v v' : Option α}
    (h : Option.Rel r v v') (ha : v = none) : v' = none := by
  subst ha
  cases h with
  | none => rfl

/-! ### Functions that are made -/

def Function.CodeLike (K : Likeness) (f f' : Function) : Prop :=
  ∃ Γ, FunctionLike K Γ f.declaration f'.declaration

/-- Tables that are filled in step, with like methods, are alike. -/
theorem Exec.addMethods_like (hlexeme : ∀ t t', K₂.token t t' → t'.lexeme = t.lexeme)
    {Γ : Surroundings} {ds ds' : List FunctionDecl} (hds : FunctionEachLike K₂ Γ ds ds')
    {frame frame' : FrameId} {start start' methods methods' : Bindings Function}
    {m₁ m₁' : Machine}
    (hstart : ∀ name, Option.Rel (Function.CodeLike K₂) (start.find? name) (start'.find? name))
    (hrun : addMethods frame ds start m = .ok methods m₁)
    (hrun' : addMethods frame' ds' start' m' = .ok methods' m₁') (name : String) :
    Option.Rel (Function.CodeLike K₂) (methods.find? name) (methods'.find? name) := by
  induction ds generalizing ds' start start' m m' with
  | nil =>
    cases hds with
    | nil =>
      cases hrun
      cases hrun'
      exact hstart name
  | cons d rest ih =>
    cases hds with
    | @cons _ _ d' _ rest' hd hrest =>
      rw [addMethods_cons_run] at hrun hrun'
      refine ih hrest (fun other => ?_) hrun hrun'
      rw [Bindings.find?_insert, Bindings.find?_insert, hlexeme _ _ hd.name]
      split
      · exact .some ⟨Γ, hd⟩
      · exact hstart other

section

variable (hx : MomentLike K line x x') (hrules : rules.lookup = .byDistance)

include hx hrules

/-- A like moment makes a like function, with the same number. -/
theorem Makes.like (hmakes : Makes rules x f m) (hcode : CodeLike K₂ x.task x'.task)
    (hlexeme : ∀ t t', K₂.token t t' → t'.lexeme = t.lexeme) :
    ∃ f' m', Makes rules x' f' m' ∧ f'.id = f.id ∧ f.CodeLike K₂ f' := by
  cases hmakes with
  -- A declared function gets the next number, which like machines share.
  | function hrun hfound =>
    cases hx with
    -- The declaration leaves the new function in the frame in which the name is found again.
    | @mk _ _ m₀ m₀' _ task' hm htask =>
      cases htask with
      | execute hfollows hs =>
        cases hs with
        | @function _ d d' hsame hd =>
          cases hcode with
          | execute hs₂ =>
            cases hs₂ with
            | function _ hd₂ =>
              have hcurrent' : m₀'.current < m₀'.frames.size := by
                rw [hm.current, hm.size]
                exact hfollows.lt
              cases hrun
              rw [Frames.findIn?_define_self hfollows.lt] at hfound
              cases hfound
              exact ⟨_, _, .function rfl (Frames.findIn?_define_self hcurrent' _ _),
                hm.nextIdentity, _, hd₂⟩
  -- A method of a class is found in the class that the declaration binds to its name.
  | @method fuel name superclass methods m₀ _ flow c key _ hrun hfound hmethod =>
    cases hx with
    | @mk _ W _ m₀' _ task' hm htask =>
      cases htask with
      | execute hfollows hs =>
        have hexecuted := (likeAt K line hrules (fuel + 1)).execute hm hfollows hs
        cases hs with
        | @«class» _ _ name' _ superclass' _ methods' hsame hname hsuper hmethods =>
          cases hcode with
          | execute hs₂ =>
            cases hs₂ with
            | «class» _ _ _ hmethods₂ =>
              obtain ⟨-, hlexeme', -⟩ := hm.faithful.token _ _ hname
              -- The other run declares a like class, under the name that the frame gives this one.
              obtain ⟨W₁, flow', m₁', hrun', honward, hm₁, -⟩ := hexecuted.of_ok hrun
              have hkept : W₁ m₀.current name.lexeme = name.lexeme := by
                rw [← honward.current, (hfollows.onward honward).current]
                exact hsame
              obtain ⟨value', hfound', hvalue⟩ :=
                Option.Rel.of_some (hm₁.bound m₀.current name.lexeme) hfound
              rw [hkept, ← hm.current, ← hlexeme'] at hfound'
              cases hvalue with
              | @«class» _ c' hclass =>
                -- Its table of methods is alike, so it has a method under the same key.
                obtain ⟨f', hmethod', hf⟩ := Option.Rel.of_some (hclass.layer.methods key) hmethod
                refine ⟨f', m₁', .method hrun' hfound' hmethod', hf.id, ?_⟩
                have hcurrent' : m₀'.current < m₀'.frames.size := by
                  rw [hm.current, hm.size]
                  exact hfollows.lt
                -- The likeness in `K₂` comes from the making of the two tables.
                simp only [Exec.execute] at hrun hrun'
                obtain ⟨⟨⟩, m₂, hdeclare, hflow⟩ := of_bind_ok hrun
                obtain ⟨⟨⟩, m₂', hdeclare', hflow'⟩ := of_bind_ok hrun'
                cases hflow
                cases hflow'
                obtain ⟨frame, n₁, n₂, hown, -⟩ :=
                  methods_of_declareClass hfollows.lt hdeclare hfound
                obtain ⟨frame', n₁', n₂', hown', -⟩ :=
                  methods_of_declareClass hcurrent' hdeclare' hfound'
                have hlikeTables := addMethods_like hlexeme hmethods₂ (fun _ => .none) hown hown' key
                obtain ⟨f'', hf'', hlike⟩ := Option.Rel.of_some hlikeTables hmethod
                cases hf''.symm.trans hmethod'
                exact hlike

/-- A like moment binds a like method, and both functions have the same numbers. -/
theorem BindsMethod.like (hbinds : BindsMethod rules x method f) :
    ∃ method' f', BindsMethod rules x' method' f' ∧ method'.id = method.id ∧ f'.id = f.id := by
  cases hbinds with
  -- A property of an instance that is no field: looked up in the class of the like object.
  | @property fuel m₀ object name owner m₁ _ _ m₂ hobject hfield hmethod hbind =>
    cases hx with
    | mk hm htask =>
      cases htask with
      | evaluate hfollows he =>
        cases he with
        | get hobjectLike hname =>
          obtain ⟨-, hlexeme, -⟩ := hm.faithful.token _ _ hname
          obtain ⟨W₁, value', m₁', hobject', -, hm₁, hvalue⟩ :=
            ((likeAt K line hrules fuel).evaluate hm hfollows hobjectLike).of_ok hobject
          cases hvalue with
          | @object _ owner' hid hclass =>
            have hfield' := Option.Rel.of_none (hm₁.fields owner.id name.lexeme) hfield
            rw [← hid, ← hlexeme] at hfield'
            obtain ⟨method', hmethod', hlike⟩ := Option.Rel.of_some (hclass.findMethod? name.lexeme) hmethod
            rw [← hlexeme] at hmethod'
            obtain ⟨W₂, f', m₂', hbind', -, -, hf⟩ :=
              (Alike.bindMethod hm₁ hlike (.object hid hclass)).of_ok hbind
            exact ⟨method', f', .property hobject' hfield' hmethod' hbind', hlike.id, hf.id⟩
  -- `super`: the superclass and the instance stand at the same distances in both chains.
  | @super fuel m₀ place name distance parent owner _ _ m₁ hd hparent howner hmethod hbind =>
    cases hx with
    | @mk _ W _ m₀' _ _ hm htask =>
      cases htask with
      | @evaluate Γ _ _ hfollows he =>
        cases he with
        | @super _ place' _ name' hplace hname =>
          obtain ⟨-, hlexeme, -⟩ := hm.faithful.token _ _ hname
          have hline := hm.faithful.line _ _ _ hplace
          have hd' := (hm.faithful.distance _ _ _ hplace).trans hd
          have hparent' := hm.getAt hfollows distance (Γ distance).super.symm hline
          have howner' := hm.getAt hfollows (distance - 1) (Γ (distance - 1)).this.symm hline
          rw [hparent] at hparent'
          rw [howner] at howner'
          -- The lookups become variables, so that the cases of their likeness apply.
          generalize hp : m₀'.frames.getAt m₀'.current distance "super" place'.line = p
            at hparent'
          generalize ho : m₀'.frames.getAt m₀'.current (distance - 1) "this" place'.line = o
            at howner'
          cases hparent' with
          | ok hparentLike =>
            cases howner' with
            | ok hownerLike =>
              cases hparentLike with
              | @«class» _ parent' hclass =>
                cases hownerLike with
                | @object _ owner' hid hownerClass =>
                  obtain ⟨method', hmethod', hlike⟩ :=
                    Option.Rel.of_some (hclass.findMethod? name.lexeme) hmethod
                  rw [← hlexeme] at hmethod'
                  obtain ⟨W₁, f', m₁', hbind', -, -, hf⟩ :=
                    (Alike.bindMethod hm hlike (.object hid hownerClass)).of_ok hbind
                  exact ⟨method', f', .super hd' hp ho hmethod' hbind', hlike.id, hf.id⟩
  -- The initializer of a class being called, bound to the instance made for the call.
  | @initializer fuel m₀ c arguments n owner m₁ _ _ m₂ hinstance hmethod hbind =>
    cases hx with
    | mk hm htask =>
      cases htask with
      | call hcallee harguments hline =>
        cases hcallee with
        | @«class» _ c' hclass =>
          obtain ⟨W₁, owner', m₁', hinstance', honward, hm₁, ⟨rfl, -, hid, hcls, hcls'⟩⟩ :=
            (Alike.newInstance hm c c').of_ok hinstance
          obtain ⟨method', hmethod', hlike⟩ :=
            Option.Rel.of_some (hclass.findMethod? initializerName) hmethod
          have hclass₁ := hclass.evolve honward.evolves
          rw [← hcls, ← hcls'] at hclass₁
          obtain ⟨W₂, f', m₂', hbind', -, -, hf⟩ :=
            (Alike.bindMethod hm₁ (hlike.mono (.refl K) honward.evolves)
              (.object hid hclass₁)).of_ok hbind
          exact ⟨method', f', .initializer hinstance' hmethod' hbind', hlike.id, hf.id⟩

end

/-! ### Code of one origin -/

theorem Function.CodeLike.task {f' : Function} {arguments arguments' : List Value} {n n' : Nat}
    (h : f.CodeLike K f') (hcall : x.task = .callFunction f arguments n)
    (hcall' : x'.task = .callFunction f' arguments' n') : Lox.CodeLike K x.task x'.task := by
  obtain ⟨Γ, hdeclaration⟩ := h
  rw [hcall, hcall']
  exact .callFunction hdeclaration

/-- What is called at a like moment has the same number. -/
theorem MomentLike.of_callFunction {arguments : List Value} {n : Nat} (h : MomentLike K line x x')
    (hcall : x.task = .callFunction f arguments n) :
    ∃ f' arguments' n', x'.task = .callFunction f' arguments' n' ∧ f'.id = f.id := by
  cases h with
  | mk _ htask =>
    cases hcall
    cases htask with
    | callFunction hf => exact ⟨_, _, _, rfl, hf.id⟩

/--
Runs that start alike, where the program and the functions that are there already correspond
each in a sense of its own.
-/
structure StartLike (K : Likeness) (line : Nat → Nat → Prop) (Ks : Origin → Likeness)
    (g g' : Census) (start start' : Moment) : Prop where
  moment : MomentLike K line start start'
  program : CodeLike (Ks .program) start.task start'.task
  earlier : ∀ f f' : Function, f.In g → f'.In g' → f'.id = f.id →
    f.id < start.machine.nextIdentity → f.CodeLike (Ks .earlier) f'
  lexeme : ∀ origin t t', (Ks origin).token t t' → t'.lexeme = t.lexeme

section

variable {Ks : Origin → Likeness} {o o' : Outset} {g g' : Census} {start start' : Moment}
  (hstart : StartLike K line Ks g g' start start') (hrules : rules.lookup = .byDistance)
  (h : Chronicle o g (start.trace rules) m) (h' : Chronicle o' g' (start'.trace rules) m')

include hstart hrules h h'

mutual

/-- The code of an origin corresponds in the sense of this origin. -/
theorem CodeOf.like {origin : Origin} {x : Moment} : CodeOf rules start origin x →
    ∃ x', Passes rules start' x' ∧ MomentLike K line x x' ∧ CodeLike (Ks origin) x.task x'.task
  | .start => ⟨start', .start, hstart.moment, hstart.program⟩
  | .part hx hleads hcode => by
    obtain ⟨x', hx', hlike, hcodeLike⟩ := hx.like
    obtain ⟨y', hleads', hpart⟩ := hlike.leads hrules hcodeLike hleads
    exact ⟨y', hx'.step hleads', hpart.moment, hpart.code hcode⟩
  | .body hx hcall hf hleads => by
    obtain ⟨x', hx', hlike⟩ := hstart.moment.passes hrules hx
    obtain ⟨f', arguments', n', hcall', hid⟩ := hlike.of_callFunction hcall
    obtain ⟨g₁, hle, -, hIn⟩ := h.of_callFunction hx hcall
    obtain ⟨g₁', hle', -, hIn'⟩ := h'.of_callFunction hx' hcall'
    have hcode := (hf.like (hIn.mono hle) (hIn'.mono hle') hid).task hcall hcall'
    obtain ⟨y', hleads', hpart⟩ := hlike.leads hrules hcode hleads
    exact ⟨y', hx'.step hleads', hpart.moment, hpart.code (hleads.isCode_of_callFunction hcall)⟩

/-- The functions of an origin correspond in the sense of this origin, if they have the same number. -/
theorem FunctionOf.like {origin : Origin} {f f' : Function} : FunctionOf rules start origin f →
    f.In g → f'.In g' → f'.id = f.id → f.CodeLike (Ks origin) f'
  | .earlier hlt, hf, hf', hid => hstart.earlier f f' hf hf' hid hlt
  | .declared hx hmakes, hf, hf', hid => by
    obtain ⟨x', hx', hlike, hcodeLike⟩ := hx.like
    obtain ⟨f'', m'', hmakes', hid', hcode⟩ := hmakes.like hlike hrules hcodeLike (hstart.lexeme _)
    rw [(h'.of_makes hx' hmakes').eq_of_id hf' (hid.trans hid'.symm)]
    exact hcode
  | .bound hx hbinds hmethod, hf, hf', hid => by
    obtain ⟨x', hx', hlike⟩ := hstart.moment.passes hrules hx
    obtain ⟨method', f'', hbinds', hidMethod, hid'⟩ := hbinds.like hlike hrules
    obtain ⟨-, hIn, -⟩ := h.of_bindsMethod hx hbinds
    obtain ⟨hIn'', hIn', -⟩ := h'.of_bindsMethod hx' hbinds'
    obtain ⟨Γ, hcode⟩ := hmethod.like hIn hIn' hidMethod
    rw [hIn''.eq_of_id hf' (hid.trans hid'.symm)]
    rw [← hbinds.declaration, ← hbinds'.declaration] at hcode
    exact ⟨Γ, hcode⟩

end

end

end Lox
