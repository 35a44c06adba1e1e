import Lox.Proofs.Execution.Signals

/-!
# Inside a method

The body of a method, with the blocks and functions in it down to the next class, stands
in scopes that lie within the one of `this`.  While it runs, the frame that mirrors this
scope is as many steps outwards as there are scopes in between, so each `this` in the
body has the distance of this frame, and each `super` that of the frame around it.
-/

namespace Lox

open Resolution Exec

/-- Where `this` or `super` was visited, it was allowed, and its distance is known. -/
def Visit.Known (distances : Distances) (v : Visit) : Prop :=
  v.kind = .this ∨ v.kind = .super →
    v.Faultless ∧ v.kind.Fits v.place ∧ ∀ d, v.distance? = some d → distances[v.place.id]? = some d

theorem Visit.Recorded.known {distances : Distances} {v : Visit} (h : v.Recorded distances) :
    v.Known distances :=
  fun _ => ⟨h.faultless, h.fits, fun _ hd => h.distance.trans hd⟩

theorem Visit.Known.mono {distances distances' : Distances} {v : Visit} (h : v.Known distances)
    (hdistances : ∀ (id d : Nat), distances[id]? = some d → distances'[id]? = some d) :
    v.Known distances' := by
  intro hkind
  obtain ⟨hfaultless, hfits, hdistance⟩ := h hkind
  exact ⟨hfaultless, hfits, fun d hd => hdistances _ d (hdistance d hd)⟩

/-! ### The stack within a class -/

namespace Resolution

variable {inner outer scopes : List Scope}

theorem distance?_this_append (hinner : ∀ scope ∈ inner, Ordinary scope) :
    distance? (inner ++ thisScope :: outer) "this" = some inner.length := by
  induction inner with
  | nil => rfl
  | cons scope inner ih =>
    have hscope := hinner scope List.mem_cons_self
    rw [List.cons_append, distance?_cons, not_contains_of_find? (hscope _ not_isName_this),
      ih fun s hs => hinner s (List.mem_cons_of_mem _ hs)]
    rfl

theorem distance?_super_append (hinner : ∀ scope ∈ inner, Ordinary scope) :
    distance? (inner ++ thisScope :: superScope :: outer) "super" = some (inner.length + 1) := by
  induction inner with
  | nil => rfl
  | cons scope inner ih =>
    have hscope := hinner scope List.mem_cons_self
    rw [List.cons_append, distance?_cons, not_contains_of_find? (hscope _ not_isName_super),
      ih fun s hs => hinner s (List.mem_cons_of_mem _ hs)]
    rfl

theorem Stack.of_append {c : EnclosingClass} (h : Stack (inner ++ scopes) c)
    (hinner : ∀ scope ∈ inner, Ordinary scope) : Stack scopes c := by
  induction inner with
  | nil => exact h
  | cons scope inner ih =>
    exact ih (h.tail (hinner scope List.mem_cons_self))
      fun s hs => hinner s (List.mem_cons_of_mem _ hs)

theorem not_ordinary_thisScope : ¬ Ordinary thisScope :=
  fun h => absurd (h "this" not_isName_this) (by decide)

theorem not_ordinary_superScope : ¬ Ordinary superScope :=
  fun h => absurd (h "super" not_isName_super) (by decide)

/-- A class has a superclass just if there is a scope with `super` around that of `this`. -/
theorem Stack.derived_iff {c : EnclosingClass} (h : Stack (thisScope :: outer) c) :
    c = .derived ↔ ∃ around, outer = superScope :: around := by
  have hsuper : ∀ {scope : Scope} {around : List Scope} {c : EnclosingClass},
      Stack (scope :: around) c → scope ≠ superScope := by
    rintro scope around c hstack rfl
    generalize hscopes : superScope :: around = stack at hstack
    cases hstack with
    | top => cases hscopes
    | inner hordinary _ =>
      rw [List.cons.injEq] at hscopes
      exact not_ordinary_superScope (hscopes.1 ▸ hordinary)
    | base =>
      rw [List.cons.injEq] at hscopes
      exact absurd (congrArg (Bindings.find? · "this") hscopes.1) (by decide)
    | derived =>
      rw [List.cons.injEq] at hscopes
      exact absurd (congrArg (Bindings.find? · "this") hscopes.1) (by decide)
  cases h with
  | inner hordinary _ => exact absurd hordinary not_ordinary_thisScope
  | base houter =>
    constructor
    · intro hc
      cases hc
    · rintro ⟨around, rfl⟩
      exact absurd rfl (hsuper houter)
  | derived houter => exact ⟨fun _ => ⟨_, rfl⟩, fun _ => rfl⟩

end Resolution

/-! ### Where code stands -/

/--
The scopes lie within that of `this`, and from the frame `f` it is as many steps to the
frame `g` as there are scopes within.
-/
def Stands (frames : Frames Value) (g : FrameId) (outer : List Scope) (f : FrameId)
    (scopes : List Scope) : Prop :=
  ∃ inner, scopes = inner ++ thisScope :: outer ∧ (∀ scope ∈ inner, Ordinary scope) ∧
    frames.ancestor? f inner.length = some g

variable {V : Visit → Prop} {rules : Rules} {r : Resolution} {outer scopes : List Scope}
  {frames frames' : Frames Value} {f f' g : FrameId} {m : Machine}

theorem Grows.ancestor? (h : Grows frames frames') {d : Nat}
    (hd : frames.ancestor? f d = some g) : frames'.ancestor? f d = some g := by
  induction d generalizing f with
  | zero => exact hd
  | succ d ih =>
    rw [Frames.ancestor?] at hd ⊢
    obtain ⟨around, haround, hrest⟩ := Option.bind_eq_some_iff.mp hd
    rw [h.enclosing f around haround, Option.bind_some]
    exact ih hrest

namespace Stands

theorem start (frames : Frames Value) (g : FrameId) (outer : List Scope) :
    Stands frames g outer g (thisScope :: outer) :=
  ⟨[], rfl, fun _ hscope => absurd hscope List.not_mem_nil, rfl⟩

theorem grow (h : Stands frames g outer f scopes) (hgrows : Grows frames frames') :
    Stands frames' g outer f scopes := by
  obtain ⟨inner, hscopes, hinner, hf⟩ := h
  exact ⟨inner, hscopes, hinner, hgrows.ancestor? hf⟩

/-- One scope and one frame further in. -/
theorem «open» (h : Stands frames g outer f scopes) (hf' : frames.enclosing? f' = some f) :
    Stands frames g outer f' (.empty :: scopes) := by
  obtain ⟨inner, hscopes, hinner, hf⟩ := h
  refine ⟨.empty :: inner, by rw [hscopes, List.cons_append], ?_, ?_⟩
  · intro scope hscope
    rcases List.mem_cons.mp hscope with rfl | hscope
    · exact ordinary_empty
    · exact hinner scope hscope
  · rw [List.length_cons, Frames.ancestor?, hf', Option.bind_some]
    exact hf

/-- A name that is declared goes to a scope within that of `this`. -/
theorem mark (h : Stands frames g outer f r.scopes) (hready : Ready r) {name : String}
    (hname : IsName name) (readable : Bool) :
    Stands frames g outer f (r.mark name readable).scopes := by
  obtain ⟨inner, hscopes, hinner, hf⟩ := h
  cases inner with
  | nil =>
    have hordinary := hready.ordinary thisScope
    rw [hscopes] at hordinary
    exact absurd (hordinary rfl) not_ordinary_thisScope
  | cons scope inner =>
    refine ⟨scope.insert name readable :: inner, ?_, ?_, hf⟩
    · rw [scopes_mark, hscopes]
      rfl
    · intro s hs
      rcases List.mem_cons.mp hs with rfl | hs
      · exact (hinner scope List.mem_cons_self).insert hname readable
      · exact hinner s (List.mem_cons_of_mem _ hs)

theorem declare (h : Stands frames g outer f r.scopes) (hready : Ready r) {name : Token}
    (hname : IsName name.lexeme) : Stands frames g outer f (r.declare name).scopes := by
  rw [scopes_declare]
  exact h.mark hready hname false

theorem resolve (h : Stands frames g outer f r.scopes) {s : Stmt} (hs : StmtOk V r s) :
    Stands frames g outer f (s.resolve r).scopes := by
  rw [s.scopes_resolve hs.shaped]
  have hname := s.declared?_isName hs.shaped
  cases hdeclared : s.declared? with
  | none => exact h
  | some name => exact h.mark hs.ready (hname name hdeclared) true

theorem declareParameters {parameters : List Token} (h : Stands frames g outer f r.scopes)
    (hready : Ready r) (hnames : ∀ t ∈ parameters, IsName t.lexeme) :
    Stands frames g outer f (r.declareParameters parameters).scopes := by
  induction parameters generalizing r with
  | nil => exact h
  | cons parameter parameters ih =>
    have hname := hnames parameter List.mem_cons_self
    have hone : ∀ t ∈ [parameter], IsName t.lexeme :=
      fun t ht => (List.mem_singleton.mp ht) ▸ hname
    refine ih ?_ (hready.declareParameters hone) fun t ht => hnames t (List.mem_cons_of_mem _ ht)
    rw [scopes_define_declare (SameScopes.refl (r.declare parameter))]
    exact h.mark hready hname true

end Stands

/-- The body of a function stands one frame further in than the function. -/
theorem RoutineOk.stands {routine : EnclosingRoutine} {d : FunctionDecl}
    (h : RoutineOk V routine d r) (hstands : Stands frames g outer f r.scopes)
    (hf' : frames.enclosing? f' = some f) :
    Stands frames g outer f' (r.enterRoutine routine d.parameters).scopes := by
  cases d with
  | mk name parameters body =>
    have hnone : ∀ t ∈ ([] : List Token), IsName t.lexeme := fun t ht => absurd ht List.not_mem_nil
    have hopen : Ready ({ r with routine := routine, loopDepth := 0 } : Resolution).openScope :=
      h.settled.enterRoutine routine hnone
    have hstands' : Stands frames g outer f'
        ({ r with routine := routine, loopDepth := 0 } : Resolution).openScope.scopes :=
      hstands.open hf'
    exact hstands'.declareParameters hopen h.shaped.1

/-! ### Tasks inside a method -/

/-- The task is about code, and not about the call of a value. -/
def Task.IsCode : Task → Prop
  | .call _ _ _ | .callFunction _ _ _ => False
  | _ => True

/-- The code of the task stands inside a method that sees the frame `g`. -/
def Task.Inside (V : Visit → Prop) (g : FrameId) (outer : List Scope) (m : Machine) :
    Task → Prop
  | .evaluate e => ∃ scopes, Stands m.frames g outer m.current scopes ∧ ExprOk V scopes e
  | .evaluateEach es => ∃ scopes, Stands m.frames g outer m.current scopes ∧ ExprEachOk V scopes es
  | .execute s => ∃ r, Stands m.frames g outer m.current r.scopes ∧ StmtOk V r s
  | .executeEach ss => ∃ r, Stands m.frames g outer m.current r.scopes ∧ StmtEachOk V r ss
  | .iterate condition body increment =>
    ∃ r, Stands m.frames g outer m.current r.scopes ∧ LoopOk V r condition body increment
  | .call _ _ _ | .callFunction _ _ _ => False

/-- What code inside a method leads to is inside, up to the next call. -/
theorem Task.Inside.leads {x y : Moment} (h : x.task.Inside V g outer x.machine)
    {V' : Visit → Prop} (hled : Led V' x y) (hleads : Leads rules x y) (hcode : y.task.IsCode) :
    y.task.Inside V g outer y.machine := by
  -- As long as no frame is opened, a part stands where its task does.
  have hstay : x.task.opens = false → ∀ {scopes},
      Stands x.machine.frames g outer x.machine.current scopes →
        Stands y.machine.frames g outer y.machine.current scopes := by
    intro hopens scopes hstands
    rw [hled.stays hopens]
    exact hstands.grow hled.grows
  cases hleads with
  | group =>
    obtain ⟨scopes, hstands, he⟩ := h
    exact ⟨scopes, hstay rfl hstands, he⟩
  | unary =>
    obtain ⟨scopes, hstands, he⟩ := h
    exact ⟨scopes, hstay rfl hstands, he.unary⟩
  | binaryLeft =>
    obtain ⟨scopes, hstands, he⟩ := h
    exact ⟨scopes, hstay rfl hstands, he.binary.1⟩
  | binaryRight =>
    obtain ⟨scopes, hstands, he⟩ := h
    exact ⟨scopes, hstay rfl hstands, he.binary.2⟩
  | logicalLeft =>
    obtain ⟨scopes, hstands, he⟩ := h
    exact ⟨scopes, hstay rfl hstands, he.logical.1⟩
  | logicalRight =>
    obtain ⟨scopes, hstands, he⟩ := h
    exact ⟨scopes, hstay rfl hstands, he.logical.2⟩
  | assign =>
    obtain ⟨scopes, hstands, he⟩ := h
    exact ⟨scopes, hstay rfl hstands, he.assign.1⟩
  | callee =>
    obtain ⟨scopes, hstands, he⟩ := h
    exact ⟨scopes, hstay rfl hstands, he.call.1⟩
  | arguments =>
    obtain ⟨scopes, hstands, he⟩ := h
    exact ⟨scopes, hstay rfl hstands, he.call.2⟩
  -- A call leaves the code.
  | call => cases hcode
  | get =>
    obtain ⟨scopes, hstands, he⟩ := h
    exact ⟨scopes, hstay rfl hstands, he.get⟩
  | setObject =>
    obtain ⟨scopes, hstands, he⟩ := h
    exact ⟨scopes, hstay rfl hstands, he.set.1⟩
  | setValue =>
    obtain ⟨scopes, hstands, he⟩ := h
    exact ⟨scopes, hstay rfl hstands, he.set.2⟩
  | firstExpr =>
    obtain ⟨scopes, hstands, hes⟩ := h
    exact ⟨scopes, hstay rfl hstands, hes.cons.1⟩
  | nextExprs =>
    obtain ⟨scopes, hstands, hes⟩ := h
    exact ⟨scopes, hstay rfl hstands, hes.cons.2⟩
  | function => cases hcode
  | initializer => cases hcode
  -- The task itself is no code here, so it stands nowhere.
  | body => cases h
  | expression =>
    obtain ⟨r, hstands, hs⟩ := h
    exact ⟨_, hstay rfl hstands, hs.expression⟩
  -- The initializer stands behind the declaration of the name, which is no name of `this`.
  | var =>
    obtain ⟨r, hstands, hs⟩ := h
    exact ⟨_, (hstay rfl hstands).declare hs.ready hs.shaped, hs.initializer⟩
  -- Only a block opens a frame, and it stands in the frame around it.
  | block =>
    obtain ⟨r, hstands, hs⟩ := h
    exact ⟨r.openScope, (hstands.grow hled.grows).open (hled.opened rfl), hs.block⟩
  | condition =>
    obtain ⟨r, hstands, hs⟩ := h
    exact ⟨_, hstay rfl hstands, hs.conditional.1⟩
  -- Resolving a condition leaves the scopes as they are, and so does a branch.
  | @thenBranch fuel m condition =>
    obtain ⟨r, hstands, hs⟩ := h
    refine ⟨_, ?_, hs.conditional.2.1⟩
    rw [(condition.sameScopes_resolve r).scopes]
    exact hstay rfl hstands
  | @elseBranch fuel m condition thenBranch elseBranch =>
    obtain ⟨r, hstands, hs⟩ := h
    obtain ⟨-, hthen, hclosed, helse⟩ := hs.conditional
    refine ⟨_, ?_, (helse elseBranch rfl).1⟩
    rw [thenBranch.scopes_resolve hthen.shaped, hclosed, scopesWith,
      (condition.sameScopes_resolve r).scopes]
    exact hstay rfl hstands
  | loop =>
    obtain ⟨r, hstands, hs⟩ := h
    exact ⟨r, hstay rfl hstands, hs.loop⟩
  | returning =>
    obtain ⟨r, hstands, hs⟩ := h
    exact ⟨_, hstay rfl hstands, (hs.returning.2 _ rfl).1⟩
  | firstStmt =>
    obtain ⟨r, hstands, hss⟩ := h
    exact ⟨r, hstay rfl hstands, hss.cons.1⟩
  -- The statement in front may declare a name in the scope at hand.
  | nextStmts =>
    obtain ⟨r, hstands, hss⟩ := h
    exact ⟨_, (hstay rfl hstands).resolve hss.cons.1, hss.cons.2⟩
  | test =>
    obtain ⟨r, hstands, hloop⟩ := h
    exact ⟨_, hstay rfl hstands, hloop.test⟩
  -- The body of a loop is resolved behind its condition.
  | @turn fuel m condition =>
    obtain ⟨r, hstands, hloop⟩ := h
    refine ⟨_, ?_, hloop.inner⟩
    change Stands _ g outer _ (condition.resolve r).scopes
    rw [(condition.sameScopes_resolve r).scopes]
    exact hstay rfl hstands
  | increment =>
    obtain ⟨r, hstands, hloop⟩ := h
    exact ⟨_, hstay rfl hstands, hloop.step _ rfl⟩
  | again =>
    obtain ⟨r, hstands, hloop⟩ := h
    exact ⟨r, hstay rfl hstands, hloop⟩
  | againAfter =>
    obtain ⟨r, hstands, hloop⟩ := h
    exact ⟨r, hstay rfl hstands, hloop⟩

/-! ### What `this` and `super` are -/

/-- Inside a method, `this` is what its frame stands for. -/
theorem Exec.evaluate_this {fuel : Nat} {place : Occurrence} {owner : Value}
    (h : (Task.evaluate (.this place)).Inside V g outer m)
    (hknown : ∀ v, V v → v.Known m.distances)
    (hthis : m.frames.findIn? g "this" = some owner) :
    Exec.evaluate rules (fuel + 1) (.this place) m = .ok owner m := by
  obtain ⟨scopes, ⟨inner, hscopes, hinner, hg⟩, he⟩ := h
  obtain ⟨r, hr, -, -, hvisited⟩ := he.this
  obtain ⟨-, hfits, hdistance⟩ := hknown _ hvisited (.inl rfl)
  have hname : place.name = "this" := hfits
  have hd : m.distances[place.id]? = some inner.length := by
    apply hdistance
    rw [Visit.distance?, hr, hscopes, hname]
    exact distance?_this_append hinner
  have hget : (MonadState.get : Exec Machine) m = .ok m m := rfl
  simp only [Exec.evaluate, Exec.readResolved]
  rw [bind_of_ok hget, hd, hname]
  simp only [Frames.getAt_of_found hg hthis]
  rfl

/-- Inside a method of a class with a superclass, `super` provides a method of that superclass. -/
theorem Exec.evaluate_super {fuel : Nat} {place : Occurrence} {method : Token} {owner : Instance}
    (h : (Task.evaluate (.super place method)).Inside V g outer m)
    (hknown : ∀ v, V v → v.Known m.distances)
    (hthis : m.frames.findIn? g "this" = some (.object owner)) :
    ∃ rest, outer = superScope :: rest ∧
      ∀ around parent, m.frames.enclosing? g = some around →
        m.frames.findIn? around "super" = some (.class parent) →
        Exec.evaluate rules (fuel + 1) (.super place method) m =
          match parent.findMethod? method.lexeme with
          | some found => (do return Value.function (← Exec.bind found owner) : Exec Value) m
          | none => .error (.error ⟨.undefinedProperty method.lexeme, method.line⟩) m := by
  obtain ⟨scopes, ⟨inner, hscopes, hinner, hg⟩, he⟩ := h
  obtain ⟨r, hr, -, hstack, hvisited⟩ := he.super
  obtain ⟨hfaultless, hfits, hdistance⟩ := hknown _ hvisited (.inr rfl)
  have hstack' := hstack (by decide)
  rw [hscopes] at hstack'
  -- No offence was reported, so the class has a superclass and its scope is around that of `this`.
  obtain ⟨rest, rfl⟩ := (hstack'.of_append hinner).derived_iff.mp hfaultless
  have hname : place.name = "super" := hfits
  -- The distance is recorded: the scopes inside of `super` are those inside of `this` and that one.
  have hd : m.distances[place.id]? = some (inner.length + 1) := by
    apply hdistance
    rw [Visit.distance?, hr, hscopes, hname]
    exact distance?_super_append hinner
  refine ⟨rest, rfl, ?_⟩
  intro around parent haround hparent
  -- One frame further out than `this` stands `super`.
  have hf : m.frames.ancestor? m.current (inner.length + 1) = some around := by
    rw [Frames.ancestor?_succ, hg, Option.bind_some, haround]
  have hget : (MonadState.get : Exec Machine) m = .ok m m := rfl
  simp only [Exec.evaluate, Exec.getSuper]
  rw [bind_of_ok hget, hd]
  simp only [Frames.getAt_of_found hf hparent, Nat.add_sub_cancel, Frames.getAt_of_found hg hthis,
    Keeps.lift_ok_bind]
  cases parent.findMethod? method.lexeme with
  | none => rfl
  | some found => rfl

end Lox
