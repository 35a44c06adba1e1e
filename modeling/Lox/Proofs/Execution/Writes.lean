import Lox.Proofs.Execution.Calls
import Lox.Proofs.Execution.Methods

/-!
# What inner code writes

A block and a call run in a frame of their own, which is younger than all frames that are
there.  Declarations bind names in that frame, so an older frame is written by assignments
only.  An assignment binds a name wherever its distance leads, whether or not the name is
bound there; but outside of the innermost scope resolution finds only names that can be
read, and the frame that mirrors their scope binds them already.  So inner code changes
values in older frames, and never the set of the names that are bound there.
-/

namespace Lox

open Resolution Exec

/-! ### Where assignments point -/

/-- The frame that the place of an assignment points to, in a machine. -/
inductive PointsTo (rules : Rules) (m : Machine) (place : Occurrence) : FrameId → Prop where
  /-- The frame at the distance that resolution has found. -/
  | distance {d : Nat} {f : FrameId} : rules.lookup = .byDistance →
      m.distances[place.id]? = some d → m.frames.ancestor? m.current d = some f →
      PointsTo rules m place f
  /-- The global frame, if resolution has found none. -/
  | global : rules.lookup = .byDistance → m.distances[place.id]? = none →
      PointsTo rules m place Frames.globalFrame
  /-- The first frame that binds the name, if names are searched for. -/
  | search {f : FrameId} : rules.lookup = .bySearch →
      m.frames.holder? place.name m.current = some f → PointsTo rules m place f

/-- An assignment to a name is executed: its value is there, and it points to a frame. -/
inductive Assigns (rules : Rules) : Moment → String → FrameId → Prop where
  | mk {fuel : Nat} {m m' : Machine} {place : Occurrence} {value : Expr} {result : Value}
      {f : FrameId} :
      Exec.evaluate rules fuel value m = .ok result m' → PointsTo rules m' place f →
      Assigns rules ⟨fuel + 1, .evaluate (.assign place value), m⟩ place.name f

variable {V : Visit → Prop} {rules : Rules} {m m' m'' : Machine} {scopes : List Scope}
  {place : Occurrence} {f : FrameId}

theorem Exec.pointsTo_of_target (h : target rules place m = .ok f) : PointsTo rules m place f := by
  unfold target at h
  cases hlookup : rules.lookup with
  | bySearch =>
    simp only [hlookup, Frames.frameOf] at h
    split at h
    · cases h
      exact .search hlookup ‹_›
    · cases h
  | byDistance =>
    simp only [hlookup] at h
    cases hd : m.distances[place.id]? with
    | some d =>
      simp only [hd, Frames.frameAt] at h
      split at h
      · cases h
        exact .distance hlookup hd ‹_›
      · cases h
    | none =>
      simp only [hd, Frames.frameOf_global] at h
      split at h
      · cases h
        exact .global hlookup hd
      · cases h

/-- An assignment goes to the current frame, or to a frame that binds the name already. -/
theorem PlaceOk.target_bound (h : PlaceOk V scopes .assign place) (hsound : Sound V m)
    (hhere : Here m scopes) (htarget : target rules place m = .ok f) :
    f = m.current ∨ ∃ value, m.frames.findIn? f place.name = some value := by
  -- A name that is searched for is bound where it is found.
  have hsearch : ∀ g, m.frames.frameOf g place.name place.line = .ok f →
      ∃ value, m.frames.findIn? f place.name = some value := by
    intro g hof
    unfold Frames.frameOf at hof
    split at hof
    · cases hof
      exact Frames.findIn?_of_holder? ‹_›
    · cases hof
  unfold target at htarget
  split at htarget
  · exact .inr (hsearch _ htarget)
  · -- A name with a distance is bound in the frame at that distance, by the mirrored scopes.
    split at htarget
    · rename_i d hd
      have hdistance := h.distance hsound
      rw [hd] at hdistance
      obtain ⟨r, rfl, hreadable, -, -⟩ := h
      unfold Frames.frameAt at htarget
      split at htarget
      · rename_i g hg
        cases htarget
        cases d with
        | zero =>
          cases hg
          exact .inl rfl
        | succ d =>
          obtain ⟨scope, hscope, hname⟩ := find?_of_distance?_succ hreadable hdistance.symm
          obtain ⟨g, hg', hbinds⟩ := Mirrors.ancestor? hhere hscope
          rw [hg, Option.some.injEq] at hg'
          subst hg'
          exact .inr (hbinds.names _ hname)
      · cases htarget
    · exact .inr (hsearch _ htarget)

/-! ### Frames that are left alone -/

/--
Of the frames below a bound, each binds the names that it did, and a name stands for
another value only where it was written.  The frame at hand is the same.
-/
structure Spared (written : String → FrameId → Prop) (bound : Nat) (m m' : Machine) : Prop where
  size_le : m.frames.size ≤ m'.frames.size
  current : m'.current = m.current
  names : ∀ f < bound, ∀ name,
    (m'.frames.findIn? f name).isSome = (m.frames.findIn? f name).isSome
  values : ∀ f < bound, ∀ name, m'.frames.findIn? f name ≠ m.frames.findIn? f name →
    written name f

variable {written : String → FrameId → Prop} {bound : Nat}

namespace Spared

/-- A step that changes no frame. -/
theorem of_frames (hframes : m'.frames = m.frames) (hcurrent : m'.current = m.current) :
    Spared written bound m m' := by
  refine ⟨Nat.le_of_eq (congrArg Frames.size hframes).symm, hcurrent,
    fun f _ name => by rw [hframes], ?_⟩
  intro f _ name hne
  rw [hframes] at hne
  exact absurd rfl hne

theorem refl (m : Machine) : Spared written bound m m := of_frames rfl rfl

theorem trans (h : Spared written bound m m') (h' : Spared written bound m' m'') :
    Spared written bound m m'' := by
  refine ⟨Nat.le_trans h.size_le h'.size_le, h'.current.trans h.current, ?_, ?_⟩
  · intro f hf name
    exact (h'.names f hf name).trans (h.names f hf name)
  · intro f hf name hne
    by_cases hsame : m'.frames.findIn? f name = m.frames.findIn? f name
    · exact h'.values f hf name fun heq => hne (heq.trans hsame)
    · exact h.values f hf name hsame

theorem child (m : Machine) (outer : FrameId) :
    Spared written bound m { m with frames := m.frames.child outer } := by
  refine ⟨?_, rfl, fun f _ name => by rw [Frames.findIn?_child], ?_⟩
  · rw [Frames.size_child]
    exact Nat.le_succ _
  · intro f _ name hne
    exact absurd (Frames.findIn?_child _ _ _ _) hne

/-- A binding in a frame that is not among them. -/
theorem define (m : Machine) {f : FrameId} (hf : bound ≤ f) (name : String) (value : Value) :
    Spared written bound m { m with frames := m.frames.define f name value } := by
  have hother : ∀ g < bound, ∀ other, (m.frames.define f name value).findIn? g other =
      m.frames.findIn? g other := by
    intro g hg other
    refine Frames.findIn?_define_of_ne value ?_
    rintro ⟨rfl, -⟩
    exact Nat.not_lt_of_le hf hg
  refine ⟨Nat.le_of_eq (Frames.size_define _ _ _ _).symm, rfl, ?_, ?_⟩
  · intro g hg other
    exact congrArg Option.isSome (hother g hg other)
  · intro g hg other hne
    exact absurd (hother g hg other) hne

/-- A binding that replaces another one, and is written. -/
theorem rebind (m : Machine) {name : String} {value old : Value}
    (hold : m.frames.findIn? f name = some old) (hwritten : written name f) :
    Spared written bound m { m with frames := m.frames.define f name value } := by
  have hlt : f < m.frames.size := by
    apply Nat.lt_of_not_le
    intro hle
    rw [Frames.findIn?_of_le hle] at hold
    cases hold
  refine ⟨Nat.le_of_eq (Frames.size_define _ _ _ _).symm, rfl, ?_, ?_⟩
  · intro g _ other
    by_cases hsame : g = f ∧ other = name
    · obtain ⟨rfl, rfl⟩ := hsame
      simp only [Frames.findIn?_define_self hlt, hold, Option.isSome_some]
    · simp only [Frames.findIn?_define_of_ne value hsame]
  · intro g _ other hne
    by_cases hsame : g = f ∧ other = name
    · obtain ⟨rfl, rfl⟩ := hsame
      exact hwritten
    · exact absurd (Frames.findIn?_define_of_ne value hsame) hne

end Spared

/-- The code at hand runs in a frame that is none of those below the bound. -/
structure Inner (bound : Nat) (m : Machine) : Prop where
  size_le : bound ≤ m.frames.size
  current_le : bound ≤ m.current

theorem Inner.spared (h : Inner bound m) (hspared : Spared written bound m m') : Inner bound m' :=
  ⟨Nat.le_trans h.size_le hspared.size_le, by rw [hspared.current]; exact h.current_le⟩

/-- However the computation ends, it leaves the frames below a bound alone. -/
def Exec.Spares {α : Type} (written : String → FrameId → Prop) (bound : Nat) (p : Exec α)
    (m : Machine) : Prop :=
  Spared written bound m (endOf (p m))

/-! ### Steps -/

namespace Exec.Spares

variable {α β : Type} {p : Exec α} {k : α → Exec β}

/-- Two computations in a row. -/
theorem seq (hp : Spares written bound p m)
    (hk : ∀ a m', p m = .ok a m' → Spared written bound m m' → Spares written bound (k a) m') :
    Spares written bound (p >>= k) m := by
  unfold Spares at hp ⊢
  cases hresult : p m with
  | ok a m' =>
    rw [hresult] at hp
    rw [bind_of_ok hresult]
    exact hp.trans (hk a m' hresult hp)
  | error e m' =>
    rw [hresult] at hp
    rw [bind_of_error hresult]
    exact hp

theorem inFrame {frame : FrameId} (h : Spares written bound p { m with current := frame }) :
    Spares written bound (Exec.inFrame frame p) m := by
  unfold Spares Exec.inFrame at *
  cases hresult : p { m with current := frame } with
  | ok a m' =>
    rw [hresult] at h
    exact ⟨h.size_le, rfl, h.names, h.values⟩
  | error e m' =>
    rw [hresult] at h
    exact ⟨h.size_le, rfl, h.names, h.values⟩

theorem asCall (h : Spares written bound p { m with depth := m.depth + 1 }) :
    Spares written bound (Exec.asCall p) m := by
  unfold Spares Exec.asCall at *
  cases hresult : p { m with depth := m.depth + 1 } with
  | ok a m' =>
    rw [hresult] at h
    exact ⟨h.size_le, h.current, h.names, h.values⟩
  | error e m' =>
    rw [hresult] at h
    exact ⟨h.size_le, h.current, h.names, h.values⟩

theorem lift (result : Except RuntimeError α) : Spares written bound (Exec.lift result) m := by
  cases result with
  | ok a => exact .refl _
  | error e => exact .refl _

theorem define (h : Inner bound m) (name : String) (value : Value) :
    Spares written bound (Exec.define name value) m :=
  Spared.define m h.current_le name value

theorem defineIn {frame : FrameId} (hframe : bound ≤ frame) (name : String) (value : Value) :
    Spares written bound (Exec.defineIn frame name value) m :=
  Spared.define m hframe name value

theorem newInstance (c : Class) : Spares written bound (Exec.newInstance c) m :=
  .of_frames rfl rfl

theorem newFunction (d : FunctionDecl) (closure : FrameId) (isInitializer : Bool) :
    Spares written bound (Exec.newFunction d closure isInitializer) m :=
  .of_frames rfl rfl

/-- A method is bound in a frame of its own. -/
theorem bindMethod (h : bound ≤ m.frames.size) (method : Function) (owner : Instance) :
    Spares written bound (Exec.bind method owner) m := by
  unfold Spares
  rw [bind_eq]
  refine ((Spared.child m method.closure).trans (.define _ h "this" (.object owner))).trans ?_
  exact .of_frames rfl rfl

theorem write (text : String) (line : Nat) : Spares written bound (Exec.write text line) m := by
  refine seq (.refl _) fun found m' _ _ => ?_
  split
  · exact .refl _
  · exact .of_frames rfl rfl

theorem readResolved : Spares written bound (Exec.readResolved place) m := by
  refine seq (.refl _) fun found m' _ _ => ?_
  split
  · exact lift _
  · exact lift _

theorem readVariable : Spares written bound (Exec.readVariable rules place) m := by
  unfold Exec.readVariable
  split
  · exact readResolved
  · exact seq (.refl _) fun _ _ _ _ => lift _

/-- An assignment is written where it points to. -/
theorem assignVariable (hinner : Inner bound m) (hsound : Sound V m) (hhere : Here m scopes)
    (hplace : PlaceOk V scopes .assign place) (value : Value)
    (hwritten : ∀ f, PointsTo rules m place f → written place.name f) :
    Spares written bound (Exec.assignVariable rules place value) m := by
  unfold Exec.assignVariable
  refine seq (.refl _) ?_
  rintro found m' ⟨⟩ -
  cases htarget : target rules place m with
  | error e => exact .refl _
  | ok f =>
    change Spares written bound (Exec.defineIn f place.name value) m
    rcases hplace.target_bound hsound hhere htarget with rfl | ⟨old, hold⟩
    · exact defineIn hinner.current_le _ _
    · exact Spared.rebind m hold (hwritten f (pointsTo_of_target htarget))

theorem getProperty (h : bound ≤ m.frames.size) (owner : Instance) (name : Token) :
    Spares written bound (Exec.getProperty owner name) m := by
  refine seq (.refl _) ?_
  rintro found m' ⟨⟩ -
  split
  · exact .refl _
  · split
    · exact (bindMethod h _ _).seq fun _ _ _ _ => .refl _
    · exact .refl _

theorem getSuper (h : bound ≤ m.frames.size) (method : Token) :
    Spares written bound (Exec.getSuper place method) m := by
  refine seq (.refl _) ?_
  rintro found m' ⟨⟩ -
  split
  · exact .refl _
  · refine (lift _).seq fun parent m₁ _ h₁ => (lift _).seq fun owner m₂ _ h₂ => ?_
    split
    · split
      · refine seq (bindMethod ?_ _ _) fun _ _ _ _ => .refl _
        exact Nat.le_trans h (Nat.le_trans h₁.size_le h₂.size_le)
      · exact .refl _
    · exact .refl _

theorem makeMethods (frame : FrameId) (declarations : List FunctionDecl) :
    Spares written bound (Exec.makeMethods frame declarations) m := by
  rw [Exec.makeMethods_eq]
  generalize Bindings.empty = methods
  induction declarations generalizing methods m with
  | nil => exact .refl _
  | cons declaration rest ih =>
    rw [Exec.addMethods_cons]
    exact (newFunction _ _ _).seq fun _ _ _ _ => ih _

theorem methodFrame (h : bound ≤ m.frames.size) (superclass : Option Class) :
    Spares written bound (Exec.methodFrame superclass) m := by
  cases superclass with
  | some parent =>
    refine seq (Spared.child m m.current) ?_
    rintro frame m₁ ⟨⟩ -
    exact (defineIn h _ _).seq fun _ _ _ _ => .refl _
  | none => exact seq (.refl _) fun _ _ _ _ => .refl _

theorem superclassOf (superclass : Option Occurrence) :
    Spares written bound (Exec.superclassOf rules superclass) m := by
  cases superclass with
  | none => exact .refl _
  | some place =>
    change Spares written bound ((Exec.readVariable rules place >>= (expectClass · place.line)) >>=
      fun c => Pure.pure (some c)) m
    refine seq (readVariable.seq fun value m' _ _ => ?_) fun _ _ _ _ => .refl _
    cases value with
    | «class» parent => exact .refl _
    | _ => exact .refl _

/-- A class is bound in the frame at hand. -/
theorem declareClass (h : Inner bound m) (name : Token) (superclass : Option Occurrence)
    (methods : List FunctionDecl) :
    Spares written bound (Exec.declareClass rules name superclass methods) m := by
  rw [declareClass_eq]
  refine seq (define h _ _) fun _ m₁ _ h₁ => (superclassOf superclass).seq fun parent m₂ _ h₂ => ?_
  have hinner₂ := (h.spared h₁).spared h₂
  refine seq (methodFrame hinner₂.size_le parent) fun frame m₃ _ h₃ => ?_
  refine (makeMethods frame methods).seq fun own m₄ _ h₄ => ?_
  refine seq (p := newIdentity) (.of_frames rfl rfl) fun identity m₅ _ h₅ => ?_
  exact define (((hinner₂.spared h₃).spared h₄).spared h₅) _ _

theorem checkCall (callee : Value) (count line : Nat) :
    Spares written bound (Exec.checkCall rules callee count line) m := by
  unfold Spares
  rw [checkCall_eq]
  split
  · exact .refl _
  · split
    · exact .refl _
    · split
      · exact .refl _
      · exact .refl _

theorem callNative (native : Native) (arguments : List Value) (line : Nat) :
    Spares written bound (Exec.callNative rules native arguments line) m := by
  cases native with
  | clock => exact seq (p := readClock rules) (.of_frames rfl rfl) fun _ _ _ _ => .refl _
  | print => exact (write _ _).seq fun _ _ _ _ => (write _ _).seq fun _ _ _ _ => .refl _

/-- Parameters are bound in a frame of their own. -/
theorem bindArguments (h : bound ≤ m.frames.size) (f : Function) (arguments : List Value) :
    Spares written bound (Exec.bindArguments f arguments) m := by
  refine seq (Spared.child m f.closure) ?_
  rintro frame m₁ ⟨⟩ -
  refine seq ?_ fun _ _ _ _ => .refl _
  generalize { m with frames := m.frames.child f.closure } = m₁
  induction f.declaration.parameters.zip arguments generalizing m₁ with
  | nil => exact .refl _
  | cons pair rest ih => exact (defineIn h _ _).seq fun _ _ _ _ => ih _

theorem callResult (f : Function) (flow : Flow) (line : Nat) :
    Spares written bound (Exec.callResult f flow line) m := by
  unfold Exec.callResult
  split
  · exact seq (.refl _) fun _ _ _ _ => lift _
  · exact .refl _

end Exec.Spares

/-! ### Tasks -/

/-- The task is a block, or a call whose arguments are there. -/
def Task.IsInner : Task → Prop
  | .call _ _ _ | .callFunction _ _ _ | .execute (.block _) => True
  | _ => False

/-- The code of the task runs, or is going to run, in none of the frames below the bound. -/
structure Moment.Inner (bound : Nat) (x : Moment) : Prop where
  size_le : bound ≤ x.machine.frames.size
  current_le : x.task.IsInner ∨ bound ≤ x.machine.current

variable {x y start : Moment}

theorem Moment.Inner.here (h : x.Inner bound) (htask : ¬ x.task.IsInner) :
    Lox.Inner bound x.machine :=
  ⟨h.size_le, h.current_le.resolve_left htask⟩

theorem Exec.of_bindArguments {f : Function} {arguments : List Value} {frame : FrameId}
    (h : bindArguments f arguments m = .ok frame m') :
    frame = m.frames.size ∧ m.frames.size < m'.frames.size := by
  obtain ⟨frame', m₁, hnew, h⟩ := of_bind_ok h
  cases hnew
  obtain ⟨⟨⟩, m₂, hbound, h⟩ := of_bind_ok h
  cases h
  have hsize := ((Restores.defineEach m.frames.next _).of_ok hbound).size_le
  rw [Frames.size_child] at hsize
  exact ⟨rfl, hsize⟩

/-- A part that runs in a new frame runs in the next one. -/
theorem Leads.opened (h : Leads rules x y) (hopens : x.task.opens = true) :
    y.machine.current = x.machine.frames.size ∧
      x.machine.frames.size < y.machine.frames.size := by
  cases h with
  | body hbind =>
    obtain ⟨hframe, hsize⟩ := of_bindArguments hbind
    exact ⟨hframe, hsize⟩
  | block hframe =>
    cases hframe
    exact ⟨rfl, by simp [Frames.size_child]⟩
  | _ => cases hopens

/-- The parts of code in a younger frame run in a younger frame. -/
theorem Moment.Inner.leads (h : x.Inner bound) (hok : x.Ok V) (hleads : Leads rules x y) :
    y.Inner bound := by
  have hled := hok.led hleads
  refine ⟨Nat.le_trans h.size_le hled.grows.size_le, ?_⟩
  by_cases hopens : x.task.opens = true
  · rw [(hleads.opened hopens).1]
    exact .inr h.size_le
  · by_cases hinner : x.task.IsInner
    · cases hleads with
      | function | initializer => exact .inl trivial
      | body | block => exact absurd rfl hopens
      | _ => cases hinner
    · rw [hled.stays (Bool.eq_false_iff.mpr hopens)]
      exact .inr (h.here hinner).current_le

namespace Moment.Ok

variable {fuel : Nat}

theorem spares_evaluate {e : Expr} (hok : Moment.Ok V ⟨fuel + 1, .evaluate e, m⟩)
    (hinner : Lox.Inner bound m)
    (hwritten : ∀ name f, Assigns rules ⟨fuel + 1, .evaluate e, m⟩ name f → written name f)
    (hparts : ∀ y, Leads rules ⟨fuel + 1, .evaluate e, m⟩ y →
      Spared written bound y.machine (y.final rules)) :
    Spares written bound (Exec.evaluate rules (fuel + 1) e) m := by
  rw [Exec.evaluate.eq_def]
  cases e with
  | literal value => exact .refl _
  | group inner => exact hparts _ .group
  -- After its operands an operation changes no frame.
  | unary operator operand => exact Spares.seq (hparts _ .unary) fun _ _ _ _ => .lift _
  | binary left operator right =>
    refine Spares.seq (hparts _ .binaryLeft) fun _ _ hleft _ => ?_
    exact Spares.seq (hparts _ (.binaryRight hleft)) fun _ _ _ _ => .lift _
  | logical left operator right =>
    refine Spares.seq (hparts _ .logicalLeft) fun value _ hleft _ => ?_
    split
    · exact .refl _
    · rename_i hdecides
      exact hparts _ (.logicalRight hleft (Bool.eq_false_iff.mpr hdecides))
  | read place => exact .readVariable
  -- An assignment writes the name where it is found, which `hwritten` covers.
  | assign place value =>
    refine Spares.seq (hparts _ .assign) fun result m₁ hvalue h₁ => ?_
    obtain ⟨hsound, scopes, hhere, hplace⟩ := hok.looks (.assigned hvalue)
    refine Spares.seq ?_ fun _ _ _ _ => .refl _
    exact .assignVariable (hinner.spared h₁) hsound hhere hplace result
      fun f hf => hwritten _ f (.mk hvalue hf)
  | call callee paren arguments =>
    refine Spares.seq (hparts _ .callee) fun value _ hcallee _ => ?_
    refine Spares.seq (hparts _ (.arguments hcallee)) fun values _ hvalues _ => ?_
    -- The counter of the calls is no part of the frames.
    refine Spares.seq (.checkCall _ _ _) fun _ _ hcheck _ => ?_
    exact .asCall (hparts _ (.call hcallee hvalues hcheck))
  | get object name =>
    refine Spares.seq (hparts _ .get) fun owner _ _ h₁ => ?_
    -- A property binds a method at most, in a frame of its own.
    split
    · exact .getProperty (hinner.spared h₁).size_le _ _
    · exact .refl _
  | set object name value =>
    refine Spares.seq (hparts _ .setObject) fun owner _ hobject _ => ?_
    split
    · -- Fields are not in frames.
      refine Spares.seq (hparts _ (.setValue hobject)) fun result _ _ _ => ?_
      exact Spares.seq (p := setField _ _ _) (.of_frames rfl rfl) fun _ _ _ _ => .refl _
    · exact .refl _
  | this place => exact .readResolved
  | super place method => exact .getSuper hinner.size_le _

theorem spares_call {callee : Value} {arguments : List Value} {line : Nat}
    (hsize : bound ≤ m.frames.size)
    (hparts : ∀ y, Leads rules ⟨fuel + 1, .call callee arguments line, m⟩ y →
      Spared written bound y.machine (y.final rules)) :
    Spares written bound (Exec.call rules (fuel + 1) callee arguments line) m := by
  rw [Exec.call.eq_def]
  cases callee with
  | native native => exact .callNative native arguments line
  | function f => exact hparts _ .function
  | «class» c =>
    refine Spares.seq (.newInstance c) fun owner m₁ hinstance h₁ => ?_
    cases hmethod : c.initializer? with
    | none => exact .refl _
    | some method =>
      have hsize₁ := Nat.le_trans hsize h₁.size_le
      refine Spares.seq (.bindMethod hsize₁ method owner) fun f m₂ hbind _ => ?_
      exact Spares.seq (hparts _ (.initializer hinstance hmethod hbind)) fun _ _ _ _ => .refl _
  | _ => exact .refl _

theorem spares_execute {s : Stmt} (hinner : Moment.Inner bound ⟨fuel + 1, .execute s, m⟩)
    (hparts : ∀ y, Leads rules ⟨fuel + 1, .execute s, m⟩ y →
      Spared written bound y.machine (y.final rules)) :
    Spares written bound (Exec.execute rules (fuel + 1) s) m := by
  have hhere := hinner.here
  rw [Exec.execute.eq_def]
  cases s with
  | expression value => exact Spares.seq (hparts _ .expression) fun _ _ _ _ => .refl _
  -- A declaration writes in the frame that the statement runs in, which is behind the bound.
  | var name value =>
    cases value with
    | none => exact Spares.seq (.define (hhere id) _ _) fun _ _ _ _ => .refl _
    | some value =>
      refine Spares.seq (hparts _ .var) fun result _ _ h₁ => ?_
      exact Spares.seq (.define ((hhere id).spared h₁) _ _) fun _ _ _ _ => .refl _
  -- The frame of a block is made by the block.
  | block body =>
    refine Spares.seq (Spared.child m m.current) fun frame m₁ hframe _ => ?_
    exact .inFrame (hparts _ (.block hframe))
  | conditional condition thenBranch elseBranch =>
    refine Spares.seq (hparts _ .condition) fun value _ htest _ => ?_
    split
    · exact hparts _ (.thenBranch htest ‹_›)
    · rename_i htruthy
      cases elseBranch with
      | none => exact .refl _
      | some elseBranch =>
        exact hparts _ (.elseBranch htest (Bool.eq_false_iff.mpr htruthy))
  | loop condition body increment => exact hparts _ .loop
  | function d =>
    refine Spares.seq (.refl _) fun found m₁ _ h₁ => ?_
    refine Spares.seq (.newFunction _ _ _) fun f m₂ _ h₂ => ?_
    exact Spares.seq (.define (((hhere id).spared h₁).spared h₂) _ _) fun _ _ _ _ => .refl _
  | returning keyword value =>
    cases value with
    | none => exact .refl _
    | some value => exact Spares.seq (hparts _ .returning) fun _ _ _ _ => .refl _
  | breaking keyword => exact .refl _
  | continuing keyword => exact .refl _
  | «class» name superclass methods =>
    exact Spares.seq (.declareClass (hhere id) _ _ _) fun _ _ _ _ => .refl _

theorem spares_iterate {condition : Expr} {body : Stmt} {increment : Option Expr}
    (hparts : ∀ y, Leads rules ⟨fuel + 1, .iterate condition body increment, m⟩ y →
      Spared written bound y.machine (y.final rules)) :
    Spares written bound (Exec.iterate rules (fuel + 1) condition body increment) m := by
  rw [Exec.iterate_succ]
  refine Spares.seq (hparts _ .test) fun value m₁ htest _ => ?_
  split
  · rename_i htruthy
    refine Spares.seq (hparts _ (.turn htest htruthy)) fun flow m₂ hbody _ => ?_
    have hnext (hflow : flow = .normal ∨ flow = .continuing) :
        Spares written bound (nextTurn rules fuel condition body increment) m₂ := by
      cases increment with
      | none => exact hparts _ (.again htest htruthy hbody hflow)
      | some step =>
        refine Spares.seq (hparts _ (.increment htest htruthy hbody hflow)) fun _ m₃ hstep _ => ?_
        exact hparts _ (.againAfter htest htruthy hbody hflow hstep)
    cases flow with
    | normal => exact hnext (.inl rfl)
    | continuing => exact hnext (.inr rfl)
    | _ => exact .refl _
  · exact .refl _

/-- A task leaves older frames alone if its parts do, up to the assignment that it may be. -/
theorem spared_of_parts (hok : x.Ok V) (hinner : x.Inner bound)
    (hwritten : ∀ name f, Assigns rules x name f → written name f)
    (hparts : ∀ y, Leads rules x y → Spared written bound y.machine (y.final rules)) :
    Spared written bound x.machine (x.final rules) := by
  obtain ⟨fuel, task, m⟩ := x
  cases fuel with
  | zero => cases task <;> exact .refl _
  | succ fuel =>
    cases task with
    | evaluate e => exact hok.spares_evaluate (hinner.here id) hwritten hparts
    | evaluateEach es =>
      cases es with
      | nil => exact .refl _
      | cons e rest =>
        refine Spares.seq (hparts _ .firstExpr) fun _ _ he _ => ?_
        exact Spares.seq (hparts _ (.nextExprs he)) fun _ _ _ _ => .refl _
    | call callee arguments line => exact spares_call hinner.size_le hparts
    | callFunction f arguments line =>
      refine Spares.seq (.bindArguments hinner.size_le f arguments) fun frame _ hbind _ => ?_
      exact Spares.seq (.inFrame (hparts _ (.body hbind))) fun flow _ _ _ => .callResult f flow line
    | execute s => exact spares_execute hinner hparts
    | executeEach ss =>
      cases ss with
      | nil => exact .refl _
      | cons s rest =>
        refine Spares.seq (hparts _ .firstStmt) fun flow _ hs _ => ?_
        cases flow with
        | normal => exact hparts _ (.nextStmts hs)
        | _ => exact .refl _
    | iterate condition body increment => exact spares_iterate hparts

/-- Inner code leaves the frames that were there alone, except where its assignments point. -/
theorem spared (hok : start.Ok V) (hinner : start.Inner bound) :
    Spared (fun name f => ∃ z, Passes rules start z ∧ Assigns rules z name f) bound
      start.machine (start.final rules) := by
  have hall : ∀ x, Passes rules start x → x.Inner bound →
      Spared (fun name f => ∃ z, Passes rules start z ∧ Assigns rules z name f) bound
        x.machine (x.final rules) := by
    intro x hpasses hx
    induction hfuel : x.fuel using Nat.strongRecOn generalizing x with
    | ind fuel ih =>
      have hxok := hok.passes hpasses
      refine hxok.spared_of_parts hx (fun name f hassigns => ⟨x, hpasses, hassigns⟩) ?_
      intro y hleads
      exact ih y.fuel (hfuel ▸ hleads.fuel_lt) y (hpasses.step hleads) (hx.leads hxok hleads) rfl
  exact hall start .start hinner

end Moment.Ok

end Lox
