import Lox.Proofs.Execution.Confined

/-!
# Looking up by search

In a confined machine a search for the name of an occurrence ends in the frame at the
distance of the occurrence, or else at the global one.  So an execution that searches for
names agrees with one that goes by distances.  As for soundness, this is shown for all
functions of the evaluator together, by induction on the bound of the recursion.
-/

namespace Lox

open Resolution Exec

abbrev Rules.bySearch (rules : Rules) : Rules := { rules with lookup := .bySearch }

abbrev Rules.byDistance (rules : Rules) : Rules := { rules with lookup := .byDistance }

variable {V : Visit → Prop} {L L' : Limits} {rules : Rules} {fuel : Nat} {m m' : Machine}
  {r : Resolution} {scopes : List Scope} {Δ : Outlook} {place : Occurrence}

/-! ### Variables -/

theorem PlaceOk.decides {kind : OccurrenceKind} (h : PlaceOk V scopes kind place)
    (hseen : place.Seen V Δ) : List.Forall₂ (Decides place.name) scopes Δ := by
  obtain ⟨r, rfl, -, -, hvisited⟩ := h
  exact hseen _ hvisited rfl

/-- A search finds what is at the distance of an occurrence, or else the global of its name. -/
theorem Placed.search {kind : OccurrenceKind} (h : Placed V L m scopes Δ)
    (hplace : PlaceOk V scopes kind place) (hseen : place.Seen V Δ) :
    match m.distances[place.id]? with
    | some d => ∃ g value, m.frames.ancestor? m.current d = some g ∧
        m.frames.findIn? g place.name = some value ∧
        m.frames.holder? place.name m.current = some g
    | none => m.frames.holder? place.name m.current =
        m.frames.holder? place.name Frames.globalFrame := by
  have hdecides := hplace.decides hseen
  rw [hplace.distance h.confined.sound]
  cases hd : Resolution.distance? scopes place.name with
  | some d => exact Mirrors.holder?_of_distance h.here h.limited h.confined.kept hdecides hd
  | none => exact Mirrors.holder?_of_global h.here h.limited h.confined.kept hdecides hd

namespace Agrees

abbrev Yields (V : Visit → Prop) (L : Limits) (value : Value) (m : Machine) : Prop :=
  ValueSeen V L m.frames value

theorem lift_get (h : Confined V L m) (f : Nat) (name : String) (line : Nat) :
    Agrees V L m (Yields V) (Exec.lift (m.frames.get f name line) m)
      (Exec.lift (m.frames.get f name line) m) := by
  apply lift h
  intro value hget
  rcases m.frames.get_cases f name line with ⟨g, found, hfound, hok⟩ | herror
  · cases hok.symm.trans hget
    exact h.bound g name _ hfound
  · cases herror.symm.trans hget

theorem lift_getAt (h : Confined V L m) (f d : Nat) (name : String) (line : Nat) :
    Agrees V L m (Yields V) (Exec.lift (m.frames.getAt f d name line) m)
      (Exec.lift (m.frames.getAt f d name line) m) := by
  apply lift h
  intro value hget
  unfold Frames.getAt at hget
  split at hget
  · rename_i hfound
    cases hget
    obtain ⟨g, -, hg⟩ := Option.bind_eq_some_iff.mp hfound
    exact h.bound g name _ hg
  · cases hget

theorem readResolved (h : Confined V L m) (place : Occurrence) :
    Agrees V L m (Yields V) (Exec.readResolved place m) (Exec.readResolved place m) := by
  unfold Exec.readResolved
  apply bind_get
  cases m.distances[place.id]? with
  | some d => exact lift_getAt h _ _ _ _
  | none => exact lift_get h _ _ _

/-- Both ways of reading a variable agree. -/
theorem readVariable (rules : Rules) (h : Placed V L m scopes Δ)
    (hplace : PlaceOk V scopes .read place) (hseen : place.Seen V Δ) :
    Agrees V L m (Yields V) (Exec.readVariable rules.bySearch place m)
      (Exec.readVariable rules.byDistance place m) := by
  refine ⟨?_, (readResolved h.confined place).2⟩
  have hsearch := h.search hplace hseen
  change Exec.lift (m.frames.get m.current place.name place.line) m =
    (match m.distances[place.id]? with
      | some distance => Exec.lift (m.frames.getAt m.current distance place.name place.line)
      | none => Exec.lift (m.frames.get Frames.globalFrame place.name place.line)) m
  cases hd : m.distances[place.id]? with
  | some d =>
    simp only [hd] at hsearch
    obtain ⟨g, value, hg, hvalue, hholder⟩ := hsearch
    simp only [Frames.getAt_of_found hg hvalue, Frames.get, hholder, Option.bind_some, hvalue]
  | none =>
    simp only [hd] at hsearch
    simp only [Frames.get, hsearch]

/-- Both ways of finding the frame of a variable that is assigned agree. -/
theorem target_eq (rules : Rules) (h : Placed V L m scopes Δ)
    (hplace : PlaceOk V scopes .assign place) (hseen : place.Seen V Δ) :
    Exec.target rules.bySearch place m = Exec.target rules.byDistance place m ∧
      ∀ frame, Exec.target rules.byDistance place m = .ok frame →
        frame = Frames.globalFrame ∨ place.name ∈ L frame := by
  have hsearch := h.search hplace hseen
  have hbound : ∀ frame, Exec.target rules.bySearch place m = .ok frame →
      frame = Frames.globalFrame ∨ place.name ∈ L frame := by
    intro frame htarget
    change m.frames.frameOf m.current place.name place.line = .ok frame at htarget
    unfold Frames.frameOf at htarget
    split at htarget
    · cases htarget
      obtain ⟨value, hvalue⟩ := Frames.findIn?_of_holder? ‹_›
      exact h.confined.kept _ _ _ hvalue
    · cases htarget
  have hsame : Exec.target rules.bySearch place m = Exec.target rules.byDistance place m := by
    change m.frames.frameOf m.current place.name place.line =
      match m.distances[place.id]? with
      | some distance => m.frames.frameAt m.current distance place.name place.line
      | none => m.frames.frameOf Frames.globalFrame place.name place.line
    cases hd : m.distances[place.id]? with
    | some d =>
      simp only [hd] at hsearch
      obtain ⟨g, value, hg, hvalue, hholder⟩ := hsearch
      simp only [Frames.frameOf, Frames.frameAt, hholder, hg]
    | none =>
      simp only [hd] at hsearch
      simp only [Frames.frameOf, hsearch]
  exact ⟨hsame, fun frame hframe => hbound frame (hsame.trans hframe)⟩

theorem defineIn (h : Confined V L m) {frame : Nat} {name : String} {value : Value}
    (hname : IsName name ∨ ∀ v, m.frames.findIn? frame name ≠ some v)
    (hallowed : frame = Frames.globalFrame ∨ name ∈ L frame) (hok : ValueOk V m.frames value)
    (hseen : ValueSeen V L m.frames value) :
    Agrees V L m (fun _ _ _ => True) (Exec.defineIn frame name value m)
      (Exec.defineIn frame name value m) :=
  ok (h.define (Keeps.defineIn h.sound hname hok).1 hallowed hseen) trivial

theorem define (h : Placed V L m scopes Δ) {name : String} {value : Value} (hname : IsName name)
    (hdeclares : Δ.Declares name) (hok : ValueOk V m.frames value)
    (hseen : ValueSeen V L m.frames value) :
    Agrees V L m (fun _ _ m' => m'.frames = m.frames.define m.current name value)
      (Exec.define name value m) (Exec.define name value m) :=
  ok (h.confined.define (Keeps.define h.confined.sound hname hok).1
    (h.limited.declares hdeclares) hseen) rfl

theorem assignVariable (h : Placed V L m scopes Δ) (hplace : PlaceOk V scopes .assign place)
    (hseen : place.Seen V Δ) {value : Value} (hok : ValueOk V m.frames value)
    (hvalue : ValueSeen V L m.frames value) :
    Agrees V L m (fun _ _ _ => True) (Exec.assignVariable rules.bySearch place value m)
      (Exec.assignVariable rules.byDistance place value m) := by
  have hname : IsName place.name := by
    obtain ⟨r, -, -, -, hvisited⟩ := hplace
    exact (h.confined.sound.recorded _ hvisited).fits
  obtain ⟨hsame, hallowed⟩ := target_eq rules h hplace hseen
  unfold Exec.assignVariable
  apply bind_get
  have htarget : Agrees V L m
      (fun L₁ frame m₁ => m₁ = m ∧ (frame = Frames.globalFrame ∨ place.name ∈ L₁ frame))
      (Exec.lift (Exec.target rules.bySearch place m) m)
      (Exec.lift (Exec.target rules.byDistance place m) m) := by
    rw [hsame]
    exact lift h.confined fun frame hframe => ⟨rfl, hallowed frame hframe⟩
  apply bind htarget
  rintro L₁ frame _ hlater ⟨rfl, hframe⟩
  exact defineIn hlater.confined (.inl hname) hframe hok (hlater.value hvalue)

/-! ### Objects -/

theorem setField (h : Confined V L m) (owner : Instance) (name : String) {value : Value}
    (hok : ValueOk V m.frames value) (hvalue : ValueSeen V L m.frames value) :
    Agrees V L m (fun _ _ _ => True) (Exec.setField owner name value m)
      (Exec.setField owner name value m) := by
  have hafter := (Keeps.setField h.sound owner name hok).1
  refine ok ⟨hafter, fun _ _ => rfl, hafter.sound, h.kept, h.bound, ?_⟩ trivial
  exact forall_fields_modify h.fields hvalue

theorem newInstance (h : Confined V L m) (c : Class) :
    Agrees V L m (fun _ owner _ => owner.cls = c) (Exec.newInstance c m)
      (Exec.newInstance c m) := by
  have hafter := (Keeps.newInstance h.sound c).1
  exact ok ⟨hafter, fun _ _ => rfl, hafter.sound, h.kept, h.bound, forall_fields_push h.fields⟩ rfl

theorem newFrame (h : Confined V L m) {outer : Nat} (hlimited : Limited L m.frames Δ outer)
    (names : List String) :
    Agrees V L m
      (fun L' frame m' => Limited L' m'.frames (names :: Δ) frame ∧ frame < m'.frames.size ∧
        ∀ name v, m'.frames.findIn? frame name ≠ some v)
      (Exec.newFrame outer m) (Exec.newFrame outer m) := by
  have hlater := h.child outer names
  refine ok hlater ⟨⟨if_pos rfl, outer, ?_, hlater.limited hlimited⟩,
    Frames.next_lt_child _ _, ?_⟩
  · exact Frames.enclosing?_child_next (hlimited.lt h.sound.global)
  · intro name v hv
    rw [Frames.findIn?_child_next] at hv
    cases hv

theorem newInnerFrame (h : Placed V L m scopes Δ) (names : List String) :
    Agrees V L m
      (fun L' frame m' => Limited L' m'.frames (names :: Δ) frame ∧ frame < m'.frames.size ∧
        ∀ name v, m'.frames.findIn? frame name ≠ some v)
      (Exec.newInnerFrame m) (Exec.newInnerFrame m) :=
  newFrame h.confined h.limited names

theorem newFunction (h : Confined V L m) (d : FunctionDecl) (closure : Nat) (isInitializer : Bool) :
    Agrees V L m (fun _ f _ => f.declaration = d ∧ f.closure = closure)
      (Exec.newFunction d closure isInitializer m) (Exec.newFunction d closure isInitializer m) := by
  have hafter := (Keeps.newFunction h.sound d closure isInitializer).1
  exact ok ⟨hafter, fun _ _ => rfl, h.of_eq hafter.sound rfl rfl⟩ ⟨rfl, rfl⟩

theorem newIdentity (h : Confined V L m) :
    Agrees V L m (fun _ _ _ => True) (Exec.newIdentity m) (Exec.newIdentity m) := by
  have hafter := (Keeps.newIdentity h.sound).1
  exact ok ⟨hafter, fun _ _ => rfl, h.of_eq hafter.sound rfl rfl⟩ trivial

/-- A method that is bound is seen through the frame of `this`. -/
theorem bindMethod (h : Confined V L m) {method : Function} (hmethod : MethodSeen V L m.frames method)
    {owner : Instance} (hok : ClassOk V m.frames owner.cls)
    (howner : ClassSeen V L m.frames owner.cls) :
    Agrees V L m (fun L' f m' => FunctionSeen V L' m'.frames f) (Exec.bind method owner m)
      (Exec.bind method owner m) := by
  obtain ⟨Δ, hlimited, hseen⟩ := hmethod
  unfold Exec.bind
  apply bind (newFrame h hlimited ["this"])
  rintro L₁ frame m₁ hlater₁ ⟨hframe, -, hfresh⟩
  have hallowed : frame = Frames.globalFrame ∨ "this" ∈ L₁ frame :=
    .inr (hframe.1 ▸ List.mem_cons_self)
  have hvalue : ValueOk V m₁.frames (.object owner) := hok.grow hlater₁.after.grows
  apply bind (defineIn hlater₁.confined (.inr (hfresh _)) hallowed hvalue (hlater₁.class howner))
  intro L₂ _ m₂ hlater₂ _
  refine (newFunction hlater₂.confined _ _ _).weaken ?_
  rintro L₃ f m₃ hlater₃ ⟨hdeclaration, hclosure⟩
  refine ⟨["this"] :: Δ, ?_, hdeclaration ▸ hseen⟩
  rw [hclosure]
  exact hlater₃.limited (hlater₂.limited hframe)

theorem getProperty (h : Confined V L m) {owner : Instance} (hok : ClassOk V m.frames owner.cls)
    (howner : ClassSeen V L m.frames owner.cls) (name : Token) :
    Agrees V L m (Yields V) (Exec.getProperty owner name m) (Exec.getProperty owner name m) := by
  unfold Exec.getProperty
  apply bind_get
  cases hfield : (m.fields.getD owner.id .empty).find? name.lexeme with
  | some value =>
    exact pure h (forall_fields_getD h.fields hfield)
  | none =>
    cases hmethod : owner.cls.findMethod? name.lexeme with
    | none => exact fail _ _
    | some method =>
      apply bind (bindMethod h (howner.findMethod? hmethod) hok howner)
      intro L₁ f m₁ hlater hf
      exact pure hlater.confined hf

theorem getSuper (h : Placed V L m scopes Δ) (hplace : PlaceOk V scopes .super place)
    (method : Token) :
    Agrees V L m (Yields V) (Exec.getSuper place method m) (Exec.getSuper place method m) := by
  have hconfined := h.confined
  obtain ⟨d, f, parent, g, owner, hd, hf, hparent, hg, howner⟩ :=
    hplace.super_found hconfined.sound h.here
  unfold Exec.getSuper
  apply bind_get
  simp only [hd, Frames.getAt_of_found hf hparent, Nat.add_sub_cancel,
    Frames.getAt_of_found hg howner, Keeps.lift_ok_bind]
  have hclass : ClassSeen V L m.frames parent := hconfined.bound f "super" _ hparent
  cases hmethod : parent.findMethod? method.lexeme with
  | none => exact fail _ _
  | some found =>
    apply bind (bindMethod hconfined (hclass.findMethod? hmethod)
      (hconfined.sound.bound g "this" _ howner) (hconfined.bound g "this" _ howner))
    intro L₁ f m₁ hlater hf
    exact pure hlater.confined hf

/-! ### Calls -/

theorem write (h : Confined V L m) (text : String) (line : Nat) :
    Agrees V L m (fun _ _ _ => True) (Exec.write text line m) (Exec.write text line m) := by
  unfold Exec.write
  apply bind_get
  by_cases hrefuses : m.sink.refuses text = true
  · simp only [hrefuses, if_true]
    exact fail _ _
  · simp only [hrefuses]
    have hsound : Sound V { m with sink := m.sink.append text } := h.sound.of_eq rfl rfl rfl
    exact ok ⟨⟨hsound, .refl _, rfl, rfl⟩, fun _ _ => rfl, h.of_eq hsound rfl rfl⟩ trivial

theorem callNative (h : Confined V L m) (native : Native) (arguments : List Value) (line : Nat) :
    Agrees V L m (Yields V) (Exec.callNative rules.bySearch native arguments line m)
      (Exec.callNative rules.byDistance native arguments line m) := by
  unfold Exec.callNative
  cases native with
  | clock =>
    have hsound : Sound V { m with ticks := m.ticks + 1 } := h.sound.of_eq rfl rfl rfl
    exact ok ⟨⟨hsound, .refl _, rfl, rfl⟩, fun _ _ => rfl, h.of_eq hsound rfl rfl⟩ trivial
  | print =>
    apply bind (write h _ line)
    intro L₁ _ m₁ hlater₁ _
    apply bind (write hlater₁.confined _ line)
    intro L₂ _ m₂ hlater₂ _
    exact pure hlater₂.confined trivial

theorem checkCall (h : Confined V L m) (callee : Value) (count line : Nat) :
    Agrees V L m (fun _ _ _ => True) (Exec.checkCall rules.bySearch callee count line m)
      (Exec.checkCall rules.byDistance callee count line m) := by
  unfold Exec.checkCall
  cases callee.arity? with
  | none => exact fail _ _
  | some arity =>
    by_cases hcount : count = arity
    · simp only [hcount, ne_eq, not_true_eq_false, if_false]
      apply bind_get
      split
      · exact fail _ _
      · exact pure h trivial
    · simp only [hcount, ne_eq, not_false_eq_true, if_true]
      exact fail _ _

/-- Parameters are names that the frame of a call may bind. -/
theorem bindParameters {frame : Nat} {parameters : List Token} {arguments : List Value}
    (h : Confined V L m) (hframe : frame < m.frames.size)
    (hnames : ∀ t ∈ parameters, IsName t.lexeme ∧ t.lexeme ∈ L frame)
    (hoks : ValuesOk V m.frames arguments) (hvalues : ValuesSeen V L m.frames arguments) :
    Agrees V L m (fun _ _ _ => True)
      (Exec.defineEach frame (parameters.zip arguments) m)
      (Exec.defineEach frame (parameters.zip arguments) m) := by
  induction parameters generalizing arguments m L with
  | nil => exact ok (.same h) trivial
  | cons parameter parameters ih =>
    cases arguments with
    | nil => exact ok (.same h) trivial
    | cons argument arguments =>
      obtain ⟨hname, hallowed⟩ := hnames parameter List.mem_cons_self
      apply bind (defineIn h (.inl hname) (.inr hallowed) (hoks argument List.mem_cons_self)
        (hvalues argument List.mem_cons_self))
      intro L₁ _ m₁ hlater _
      refine ih hlater.confined (Nat.lt_of_lt_of_le hframe hlater.after.grows.size_le) ?_ ?_ ?_
      · intro t ht
        rw [hlater.limits frame hframe]
        exact hnames t (List.mem_cons_of_mem _ ht)
      · exact ValuesOk.grow (fun value hvalue => hoks value (List.mem_cons_of_mem _ hvalue))
          hlater.after.grows
      · exact hlater.values fun value hvalue => hvalues value (List.mem_cons_of_mem _ hvalue)

/-- The body of a function runs in a frame that may bind what the function declares. -/
theorem bindArguments (h : Confined V L m) {f : Function} {arguments : List Value}
    (hlimited : Limited L m.frames Δ f.closure)
    (hnames : ∀ t ∈ f.declaration.parameters, IsName t.lexeme)
    (hoks : ValuesOk V m.frames arguments) (hvalues : ValuesSeen V L m.frames arguments) :
    Agrees V L m (fun L' frame m' => Limited L' m'.frames (f.declaration.declared :: Δ) frame)
      (Exec.bindArguments f arguments m) (Exec.bindArguments f arguments m) := by
  unfold Exec.bindArguments
  apply bind (newFrame h hlimited f.declaration.declared)
  rintro L₁ frame m₁ hlater₁ ⟨hframe, hlt, -⟩
  have hallowed : ∀ t ∈ f.declaration.parameters, IsName t.lexeme ∧ t.lexeme ∈ L₁ frame := by
    intro t ht
    rw [hframe.1]
    exact ⟨hnames t ht, List.mem_append_left _ (List.mem_map_of_mem ht)⟩
  apply bind (bindParameters hlater₁.confined hlt hallowed (hoks.grow hlater₁.after.grows)
    (hlater₁.values hvalues))
  intro L₂ _ m₂ hlater₂ _
  exact pure hlater₂.confined (hlater₂.limited hframe)

theorem callResult (h : Confined V L m) (f : Function) {flow : Flow}
    (hflow : ValueSeen V L m.frames flow.result) (line : Nat) :
    Agrees V L m (Yields V) (Exec.callResult f flow line m) (Exec.callResult f flow line m) := by
  unfold Exec.callResult
  cases f.isInitializer with
  | true => exact bind_get (lift_getAt h _ _ _ _)
  | false => exact pure h hflow

/-! ### Classes -/

theorem addMethods {frame : Nat} {ds : List FunctionDecl} {methods : Bindings Function}
    (h : Confined V L m) (hds : FunctionDecl.SeenEach V ds (["this"] :: Δ))
    (hlimited : Limited L m.frames Δ frame)
    (hmethods : ∀ name f, methods.find? name = some f → MethodSeen V L m.frames f) :
    Agrees V L m
      (fun L' all m' => ∀ name f, all.find? name = some f → MethodSeen V L' m'.frames f)
      (Exec.addMethods frame ds methods m) (Exec.addMethods frame ds methods m) := by
  induction ds generalizing m L methods with
  | nil => exact pure h hmethods
  | cons d ds ih =>
    rw [Exec.addMethods_cons]
    apply bind (newFunction h d frame d.isInitializer)
    rintro L₁ f m₁ hlater ⟨hdeclaration, hclosure⟩
    apply ih hlater.confined hds.2 (hlater.limited hlimited)
    intro name f' hf'
    rw [Bindings.find?_insert] at hf'
    split at hf'
    · cases hf'
      refine ⟨Δ, ?_, hdeclaration ▸ hds.1⟩
      rw [hclosure]
      exact hlater.limited hlimited
    · obtain ⟨Δ', hlimited', hseen⟩ := hmethods name f' hf'
      exact ⟨Δ', hlater.limited hlimited', hseen⟩

theorem methodFrame (h : Placed V L m scopes Δ) {superclass : Option Class}
    (hok : ∀ parent ∈ superclass, ClassOk V m.frames parent)
    (hparent : ∀ parent ∈ superclass, ClassSeen V L m.frames parent) :
    Agrees V L m
      (fun L' frame m' =>
        Limited L' m'.frames (if superclass.isSome then ["super"] :: Δ else Δ) frame)
      (Exec.methodFrame superclass m) (Exec.methodFrame superclass m) := by
  unfold Exec.methodFrame
  cases superclass with
  | none => exact bind_get (pure h.confined h.limited)
  | some parent =>
    apply bind (newInnerFrame h ["super"])
    rintro L₁ frame m₁ hlater₁ ⟨hframe, -, hfresh⟩
    have hallowed : frame = Frames.globalFrame ∨ "super" ∈ L₁ frame :=
      .inr (hframe.1 ▸ List.mem_cons_self)
    have hvalue : ValueOk V m₁.frames (.class parent) := (hok parent rfl).grow hlater₁.after.grows
    apply bind (defineIn hlater₁.confined (.inr (hfresh _)) hallowed hvalue
      (hlater₁.class (hparent parent rfl)))
    intro L₂ _ m₂ hlater₂ _
    exact pure hlater₂.confined (hlater₂.limited hframe)

theorem superclassOf {superclass : Option Occurrence} (h : Placed V L m scopes Δ)
    (hplace : ∀ place ∈ superclass, PlaceOk V scopes .read place)
    (hseen : ∀ place ∈ superclass, place.Seen V Δ) :
    Agrees V L m (fun L' parent m' => ∀ c ∈ parent, ClassSeen V L' m'.frames c)
      (Exec.superclassOf rules.bySearch superclass m)
      (Exec.superclassOf rules.byDistance superclass m) := by
  cases superclass with
  | none => exact pure h.confined nofun
  | some place =>
    apply map
    apply bind (readVariable rules h (hplace place rfl) (hseen place rfl))
    intro L₁ value m₁ hlater hvalue
    unfold Exec.expectClass
    cases value with
    | «class» parent =>
      apply pure hlater.confined
      rintro _ ⟨⟩
      exact hvalue
    | _ => exact fail _ _

theorem finishClass {name : Token} {parent : Option Class} {methods : List FunctionDecl}
    (h : Placed V L m scopes Δ) (hname : IsName name.lexeme) (hdeclares : Δ.Declares name.lexeme)
    (hok : ∀ c ∈ parent, ClassOk V m.frames c) (hparent : ∀ c ∈ parent, ClassSeen V L m.frames c)
    (hmethods : MethodsOk V r methods)
    (hseen : FunctionDecl.SeenEach V methods (Δ.ofMethods parent.isSome))
    (hscopes : r.scopes = thisScope :: aroundThis parent.isSome scopes)
    (hclass : r.enclosingClass = .derived → parent.isSome = true) :
    Agrees V L m (fun _ _ _ => True) (Exec.finishClass name methods parent m)
      (Exec.finishClass name methods parent m) := by
  unfold Exec.finishClass
  apply bind ((methodFrame h hok hparent).and_keeps (Keeps.methodFrame h.confined.sound h.here hok))
  rintro L₁ frame m₁ hlater₁ ⟨⟨hframe, hsuper⟩, hlimited⟩
  have hstands : r.enclosingClass = .derived →
      StandsForSuper m₁.frames ((parent.map Class.chain).getD []) frame := by
    intro hderived
    obtain ⟨c, rfl⟩ := Option.isSome_iff_exists.mp (hclass hderived)
    exact hsuper c rfl
  apply bind ((addMethods hlater₁.confined hseen hlimited fun n f hf => by cases hf).and_keeps
    (Keeps.addMethods hlater₁.confined.sound hmethods hscopes hframe hstands
      fun n f hf => by cases hf))
  rintro L₂ own m₂ hlater₂ ⟨hown, hownSeen⟩
  apply bind (newIdentity hlater₂.confined)
  intro L₃ identity m₃ hlater₃ _
  have hlater := (hlater₁.trans hlater₂).trans hlater₃
  refine (define (h.later hlater) hname hdeclares ?_ ?_).weaken fun _ _ _ _ _ => trivial
  · exact ClassOk.of_layer
      (fun n f hf => (hown n f hf).mono (fun _ hv => hv) hlater₃.after.grows)
      fun c hc => (hok c hc).grow hlater.after.grows
  · refine ClassSeen.of_layer (fun n f hf => ?_) fun c hc => hlater.class (hparent c hc)
    obtain ⟨Δ', hlimited', hf⟩ := hownSeen n f hf
    exact ⟨Δ', hlater₃.limited hlimited', hf⟩

theorem declareClass {name : Token} {superclass : Option Occurrence}
    {methods : List FunctionDecl} (h : Placed V L m r.scopes Δ)
    (hs : StmtOk V r (.class name superclass methods))
    (hseen : (Stmt.class name superclass methods).Seen V Δ) :
    Agrees V L m (fun _ _ _ => True) (Exec.declareClass rules.bySearch name superclass methods m)
      (Exec.declareClass rules.byDistance name superclass methods m) := by
  have hname := hs.shaped.1
  obtain ⟨hdeclares, hparent, hmethods⟩ := hseen
  rw [Exec.declareClass_eq, Exec.declareClass_eq]
  apply bind (define h hname hdeclares (by trivial) (by trivial))
  intro L₁ _ m₁ hlater₁ hframes₁
  have hplaced : Placed V L₁ m₁ (r.mark name.lexeme true).scopes Δ :=
    ⟨hlater₁.confined, h.here.define h.confined.sound hname hlater₁.after hframes₁,
      (h.later hlater₁).limited⟩
  have hplace : ∀ place ∈ superclass, PlaceOk V (r.mark name.lexeme true).scopes .read place := by
    rintro place ⟨⟩
    exact hs.superclass
  apply bind ((superclassOf hplaced hplace hparent).and_keeps
    (Keeps.superclassOf hplaced.confined.sound hplaced.here hplace))
  rintro L₂ parent m₂ hlater₂ ⟨⟨hsome, hok⟩, hclass⟩
  have hscopes : ((r.enterClass name superclass).enterClassBody superclass.isSome).scopes =
      thisScope :: aroundThis parent.isSome (r.mark name.lexeme true).scopes := by
    rw [scopes_methods, hsome]
  rw [← hsome] at hmethods
  exact finishClass (hplaced.later hlater₂) hname hdeclares hok hclass hs.methods hmethods hscopes
    fun hderived => hsome.trans (isSome_of_derived hderived)

end Agrees

end Lox
