import Lox.Proofs.Execution.Chronicle

/-!
# Every task goes on with the chronicle

A task that begins where a chronicle has come to appends its trace to it, and ends where
the longer chronicle has come to.  What carries the proof is that a task only handles
values of the census: those that it was given, those that its parts have yielded, and
those that the machine holds.
-/

namespace Lox

open Exec

variable {o : Outset} {rules : Rules} {g g' : Census} {events : List Event} {m m' : Machine}
  {x : Moment} {parts : List Moment} {α β : Type} {post : Census → α → Prop}
  {post' : Census → β → Prop}

/-- The computation goes on with the chronicle: it runs these parts, and yields what is said. -/
def Continues (o : Outset) (rules : Rules) (g : Census) (events : List Event)
    (parts : List Moment) (post : Census → α → Prop) (p : Exec α) (m : Machine) : Prop :=
  ∃ g', g.Within g' ∧
    Chronicle o g' (events ++ parts.flatMap (Moment.trace rules)) (endOf (p m)) ∧
    ∀ a m', p m = .ok a m' → post g' a

/-- Nothing is made, and no field changes. -/
theorem Chronicle.stays (h : Chronicle o g events m) (hm : m'.In g)
    (hfields : ∀ owner name, m'.field? owner name = m.field? owner name) :
    Chronicle o g events m' :=
  .moves h (.refl g) hm hfields fun _ => .inl

/-- Neither frames nor fields nor numbers change. -/
theorem Chronicle.of_eq (h : Chronicle o g events m) (hframes : m'.frames = m.frames)
    (hfields : m'.fields = m.fields) (hnext : m'.nextIdentity = m.nextIdentity) :
    Chronicle o g events m' := by
  refine h.stays (h.In.of_eq hframes hfields hnext) fun owner name => ?_
  rw [Machine.field?, hfields]
  rfl

namespace Continues

/-! ### How computations are put together -/

/-- A computation without parts that succeeds. -/
theorem of_ok {p : Exec α} {a : α} (hrun : p m = .ok a m') (hle : g.Within g')
    (h : Chronicle o g' events m') (ha : post g' a) :
    Continues o rules g events [] post p m := by
  refine ⟨g', hle, ?_, ?_⟩
  · rw [List.flatMap_nil, List.append_nil, hrun]
    exact h
  · intro a' m'' ha'
    cases hrun.symm.trans ha'
    exact ha

/-- A computation without parts that fails and leaves the machine as it is. -/
theorem of_error {p : Exec α} {e : Interrupt} (hrun : p m = .error e m)
    (h : Chronicle o g events m) : Continues o rules g events [] post p m := by
  refine ⟨g, .refl g, ?_, ?_⟩
  · rw [List.flatMap_nil, List.append_nil, hrun]
    exact h
  · intro a m' ha
    cases hrun.symm.trans ha

/-- One computation goes on where the other has ended. -/
theorem bind {p : Exec α} {k : α → Exec β} {rest : α → Machine → List Moment}
    (hp : Continues o rules g events parts post p m)
    (hk : ∀ g' a m', p m = .ok a m' → g.Within g' → post g' a →
      Chronicle o g' (events ++ parts.flatMap (Moment.trace rules)) m' →
      Continues o rules g' (events ++ parts.flatMap (Moment.trace rules)) (rest a m') post'
        (k a) m') :
    Continues o rules g events (parts ++ behind p rest m) post' (p >>= k) m := by
  obtain ⟨g', hle, hchronicle, hresult⟩ := hp
  cases hrun : p m with
  | ok a m' =>
    rw [hrun] at hchronicle
    obtain ⟨g'', hle', hchronicle', hresult'⟩ :=
      hk g' a m' hrun hle (hresult a m' hrun) hchronicle
    rw [Continues, bind_of_ok hrun, behind_of_ok hrun]
    refine ⟨g'', hle.trans hle', ?_, hresult'⟩
    rw [List.flatMap_append, ← List.append_assoc]
    exact hchronicle'
  | error e m' =>
    rw [hrun] at hchronicle
    rw [Continues, bind_of_error hrun, behind, hrun, List.append_nil]
    refine ⟨g', hle, hchronicle, ?_⟩
    rintro _ _ ⟨⟩

/-- A first part is followed by others. -/
theorem first {p : Exec α} {k : α → Exec β} {rest : α → Machine → List Moment}
    (hp : Continues o rules g events [x] post p m)
    (hk : ∀ g' a m', p m = .ok a m' → g.Within g' → post g' a →
      Chronicle o g' (events ++ [x].flatMap (Moment.trace rules)) m' →
      Continues o rules g' (events ++ [x].flatMap (Moment.trace rules)) (rest a m') post'
        (k a) m') :
    Continues o rules g events (x :: behind p rest m) post' (p >>= k) m :=
  bind hp hk

/-- A computation that is no task is followed by the parts. -/
theorem after {p : Exec α} {k : α → Exec β} {rest : α → Machine → List Moment}
    (hp : Continues o rules g events [] post p m)
    (hk : ∀ g' a m', p m = .ok a m' → g.Within g' → post g' a → Chronicle o g' events m' →
      Continues o rules g' events (rest a m') post' (k a) m') :
    Continues o rules g events (behind p rest m) post' (p >>= k) m := by
  have hboth : Continues o rules g events ([] ++ behind p rest m) post' (p >>= k) m := by
    refine bind hp fun g' a m' hrun hle ha hchronicle => ?_
    rw [List.flatMap_nil, List.append_nil] at hchronicle ⊢
    exact hk g' a m' hrun hle ha hchronicle
  exact hboth

/-- The last part is followed by a computation that is no task. -/
theorem last {p : Exec α} {k : α → Exec β}
    (hp : Continues o rules g events parts post p m)
    (hk : ∀ g' a m', p m = .ok a m' → g.Within g' → post g' a →
      Chronicle o g' (events ++ parts.flatMap (Moment.trace rules)) m' →
      Continues o rules g' (events ++ parts.flatMap (Moment.trace rules)) [] post' (k a) m') :
    Continues o rules g events parts post' (p >>= k) m := by
  have hnothing : behind p (fun _ _ => []) m = [] := by
    unfold behind
    split <;> rfl
  have hboth : Continues o rules g events (parts ++ behind p (fun _ _ => []) m) post'
      (p >>= k) m := bind hp hk
  rwa [hnothing, List.append_nil] at hboth

theorem silent {p : Exec α} {k : α → Exec β}
    (hp : Continues o rules g events [] post p m)
    (hk : ∀ g' a m', p m = .ok a m' → g.Within g' → post g' a → Chronicle o g' events m' →
      Continues o rules g' events [] post' (k a) m') :
    Continues o rules g events [] post' (p >>= k) m := by
  refine last hp fun g' a m' hrun hle ha hchronicle => ?_
  rw [List.flatMap_nil, List.append_nil] at hchronicle ⊢
  exact hk g' a m' hrun hle ha hchronicle

/-! ### Computations that are no tasks -/

/-- The machine at hand is the one that is read. -/
theorem get_bind {k : Machine → Exec α} (hk : Continues o rules g events parts post (k m) m) :
    Continues o rules g events parts post (MonadState.get >>= k) m :=
  hk

section

variable (h : Chronicle o g events m)

include h

theorem pure {a : α} (ha : post g a) : Continues o rules g events [] post (Pure.pure a) m :=
  of_ok rfl (.refl g) h ha

theorem fail (cause : RuntimeCause) (line : Nat) :
    Continues o rules g events [] post (Exec.fail cause line) m :=
  of_error rfl h

theorem lift {result : Except RuntimeError α} (hpost : ∀ a, result = .ok a → post g a) :
    Continues o rules g events [] post (Exec.lift result) m := by
  cases result with
  | ok a => exact .pure h (hpost a rfl)
  | error e => exact .of_error rfl h

/-- A value that was read is in the census. -/
theorem liftValue {result : Except RuntimeError Value}
    (hvalue : ∀ value, result = .ok value → value.In g) :
    Continues o rules g events [] (fun g' value => value.In g') (Exec.lift result) m :=
  lift h hvalue

/-- A flow that carries no value. -/
theorem plainFlow {flow : Flow} (hflow : flow.values = []) :
    Continues o rules g events [] (fun g' flow => ∀ value ∈ flow.values, value.In g')
      (Pure.pure flow) m := by
  refine pure h ?_
  rw [hflow]
  exact List.forall_mem_nil _

theorem defineIn (frame : FrameId) (name : String) {value : Value} (hvalue : value.In g) :
    Continues o rules g events [] (fun _ _ => True) (Exec.defineIn frame name value) m :=
  of_ok rfl (.refl g)
    (h.stays (h.In.define frame name hvalue) fun _ _ => rfl) trivial

theorem define (name : String) {value : Value} (hvalue : value.In g) :
    Continues o rules g events [] (fun _ _ => True) (Exec.define name value) m :=
  of_ok rfl (.refl g)
    (h.stays (h.In.define m.current name hvalue) fun _ _ => rfl) trivial

theorem newFrame (outer : FrameId) :
    Continues o rules g events [] (fun _ _ => True) (Exec.newFrame outer) m :=
  of_ok rfl (.refl g) (h.stays (h.In.child outer) fun _ _ => rfl) trivial

theorem newInnerFrame :
    Continues o rules g events [] (fun _ _ => True) Exec.newInnerFrame m :=
  of_ok rfl (.refl g) (h.stays (h.In.child m.current) fun _ _ => rfl) trivial

theorem newFunction (d : FunctionDecl) (closure : FrameId) (isInitializer : Bool)
    (harises : Arises events ⟨m.nextIdentity, d, closure, isInitializer⟩) :
    Continues o rules g events []
      (fun g' f => f.In g' ∧ f.declaration = d ∧ f.isInitializer = isInitializer)
      (Exec.newFunction d closure isInitializer) m := by
  obtain ⟨hm, hnew⟩ := h.In.make (.function ⟨m.nextIdentity, d, closure, isInitializer⟩)
  refine of_ok rfl (.make g _) (.moves h (.make g _) hm (fun _ _ => rfl) fun f hf => ?_)
    ⟨hnew, rfl, rfl⟩
  rcases hf.of_make with hold | hsame
  · exact .inl hold
  · cases hsame
    exact .inr harises

theorem newInstance {c : Class} (hc : c.In g) :
    Continues o rules g events [] (fun g' owner => (Value.object owner).In g')
      (Exec.newInstance c) m := by
  obtain ⟨hm, hnew⟩ := h.In.create hc
  exact of_ok rfl (.create g c)
    (.moves h (.create g c) hm (Machine.In.field?_push m) fun _ => .inl) hnew

theorem bindMethod (method : Function) {owner : Instance} (howner : (Value.object owner).In g)
    (harises : ∀ f m', Exec.bind method owner m = .ok f m' → Arises events f) :
    Continues o rules g events [] (fun g' f => f.In g') (Exec.bind method owner) m := by
  have hbound := harises _ _ (Exec.bind_eq method owner m)
  have h₁ := h.stays (h.In.child method.closure) fun _ _ => rfl
  have h₂ := h₁.stays (h₁.In.define m.frames.next "this" howner) fun _ _ => rfl
  obtain ⟨hm, hnew⟩ := h₂.In.make
    (.function ⟨m.nextIdentity, method.declaration, m.frames.next, method.isInitializer⟩)
  refine of_ok (Exec.bind_eq method owner m) (.make g _)
    (.moves h₂ (.make g _) hm (fun _ _ => rfl) fun f hf => ?_) hnew
  rcases hf.of_make with hold | hsame
  · exact .inl hold
  · cases hsame
    exact .inr hbound

theorem write (text : String) (line : Nat) :
    Continues o rules g events [] (fun _ _ => True) (Exec.write text line) m := by
  refine get_bind ?_
  split
  · exact fail h _ _
  · exact of_ok rfl (.refl _) (h.of_eq rfl rfl rfl) trivial

theorem readClock : Continues o rules g events [] (fun _ _ => True) (Exec.readClock rules) m :=
  of_ok rfl (.refl g) (h.of_eq rfl rfl rfl) trivial

theorem readResolved (place : Occurrence) :
    Continues o rules g events [] (fun g' value => value.In g') (Exec.readResolved place) m := by
  refine get_bind ?_
  split
  · exact lift h fun value hvalue => h.In.getAt hvalue
  · exact lift h fun value hvalue => h.In.get hvalue

theorem readVariable (place : Occurrence) :
    Continues o rules g events [] (fun g' value => value.In g')
      (Exec.readVariable rules place) m := by
  unfold Exec.readVariable
  split
  · exact readResolved h place
  · exact get_bind (lift h fun value hvalue => h.In.get hvalue)

theorem assignVariable (place : Occurrence) {value : Value} (hvalue : value.In g) :
    Continues o rules g events [] (fun _ _ => True)
      (Exec.assignVariable rules place value) m := by
  refine get_bind ?_
  have hframe : Continues o rules g events [] (fun _ _ => True)
      (Exec.lift (target rules place m)) m := lift h fun _ _ => trivial
  refine silent hframe fun g₁ frame m₁ _ hle _ h₁ => ?_
  exact defineIn h₁ frame place.name (hvalue.mono hle)

theorem getProperty {owner : Instance} (howner : (Value.object owner).In g) (name : Token)
    (harises : ∀ method f m', m.field? owner.id name.lexeme = none →
      owner.cls.findMethod? name.lexeme = some method → Exec.bind method owner m = .ok f m' →
      Arises events f) :
    Continues o rules g events [] (fun g' value => value.In g')
      (Exec.getProperty owner name) m := by
  refine get_bind ?_
  split
  · rename_i value hvalue
    exact pure h (h.In.held value (.inr ⟨owner.id, name.lexeme, hvalue⟩))
  · rename_i hfield
    split
    · rename_i method hmethod
      exact silent (bindMethod h method howner fun f m' hbind =>
        harises method f m' hfield hmethod hbind) fun g₁ f m₁ _ _ hf h₁ => pure h₁ hf
    · exact fail h _ _

theorem getSuper (place : Occurrence) (method : Token)
    (harises : ∀ distance parent owner found f m', m.distances[place.id]? = some distance →
      m.frames.getAt m.current distance "super" place.line = .ok (.class parent) →
      m.frames.getAt m.current (distance - 1) "this" place.line = .ok (.object owner) →
      parent.findMethod? method.lexeme = some found → Exec.bind found owner m = .ok f m' →
      Arises events f) :
    Continues o rules g events [] (fun g' value => value.In g')
      (Exec.getSuper place method) m := by
  refine get_bind ?_
  split
  · exact fail h _ _
  rename_i distance hdistance
  refine silent (liftValue h fun parent hparent => h.In.getAt hparent)
    fun g₁ parent m₁ hsuper hle hparent h₁ => ?_
  obtain ⟨hsuper, rfl⟩ := of_lift_ok hsuper
  refine silent (liftValue h₁ fun owner howner => (h.In.getAt howner).mono hle)
    fun g₂ owner m₂ hthis _ howner h₂ => ?_
  obtain ⟨hthis, rfl⟩ := of_lift_ok hthis
  split
  · split
    · rename_i found hfound
      exact silent (bindMethod h₂ found howner fun f m' hbind =>
        harises distance _ _ found f m' hdistance hsuper hthis hfound hbind)
        fun g₃ f m₃ _ _ hf h₃ => pure h₃ hf
    · exact fail h₂ _ _
  · exact fail h₂ _ _

theorem defineEach (frame : FrameId) {pairs : List (Token × Value)}
    (hpairs : ∀ pair ∈ pairs, pair.2.In g) :
    Continues o rules g events [] (fun _ _ => True) (Exec.defineEach frame pairs) m := by
  induction pairs generalizing g m with
  | nil => exact pure h trivial
  | cons pair pairs ih =>
    refine silent (defineIn h frame _ (hpairs pair List.mem_cons_self)) fun g₁ _ m₁ _ hle _ h₁ => ?_
    exact ih h₁ fun pair hpair => (hpairs pair (List.mem_cons_of_mem _ hpair)).mono hle

theorem bindArguments (f : Function) {arguments : List Value}
    (harguments : ∀ value ∈ arguments, value.In g) :
    Continues o rules g events [] (fun _ _ => True) (Exec.bindArguments f arguments) m := by
  refine silent (newFrame h f.closure) fun g₁ frame m₁ _ hle _ h₁ => ?_
  refine silent (defineEach h₁ frame fun pair hpair => ?_) fun g₂ _ m₂ _ _ _ h₂ => pure h₂ trivial
  exact (harguments _ (List.of_mem_zip hpair).2).mono hle

theorem callResult (f : Function) {flow : Flow} (hflow : ∀ value ∈ flow.values, value.In g)
    (line : Nat) :
    Continues o rules g events [] (fun g' value => value.In g')
      (Exec.callResult f flow line) m := by
  unfold Exec.callResult
  split
  · exact get_bind (lift h fun value hvalue => h.In.getAt hvalue)
  · cases flow with
    | returning value => exact pure h (hflow value List.mem_cons_self)
    | _ => exact pure h trivial

/-- The checks before a call leave the machine as it is. -/
theorem checkCall (callee : Value) (count line : Nat) :
    Continues o rules g events [] (fun _ _ => True)
      (Exec.checkCall rules callee count line) m := by
  cases hrun : Exec.checkCall rules callee count line m with
  | ok a m' =>
    obtain ⟨rfl, -⟩ := of_checkCall_ok hrun
    exact of_ok hrun (.refl g) h trivial
  | error e m' =>
    obtain rfl : m' = m := by
      rw [checkCall_eq] at hrun
      repeat' split at hrun
      all_goals cases hrun <;> rfl
    exact of_error hrun h

theorem callNative (native : Native) (arguments : List Value) (line : Nat) :
    Continues o rules g events [] (fun g' value => value.In g')
      (Exec.callNative rules native arguments line) m := by
  cases native with
  | clock => exact silent (readClock h) fun _ _ _ _ _ _ h₁ => pure h₁ trivial
  | print =>
    refine silent (write h _ _) fun _ _ _ _ _ _ h₁ => ?_
    exact silent (write h₁ _ _) fun _ _ _ _ _ _ h₂ => pure h₂ trivial

/-! ### Classes -/

theorem methodFrame {superclass : Option Class} (hsuper : ∀ c ∈ superclass, c.In g) :
    Continues o rules g events [] (fun _ _ => True) (Exec.methodFrame superclass) m := by
  cases superclass with
  | none => exact get_bind (pure h trivial)
  | some parent =>
    refine silent (newInnerFrame h) fun g₁ frame m₁ _ hle _ h₁ => ?_
    have hparent : (Value.class parent).In g₁ := (hsuper parent rfl).mono hle
    exact silent (defineIn h₁ frame "super" hparent) fun _ _ _ _ _ _ h₂ => pure h₂ trivial

theorem superclassOf (superclass : Option Occurrence) :
    Continues o rules g events [] (fun g' parent => ∀ c ∈ parent, Class.In g' c)
      (Exec.superclassOf rules superclass) m := by
  cases superclass with
  | none => exact pure h nofun
  | some place =>
    change Continues o rules g events [] _
      ((Exec.readVariable rules place >>= (expectClass · place.line)) >>=
        fun c => Pure.pure (some c)) m
    have hclass : Continues o rules g events [] (fun g' c => Class.In g' c)
        (Exec.readVariable rules place >>= (expectClass · place.line)) m := by
      refine silent (readVariable h place) fun g₁ value m₁ _ _ hvalue h₁ => ?_
      cases value with
      | «class» c => exact pure h₁ hvalue
      | _ => exact fail h₁ _ _
    refine silent hclass fun g₁ c m₁ _ _ hc h₁ => pure h₁ ?_
    rintro _ ⟨⟩
    exact hc

/-- A class takes its number behind its methods, and is bound to its name. -/
theorem declareClass (name : Token) (superclass : Option Occurrence)
    (methods : List FunctionDecl)
    (harises : ∀ m' c key f, Exec.declareClass rules name superclass methods m = .ok () m' →
      (m.current < m.frames.size →
        m'.frames.findIn? m.current name.lexeme = some (.class c)) →
      c.layer.methods.find? key = some f → Arises events f) :
    Continues o rules g events [] (fun _ _ => True)
      (Exec.declareClass rules name superclass methods) m := by
  have hrestored {m'} (hrun : Exec.declareClass rules name superclass methods m = .ok () m') :
      Restored m m' := (Restores.declareClass rules name superclass methods).of_ok hrun
  rw [declareClass_eq] at hrestored harises ⊢
  refine silent (define h name.lexeme trivial) fun g₁ _ m₁ hdefine _ _ h₁ => ?_
  -- The declaration binds the name to nil, finds the superclass, opens the methods' frame,
  -- makes the methods and, last, the class.
  refine silent (superclassOf h₁ superclass) fun g₂ parent m₂ hsuper _ hparent h₂ => ?_
  refine silent (methodFrame h₂ hparent) fun g₃ frame m₃ hframe hle₃ _ h₃ => ?_
  obtain ⟨g₄, own, m₄, hmake, hle₄, hm₄, hfields, hown, hmade⟩ :=
    h₃.In.addMethods frame (g₃.keeps_empty methods)
  let c : Class := ⟨⟨m₄.nextIdentity, name.lexeme, own⟩, (parent.map Class.chain).getD []⟩
  obtain ⟨hm, hnew⟩ := hm₄.make (.class c)
  have hle : g₄.Within (g₄.make (.class c)) := .make g₄ _
  have hmethods : c.layer.MethodsIn (g₄.make (.class c)) := by
    intro name f hf
    obtain ⟨hin, hnamed⟩ := hown name f hf (List.forall_mem_nil _)
    exact ⟨hin.mono hle, hnamed⟩
  have hinherited : ClassLayer.EachIn (g₄.make (.class c)) c.inherited := by
    cases parent with
    | none => trivial
    | some parent => exact (hparent parent rfl).mono ((hle₃.trans hle₄).trans hle)
  -- The new class is in the census: its own methods were put there, the inherited ones are
  -- those of a class that was there.
  have hc : (Value.class c).In (g₄.make (.class c)) := ⟨hnew, hmethods, hinherited⟩
  have hbinds : (Exec.makeMethods frame methods >>= fun own => do
      let layer : ClassLayer := ⟨← newIdentity, name.lexeme, own⟩
      Exec.define name.lexeme (.class ⟨layer, (parent.map Class.chain).getD []⟩)) m₃ = .ok () _ :=
    (bind_of_ok hmake).trans rfl
  -- The run of the declaration is put together from the runs of its steps.
  have hrun : (Exec.define name.lexeme .nil >>= fun _ =>
      Exec.superclassOf rules superclass >>= finishClass name methods) m = .ok () _ :=
    (bind_of_ok hdefine).trans ((bind_of_ok hsuper).trans ((bind_of_ok hframe).trans hbinds))
  refine of_ok hbinds (hle₄.trans hle)
    (.moves h₃ (hle₄.trans hle) (hm.define m₄.current name.lexeme hc) hfields fun f hf => ?_) trivial
  -- The methods among the functions added arise from the declaration, found in the table of
  -- the class under its name.
  rcases hf.of_make with hf | hsame
  · rcases hmade f hf with hold | ⟨key, hkey⟩
    · exact .inl hold
    · refine .inr (harises _ c key f hrun (fun hlt => ?_) hkey)
      have hkept := hrestored hrun
      have hlt' := Nat.lt_of_lt_of_le hlt hkept.size_le
      rw [← hkept.current, Frames.size_define] at hlt'
      rw [← hkept.current]
      exact Frames.findIn?_define_self hlt' _ _
  · cases hsame

end

/-! ### Other surroundings -/

theorem inFrame {p : Exec α} {frame : FrameId}
    (hp : Continues o rules g events parts post p { m with current := frame }) :
    Continues o rules g events parts post (Exec.inFrame frame p) m := by
  obtain ⟨g', hle, hchronicle, hresult⟩ := hp
  unfold Continues Exec.inFrame
  cases hrun : p { m with current := frame } with
  | ok a m' =>
    rw [hrun] at hchronicle
    refine ⟨g', hle, hchronicle.of_eq rfl rfl rfl, ?_⟩
    rintro _ _ ⟨⟩
    exact hresult a m' hrun
  | error e m' =>
    rw [hrun] at hchronicle
    refine ⟨g', hle, hchronicle.of_eq rfl rfl rfl, ?_⟩
    rintro _ _ ⟨⟩

theorem asCall {p : Exec α}
    (hp : Continues o rules g events parts post p { m with depth := m.depth + 1 }) :
    Continues o rules g events parts post (Exec.asCall p) m := by
  obtain ⟨g', hle, hchronicle, hresult⟩ := hp
  unfold Continues Exec.asCall
  cases hrun : p { m with depth := m.depth + 1 } with
  | ok a m' =>
    rw [hrun] at hchronicle
    refine ⟨g', hle, hchronicle.of_eq rfl rfl rfl, ?_⟩
    rintro _ _ ⟨⟩
    exact hresult a m' hrun
  | error e m' =>
    rw [hrun] at hchronicle
    refine ⟨g', hle, hchronicle.of_eq rfl rfl rfl, ?_⟩
    rintro _ _ ⟨⟩

end Continues

/-! ### Tasks -/

/-- What a task begins with is in the census, and the fields are as before. -/
theorem Chronicle.begins (h : Chronicle o g events x.machine)
    (hgiven : ∀ value ∈ x.task.given, value.In g) (rules : Rules) :
    Chronicle o g (events ++ [.begins rules x]) x.machine :=
  .event (s := .begins rules x) h h.In hgiven fun _ _ => rfl

/-- Behind its parts a task ends, and only then a field may change. -/
theorem Chronicle.ends
    (h : Chronicle o g
      (events ++ [.begins rules x] ++ (x.parts rules).flatMap (Moment.trace rules)) m)
    (hfinal : (x.final rules).In g) (hyielded : ∀ value ∈ x.yielded rules, value.In g)
    (hfields : ∀ owner name, (x.final rules).field? owner name =
      ((Event.ends rules x).assigned? owner name).or (m.field? owner name)) :
    Chronicle o g (events ++ [x].flatMap (Moment.trace rules)) (x.final rules) := by
  have hends := Chronicle.event (s := .ends rules x) h hfinal hyielded hfields
  rw [List.flatMap_singleton, Moment.trace_eq, List.cons_append, ← List.singleton_append,
    ← List.append_assoc, ← List.append_assoc]
  exact hends

theorem Event.begins_mem (events : List Event) (rules : Rules) (x : Moment) :
    .begins rules x ∈ events ++ [.begins rules x] :=
  List.mem_append_right _ List.mem_cons_self

/-- A task that goes on with the chronicle behind its beginning goes on with it as a whole. -/
theorem Continues.task {p : Exec α} {values : α → List Value}
    (h : Chronicle o g events x.machine)
    (hgiven : ∀ value ∈ x.task.given, value.In g) (hfinal : x.final rules = endOf (p x.machine))
    (hyielded : x.yielded rules = yieldOf values (p x.machine))
    (hpost : ∀ g a, post g a → ∀ value ∈ values a, value.In g)
    (hplain : x.assignment? rules = none)
    (hparts : Chronicle o g (events ++ [.begins rules x]) x.machine →
      Continues o rules g (events ++ [.begins rules x]) (x.parts rules) post p x.machine) :
    Continues o rules g events [x] post p x.machine := by
  obtain ⟨g', hle, hchronicle, hresult⟩ := hparts (h.begins hgiven rules)
  have hvalues : ∀ value ∈ x.yielded rules, value.In g' := by
    intro value hvalue
    rw [hyielded] at hvalue
    cases hrun : p x.machine with
    | ok a m' =>
      rw [hrun] at hvalue
      exact hpost g' a (hresult a m' hrun) value hvalue
    | error e m' =>
      rw [hrun] at hvalue
      cases hvalue
  rw [← hfinal] at hchronicle
  refine ⟨g', hle, ?_, hresult⟩
  rw [← hfinal]
  refine hchronicle.ends hchronicle.In hvalues fun owner name => ?_
  rw [Event.assigned?, hplain]
  rfl

/-- What is said of tasks, with a bound on the depth of their recursion. -/
structure ContinuesAt (o : Outset) (rules : Rules) (fuel : Nat) : Prop where
  evaluate {g : Census} {events : List Event} {m : Machine} (e : Expr) :
    Chronicle o g events m →
    Continues o rules g events [⟨fuel, .evaluate e, m⟩] (fun g' value => value.In g')
      (evaluate rules fuel e) m
  evaluateEach {g : Census} {events : List Event} {m : Machine} (es : List Expr) :
    Chronicle o g events m →
    Continues o rules g events [⟨fuel, .evaluateEach es, m⟩]
      (fun g' values => ∀ value ∈ values, Value.In g' value) (evaluateEach rules fuel es) m
  call {g : Census} {events : List Event} {m : Machine} {callee : Value}
      {arguments : List Value} (line : Nat) :
    Chronicle o g events m → callee.In g → (∀ value ∈ arguments, value.In g) →
    Continues o rules g events [⟨fuel, .call callee arguments line, m⟩]
      (fun g' value => value.In g') (call rules fuel callee arguments line) m
  callFunction {g : Census} {events : List Event} {m : Machine} {f : Function}
      {arguments : List Value} (line : Nat) :
    Chronicle o g events m → f.In g → (∀ value ∈ arguments, value.In g) →
    Continues o rules g events [⟨fuel, .callFunction f arguments line, m⟩]
      (fun g' value => value.In g') (callFunction rules fuel f arguments line) m
  execute {g : Census} {events : List Event} {m : Machine} (s : Stmt) :
    Chronicle o g events m →
    Continues o rules g events [⟨fuel, .execute s, m⟩]
      (fun g' flow => ∀ value ∈ flow.values, value.In g') (execute rules fuel s) m
  executeEach {g : Census} {events : List Event} {m : Machine} (ss : List Stmt) :
    Chronicle o g events m →
    Continues o rules g events [⟨fuel, .executeEach ss, m⟩]
      (fun g' flow => ∀ value ∈ flow.values, value.In g') (executeEach rules fuel ss) m
  iterate {g : Census} {events : List Event} {m : Machine} (condition : Expr)
      (body : Stmt) (increment : Option Expr) :
    Chronicle o g events m →
    Continues o rules g events [⟨fuel, .iterate condition body increment, m⟩]
      (fun g' flow => ∀ value ∈ flow.values, value.In g')
      (iterate rules fuel condition body increment) m

namespace ContinuesAt

variable {fuel : Nat}

/-- The common form of the tasks that yield a value. -/
theorem yields_value {g : Census} {value : Value} (h : value.In g) :
    ∀ v ∈ [value], v.In g := by
  simpa using h

theorem zero (o : Outset) (rules : Rules) : ContinuesAt o rules 0 where
  evaluate _ h := by
    refine .task h (List.forall_mem_nil _) rfl rfl (fun _ _ => yields_value) rfl fun h' => ?_
    rw [Exec.evaluate]
    exact .of_error rfl h'
  evaluateEach _ h := by
    refine .task h (List.forall_mem_nil _) rfl rfl (fun _ _ hpost => hpost) rfl fun h' => ?_
    rw [Exec.evaluateEach]
    exact .of_error rfl h'
  call line h hcallee harguments := by
    refine .task h (List.forall_mem_cons.mpr ⟨hcallee, harguments⟩) rfl rfl
      (fun _ _ => yields_value) rfl fun h' => ?_
    rw [Exec.call]
    exact .of_error rfl h'
  callFunction line h hf harguments := by
    refine .task h (List.forall_mem_cons.mpr ⟨hf, harguments⟩) rfl rfl
      (fun _ _ => yields_value) rfl fun h' => ?_
    rw [Exec.callFunction]
    exact .of_error rfl h'
  execute _ h := by
    refine .task h (List.forall_mem_nil _) rfl rfl (fun _ _ hpost => hpost) rfl fun h' => ?_
    rw [Exec.execute]
    exact .of_error rfl h'
  executeEach _ h := by
    refine .task h (List.forall_mem_nil _) rfl rfl (fun _ _ hpost => hpost) rfl fun h' => ?_
    rw [Exec.executeEach]
    exact .of_error rfl h'
  iterate _ _ _ h := by
    refine .task h (List.forall_mem_nil _) rfl rfl (fun _ _ hpost => hpost) rfl fun h' => ?_
    rw [Exec.iterate]
    exact .of_error rfl h'

/-- What a property assignment does before the field is set. -/
def assignee (rules : Rules) (fuel : Nat) (object value : Expr) (name : Token) :
    Exec (Instance × Value) := do
  match ← Exec.evaluate rules fuel object with
  | .object owner => return (owner, ← Exec.evaluate rules fuel value)
  | _ => Exec.fail .noFields name.line

theorem evaluate_set (rules : Rules) (fuel : Nat) (object value : Expr) (name : Token) :
    Exec.evaluate rules (fuel + 1) (.set object name value) =
      assignee rules fuel object value name >>= fun (owner, result) => do
        setField owner name.lexeme result
        return result := by
  rw [Exec.evaluate, assignee, bind_assoc]
  congr 1
  funext found
  cases found with
  | object owner => simp only [bind_assoc, pure_bind]
  | _ => rfl

/-- What a property assignment assigns, to which instance. -/
theorem assignment?_of_ok {object value : Expr} {name : Token} {owner : Instance} {result : Value}
    (h : assignee rules fuel object value name m = .ok (owner, result) m') :
    Moment.assignment? rules ⟨fuel + 1, .evaluate (.set object name value), m⟩ =
      some (owner, name.lexeme, result) := by
  have hset := (congrFun (evaluate_set rules fuel object value name) m).trans (bind_of_ok h)
  obtain ⟨found, m₁, hobject, hrest⟩ := of_bind_ok h
  cases found with
  | object owner' =>
    obtain ⟨result', m₂, -, hsame⟩ := of_bind_ok hrest
    cases hsame
    simp only [Moment.assignment?, hobject, hset]
    rfl
  | _ => cases hrest

/-- The parts of a property assignment go on with the chronicle. -/
theorem assignee_continues (h : ContinuesAt o rules fuel) (object value : Expr) (name : Token)
    (hchronicle : Chronicle o g events m) :
    Continues o rules g events
      (Moment.parts rules ⟨fuel + 1, .evaluate (.set object name value), m⟩)
      (fun g' assigned => (Value.object assigned.1).In g' ∧ assigned.2.In g')
      (assignee rules fuel object value name) m := by
  refine .first (h.evaluate object hchronicle) fun g₁ found m₁ _ _ hfound h₁ => ?_
  cases found with
  | object owner =>
    refine .last (h.evaluate value h₁) fun g₂ result m₂ _ hle hresult h₂ => ?_
    exact .pure h₂ ⟨hfound.mono hle, hresult⟩
  | _ => exact .fail h₁ _ _

/-- A property assignment changes the field when its parts have ended. -/
theorem set_succ (h : ContinuesAt o rules fuel) (object value : Expr) (name : Token)
    (hchronicle : Chronicle o g events m) :
    Continues o rules g events [⟨fuel + 1, .evaluate (.set object name value), m⟩]
      (fun g' value => value.In g')
      (Exec.evaluate rules (fuel + 1) (.set object name value)) m := by
  let x : Moment := ⟨fuel + 1, .evaluate (.set object name value), m⟩
  have hbegins : Chronicle o g (events ++ [.begins rules x]) m :=
    hchronicle.begins (x := x) (List.forall_mem_nil _) rules
  obtain ⟨g', hle, hparts, hassigned⟩ := h.assignee_continues object value name hbegins
  -- The object and the value are evaluated first, as one computation.
  cases hrun : assignee rules fuel object value name m with
  -- It fails, so no field is set and the evaluation is one of a plain task.
  | error e m' =>
    have hset := (congrFun (evaluate_set rules fuel object value name) m).trans (bind_of_error hrun)
    have hplain : x.assignment? rules = none := by
      simp only [x, Moment.assignment?, hset]
      split
      · rename_i hok
        cases hok
      · rfl
    rw [hrun] at hparts
    refine .task hchronicle (List.forall_mem_nil _) rfl rfl (fun _ _ => yields_value) hplain
      fun _ => ?_
    refine ⟨g', hle, ?_, fun a m'' ha => by cases hset.symm.trans ha⟩
    rw [hset]
    exact hparts
  -- It ends well, and the end of the evaluation is the event of the assignment.
  | ok assigned m' =>
    obtain ⟨owner, result⟩ := assigned
    obtain ⟨howner, hresult⟩ := hassigned _ _ hrun
    have hset := (congrFun (evaluate_set rules fuel object value name) m).trans (bind_of_ok hrun)
    rw [hrun] at hparts
    have hends := Chronicle.ends (x := x) hparts
    simp only [x, Moment.final, Moment.yielded, hset] at hends
    refine ⟨g', hle, ?_, ?_⟩
    · rw [hset]
      refine hends (hparts.In.modify howner name.lexeme hresult) (yields_value hresult) ?_
      -- The field that is assigned to now has the new value, the others theirs.
      intro i p
      rw [Event.assigned?, assignment?_of_ok hrun]
      refine (hparts.In.field?_modify howner _ _ _ _).trans ?_
      simp only [Option.bind_some]
      split <;> rfl
    · intro a m'' ha
      cases hset.symm.trans ha
      exact hresult

theorem evaluate_succ (h : ContinuesAt o rules fuel) (e : Expr)
    (hchronicle : Chronicle o g events m) :
    Continues o rules g events [⟨fuel + 1, .evaluate e, m⟩] (fun g' value => value.In g')
      (Exec.evaluate rules (fuel + 1) e) m := by
  -- Setting a field is the one task that is an assignment to a field; it has a lemma of its own.
  by_cases hset : ∃ object name value, e = .set object name value
  · obtain ⟨object, name, value, rfl⟩ := hset
    exact h.set_succ object value name hchronicle
  have hplain : Moment.assignment? rules ⟨fuel + 1, .evaluate e, m⟩ = none := by
    cases e with
    | set object name value => exact absurd ⟨object, name, value, rfl⟩ hset
    | _ => rfl
  -- All other expressions only extend the chronicle by what their parts do.
  refine .task hchronicle (List.forall_mem_nil _) rfl rfl (fun _ _ => yields_value) hplain
    fun h' => ?_
  have hx := Event.begins_mem events rules ⟨fuel + 1, .evaluate e, m⟩
  rw [Exec.evaluate.eq_def]
  cases e with
  | literal value =>
    refine .pure h' ?_
    cases value <;> trivial
  | group inner => exact h.evaluate inner h'
  | unary operator operand =>
    refine .last (h.evaluate operand h') fun g₁ value m₁ _ _ _ h₁ => .lift h₁ fun result hresult => ?_
    -- An operator yields a plain value, which every census contains.
    exact ((Operator.same_unary_self operator value).plain hresult).isPlain.In g₁
  | binary left operator right =>
    refine .first (h.evaluate left h') fun g₁ leftValue m₁ _ _ _ h₁ => ?_
    refine .last (h.evaluate right h₁) fun g₂ rightValue m₂ _ _ _ h₂ => ?_
    refine .lift h₂ fun result hresult => ?_
    have hsame := Operator.same_binary_self operator leftValue rightValue
    exact (hsame.plain hresult).isPlain.In g₂
  | logical left operator right =>
    refine .first (h.evaluate left h') fun g₁ value m₁ _ _ hvalue h₁ => ?_
    split
    · exact .pure h₁ hvalue
    · exact h.evaluate right h₁
  | read place => exact .readVariable h' place
  | this place => exact .readResolved h' place
  | super place method =>
    -- The bound method arises from this look at the superclass.
    refine .getSuper h' place method fun _ _ _ _ _ _ hd hsuper hthis hfound hbind => ?_
    exact .bound hx (.super hd hsuper hthis hfound hbind)
  | assign place value =>
    refine .last (h.evaluate value h') fun g₁ result m₁ _ _ hresult h₁ => ?_
    refine .silent (.assignVariable h₁ place hresult) fun g₂ _ m₂ _ hle _ h₂ => ?_
    exact .pure h₂ (hresult.mono hle)
  | call callee paren arguments =>
    refine .first (h.evaluate callee h') fun g₁ value m₁ _ _ hvalue h₁ => ?_
    refine .first (h.evaluateEach arguments h₁) fun g₂ values m₂ _ hle₂ hvalues h₂ => ?_
    -- A check, a count or a frame leaves the instances as they are.
    refine .after (.checkCall h₂ _ _ _) fun g₃ _ m₃ _ hle₃ _ h₃ => ?_
    refine .asCall (h.call paren.line (h₃.of_eq rfl rfl rfl) ((hvalue.mono hle₂).mono hle₃) ?_)
    exact fun v hv => (hvalues v hv).mono hle₃
  | get object name =>
    refine .last (h.evaluate object h') fun g₁ value m₁ hobject _ hvalue h₁ => ?_
    cases value with
    | object owner =>
      -- A bound method arises from this property, of an instance that has no such field.
      refine .getProperty h₁ hvalue name fun _ _ _ hfield hmethod hbind => ?_
      exact .bound (List.mem_append_left _ hx) (.property hobject hfield hmethod hbind)
    | _ => exact .fail h₁ _ _
  | set object name value => exact absurd ⟨object, name, value, rfl⟩ hset

theorem evaluateEach_succ (h : ContinuesAt o rules fuel) (es : List Expr)
    (hchronicle : Chronicle o g events m) :
    Continues o rules g events [⟨fuel + 1, .evaluateEach es, m⟩]
      (fun g' values => ∀ value ∈ values, Value.In g' value)
      (Exec.evaluateEach rules (fuel + 1) es) m := by
  refine .task hchronicle (List.forall_mem_nil _) rfl rfl (fun _ _ hpost => hpost) rfl fun h' => ?_
  rw [Exec.evaluateEach.eq_def]
  cases es with
  | nil => exact .pure h' (List.forall_mem_nil _)
  | cons e rest =>
    refine .first (h.evaluate e h') fun g₁ value m₁ _ _ hvalue h₁ => ?_
    refine .last (h.evaluateEach rest h₁) fun g₂ values m₂ _ hle hvalues h₂ => ?_
    exact .pure h₂ (List.forall_mem_cons.mpr ⟨hvalue.mono hle, hvalues⟩)

theorem call_succ (h : ContinuesAt o rules fuel) {callee : Value} {arguments : List Value}
    (line : Nat) (hchronicle : Chronicle o g events m) (hcallee : callee.In g)
    (harguments : ∀ value ∈ arguments, value.In g) :
    Continues o rules g events [⟨fuel + 1, .call callee arguments line, m⟩]
      (fun g' value => value.In g') (Exec.call rules (fuel + 1) callee arguments line) m := by
  refine .task hchronicle (List.forall_mem_cons.mpr ⟨hcallee, harguments⟩) rfl rfl
    (fun _ _ => yields_value) rfl fun h' => ?_
  rw [Exec.call.eq_def]
  cases callee with
  | native native => exact .callNative h' native arguments line
  | function f => exact h.callFunction line h' hcallee harguments
  | «class» c =>
    rw [Moment.parts_class]
    refine .after (.newInstance h' hcallee) fun g₁ owner m₁ hinstance hle₁ howner h₁ => ?_
    cases hmethod : c.initializer? with
    | none => exact .pure h₁ howner
    | some method =>
      refine .after (.bindMethod h₁ method howner fun f m' hbind => .bound
        (Event.begins_mem events rules _) (.initializer hinstance hmethod hbind))
        fun g₂ f m₂ _ hle₂ hf h₂ => ?_
      refine .last (h.callFunction line h₂ hf ?_) fun g₃ _ m₃ _ hle₃ _ h₃ => ?_
      · exact fun value hvalue => ((harguments value hvalue).mono hle₁).mono hle₂
      · exact .pure h₃ ((howner.mono hle₂).mono hle₃)
  | _ => exact .fail h' _ _

theorem callFunction_succ (h : ContinuesAt o rules fuel) {f : Function}
    {arguments : List Value} (line : Nat) (hchronicle : Chronicle o g events m) (hf : f.In g)
    (harguments : ∀ value ∈ arguments, value.In g) :
    Continues o rules g events [⟨fuel + 1, .callFunction f arguments line, m⟩]
      (fun g' value => value.In g') (Exec.callFunction rules (fuel + 1) f arguments line) m := by
  refine .task hchronicle (List.forall_mem_cons.mpr ⟨hf, harguments⟩) rfl rfl
    (fun _ _ => yields_value) rfl fun h' => ?_
  rw [Exec.callFunction.eq_def]
  refine .after (.bindArguments h' f harguments) fun g₁ frame m₁ _ _ _ h₁ => ?_
  have hinner : Chronicle o g₁ _ { m₁ with current := frame } := h₁.of_eq rfl rfl rfl
  refine .last (.inFrame (h.executeEach f.declaration.body hinner)) fun g₂ flow m₂ _ _ hflow h₂ => ?_
  exact .callResult h₂ f hflow line

theorem execute_succ (h : ContinuesAt o rules fuel) (s : Stmt)
    (hchronicle : Chronicle o g events m) :
    Continues o rules g events [⟨fuel + 1, .execute s, m⟩]
      (fun g' flow => ∀ value ∈ flow.values, value.In g') (Exec.execute rules (fuel + 1) s) m := by
  refine .task hchronicle (List.forall_mem_nil _) rfl rfl (fun _ _ hpost => hpost) rfl fun h' => ?_
  rw [Exec.execute.eq_def]
  cases s with
  | expression value => exact .last (h.evaluate value h') fun _ _ _ _ _ _ h₁ => .plainFlow h₁ rfl
  | var name value =>
    cases value with
    | none => exact .silent (.define h' _ trivial) fun _ _ _ _ _ _ h₁ => .plainFlow h₁ rfl
    | some value =>
      refine .last (h.evaluate value h') fun g₁ result m₁ _ _ hresult h₁ => ?_
      exact .silent (.define h₁ _ hresult) fun _ _ _ _ _ _ h₂ => .plainFlow h₂ rfl
  | block body =>
    rw [Moment.parts_block]
    refine .after (.newInnerFrame h') fun g₁ frame m₁ _ _ _ h₁ => ?_
    have hinner : Chronicle o g₁ _ { m₁ with current := frame } := h₁.of_eq rfl rfl rfl
    exact .inFrame (h.executeEach body hinner)
  | conditional condition thenBranch elseBranch =>
    refine .first (h.evaluate condition h') fun g₁ value m₁ _ _ _ h₁ => ?_
    split
    · exact h.execute thenBranch h₁
    · cases elseBranch with
      | none => exact .plainFlow h₁ rfl
      | some branch => exact h.execute branch h₁
  | loop condition body increment => exact h.iterate condition body increment h'
  -- The declared function arises from this declaration, which leaves it in its frame.
  | function d =>
    have harises : Arises (events ++ [.begins rules ⟨fuel + 1, .execute (.function d), m⟩])
        ⟨m.nextIdentity, d, m.current, false⟩ :=
      .declared (Event.begins_mem events rules ⟨fuel + 1, .execute _, m⟩) trivial fun hlt =>
        ⟨_, .function rfl (Frames.findIn?_define_self hlt _ _)⟩
    refine .get_bind
      (.silent (.newFunction h' d m.current false harises) fun g₁ f m₁ _ _ hf h₁ => ?_)
    have hvalue : (Value.function f).In g₁ := hf.1
    exact .silent (.define h₁ _ hvalue) fun _ _ _ _ _ _ h₂ => .plainFlow h₂ rfl
  | returning keyword value =>
    cases value with
    | none => exact .pure h' (yields_value trivial)
    | some value =>
      exact .last (h.evaluate value h') fun _ _ _ _ _ hvalue h₁ => .pure h₁ (yields_value hvalue)
  | breaking keyword => exact .plainFlow h' rfl
  | continuing keyword => exact .plainFlow h' rfl
  | «class» name superclass methods =>
    refine .silent (.declareClass h' name superclass methods fun m' c key f hrun hbound hkey => ?_)
      fun _ _ _ _ _ _ h₁ => .plainFlow h₁ rfl
    -- A method of the class arises from the execution of the declaration as a whole.
    have hexecuted : Exec.execute rules (fuel + 1) (.class name superclass methods) m =
        .ok .normal m' := bind_of_ok hrun
    exact .declared (Event.begins_mem events rules ⟨fuel + 1, .execute _, m⟩) trivial fun hlt =>
      ⟨m', .method hexecuted (hbound hlt) hkey⟩

theorem executeEach_succ (h : ContinuesAt o rules fuel) (ss : List Stmt)
    (hchronicle : Chronicle o g events m) :
    Continues o rules g events [⟨fuel + 1, .executeEach ss, m⟩]
      (fun g' flow => ∀ value ∈ flow.values, value.In g')
      (Exec.executeEach rules (fuel + 1) ss) m := by
  refine .task hchronicle (List.forall_mem_nil _) rfl rfl (fun _ _ hpost => hpost) rfl fun h' => ?_
  rw [Exec.executeEach.eq_def]
  cases ss with
  | nil => exact .plainFlow h' rfl
  | cons s rest =>
    refine .first (h.execute s h') fun g₁ flow m₁ _ _ hflow h₁ => ?_
    cases flow with
    | normal => exact h.executeEach rest h₁
    | _ => exact .pure h₁ hflow

theorem nextTurn (h : ContinuesAt o rules fuel) (condition : Expr) (body : Stmt)
    (increment : Option Expr) (hchronicle : Chronicle o g events m) :
    Continues o rules g events (Moment.partsOfTurn rules fuel condition body m increment)
      (fun g' flow => ∀ value ∈ flow.values, value.In g')
      (Exec.nextTurn rules fuel condition body increment) m := by
  cases increment with
  | none => exact h.iterate condition body none hchronicle
  | some step =>
    refine .first (h.evaluate step hchronicle) fun g₁ _ m₁ _ _ _ h₁ => ?_
    exact h.iterate condition body (some step) h₁

theorem iterate_succ (h : ContinuesAt o rules fuel) (condition : Expr) (body : Stmt)
    (increment : Option Expr) (hchronicle : Chronicle o g events m) :
    Continues o rules g events [⟨fuel + 1, .iterate condition body increment, m⟩]
      (fun g' flow => ∀ value ∈ flow.values, value.In g')
      (Exec.iterate rules (fuel + 1) condition body increment) m := by
  refine .task hchronicle (List.forall_mem_nil _) rfl rfl (fun _ _ hpost => hpost) rfl fun h' => ?_
  rw [Exec.iterate_succ]
  refine .first (h.evaluate condition h') fun g₁ value m₁ _ _ _ h₁ => ?_
  split
  · refine .first (h.execute body h₁) fun g₂ flow m₂ _ _ hflow h₂ => ?_
    cases flow with
    | normal => exact h.nextTurn condition body increment h₂
    | continuing => exact h.nextTurn condition body increment h₂
    | breaking => exact .plainFlow h₂ rfl
    | returning value => exact .pure h₂ hflow
  · exact .plainFlow h₁ rfl

end ContinuesAt

/-- Every task goes on with the chronicle. -/
theorem continuesAt (o : Outset) (rules : Rules) (fuel : Nat) : ContinuesAt o rules fuel := by
  induction fuel with
  | zero => exact .zero o rules
  | succ fuel ih =>
    exact ⟨ih.evaluate_succ, ih.evaluateEach_succ, ih.call_succ, ih.callFunction_succ,
      ih.execute_succ, ih.executeEach_succ, ih.iterate_succ⟩

/-- A task has a chronicle of its own, which starts where the task begins. -/
theorem Moment.chronicle (hm : x.machine.In g) (hgiven : ∀ value ∈ x.task.given, value.In g)
    (rules : Rules) :
    ∃ g', Chronicle ⟨g, x.machine, hm⟩ g' (x.trace rules) (x.final rules) := by
  obtain ⟨fuel, task, m⟩ := x
  have hall := continuesAt ⟨g, m, hm⟩ rules fuel
  have hchronicle : ∀ {α : Type} {post : Census → α → Prop} {p : Exec α},
      Continues ⟨g, m, hm⟩ rules g [] [⟨fuel, task, m⟩] post p m →
      Moment.final rules ⟨fuel, task, m⟩ = endOf (p m) →
      ∃ g', Chronicle ⟨g, m, hm⟩ g' (Moment.trace rules ⟨fuel, task, m⟩)
        (Moment.final rules ⟨fuel, task, m⟩) := by
    rintro α post p ⟨g', -, hg', -⟩ hfinal
    rw [List.flatMap_singleton, List.nil_append] at hg'
    rw [hfinal]
    exact ⟨g', hg'⟩
  cases task with
  | evaluate e => exact hchronicle (hall.evaluate e .start) rfl
  | evaluateEach es => exact hchronicle (hall.evaluateEach es .start) rfl
  | call callee arguments line =>
    obtain ⟨hcallee, harguments⟩ := List.forall_mem_cons.mp hgiven
    exact hchronicle (hall.call line .start hcallee harguments) rfl
  | callFunction f arguments line =>
    obtain ⟨hf, harguments⟩ := List.forall_mem_cons.mp hgiven
    exact hchronicle (hall.callFunction line .start hf harguments) rfl
  | execute s => exact hchronicle (hall.execute s .start) rfl
  | executeEach ss => exact hchronicle (hall.executeEach ss .start) rfl
  | iterate condition body increment => exact hchronicle (hall.iterate condition body increment .start) rfl

end Lox
