import Lox.Proofs.Execution.Similar
import Lox.Proofs.Likeness.Machine

/-!
# Steps that look alike

Two executions look alike in two machines if both go on with values that look alike or
both stop for the same reason, and the machines behind them look alike.  The machines
stay in step: whatever the first one does, the second one does as well.
-/

namespace Lox

/-! ### Errors -/

/-- The same cause of an error, except for the name of a binding that is missing at a distance. -/
inductive CauseLike : RuntimeCause → RuntimeCause → Prop where
  | same (cause : RuntimeCause) : CauseLike cause cause
  | unresolved (name name' : String) (d : Nat) :
      CauseLike (.unresolvedBinding name d) (.unresolvedBinding name' d)

/-- The same error, at lines that correspond. -/
structure ErrorLike (line : Nat → Nat → Prop) (error error' : RuntimeError) : Prop where
  cause : CauseLike error.cause error'.cause
  line : line error.line error'.line

inductive InterruptLike (line : Nat → Nat → Prop) : Interrupt → Interrupt → Prop where
  | error {error error' : RuntimeError} :
      ErrorLike line error error' → InterruptLike line (.error error) (.error error')
  | outOfFuel : InterruptLike line .outOfFuel .outOfFuel

inductive ExceptLike {α : Type} (line : Nat → Nat → Prop) (p : α → α → Prop) :
    Except RuntimeError α → Except RuntimeError α → Prop where
  | ok {a a' : α} : p a a' → ExceptLike line p (.ok a) (.ok a')
  | error {error error' : RuntimeError} :
      ErrorLike line error error' → ExceptLike line p (.error error) (.error error')

/-! ### Results -/

/-- A machine and its world behind a step. -/
structure Onward (W : World) (m : Machine) (W' : World) (m' : Machine) : Prop where
  evolves : Evolves W m.frames W' m'.frames
  current : m'.current = m.current

section

variable {W W' W'' : World} {m m' m'' : Machine}

theorem Onward.refl (W : World) (m : Machine) : Onward W m W m := ⟨.refl _ _, rfl⟩

theorem Onward.trans (h : Onward W m W' m') (h' : Onward W' m' W'' m'') : Onward W m W'' m'' :=
  ⟨h.evolves.trans h'.evolves, h'.current.trans h.current⟩

end

variable {α β : Type}

/-- Results that look alike, of executions that started in the machine `m` and a like one. -/
inductive Alike (K : Likeness) (line : Nat → Nat → Prop) (W : World) (m : Machine)
    (post : World → Machine → α → α → Prop) :
    EStateM.Result Interrupt Machine α → EStateM.Result Interrupt Machine α → Prop where
  | ok {W₁ : World} {m₁ m₁' : Machine} {a a' : α} :
      Onward W m W₁ m₁ → MachineLike K line W₁ m₁ m₁' → post W₁ m₁ a a' →
      Alike K line W m post (.ok a m₁) (.ok a' m₁')
  | error {W₁ : World} {m₁ m₁' : Machine} {e e' : Interrupt} :
      Onward W m W₁ m₁ → MachineLike K line W₁ m₁ m₁' → InterruptLike line e e' →
      Alike K line W m post (.error e m₁) (.error e' m₁')

variable {K : Likeness} {line : Nat → Nat → Prop} {W : World} {m m' : Machine}
  {post : World → Machine → α → α → Prop} {post' : World → Machine → β → β → Prop}

namespace Alike

variable {x x' : Exec α}

theorem pure (h : MachineLike K line W m m') {a a' : α} (hpost : post W m a a') :
    Alike K line W m post ((Pure.pure a : Exec α) m) ((Pure.pure a' : Exec α) m') :=
  .ok (.refl W m) h hpost

theorem outOfFuel (h : MachineLike K line W m m') :
    Alike K line W m post ((Exec.outOfFuel : Exec α) m) ((Exec.outOfFuel : Exec α) m') :=
  .error (.refl W m) h .outOfFuel

theorem fail (h : MachineLike K line W m m') (cause : RuntimeCause) {n n' : Nat}
    (hline : line n n') :
    Alike K line W m post ((Exec.fail cause n : Exec α) m) ((Exec.fail cause n' : Exec α) m') :=
  .error (.refl W m) h (.error ⟨.same cause, hline⟩)

theorem lift (h : MachineLike K line W m m') {r r' : Except RuntimeError α}
    (hr : ExceptLike line (post W m) r r') :
    Alike K line W m post (Exec.lift r m) (Exec.lift r' m') := by
  cases hr with
  | ok hpost => exact .ok (.refl W m) h hpost
  | error he => exact .error (.refl W m) h (.error he)

/-- What follows a computation that does not touch the machine. -/
theorem lift_bind (h : MachineLike K line W m m') {p : α → α → Prop} {r r' : Except RuntimeError α}
    (hr : ExceptLike line p r r') {f f' : α → Exec β}
    (hf : ∀ a a', p a a' → Alike K line W m post' (f a m) (f' a' m')) :
    Alike K line W m post' ((Exec.lift r >>= f) m) ((Exec.lift r' >>= f') m') := by
  cases hr with
  | ok ha => exact hf _ _ ha
  | error he => exact .error (.refl W m) h (.error he)

theorem bind {f f' : α → Exec β} (hx : Alike K line W m post (x m) (x' m'))
    (hf : ∀ W₁ m₁ m₁' a a', Onward W m W₁ m₁ → MachineLike K line W₁ m₁ m₁' →
      post W₁ m₁ a a' → Alike K line W₁ m₁ post' (f a m₁) (f' a' m₁')) :
    Alike K line W m post' ((x >>= f) m) ((x' >>= f') m') := by
  change Alike K line W m post' (EStateM.bind x f m) (EStateM.bind x' f' m')
  unfold EStateM.bind
  generalize x m = r at hx ⊢
  generalize x' m' = r' at hx ⊢
  cases hx with
  | @ok W₁ m₁ m₁' a a' honward hlike hpost =>
    have hrest := hf W₁ m₁ m₁' a a' honward hlike hpost
    change Alike K line W m post' (f a m₁) (f' a' m₁')
    generalize f a m₁ = s at hrest ⊢
    generalize f' a' m₁' = s' at hrest ⊢
    cases hrest with
    | ok honward' hlike' hpost' => exact .ok (honward.trans honward') hlike' hpost'
    | error honward' hlike' he => exact .error (honward.trans honward') hlike' he
  | error honward hlike he => exact .error honward hlike he

theorem weaken {post' : World → Machine → α → α → Prop} (hx : Alike K line W m post (x m) (x' m'))
    (hpost : ∀ W₁ m₁ a a', Onward W m W₁ m₁ → post W₁ m₁ a a' → post' W₁ m₁ a a') :
    Alike K line W m post' (x m) (x' m') := by
  generalize x m = r at hx ⊢
  generalize x' m' = r' at hx ⊢
  cases hx with
  | ok honward hlike hpost' => exact .ok honward hlike (hpost _ _ _ _ honward hpost')
  | error honward hlike he => exact .error honward hlike he

theorem map {f : α → β} (hx : Alike K line W m (fun W₁ m₁ a a' => post' W₁ m₁ (f a) (f a')) (x m) (x' m')) :
    Alike K line W m post' ((f <$> x) m) ((f <$> x') m') := by
  change Alike K line W m post' (EStateM.map f x m) (EStateM.map f x' m')
  unfold EStateM.map
  generalize x m = r at hx ⊢
  generalize x' m' = r' at hx ⊢
  cases hx with
  | ok honward hlike hpost => exact .ok honward hlike hpost
  | error honward hlike he => exact .error honward hlike he

end Alike

/-- Where a machine goes on in another frame, a like one does so in the same frame. -/
theorem MachineLike.setCurrent (h : MachineLike K line W m m') (f : Nat) :
    MachineLike K line W { m with current := f } { m' with current := f } :=
  ⟨h.faithful, h.renamings, h.global, h.size, h.enclosing, h.bound, h.fieldsSize, h.fields, h.nextIdentity,
    rfl, h.depth, h.ticks, h.sink⟩

theorem MachineLike.setDepth (h : MachineLike K line W m m') {d d' : Nat} (hd : d' = d) :
    MachineLike K line W { m with depth := d } { m' with depth := d' } :=
  ⟨h.faithful, h.renamings, h.global, h.size, h.enclosing, h.bound, h.fieldsSize, h.fields, h.nextIdentity,
    h.current, hd, h.ticks, h.sink⟩

namespace Alike

variable {x x' : Exec α}

theorem inFrame (h : MachineLike K line W m m') {f : Nat}
    (hx : Alike K line W { m with current := f } post (x { m with current := f })
      (x' { m' with current := f }))
    (hpost : ∀ W₁ m₁ a a', post W₁ m₁ a a' → post W₁ { m₁ with current := m.current } a a') :
    Alike K line W m post (Exec.inFrame f x m) (Exec.inFrame f x' m') := by
  unfold Exec.inFrame
  simp only [h.current]
  generalize x { m with current := f } = r at hx ⊢
  generalize x' { m' with current := f } = r' at hx ⊢
  cases hx with
  | ok honward hlike hpost' =>
    exact .ok ⟨honward.evolves, rfl⟩ (hlike.setCurrent _) (hpost _ _ _ _ hpost')
  | error honward hlike he => exact .error ⟨honward.evolves, rfl⟩ (hlike.setCurrent _) he

theorem asCall
    (hx : Alike K line W { m with depth := m.depth + 1 } post (x { m with depth := m.depth + 1 })
      (x' { m' with depth := m'.depth + 1 }))
    (hpost : ∀ W₁ m₁ a a' d, post W₁ m₁ a a' → post W₁ { m₁ with depth := d } a a') :
    Alike K line W m post (Exec.asCall x m) (Exec.asCall x' m') := by
  unfold Exec.asCall
  generalize x { m with depth := m.depth + 1 } = r at hx ⊢
  generalize x' { m' with depth := m'.depth + 1 } = r' at hx ⊢
  cases hx with
  | ok honward hlike hpost' =>
    exact .ok ⟨honward.evolves, honward.current⟩ (hlike.setDepth (by rw [hlike.depth]))
      (hpost _ _ _ _ _ hpost')
  | error honward hlike he =>
    exact .error ⟨honward.evolves, honward.current⟩ (hlike.setDepth (by rw [hlike.depth])) he

/-- What follows a look at the machine. -/
theorem get_bind {f f' : Machine → Exec α} (h : Alike K line W m post (f m m) (f' m' m')) :
    Alike K line W m post (((MonadState.get : Exec Machine) >>= f) m)
      (((MonadState.get : Exec Machine) >>= f') m') := h

end Alike

/-! ### Frames -/

theorem Evolves.bound {frames frames' : Frames Value} {W' : World}
    (hevolves : Evolves W frames W' frames') {v v' : Option Value}
    (h : Option.Rel (ValueLike K W frames) v v') : Option.Rel (ValueLike K W' frames') v v' :=
  Option.Rel.imp h fun _ _ hv => hv.evolve hevolves

/-- Names that correspond are bound to values that look alike. -/
theorem MachineLike.define (h : MachineLike K line W m m') {f : Nat} {name name' : String}
    {value value' : Value} (hname : name' = W f name)
    (hvalue : ValueLike K W (m.frames.define f name value) value value') :
    MachineLike K line W { m with frames := m.frames.define f name value }
      { m' with frames := m'.frames.define f name' value' } := by
  have hevolves := Evolves.define W m.frames f name value
  subst hname
  refine ⟨h.faithful, h.renamings, h.global, ?_, ?_, ?_, h.fieldsSize, ?_, h.nextIdentity, h.current, h.depth,
    h.ticks, h.sink⟩
  · rw [Frames.size_define, Frames.size_define]
    exact h.size
  · intro g
    rw [Frames.enclosing?_define, Frames.enclosing?_define]
    exact h.enclosing g
  · intro g other
    change Option.Rel _ ((m.frames.define f name value).findIn? g other)
      ((m'.frames.define f (W f name) value').findIn? g (W g other))
    -- The name itself has the new value, if the frame is there at all.
    by_cases hsame : g = f ∧ other = name
    · obtain ⟨rfl, rfl⟩ := hsame
      by_cases hg : g < m.frames.size
      · have hg' : g < m'.frames.size := h.size.symm ▸ hg
        rw [Frames.findIn?_define_self hg, Frames.findIn?_define_self hg']
        exact .some hvalue
      · have hle := Nat.le_of_not_lt hg
        rw [Frames.findIn?_of_le (by rw [Frames.size_define]; exact hle),
          Frames.findIn?_of_le (by rw [Frames.size_define, h.size]; exact hle)]
        exact .none
    · -- Another name has another image, since renamings are injective.
      have hsame' : ¬ (g = f ∧ W g other = W f name) := by
        rintro ⟨rfl, heq⟩
        exact hsame ⟨rfl, (W g).injective _ _ heq⟩
      rw [Frames.findIn?_define_of_ne value hsame, Frames.findIn?_define_of_ne value' hsame']
      exact hevolves.bound (h.bound g other)
  · intro i other
    exact hevolves.bound (h.fields i other)

/-- A new frame can have any renaming. -/
theorem MachineLike.child (h : MachineLike K line W m m') {outer : Nat}
    (houter : outer < m.frames.size) {σ : Renaming} (hσ : K.allowed σ) :
    MachineLike K line (W.add m.frames σ) { m with frames := m.frames.child outer }
      { m' with frames := m'.frames.child outer } := by
  have hevolves := Evolves.child W m.frames outer σ
  have hnext : m'.frames.next = m.frames.next := h.size
  refine ⟨h.faithful, ?_, ?_, ?_, ?_, ?_, h.fieldsSize, ?_, h.nextIdentity, h.current, h.depth,
    h.ticks, h.sink⟩
  · -- The new frame gets `σ`, the others keep their renamings.
    intro f
    unfold World.add
    split
    · exact hσ
    · exact h.renamings f
  · -- The global frame is not the new one.
    have hglobal : Frames.globalFrame < m.frames.size := Nat.lt_of_le_of_lt (Nat.zero_le _) houter
    exact (hevolves.renamings Frames.globalFrame hglobal).trans h.global
  · rw [Frames.size_child, Frames.size_child, h.size]
  · -- A frame that was there encloses as before, the new one by `outer`, and none is behind it.
    intro g
    by_cases hg : g < m.frames.size
    · rw [Frames.enclosing?_child_of_lt hg, Frames.enclosing?_child_of_lt (h.size.symm ▸ hg)]
      exact h.enclosing g
    · by_cases hlast : g = m.frames.next
      · subst hlast
        rw [Frames.enclosing?_child_next houter, ← hnext,
          Frames.enclosing?_child_next (h.size.symm ▸ houter)]
      · have hnone : ∀ frames : Frames Value, frames.size ≤ g → frames.enclosing? g = none := by
          intro frames hle
          cases hsome : frames.enclosing? g with
          | none => rfl
          | some o =>
            exact absurd (Frames.lt_of_enclosing? hsome).1 (Nat.not_lt_of_le hle)
        have hle : m.frames.size + 1 ≤ g :=
          Nat.lt_of_le_of_ne (Nat.le_of_not_lt hg) fun heq => hlast heq.symm
        have hle' : m'.frames.size + 1 ≤ g := by
          rw [h.size]
          exact hle
        rw [hnone _ (Nat.le_trans (Nat.le_of_eq (Frames.size_child _ _)) hle),
          hnone _ (Nat.le_trans (Nat.le_of_eq (Frames.size_child _ _)) hle')]
  · -- The new frame has no bindings yet.
    intro g other
    change Option.Rel _ ((m.frames.child outer).findIn? g other)
      ((m'.frames.child outer).findIn? g (W.add m.frames σ g other))
    rw [Frames.findIn?_child, Frames.findIn?_child]
    by_cases hg : g < m.frames.size
    · rw [hevolves.renamings g hg]
      exact hevolves.bound (h.bound g other)
    · rw [Frames.findIn?_of_le (Nat.le_of_not_lt hg),
        Frames.findIn?_of_le (by rw [h.size]; exact Nat.le_of_not_lt hg)]
      exact .none
  · intro i other
    exact hevolves.bound (h.fields i other)

namespace Alike

theorem defineIn (h : MachineLike K line W m m') {f : Nat} {name name' : String}
    {value value' : Value} (hname : name' = W f name) (hvalue : ValueLike K W m.frames value value') :
    Alike K line W m (fun W₁ _ _ _ => W₁ = W) (Exec.defineIn f name value m)
      (Exec.defineIn f name' value' m') :=
  .ok ⟨.define .., rfl⟩ (h.define hname (hvalue.evolve (.define ..))) rfl

theorem define (h : MachineLike K line W m m') {name name' : String} {value value' : Value}
    (hname : name' = W m.current name) (hvalue : ValueLike K W m.frames value value') :
    Alike K line W m (fun W₁ _ _ _ => W₁ = W) (Exec.define name value m)
      (Exec.define name' value' m') := by
  change Alike K line W m _ (Exec.defineIn m.current name value m)
    (Exec.defineIn m'.current name' value' m')
  rw [h.current]
  exact defineIn h hname hvalue

theorem newFrame (h : MachineLike K line W m m') {outer : Nat}
    (houter : outer < m.frames.size) {σ : Renaming} (hσ : K.allowed σ) :
    Alike K line W m (fun W₁ m₁ frame frame' => W₁ = W.add m.frames σ ∧
        m₁.frames = m.frames.child outer ∧ frame = m.frames.next ∧ frame' = m.frames.next)
      (Exec.newFrame outer m) (Exec.newFrame outer m') :=
  .ok ⟨.child .., rfl⟩ (h.child houter hσ) ⟨rfl, rfl, rfl, h.size⟩

theorem newInnerFrame (h : MachineLike K line W m m') (hcurrent : m.current < m.frames.size)
    {σ : Renaming} (hσ : K.allowed σ) :
    Alike K line W m (fun W₁ m₁ frame frame' => W₁ = W.add m.frames σ ∧
        m₁.frames = m.frames.child m.current ∧ frame = m.frames.next ∧ frame' = m.frames.next)
      (Exec.newInnerFrame m) (Exec.newInnerFrame m') := by
  change Alike K line W m _ (Exec.newFrame m.current m) (Exec.newFrame m'.current m')
  rw [h.current]
  exact newFrame h hcurrent hσ

/-! ### Functions and instances -/

theorem newIdentity (h : MachineLike K line W m m') :
    Alike K line W m (fun W₁ m₁ id id' => W₁ = W ∧ m₁.frames = m.frames ∧ id' = id)
      (Exec.newIdentity m) (Exec.newIdentity m') := by
  refine .ok ⟨.refl W m.frames, rfl⟩ ?_ ⟨rfl, rfl, h.nextIdentity⟩
  exact ⟨h.faithful, h.renamings, h.global, h.size, h.enclosing, h.bound, h.fieldsSize, h.fields,
    congrArg (· + 1) h.nextIdentity, h.current, h.depth, h.ticks, h.sink⟩

theorem newFunction (h : MachineLike K line W m m') (d d' : FunctionDecl) (closure : Nat)
    (isInitializer : Bool) :
    Alike K line W m (fun W₁ m₁ f f' => W₁ = W ∧ m₁.frames = m.frames ∧ f'.id = f.id ∧
        f.declaration = d ∧ f'.declaration = d' ∧ f.closure = closure ∧ f'.closure = closure ∧
        f.isInitializer = isInitializer ∧ f'.isInitializer = isInitializer)
      (Exec.newFunction d closure isInitializer m)
      (Exec.newFunction d' closure isInitializer m') := by
  unfold Exec.newFunction
  apply bind (newIdentity h)
  rintro W₁ m₁ m₁' id id' honward hlike ⟨rfl, hframes, rfl⟩
  exact pure hlike ⟨rfl, hframes, rfl, rfl, rfl, rfl, rfl, rfl, rfl⟩

theorem newInstance (h : MachineLike K line W m m') (c c' : Class) :
    Alike K line W m (fun W₁ m₁ owner owner' => W₁ = W ∧ m₁.frames = m.frames ∧
        owner'.id = owner.id ∧ owner.cls = c ∧ owner'.cls = c')
      (Exec.newInstance c m) (Exec.newInstance c' m') := by
  refine .ok ⟨.refl W m.frames, rfl⟩ ?_ ⟨rfl, rfl, h.fieldsSize, rfl, rfl⟩
  refine ⟨h.faithful, h.renamings, h.global, h.size, h.enclosing, h.bound, ?_, ?_, h.nextIdentity, h.current,
    h.depth, h.ticks, h.sink⟩
  · rw [Array.size_push, Array.size_push, h.fieldsSize]
  · intro i name
    rw [Bindings.find?_getD_push, Bindings.find?_getD_push]
    exact h.fields i name

/-! ### Output and time -/

theorem write (h : MachineLike K line W m m') (text : String) {n n' : Nat} (hline : line n n') :
    Alike K line W m (fun _ _ _ _ => True) (Exec.write text n m) (Exec.write text n' m') := by
  unfold Exec.write
  apply get_bind
  rw [h.sink]
  split
  · exact fail h _ hline
  · refine .ok ⟨.refl W m.frames, rfl⟩ ?_ trivial
    exact ⟨h.faithful, h.renamings, h.global, h.size, h.enclosing, h.bound, h.fieldsSize, h.fields,
      h.nextIdentity, h.current, h.depth, h.ticks, congrArg (Sink.append · text) h.sink⟩

theorem readClock (h : MachineLike K line W m m') (rules : Rules) :
    Alike K line W m (fun _ _ x x' => x' = x) (Exec.readClock rules m)
      (Exec.readClock rules m') := by
  refine .ok ⟨.refl _ _, rfl⟩ ?_ (congrArg rules.clock h.ticks)
  exact ⟨h.faithful, h.renamings, h.global, h.size, h.enclosing, h.bound, h.fieldsSize, h.fields,
    h.nextIdentity, h.current, h.depth, congrArg (· + 1) h.ticks, h.sink⟩

end Alike

end Lox
