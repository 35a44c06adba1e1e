import Lox.Proofs.Likeness.Steps

/-!
# Look-ups that look alike

In machines that look alike, occurrences that correspond are found at the same
distance, where names that correspond are bound to values that look alike.
-/

namespace Lox

variable {K : Likeness} {line : Nat → Nat → Prop} {W : World} {m m' : Machine}
  {Γ : Surroundings}

/-! ### The global frame -/

theorem Frames.get_global (frames : Frames Value) (name : String) (n : Nat) :
    frames.get globalFrame name n =
      match frames.findIn? globalFrame name with
      | some value => .ok value
      | none => .error ⟨.undefinedVariable name, n⟩ := by
  unfold Frames.get
  rw [Frames.holder?_global]
  cases hfound : frames.findIn? globalFrame name with
  | none => rfl
  | some value => simp [hfound]

/-! ### Frames at a distance -/

theorem MachineLike.ancestor? (h : MachineLike K line W m m') (f d : Nat) :
    m'.frames.ancestor? f d = m.frames.ancestor? f d := by
  induction d generalizing f with
  | zero => rfl
  | succ d ih =>
    rw [Frames.ancestor?, Frames.ancestor?, h.enclosing]
    cases m.frames.enclosing? f with
    | none => rfl
    | some outer => exact ih outer

/-- A name at a distance, in frames whose renaming is known. -/
theorem MachineLike.getAt (h : MachineLike K line W m m')
    (hfollows : Follows W m.frames Γ m.current) (d : Nat) {name name' : String} {n n' : Nat}
    (hname : name' = Γ d name) (hline : line n n') :
    ExceptLike line (ValueLike K W m.frames) (m.frames.getAt m.current d name n)
      (m'.frames.getAt m'.current d name' n') := by
  rw [h.current]
  unfold Frames.getAt
  rw [h.ancestor?]
  cases hg : m.frames.ancestor? m.current d with
  | none => exact .error ⟨.unresolved _ _ _, hline⟩
  | some g =>
    have hbound := h.bound g name
    rw [hfollows.renamings d g hg, ← hname] at hbound
    simp only [Option.bind_some]
    generalize m.frames.findIn? g name = v at hbound ⊢
    generalize m'.frames.findIn? g name' = v' at hbound ⊢
    cases hbound with
    | some hvalue => exact .ok hvalue
    | none => exact .error ⟨.unresolved _ _ _, hline⟩

/-- The global of a name. -/
theorem MachineLike.getGlobal (h : MachineLike K line W m m') (name : String) {n n' : Nat}
    (hline : line n n') :
    ExceptLike line (ValueLike K W m.frames) (m.frames.get Frames.globalFrame name n)
      (m'.frames.get Frames.globalFrame name n') := by
  have hbound := h.bound Frames.globalFrame name
  rw [h.global, Renaming.same_apply] at hbound
  rw [Frames.get_global, Frames.get_global]
  generalize m.frames.findIn? Frames.globalFrame name = v at hbound ⊢
  generalize m'.frames.findIn? Frames.globalFrame name = v' at hbound ⊢
  cases hbound with
  | some hvalue => exact .ok hvalue
  | none => exact .error ⟨.same _, hline⟩

/-- Both assignments find the same frame, and names for it that correspond. -/
theorem MachineLike.target (h : MachineLike K line W m m')
    (hfollows : Follows W m.frames Γ m.current) {rules : Rules} (hrules : rules.lookup = .byDistance)
    {place place' : Occurrence} (hplace : K.place Γ place place') :
    ExceptLike line (fun f f' => f' = f ∧ place'.name = W f place.name)
      (Exec.target rules place m) (Exec.target rules place' m') := by
  have hline := h.faithful.line _ _ _ hplace
  unfold Exec.target
  rw [hrules, h.faithful.distance _ _ _ hplace]
  cases hd : m.distances[place.id]? with
  | some d =>
    simp only [Frames.frameAt]
    rw [h.current, h.ancestor?]
    cases hg : m.frames.ancestor? m.current d with
    | none => exact .error ⟨.unresolved _ _ _, hline⟩
    | some g =>
      refine .ok ⟨rfl, ?_⟩
      rw [hfollows.renamings d g hg]
      exact h.faithful.near _ _ _ hplace d hd
  | none =>
    have hname := h.faithful.far _ _ _ hplace hd
    have hbound := h.bound Frames.globalFrame place.name
    rw [h.global, Renaming.same_apply] at hbound
    simp only [hname, Frames.frameOf_global]
    generalize m.frames.findIn? Frames.globalFrame place.name = v at hbound ⊢
    generalize m'.frames.findIn? Frames.globalFrame place.name = v' at hbound ⊢
    cases hbound with
    | some _ =>
      refine .ok ⟨rfl, ?_⟩
      rw [h.global, Renaming.same_apply]
    | none => exact .error ⟨.same _, hline⟩

namespace Alike

theorem readResolved (h : MachineLike K line W m m') (hfollows : Follows W m.frames Γ m.current)
    {place place' : Occurrence} (hplace : K.place Γ place place') :
    Alike K line W m (fun W₁ m₁ v v' => ValueLike K W₁ m₁.frames v v')
      (Exec.readResolved place m) (Exec.readResolved place' m') := by
  have hline := h.faithful.line _ _ _ hplace
  unfold Exec.readResolved
  apply get_bind
  rw [h.faithful.distance _ _ _ hplace]
  cases hd : m.distances[place.id]? with
  | some d => exact lift h (h.getAt hfollows d (h.faithful.near _ _ _ hplace d hd) hline)
  | none =>
    rw [h.faithful.far _ _ _ hplace hd]
    exact lift h (h.getGlobal _ hline)

theorem readVariable {rules : Rules} (hrules : rules.lookup = .byDistance)
    (h : MachineLike K line W m m') (hfollows : Follows W m.frames Γ m.current)
    {place place' : Occurrence} (hplace : K.place Γ place place') :
    Alike K line W m (fun W₁ m₁ v v' => ValueLike K W₁ m₁.frames v v')
      (Exec.readVariable rules place m) (Exec.readVariable rules place' m') := by
  unfold Exec.readVariable
  rw [hrules]
  exact readResolved h hfollows hplace

theorem assignVariable {rules : Rules} (hrules : rules.lookup = .byDistance)
    (h : MachineLike K line W m m') (hfollows : Follows W m.frames Γ m.current)
    {place place' : Occurrence} (hplace : K.place Γ place place') {value value' : Value}
    (hvalue : ValueLike K W m.frames value value') :
    Alike K line W m (fun W₁ _ _ _ => W₁ = W) (Exec.assignVariable rules place value m)
      (Exec.assignVariable rules place' value' m') := by
  unfold Exec.assignVariable
  apply get_bind
  apply lift_bind h (h.target hfollows hrules hplace)
  rintro f f' ⟨rfl, hname⟩
  exact defineIn h hname hvalue

/-! ### Methods and properties -/

theorem bindMethod (h : MachineLike K line W m m') {f f' : Function}
    (hf : ClosureLike K W m.frames false f f') {owner owner' : Instance}
    (howner : ValueLike K W m.frames (.object owner) (.object owner')) :
    Alike K line W m (fun W₁ m₁ g g' => ClosureLike K W₁ m₁.frames true g g')
      (Exec.bind f owner m) (Exec.bind f' owner' m') := by
  obtain ⟨Γ, hcode, hfollows⟩ := hf.declaration
  unfold Exec.bind
  rw [hf.closure]
  apply bind (newFrame h hfollows.lt h.faithful.allowed)
  rintro W₁ m₁ m₁' frame frame' honward₁ hlike₁ ⟨rfl, hframes₁, rfl, rfl⟩
  have hinner : Follows (W.add m.frames .same) m₁.frames (Γ.enter .same) m.frames.next := by
    rw [hframes₁]
    exact hfollows.child .same
  have hthis : "this" = W.add m.frames .same m.frames.next "this" := by
    rw [hinner.renamings 0 _ rfl]
    rfl
  apply bind (defineIn hlike₁ hthis (howner.evolve honward₁.evolves))
  rintro W₂ m₂ m₂' _ _ honward₂ hlike₂ rfl
  rw [hf.isInitializer]
  apply weaken (newFunction hlike₂ _ _ _ _)
  rintro W₃ m₃ g g' honward₃ ⟨rfl, hframes₃, hid, hd, hd', hclosure, hclosure', hinit, hinit'⟩
  refine ⟨hid, hclosure'.trans hclosure.symm, hinit'.trans hinit.symm, Γ.enter .same, ?_, ?_⟩
  · rw [hd, hd']
    exact hcode
  · rw [hclosure]
    exact hinner.evolve (honward₂.evolves.trans honward₃.evolves)

end Alike

/-- The nearest methods of a name look alike. -/
theorem ClassLike.findMethod? {frames : Frames Value} {c c' : Class}
    (h : ClassLike K W frames c c') (name : String) :
    Option.Rel (ClosureLike K W frames false) (c.findMethod? name) (c'.findMethod? name) :=
  Class.rel_findMethod? (List.Forall₂.imp (fun _ _ hlayer => hlayer.methods name) h)

namespace Alike

theorem getProperty (h : MachineLike K line W m m') {owner owner' : Instance}
    (howner : ValueLike K W m.frames (.object owner) (.object owner')) {name name' : Token} (hname : K.token name name') :
    Alike K line W m (fun W₁ m₁ v v' => ValueLike K W₁ m₁.frames v v')
      (Exec.getProperty owner name m) (Exec.getProperty owner' name' m') := by
  obtain ⟨-, hlexeme, hline⟩ := h.faithful.token _ _ hname
  unfold Exec.getProperty
  apply get_bind
  cases howner with
  | object hid hclass =>
    have hfield := h.fields owner.id name.lexeme
    have hmethod := hclass.findMethod? name.lexeme
    rw [hid, hlexeme]
    generalize (m.fields.getD owner.id .empty).find? name.lexeme = v at hfield ⊢
    generalize (m'.fields.getD owner.id .empty).find? name.lexeme = v' at hfield ⊢
    cases hfield with
    | some hvalue => exact pure h hvalue
    | none =>
      generalize owner.cls.findMethod? name.lexeme = f at hmethod ⊢
      generalize owner'.cls.findMethod? name.lexeme = f' at hmethod ⊢
      cases hmethod with
      | none => exact fail h _ hline
      | some hf =>
        apply bind (bindMethod h hf (.object hid hclass))
        intro W₁ m₁ m₁' g g' _ hlike hg
        exact pure hlike (.function hg)

theorem setField (h : MachineLike K line W m m') {owner owner' : Instance}
    (hid : owner'.id = owner.id) (name : String) {value value' : Value}
    (hvalue : ValueLike K W m.frames value value') :
    Alike K line W m (fun W₁ _ _ _ => W₁ = W) (Exec.setField owner name value m)
      (Exec.setField owner' name value' m') := by
  refine .ok ⟨.refl W m.frames, rfl⟩ ?_ rfl
  refine ⟨h.faithful, h.renamings, h.global, h.size, h.enclosing, h.bound, ?_, ?_, h.nextIdentity, h.current,
    h.depth, h.ticks, h.sink⟩
  · rw [Array.size_modify, Array.size_modify, h.fieldsSize]
  · intro i other
    rw [hid, Bindings.find?_getD_modify, Bindings.find?_getD_modify, h.fieldsSize]
    split
    · exact .some hvalue
    · exact h.fields i other

theorem getSuper (h : MachineLike K line W m m') (hfollows : Follows W m.frames Γ m.current)
    {place place' : Occurrence} (hplace : K.place Γ place place') {method method' : Token} (hmethod : K.token method method') :
    Alike K line W m (fun W₁ m₁ v v' => ValueLike K W₁ m₁.frames v v')
      (Exec.getSuper place method m) (Exec.getSuper place' method' m') := by
  have hline := h.faithful.line _ _ _ hplace
  obtain ⟨-, hlexeme, hmethodLine⟩ := h.faithful.token _ _ hmethod
  unfold Exec.getSuper
  apply get_bind
  -- The places have the same distance, and the chains the same frames at it.
  rw [h.faithful.distance _ _ _ hplace]
  cases hd : m.distances[place.id]? with
  | none => exact fail h _ hline
  | some d =>
    apply lift_bind h (h.getAt hfollows d (Γ d).super.symm hline)
    intro parent parent' hparent
    apply lift_bind h (h.getAt hfollows (d - 1) (Γ (d - 1)).this.symm hline)
    intro owner owner' howner
    cases hparent with
    -- Anything but a class and an instance is refused on both sides.
    | «class» hclass =>
      cases howner with
      | object hid howner =>
        have hfound := hclass.findMethod? method.lexeme
        simp only [hlexeme]
        generalize Class.findMethod? _ method.lexeme = f at hfound ⊢
        generalize Class.findMethod? _ method.lexeme = f' at hfound ⊢
        cases hfound with
        | none => exact fail h _ hmethodLine
        | some hf =>
          apply bind (bindMethod h hf (.object hid howner))
          intro W₁ m₁ m₁' g g' _ hlike hg
          exact pure hlike (.function hg)
      | _ => exact fail h _ hline
    | _ => exact fail h _ hline

end Alike

end Lox
