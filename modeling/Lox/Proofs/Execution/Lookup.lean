import Lox.Proofs.Execution.Parts

/-!
# Looking up names

Where the frames mirror the scopes of an occurrence, a name that has a distance is
found at this distance, and `this` and `super` stand for an instance and a class.
-/

namespace Lox

open Resolution

variable {V : Visit → Prop} {m : Machine} {scopes : List Scope} {place : Occurrence}

/-! ### What is found -/

/-- The distance of an occurrence is that to the scope of its name. -/
theorem PlaceOk.distance {kind : OccurrenceKind} (h : PlaceOk V scopes kind place)
    (hsound : Sound V m) : m.distances[place.id]? = Resolution.distance? scopes place.name := by
  obtain ⟨r, hscopes, -, -, hvisited⟩ := h
  have hdistance := (hsound.recorded _ hvisited).distance
  rw [Visit.distance?, hscopes] at hdistance
  exact hdistance

/-- A variable with a distance is bound in the frame at that distance. -/
theorem PlaceOk.read_found (h : PlaceOk V scopes .read place) (hsound : Sound V m)
    (hmirrors : Mirrors m.frames scopes m.current) {d : Nat}
    (hd : m.distances[place.id]? = some d) :
    ∃ f value, m.frames.ancestor? m.current d = some f ∧
      m.frames.findIn? f place.name = some value := by
  rw [h.distance hsound] at hd
  obtain ⟨r, rfl, hreadable, -, hvisited⟩ := h
  have hfaultless := (hsound.recorded _ hvisited).faultless
  obtain ⟨scope, hscope, hname⟩ := find?_of_distance? hreadable hfaultless hd
  obtain ⟨f, hf, hbinds⟩ := hmirrors.ancestor? hscope
  obtain ⟨value, hvalue⟩ := hbinds.names _ hname
  exact ⟨f, value, hf, hvalue⟩

/-- Where a name is assigned that has a distance, there is a frame at that distance. -/
theorem PlaceOk.assign_found (h : PlaceOk V scopes .assign place) (hsound : Sound V m)
    (hmirrors : Mirrors m.frames scopes m.current) {d : Nat}
    (hd : m.distances[place.id]? = some d) : ∃ f, m.frames.ancestor? m.current d = some f := by
  rw [h.distance hsound] at hd
  obtain ⟨hlt, -, -⟩ := List.findIdx?_eq_some_iff_getElem.mp hd
  obtain ⟨f, hf, -⟩ := hmirrors.ancestor? (List.getElem?_eq_getElem hlt)
  exact ⟨f, hf⟩

/-- Inside a class, `this` has a distance and is an instance. -/
theorem PlaceOk.this_found (h : PlaceOk V scopes .this place) (hsound : Sound V m)
    (hmirrors : Mirrors m.frames scopes m.current) :
    ∃ d f owner, m.distances[place.id]? = some d ∧ m.frames.ancestor? m.current d = some f ∧
      m.frames.findIn? f place.name = some (.object owner) := by
  rw [h.distance hsound]
  obtain ⟨r, -, -, hstack, hvisited⟩ := h
  have hrecorded := hsound.recorded _ hvisited
  have hname : place.name = "this" := hrecorded.fits
  obtain ⟨d, scope, hd, hscope, hthis⟩ := (hstack nofun).distance?_this hrecorded.faultless
  obtain ⟨f, hf, hbinds⟩ := hmirrors.ancestor? hscope
  obtain ⟨owner, howner⟩ := hbinds.this hthis
  rw [hname]
  exact ⟨d, f, owner, hd, hf, howner⟩

/-- Inside a class with a superclass, `super` is a class and stands directly around `this`. -/
theorem PlaceOk.super_found (h : PlaceOk V scopes .super place) (hsound : Sound V m)
    (hmirrors : Mirrors m.frames scopes m.current) :
    ∃ d f parent g owner, m.distances[place.id]? = some (d + 1) ∧
      m.frames.ancestor? m.current (d + 1) = some f ∧
      m.frames.findIn? f "super" = some (.class parent) ∧
      m.frames.ancestor? m.current d = some g ∧
      m.frames.findIn? g "this" = some (.object owner) := by
  rw [h.distance hsound]
  obtain ⟨r, -, -, hstack, hvisited⟩ := h
  have hrecorded := hsound.recorded _ hvisited
  have hname : place.name = "super" := hrecorded.fits
  obtain ⟨d, inner, around, hd, hinner, hthis, haround, hsuper⟩ :=
    (hstack nofun).distance?_super hrecorded.faultless
  obtain ⟨f, hf, hbinds⟩ := hmirrors.ancestor? haround
  obtain ⟨parent, hparent⟩ := hbinds.super hsuper
  obtain ⟨g, hg, hbinds'⟩ := hmirrors.ancestor? hinner
  obtain ⟨owner, howner⟩ := hbinds'.this hthis
  rw [hname]
  exact ⟨d, f, parent, g, owner, hd, hf, hparent, hg, howner⟩

/-! ### Reading and assigning -/

theorem Frames.getAt_of_found {frames : Frames Value} {f g d : Nat} {name : String}
    {value : Value} (hg : frames.ancestor? f d = some g)
    (hvalue : frames.findIn? g name = some value) (line : Nat) :
    frames.getAt f d name line = .ok value := by
  simp [Frames.getAt, hg, hvalue]

theorem Frames.get_cases (frames : Frames Value) (f : Nat) (name : String) (line : Nat) :
    (∃ g value, frames.findIn? g name = some value ∧ frames.get f name line = .ok value) ∨
      frames.get f name line = .error ⟨.undefinedVariable name, line⟩ := by
  unfold Frames.get
  cases hholder : frames.holder? name f with
  | none => exact .inr rfl
  | some g =>
    cases hfound : frames.findIn? g name with
    | none => exact .inr (by simp [hfound])
    | some value => exact .inl ⟨g, value, hfound, by simp [hfound]⟩

namespace Keeps

/-- What a step that yields a value says about it. -/
abbrev Yields (V : Visit → Prop) (value : Value) (m : Machine) : Prop := ValueOk V m.frames value

theorem lift_get (h : Sound V m) (f : Nat) (name : String) (line : Nat) :
    Keeps V m (Yields V) (Exec.lift (m.frames.get f name line) m) := by
  rcases m.frames.get_cases f name line with ⟨g, value, hfound, hok⟩ | herror
  · rw [hok]
    exact ⟨h.after, h.bound g name value hfound⟩
  · rw [herror]
    exact ⟨h.after, trivial⟩

theorem readResolved (h : Sound V m)
    (hfound : ∀ d, m.distances[place.id]? = some d →
      ∃ f value, m.frames.ancestor? m.current d = some f ∧
        m.frames.findIn? f place.name = some value) :
    Keeps V m (Yields V) (Exec.readResolved place m) := by
  unfold Exec.readResolved
  apply bind (get h)
  rintro found m' - ⟨rfl, rfl⟩
  cases hd : m'.distances[place.id]? with
  | none => exact lift_get h _ _ _
  | some d =>
    obtain ⟨f, value, hf, hvalue⟩ := hfound d hd
    simp only [Frames.getAt_of_found hf hvalue]
    exact ⟨h.after, h.bound f place.name value hvalue⟩

theorem readVariable (rules : Rules) (h : Sound V m) (hplace : PlaceOk V scopes .read place)
    (hmirrors : Mirrors m.frames scopes m.current) :
    Keeps V m (Yields V) (Exec.readVariable rules place m) := by
  unfold Exec.readVariable
  cases rules.lookup with
  | byDistance => exact readResolved h fun d hd => hplace.read_found h hmirrors hd
  | bySearch =>
    apply bind (get h)
    rintro found m' - ⟨rfl, rfl⟩
    exact lift_get h _ _ _

theorem readThis (h : Sound V m) (hplace : PlaceOk V scopes .this place)
    (hmirrors : Mirrors m.frames scopes m.current) :
    Keeps V m (Yields V) (Exec.readResolved place m) := by
  apply readResolved h
  intro d hd
  obtain ⟨d', f, owner, hd', hf, howner⟩ := hplace.this_found h hmirrors
  rw [hd', Option.some.injEq] at hd
  subst hd
  exact ⟨f, .object owner, hf, howner⟩

/-- An assignment only ever changes the value of a variable. -/
theorem assignVariable (rules : Rules) (h : Sound V m) (hplace : PlaceOk V scopes .assign place)
    (hmirrors : Mirrors m.frames scopes m.current) {value : Value}
    (hvalue : ValueOk V m.frames value) :
    Keeps V m (fun _ _ => True) (Exec.assignVariable rules place value m) := by
  have hname : IsName place.name := by
    obtain ⟨r, -, -, -, hvisited⟩ := hplace
    exact (h.recorded _ hvisited).fits
  -- A search fails only for a name that is nowhere, which is harmless.
  have hof : ∀ f error, m.frames.frameOf f place.name place.line = .error error →
      error.cause.Harmless := by
    intro f error herror
    unfold Frames.frameOf at herror
    split at herror
    · cases herror
    · cases herror
      trivial
  unfold Exec.assignVariable
  apply bind (get h)
  rintro found m' - ⟨rfl, rfl⟩
  -- The target is found without a change to the machine.
  have htarget : Keeps V m' (fun _ m => m = m') (Exec.lift (Exec.target rules place m') m') := by
    refine lift h (fun _ _ => rfl) ?_
    intro error herror
    unfold Exec.target at herror
    split at herror
    · exact hof _ _ herror
    · split at herror
      · rename_i d hd
        -- A distance that is recorded leads to a frame.
        obtain ⟨f, hf⟩ := hplace.assign_found h hmirrors hd
        rw [Frames.frameAt, hf] at herror
        cases herror
      · exact hof _ _ herror
  apply bind htarget
  rintro frame m - rfl
  exact weaken (defineIn h (.inl hname) hvalue) fun _ _ _ _ => trivial

/-! ### Properties -/

theorem getProperty (h : Sound V m) {owner : Instance} (howner : ClassOk V m.frames owner.cls)
    (name : Token) : Keeps V m (Yields V) (Exec.getProperty owner name m) := by
  unfold Exec.getProperty
  apply bind (get h)
  rintro found m' - ⟨rfl, rfl⟩
  cases hfield : (m'.fields.getD owner.id .empty).find? name.lexeme with
  | some value =>
    exact pure h (forall_fields_getD h.fields hfield)
  | none =>
    cases hmethod : owner.cls.findMethod? name.lexeme with
    | none => exact fail h (by trivial) _
    | some method =>
      apply bind (bindMethod h (howner.findMethod? hmethod) howner)
      intro f m₁ hafter hf
      exact pure hafter.sound hf.1

theorem setField (h : Sound V m) (owner : Instance) (name : String) {value : Value}
    (hvalue : ValueOk V m.frames value) :
    Keeps V m (fun _ _ => True) (Exec.setField owner name value m) :=
  ⟨h.setFields (forall_fields_modify h.fields hvalue), trivial⟩

theorem lift_ok_bind {α β : Type} (a : α) (f : α → Exec β) :
    (Exec.lift (.ok a) >>= f) = f a := rfl

theorem getSuper (h : Sound V m) (hplace : PlaceOk V scopes .super place)
    (hmirrors : Mirrors m.frames scopes m.current) (method : Token) :
    Keeps V m (Yields V) (Exec.getSuper place method m) := by
  obtain ⟨d, f, parent, g, owner, hd, hf, hparent, hg, howner⟩ := hplace.super_found h hmirrors
  unfold Exec.getSuper
  apply bind (get h)
  rintro found m' - ⟨rfl, rfl⟩
  simp only [hd, Frames.getAt_of_found hf hparent, Nat.add_sub_cancel,
    Frames.getAt_of_found hg howner, lift_ok_bind]
  have hclass : ClassOk V m'.frames parent := h.bound f "super" _ hparent
  cases hmethod : parent.findMethod? method.lexeme with
  | none => exact fail h (by trivial) _
  | some found =>
    have howned : ClassOk V m'.frames owner.cls := h.bound g "this" _ howner
    apply bind (bindMethod h (hclass.findMethod? hmethod) howned)
    intro f m₁ hafter hf
    exact pure hafter.sound hf.1

end Keeps

end Lox
