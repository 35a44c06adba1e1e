import Lox.Evaluator
import Lox.Proofs.Inset.Steps
import Lox.Proofs.Likeness.Lookup

/-!
# Look-ups and operations with further frames

What is found at a distance on the first side is found on the second side at the distance
that the inset gives.  Tests, comparisons and operators cannot tell values apart that
correspond.
-/

namespace Lox

variable {D D' : Distances} {n : Nat} {image : Nat → Nat} {m m' : Machine} {W : Embedding}
  {σ : Inset} {kind : OccurrenceKind} {place place' : Occurrence}

/-! ### Variables -/

/-- A name at a distance from a frame. -/
theorem MachineEmbedded.getAt (hm : MachineEmbedded D D' image m m') {f f' : Nat}
    (hsees : Sees (m.into m' image) σ f f') (d : Nat) (name : String) (line : Nat) :
    ExceptMatches (ValueEmbedded D D' (m.into m' image)) (m.frames.getAt f d name line)
      (m'.frames.getAt f' (σ d) name line) := by
  unfold Frames.getAt
  cases hg : m.frames.ancestor? f d with
  | none => exact .harmful id
  | some g =>
    have hg' : m'.frames.ancestor? f' (σ d) = some (image g) := hsees.ancestor d g hg
    have hbound := hm.bound g (Frames.lt_of_ancestor? hsees.lt hg) name
    rw [hg', Option.bind_some, Option.bind_some]
    generalize m.frames.findIn? g name = v at hbound ⊢
    generalize m'.frames.findIn? (image g) name = v' at hbound ⊢
    cases hbound with
    | some hvalue => exact .ok hvalue
    | none => exact .harmful id

/-- A name in a frame and in its image. -/
theorem MachineEmbedded.getHere (hm : MachineEmbedded D D' image m m') {f : Nat}
    (hf : f < m.frames.size) (name : String) (line : Nat) :
    ExceptMatches (ValueEmbedded D D' (m.into m' image)) (m.frames.getAt f 0 name line)
      (m'.frames.getAt (image f) 0 name line) := by
  have hbound := hm.bound f hf name
  simp only [Frames.getAt, Frames.ancestor?, Option.bind_some]
  generalize m.frames.findIn? f name = v at hbound ⊢
  generalize m'.frames.findIn? (image f) name = v' at hbound ⊢
  cases hbound with
  | some hvalue => exact .ok hvalue
  | none => exact .harmful id

/-- The global of a name. -/
theorem MachineEmbedded.getGlobal (hm : MachineEmbedded D D' image m m') (name : String)
    (line : Nat) :
    ExceptMatches (ValueEmbedded D D' (m.into m' image))
      (m.frames.get Frames.globalFrame name line) (m'.frames.get Frames.globalFrame name line) := by
  have hbound := hm.bound Frames.globalFrame hm.nonempty name
  rw [hm.global] at hbound
  rw [Frames.get_global, Frames.get_global]
  generalize m.frames.findIn? Frames.globalFrame name = v at hbound ⊢
  generalize m'.frames.findIn? Frames.globalFrame name = v' at hbound ⊢
  cases hbound with
  | some hvalue => exact .ok hvalue
  | none => exact .error

theorem MachineEmbedded.distance (hm : MachineEmbedded D D' image m m')
    (hplace : InPlace D D' σ kind place place') :
    m'.distances[place'.id]? = m.distances[place.id]?.map σ := by
  rw [hm.distances, hm.distances']
  exact hplace.distance

/-- The binding that an assignment changes is in a frame and in its image. -/
theorem MachineEmbedded.target (hm : MachineEmbedded D D' image m m')
    (hsees : Sees (m.into m' image) σ m.current m'.current) {rules : Rules}
    (hrules : rules.lookup = .byDistance) (hplace : InPlace D D' σ kind place place') :
    ExceptMatches (fun f f' => f < m.frames.size ∧ f' = image f) (Exec.target rules place m)
      (Exec.target rules place' m') := by
  unfold Exec.target
  rw [hrules, hm.distance hplace, hplace.name_eq, hplace.line_eq]
  cases m.distances[place.id]? with
  | some d =>
    simp only [Option.map_some, Frames.frameAt]
    cases hg : m.frames.ancestor? m.current d with
    | none => exact .harmful id
    | some g =>
      have hg' : m'.frames.ancestor? m'.current (σ d) = some (image g) := hsees.ancestor d g hg
      rw [hg']
      exact .ok ⟨Frames.lt_of_ancestor? hsees.lt hg, rfl⟩
  | none =>
    have hbound := hm.bound Frames.globalFrame hm.nonempty place.name
    rw [hm.global] at hbound
    simp only [Option.map_none, Frames.frameOf_global]
    generalize m.frames.findIn? Frames.globalFrame place.name = v at hbound ⊢
    generalize m'.frames.findIn? Frames.globalFrame place.name = v' at hbound ⊢
    cases hbound with
    | some _ => exact .ok ⟨hm.nonempty, hm.global.symm⟩
    | none => exact .error

namespace Matches

abbrev Yields (D D' : Distances) (W : Embedding) (value value' : Value) : Prop :=
  ValueEmbedded D D' W value value'

theorem readResolved (hm : MachineEmbedded D D' image m m')
    (hsees : Sees (m.into m' image) σ m.current m'.current)
    (hplace : InPlace D D' σ kind place place') :
    Matches D D' n image m m' (Yields D D') (Exec.readResolved place m)
      fun _ => Exec.readResolved place' m' := by
  unfold Exec.readResolved
  apply get_bind
  rw [hm.distance hplace, hplace.name_eq, hplace.line_eq]
  cases m.distances[place.id]? with
  | some d => exact lift hm (hm.getAt hsees d place.name place.line)
  | none => exact lift hm (hm.getGlobal place.name place.line)

theorem readVariable {rules : Rules} (hrules : rules.lookup = .byDistance)
    (hm : MachineEmbedded D D' image m m')
    (hsees : Sees (m.into m' image) σ m.current m'.current)
    (hplace : InPlace D D' σ kind place place') :
    Matches D D' n image m m' (Yields D D') (Exec.readVariable rules place m)
      fun _ => Exec.readVariable rules place' m' := by
  unfold Exec.readVariable
  rw [hrules]
  exact readResolved hm hsees hplace

theorem assignVariable {rules : Rules} (hrules : rules.lookup = .byDistance)
    (hm : MachineEmbedded D D' image m m')
    (hsees : Sees (m.into m' image) σ m.current m'.current)
    (hplace : InPlace D D' σ kind place place') {value value' : Value}
    (hvalue : ValueEmbedded D D' (m.into m' image) value value') :
    Matches D D' n image m m' (fun _ _ _ => True) (Exec.assignVariable rules place value m)
      fun _ => Exec.assignVariable rules place' value' m' := by
  unfold Exec.assignVariable
  apply get_bind
  apply lift_bind hm (hm.target hsees hrules hplace)
  rintro f f' ⟨hf, hf'⟩
  rw [hplace.name_eq]
  exact defineIn hm hf hf' place.name hvalue

/-! ### Methods and properties -/

/-- A method is bound to an instance in a frame and in its image. -/
theorem bindMethod (hm : MachineEmbedded D D' image m m') {f f' : Function}
    (hf : FunctionEmbedded D D' (m.into m' image) false f f') {owner owner' : Instance}
    (howner : ValueEmbedded D D' (m.into m' image) (.object owner) (.object owner')) :
    Matches D D' n image m m' (fun W g g' => FunctionEmbedded D D' W true g g')
      (Exec.bind f owner m) fun _ => Exec.bind f' owner' m' := by
  obtain ⟨σ, hcode, hsees⟩ := hf.declaration
  unfold Exec.bind
  apply bind (newFrame hm f.closure f'.closure)
  rintro image₁ m₁ m₁' frame frame' honward₁ hm₁ ⟨hW, rfl, rfl⟩
  have hinner : Sees (m₁.into m₁' image₁) σ.enter m.frames.next m'.frames.next := by
    rw [hW]
    exact hsees.child
  have himage := hinner.image_eq rfl
  apply bind (defineIn hm₁ hinner.lt himage "this" (howner.extend honward₁.extends))
  intro image₂ m₂ m₂' _ _ honward₂ hm₂ _
  rw [hf.isInitializer]
  apply weaken (newFunction hm₂ f.declaration f'.declaration m.frames.next m'.frames.next
    f.isInitializer)
  rintro image₃ m₃ m₃' g g' honward₃ ⟨-, id, rfl, rfl⟩
  have hthere := hinner.extend (honward₂.trans honward₃).extends
  exact ⟨rfl, fun _ => hthere.image_eq rfl, rfl, σ.enter, hcode, hthere⟩

end Matches

/-- The nearest methods of a name correspond. -/
theorem ClassEmbedded.findMethod? {c c' : Class} (h : ClassEmbedded D D' W c c')
    (name : String) :
    Option.Rel (FunctionEmbedded D D' W false) (c.findMethod? name) (c'.findMethod? name) :=
  Class.rel_findMethod? (List.Forall₂.imp (fun _ _ hlayer => hlayer.methods name) h)

namespace Matches

theorem getProperty (hm : MachineEmbedded D D' image m m') {owner owner' : Instance}
    (howner : ValueEmbedded D D' (m.into m' image) (.object owner) (.object owner'))
    (name : Token) :
    Matches D D' n image m m' (Yields D D') (Exec.getProperty owner name m)
      fun _ => Exec.getProperty owner' name m' := by
  unfold Exec.getProperty
  apply get_bind
  have hobject := howner
  cases hobject with
  | object hid hclass =>
    have hfield := hm.fields owner.id name.lexeme
    have hmethod := hclass.findMethod? name.lexeme
    rw [hid]
    generalize (m.fields.getD owner.id .empty).find? name.lexeme = v at hfield ⊢
    generalize (m'.fields.getD owner.id .empty).find? name.lexeme = v' at hfield ⊢
    cases hfield with
    | some hvalue => exact pure hm hvalue
    | none =>
      generalize owner.cls.findMethod? name.lexeme = f at hmethod ⊢
      generalize owner'.cls.findMethod? name.lexeme = f' at hmethod ⊢
      cases hmethod with
      | none => exact fail hm _ _
      | some hf =>
        apply bind (bindMethod hm hf howner)
        intro image₁ m₁ m₁' g g' _ hm₁ hg
        exact pure hm₁ (.function hg)

theorem setField (hm : MachineEmbedded D D' image m m') {owner owner' : Instance}
    (hid : owner'.id = owner.id) (name : String) {value value' : Value}
    (hvalue : ValueEmbedded D D' (m.into m' image) value value') :
    Matches D D' n image m m' (fun _ _ _ => True) (Exec.setField owner name value m)
      fun _ => Exec.setField owner' name value' m' := by
  refine .of_ok rfl (.of_frames rfl rfl rfl rfl) ?_ trivial
  refine ⟨hm.distances, hm.distances', hm.nonempty, hm.global, hm.lt, hm.injective, hm.bound,
    ?_, ?_, hm.nextIdentity, hm.depth, hm.ticks, hm.sink⟩
  · rw [Array.size_modify, Array.size_modify, hm.fieldsSize]
  · intro i other
    rw [hid, Bindings.find?_getD_modify, Bindings.find?_getD_modify, hm.fieldsSize]
    split
    · exact .some hvalue
    · exact hm.fields i other

theorem getSuper (hm : MachineEmbedded D D' image m m')
    (hsees : Sees (m.into m' image) σ m.current m'.current)
    (hplace : InPlace D D' σ .super place place') (method : Token) :
    Matches D D' n image m m' (Yields D D') (Exec.getSuper place method m)
      fun _ => Exec.getSuper place' method m' := by
  have hinner := hplace.inner rfl
  rw [← hm.distances] at hinner
  unfold Exec.getSuper
  apply get_bind
  rw [hm.distance hplace, hplace.line_eq]
  cases hd : m.distances[place.id]? with
  | none => exact fail hm _ _
  | some d =>
    simp only [Option.map_some, ← hinner d hd]
    apply lift_bind hm (hm.getAt hsees d "super" place.line)
    intro parent parent' hparent
    apply lift_bind hm (hm.getAt hsees (d - 1) "this" place.line)
    intro owner owner' howner
    cases hparent with
    | «class» hclass =>
      have hobject := howner
      cases hobject with
      | object hid hown =>
        have hfound := hclass.findMethod? method.lexeme
        simp only
        generalize Class.findMethod? _ method.lexeme = f at hfound ⊢
        generalize Class.findMethod? _ method.lexeme = f' at hfound ⊢
        cases hfound with
        | none => exact fail hm _ _
        | some hf =>
          apply bind (bindMethod hm hf howner)
          intro image₁ m₁ m₁' g g' _ hm₁ hg
          exact pure hm₁ (.function hg)
      | _ => exact fail hm _ _
    | _ => exact fail hm _ _

end Matches

/-! ### Tests and operators -/

theorem FunctionEmbedded.arity {bound : Bool} {f f' : Function}
    (h : FunctionEmbedded D D' W bound f f') : f'.arity = f.arity := by
  obtain ⟨σ, hcode, -⟩ := h.declaration
  exact hcode.arity_eq

theorem ClassEmbedded.arity {c c' : Class} (h : ClassEmbedded D D' W c c') :
    c'.arity = c.arity :=
  Class.arity_eq_of_rel (h.findMethod? initializerName) fun _ _ hf => hf.arity

theorem ClassEmbedded.layer {c c' : Class} (h : ClassEmbedded D D' W c c') :
    LayerEmbedded D D' W c.layer c'.layer := by
  cases h with
  | cons hlayer _ => exact hlayer

theorem ClassEmbedded.id {c c' : Class} (h : ClassEmbedded D D' W c c') : c'.id = c.id :=
  h.layer.id

namespace ValueEmbedded

variable {value value' : Value}

/-- Values that correspond cannot be told apart without a call. -/
theorem similar (h : ValueEmbedded D D' W value value') : value.Similar value' := by
  cases h with
  | nil => exact .nil
  | bool => exact .bool
  | number => exact .number
  | string => exact .string
  | native => exact .native
  | function hf => exact .function hf.id hf.arity
  | «class» hc => exact .class (ClassEmbedded.id hc) (ClassEmbedded.arity hc)
  | object hid _ => exact .object hid

theorem of_plain (h : value.Plain) : ValueEmbedded D D' W value value := by
  cases value with
  | nil => exact .nil
  | bool => exact .bool
  | number => exact .number
  | string => exact .string
  | _ => cases h

theorem display (h : ValueEmbedded D D' W value value') : value'.display = value.display := by
  cases h with
  | function hf =>
    obtain ⟨σ, hcode, -⟩ := hf.declaration
    simp only [Value.display, Function.name, hcode.name_eq]
  | «class» hc => simp only [Value.display, Class.name, (ClassEmbedded.layer hc).name]
  | object _ hc => simp only [Value.display, Class.name, (ClassEmbedded.layer hc).name]
  | _ => rfl

end ValueEmbedded

/-- The same result of an operator corresponds to itself. -/
theorem Operator.Same.embedded {line : Nat} {result result' : Except RuntimeError Value}
    (h : Operator.Same line line result result') :
    ExceptMatches (ValueEmbedded D D' W) result result' := by
  cases h with
  | ok hplain => exact .ok (.of_plain hplain)
  | error => exact .error

/-! ### Calls -/

namespace Matches

variable {rules : Rules}

theorem checkCall (hm : MachineEmbedded D D' image m m') {callee callee' : Value}
    (hcallee : callee'.arity? = callee.arity?) (count line : Nat) :
    Matches D D' n image m m' (fun _ _ _ => True) (Exec.checkCall rules callee count line m)
      fun _ => Exec.checkCall rules callee' count line m' := by
  unfold Exec.checkCall
  rw [hcallee]
  cases callee.arity? with
  | none => exact fail hm _ _
  | some arity =>
    by_cases hcount : count = arity
    · simp only [hcount, ne_eq, not_true_eq_false, if_false]
      apply get_bind
      rw [hm.depth]
      split
      · exact fail hm _ _
      · exact pure hm trivial
    · simp only [hcount, ne_eq, not_false_eq_true, if_true]
      exact fail hm _ _

theorem callNative (hm : MachineEmbedded D D' image m m') (native : Native)
    {arguments arguments' : List Value}
    (harguments : ValuesEmbedded D D' (m.into m' image) arguments arguments') (line : Nat) :
    Matches D D' n image m m' (Yields D D') (Exec.callNative rules native arguments line m)
      fun _ => Exec.callNative rules native arguments' line m' := by
  unfold Exec.callNative
  cases native with
  | clock =>
    apply bind (readClock hm rules)
    rintro image₁ m₁ m₁' x x' - hm₁ rfl
    exact pure hm₁ .number
  | print =>
    have hdisplay : (arguments'.headD .nil).display = (arguments.headD .nil).display := by
      cases harguments with
      | nil => rfl
      | cons hvalue _ => exact hvalue.display
    simp only [hdisplay]
    apply bind (write hm _ _)
    intro image₁ m₁ m₁' _ _ _ hm₁ _
    apply bind (write hm₁ _ _)
    intro image₂ m₂ m₂' _ _ _ hm₂ _
    exact pure hm₂ .nil

end Matches

end Lox
