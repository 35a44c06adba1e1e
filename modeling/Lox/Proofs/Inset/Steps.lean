import Lox.Proofs.Execution.Signals
import Lox.Proofs.Execution.Similar
import Lox.Proofs.Inset.Machine

/-!
# Executions that arrive at the same

An execution with further frames takes more of the bound of the recursion than one without
them, so the two are not compared bound by bound.  The second one is followed with every
bound at once: it is matched if, once its bound is great enough, it arrives at a result
that corresponds to that of the first, and if it reaches its bound as long as that is not
greater than a bound that the first one reaches.  So one of them ends if the other one
does.  Nothing is said of a first execution that does not find a variable at its distance,
which does not happen to code that was resolved.
-/

namespace Lox

/-- How an execution ends, and the machine it leaves. -/
abbrev Exec.End (α : Type) : Type := EStateM.Result Interrupt Machine α

variable {α α' β β' : Type}

def Exec.End.IsUnfinished (r : Exec.End α) : Prop := ∃ m, r = .error .outOfFuel m

/-- With every bound the result is this one or the bound is reached, and with great bounds it is not. -/
structure Arrives (y : Nat → Exec.End α) (r : Exec.End α) : Prop where
  only : ∀ j, (y j).IsUnfinished ∨ y j = r
  settles : ∃ k, ∀ j, k ≤ j → y j = r

def Exec.End.behind (g : Machine → Machine) : Exec.End α → Exec.End α
  | .ok a m => .ok a (g m)
  | .error e m => .error e (g m)

theorem Exec.End.IsUnfinished.behind {r : Exec.End α} (h : r.IsUnfinished)
    (g : Machine → Machine) : (r.behind g).IsUnfinished := by
  obtain ⟨m, rfl⟩ := h
  exact ⟨g m, rfl⟩

theorem Exec.inFrame_eq (f : FrameId) (x : Exec α) (m : Machine) :
    inFrame f x m =
      End.behind (fun m₁ => { m₁ with current := m.current }) (x { m with current := f }) := by
  unfold inFrame
  cases x { m with current := f } <;> rfl

theorem Exec.asCall_eq (x : Exec α) (m : Machine) :
    asCall x m =
      End.behind (fun m₁ => { m₁ with depth := m₁.depth - 1 })
        (x { m with depth := m.depth + 1 }) := by
  unfold asCall
  cases x { m with depth := m.depth + 1 } <;> rfl

theorem Arrives.const (r : Exec.End α) : Arrives (fun _ => r) r :=
  ⟨fun _ => .inr rfl, 0, fun _ _ => rfl⟩

/-- Another step that takes of the bound. -/
theorem Arrives.delay {y : Nat → Exec.End α} {r : Exec.End α} (h : Arrives (fun j => y (j + 1)) r)
    (hzero : (y 0).IsUnfinished) : Arrives y r := by
  obtain ⟨k, hk⟩ := h.settles
  refine ⟨?_, k + 1, ?_⟩
  · rintro (_ | j)
    · exact .inl hzero
    · exact h.only j
  · rintro (_ | j) hj
    · exact absurd hj (Nat.not_succ_le_zero k)
    · exact hk j (Nat.le_of_succ_le_succ hj)

theorem Arrives.behind {y : Nat → Exec.End α} {r : Exec.End α} (h : Arrives y r)
    (g : Machine → Machine) : Arrives (fun j => (y j).behind g) (r.behind g) := by
  obtain ⟨k, hk⟩ := h.settles
  refine ⟨?_, k, fun j hj => congrArg (Exec.End.behind g) (hk j hj)⟩
  intro j
  rcases h.only j with hj | hj
  · exact .inl (hj.behind g)
  · exact .inr (congrArg (Exec.End.behind g) hj)

theorem Exec.isUnfinished_bind {x : Exec α} {f : α → Exec β} {m : Machine}
    (h : Exec.End.IsUnfinished (x m)) : Exec.End.IsUnfinished ((x >>= f) m) := by
  obtain ⟨m₁, hx⟩ := h
  exact ⟨m₁, bind_of_error hx⟩

theorem Arrives.bind {y : Nat → Exec α} {g : Nat → α → Exec β} {m m₁ : Machine} {a : α}
    {r : Exec.End β} (h : Arrives (fun j => y j m) (.ok a m₁)) (hg : Arrives (fun j => g j a m₁) r) :
    Arrives (fun j => (y j >>= g j) m) r := by
  obtain ⟨k, hk⟩ := h.settles
  obtain ⟨l, hl⟩ := hg.settles
  refine ⟨?_, max k l, ?_⟩
  · intro j
    rcases h.only j with hj | hj
    · exact .inl (Exec.isUnfinished_bind hj)
    · rw [Exec.bind_of_ok hj]
      exact hg.only j
  · intro j hj
    rw [Exec.bind_of_ok (hk j (Nat.le_trans (Nat.le_max_left k l) hj))]
    exact hl j (Nat.le_trans (Nat.le_max_right k l) hj)

theorem Arrives.bind_error {y : Nat → Exec α} {g : Nat → α → Exec β} {m m₁ : Machine}
    {e : Interrupt} (h : Arrives (fun j => y j m) (.error e m₁)) :
    Arrives (fun j => (y j >>= g j) m) (.error e m₁) := by
  obtain ⟨k, hk⟩ := h.settles
  refine ⟨?_, k, fun j hj => Exec.bind_of_error (hk j hj)⟩
  intro j
  rcases h.only j with hj | hj
  · exact .inl (Exec.isUnfinished_bind hj)
  · exact .inr (Exec.bind_of_error hj)

/-! ### Steps onward -/

/-- A machine behind a step: frames were made, and the current frame is as before. -/
structure Machine.Onward (m m₁ : Machine) : Prop where
  size_le : m.frames.size ≤ m₁.frames.size
  enclosing : ∀ f < m.frames.size, m₁.frames.enclosing? f = m.frames.enclosing? f
  current : m₁.current = m.current

theorem Machine.Onward.refl (m : Machine) : m.Onward m := ⟨Nat.le_refl _, fun _ _ => rfl, rfl⟩

theorem Machine.Onward.trans {m m₁ m₂ : Machine} (h : m.Onward m₁) (h' : m₁.Onward m₂) :
    m.Onward m₂ where
  size_le := Nat.le_trans h.size_le h'.size_le
  enclosing f hf := (h'.enclosing f (Nat.lt_of_lt_of_le hf h.size_le)).trans (h.enclosing f hf)
  current := h'.current.trans h.current

/-- Two machines behind a step, and the images behind it. -/
structure Onward₂ (m m' : Machine) (image : Nat → Nat) (m₁ m₁' : Machine) (image₁ : Nat → Nat) :
    Prop where
  left : m.Onward m₁
  right : m'.Onward m₁'
  image : ∀ f < m.frames.size, image₁ f = image f

section

variable {m m' m₁ m₁' m₂ m₂' : Machine} {image image₁ image₂ : Nat → Nat}

theorem Onward₂.refl (m m' : Machine) (image : Nat → Nat) : Onward₂ m m' image m m' image :=
  ⟨.refl m, .refl m', fun _ _ => rfl⟩

theorem Onward₂.trans (h : Onward₂ m m' image m₁ m₁' image₁)
    (h' : Onward₂ m₁ m₁' image₁ m₂ m₂' image₂) : Onward₂ m m' image m₂ m₂' image₂ :=
  ⟨h.left.trans h'.left, h.right.trans h'.right, fun f hf =>
    (h'.image f (Nat.lt_of_lt_of_le hf h.left.size_le)).trans (h.image f hf)⟩

theorem Onward₂.extends (h : Onward₂ m m' image m₁ m₁' image₁) :
    (m.into m' image).Extends (m₁.into m₁' image₁) :=
  ⟨h.left.size_le, h.left.enclosing, h.right.size_le, h.right.enclosing, h.image⟩

/-- Only the frames of machines matter for what stands where. -/
theorem Onward₂.of_frames (hframes : m₁.frames = m.frames) (hcurrent : m₁.current = m.current)
    (hframes' : m₁'.frames = m'.frames) (hcurrent' : m₁'.current = m'.current) :
    Onward₂ m m' image m₁ m₁' image := by
  refine ⟨⟨?_, ?_, hcurrent⟩, ⟨?_, ?_, hcurrent'⟩, fun _ _ => rfl⟩
  · exact Nat.le_of_eq (congrArg Frames.size hframes.symm)
  · intro f _
    rw [hframes]
  · exact Nat.le_of_eq (congrArg Frames.size hframes'.symm)
  · intro f _
    rw [hframes']

end

/-! ### Matches -/

/--
The ends of a second execution, with all bounds, match the end of a first one that started
in the machine `m` and reaches its bound only if the bound is at least `n`.
-/
inductive Matches (D D' : Distances) (n : Nat) (image : Nat → Nat) (m m' : Machine)
    (post : Embedding → α → α' → Prop) : Exec.End α → (Nat → Exec.End α') → Prop where
  | ok {image₁ : Nat → Nat} {m₁ m₁' : Machine} {a : α} {a' : α'} {y : Nat → Exec.End α'} :
      Arrives y (.ok a' m₁') → Onward₂ m m' image m₁ m₁' image₁ →
      MachineEmbedded D D' image₁ m₁ m₁' → post (m₁.into m₁' image₁) a a' →
      Matches D D' n image m m' post (.ok a m₁) y
  | error {m₁ m₁' : Machine} {e : RuntimeError} {y : Nat → Exec.End α'} :
      Arrives y (.error (.error e) m₁') → m₁'.sink = m₁.sink →
      Matches D D' n image m m' post (.error (.error e) m₁) y
  | unfinished {m₁ : Machine} {y : Nat → Exec.End α'} :
      (∀ j ≤ n, (y j).IsUnfinished) → Matches D D' n image m m' post (.error .outOfFuel m₁) y
  | harmful {m₁ : Machine} {e : RuntimeError} {y : Nat → Exec.End α'} :
      ¬ e.cause.Harmless → Matches D D' n image m m' post (.error (.error e) m₁) y

variable {D D' : Distances} {n : Nat} {image : Nat → Nat} {m m' : Machine}
  {post : Embedding → α → α' → Prop} {post' : Embedding → β → β' → Prop}

/-- The bound is reached in a run that is not given any. -/
theorem Exec.isUnfinished_outOfFuel (m : Machine) :
    Exec.End.IsUnfinished ((outOfFuel : Exec α) m) := ⟨m, rfl⟩

namespace Matches

/-- With a smaller bound less is said. -/
theorem mono {x : Exec.End α} {y : Nat → Exec.End α'} {k : Nat} (hk : k ≤ n)
    (h : Matches D D' n image m m' post x y) : Matches D D' k image m m' post x y := by
  cases h with
  | ok harrives honward hm hpost => exact .ok harrives honward hm hpost
  | error harrives hsink => exact .error harrives hsink
  | unfinished hout => exact .unfinished fun j hj => hout j (Nat.le_trans hj hk)
  | harmful he => exact .harmful he

/-- The second execution takes one more step of its bound. -/
theorem delay {x : Exec.End α} {y : Nat → Exec.End α'}
    (h : Matches D D' n image m m' post x fun j => y (j + 1)) (hzero : (y 0).IsUnfinished) :
    Matches D D' (n + 1) image m m' post x y := by
  cases h with
  | ok harrives honward hm hpost => exact .ok (harrives.delay hzero) honward hm hpost
  | error harrives hsink => exact .error (harrives.delay hzero) hsink
  | unfinished hout =>
    refine .unfinished ?_
    rintro (_ | j) hj
    · exact hzero
    · exact hout j (Nat.le_of_succ_le_succ hj)
  | harmful he => exact .harmful he

/-- What follows a step that the second execution takes by itself. -/
theorem delayed {x : Exec.End α} {y : Nat → Exec.End α'}
    (h : Matches D D' n image m m' post x fun j => y (j + 1)) (hzero : (y 0).IsUnfinished) :
    Matches D D' n image m m' post x y :=
  (h.delay hzero).mono (Nat.le_succ n)

/-- The first execution may be put in another way. -/
theorem of_eq {x x₁ : Exec.End α} {y : Nat → Exec.End α'} (hx : x = x₁)
    (h : Matches D D' n image m m' post x₁ y) : Matches D D' n image m m' post x y := by
  rwa [hx]

/-- Steps that do not depend on the bound. -/
theorem of_ok {image₁ : Nat → Nat} {m₁ m₁' : Machine} {a : α} {a' : α'} {r' : Exec.End α'}
    (hend : r' = .ok a' m₁') (honward : Onward₂ m m' image m₁ m₁' image₁)
    (hm : MachineEmbedded D D' image₁ m₁ m₁') (hpost : post (m₁.into m₁' image₁) a a') :
    Matches D D' n image m m' post (.ok a m₁) fun _ => r' :=
  .ok (hend ▸ .const _) honward hm hpost

theorem pure (hm : MachineEmbedded D D' image m m') {a : α} {a' : α'}
    (hpost : post (m.into m' image) a a') :
    Matches D D' n image m m' post ((Pure.pure a : Exec α) m)
      (fun _ => (Pure.pure a' : Exec α') m') :=
  .ok (.const _) (.refl m m' image) hm hpost

theorem fail (hm : MachineEmbedded D D' image m m') (cause : RuntimeCause) (line : Nat) :
    Matches D D' n image m m' post ((Exec.fail cause line : Exec α) m)
      (fun _ => (Exec.fail cause line : Exec α') m') :=
  .error (.const _) hm.sink

theorem bind {x : Exec α} {y : Nat → Exec α'} {f : α → Exec β} {g : Nat → α' → Exec β'}
    (hx : Matches D D' n image m m' post (x m) fun j => y j m')
    (hf : ∀ image₁ m₁ m₁' a a', Onward₂ m m' image m₁ m₁' image₁ →
      MachineEmbedded D D' image₁ m₁ m₁' → post (m₁.into m₁' image₁) a a' →
      Matches D D' n image₁ m₁ m₁' post' (f a m₁) fun j => g j a' m₁') :
    Matches D D' n image m m' post' ((x >>= f) m) fun j => (y j >>= g j) m' := by
  generalize hend : x m = r at hx
  cases hx with
  -- The first computation arrives, and so does the second one; the rests are matched in turn.
  | @ok image₁ m₁ m₁' a a' _ harrives honward hm hpost =>
    have hrest := hf image₁ m₁ m₁' a a' honward hm hpost
    rw [Exec.bind_of_ok hend]
    generalize f a m₁ = s at hrest ⊢
    cases hrest with
    | ok harrives' honward' hm' hpost' =>
      exact .ok (harrives.bind harrives') (honward.trans honward') hm' hpost'
    | error harrives' hsink => exact .error (harrives.bind harrives') hsink
    | harmful he => exact .harmful he
    -- The rest runs out of fuel here, so up to as much of it the other side does not end.
    | unfinished hout =>
      refine .unfinished fun j hj => ?_
      rcases harrives.only j with hj' | hj'
      · exact Exec.isUnfinished_bind hj'
      · rw [Exec.bind_of_ok hj']
        exact hout j hj
  -- The first computation does not end well, and the rest is not reached.
  | error harrives hsink =>
    rw [Exec.bind_of_error hend]
    exact .error harrives.bind_error hsink
  | unfinished hout =>
    rw [Exec.bind_of_error hend]
    exact .unfinished fun j hj => Exec.isUnfinished_bind (hout j hj)
  | harmful he =>
    rw [Exec.bind_of_error hend]
    exact .harmful he

theorem weaken {post' : Embedding → α → α' → Prop} {x : Exec.End α} {y : Nat → Exec.End α'}
    (hx : Matches D D' n image m m' post x y)
    (hpost : ∀ image₁ m₁ m₁' a a', Onward₂ m m' image m₁ m₁' image₁ →
      post (m₁.into m₁' image₁) a a' → post' (m₁.into m₁' image₁) a a') :
    Matches D D' n image m m' post' x y := by
  cases hx with
  | ok harrives honward hm hpost' =>
    exact .ok harrives honward hm (hpost _ _ _ _ _ honward hpost')
  | error harrives hsink => exact .error harrives hsink
  | unfinished hout => exact .unfinished hout
  | harmful he => exact .harmful he

/-- What follows a look at the machine. -/
theorem get_bind {f : Machine → Exec α} {g : Nat → Machine → Exec α'}
    (h : Matches D D' n image m m' post (f m m) fun j => g j m' m') :
    Matches D D' n image m m' post (((MonadState.get : Exec Machine) >>= f) m)
      fun j => ((MonadState.get : Exec Machine) >>= g j) m' := h

end Matches

/-! ### Results without a machine -/

/-- What a computation yields that does not touch the machine, and what matches it. -/
inductive ExceptMatches (p : α → α' → Prop) :
    Except RuntimeError α → Except RuntimeError α' → Prop where
  | ok {a : α} {a' : α'} : p a a' → ExceptMatches p (.ok a) (.ok a')
  | error {e : RuntimeError} : ExceptMatches p (.error e) (.error e)
  | harmful {e : RuntimeError} {r' : Except RuntimeError α'} :
      ¬ e.cause.Harmless → ExceptMatches p (.error e) r'

namespace Matches

theorem lift (hm : MachineEmbedded D D' image m m') {r : Except RuntimeError α}
    {r' : Except RuntimeError α'} (hr : ExceptMatches (post (m.into m' image)) r r') :
    Matches D D' n image m m' post (Exec.lift r m) fun _ => Exec.lift r' m' := by
  cases hr with
  | ok hpost => exact pure hm hpost
  | error => exact .error (.const _) hm.sink
  | harmful he => exact .harmful he

theorem lift_bind (hm : MachineEmbedded D D' image m m') {p : α → α' → Prop}
    {r : Except RuntimeError α} {r' : Except RuntimeError α'} (hr : ExceptMatches p r r')
    {f : α → Exec β} {g : Nat → α' → Exec β'}
    (hf : ∀ a a', p a a' → Matches D D' n image m m' post' (f a m) fun j => g j a' m') :
    Matches D D' n image m m' post' ((Exec.lift r >>= f) m)
      fun j => (Exec.lift r' >>= g j) m' := by
  cases hr with
  | ok ha => exact hf _ _ ha
  | error => exact .error (.const _) hm.sink
  | harmful he => exact .harmful he

end Matches

/-! ### Frames and calls -/

theorem MachineEmbedded.setCurrent (hm : MachineEmbedded D D' image m m') (f f' : Nat) :
    MachineEmbedded D D' image { m with current := f } { m' with current := f' } :=
  ⟨hm.distances, hm.distances', hm.nonempty, hm.global, hm.lt, hm.injective, hm.bound,
    hm.fieldsSize, hm.fields, hm.nextIdentity, hm.depth, hm.ticks, hm.sink⟩

theorem MachineEmbedded.setDepth (hm : MachineEmbedded D D' image m m') {d d' : Nat}
    (hd : d' = d) :
    MachineEmbedded D D' image { m with depth := d } { m' with depth := d' } :=
  ⟨hm.distances, hm.distances', hm.nonempty, hm.global, hm.lt, hm.injective, hm.bound,
    hm.fieldsSize, hm.fields, hm.nextIdentity, hd, hm.ticks, hm.sink⟩

namespace Matches

/-- Only the first execution runs in another frame. -/
theorem inFrame_left {f : Nat} {x : Exec α} {y : Nat → Exec.End α'}
    (h : Matches D D' n image { m with current := f } m' post (x { m with current := f }) y) :
    Matches D D' n image m m' post (Exec.inFrame f x m) y := by
  rw [Exec.inFrame_eq]
  generalize x { m with current := f } = r at h ⊢
  cases h with
  | @ok image₁ m₁ m₁' a a' _ harrives honward hm hpost =>
    have hleft : m.Onward { m₁ with current := m.current } :=
      ⟨honward.left.size_le, honward.left.enclosing, rfl⟩
    exact .ok harrives ⟨hleft, honward.right, honward.image⟩ (hm.setCurrent _ m₁'.current) hpost
  | error harrives hsink => exact .error harrives hsink
  | unfinished hout => exact .unfinished hout
  | harmful he => exact .harmful he

/-- Only the second execution runs in another frame. -/
theorem inFrame_right {f' : Nat} {x : Exec.End α} {y : Nat → Exec α'}
    (h : Matches D D' n image m { m' with current := f' } post x
      fun j => y j { m' with current := f' }) :
    Matches D D' n image m m' post x fun j => Exec.inFrame f' (y j) m' := by
  simp only [Exec.inFrame_eq]
  cases h with
  | @ok image₁ m₁ m₁' a a' _ harrives honward hm hpost =>
    have hright : m'.Onward { m₁' with current := m'.current } :=
      ⟨honward.right.size_le, honward.right.enclosing, rfl⟩
    exact .ok (harrives.behind _) ⟨honward.left, hright, honward.image⟩
      (hm.setCurrent m₁.current _) hpost
  | error harrives hsink => exact .error (harrives.behind _) hsink
  | unfinished hout => exact .unfinished fun j hj => (hout j hj).behind _
  | harmful he => exact .harmful he

/-- Both executions run in other frames. -/
theorem inFrame {f f' : Nat} {x : Exec α} {y : Nat → Exec α'}
    (h : Matches D D' n image { m with current := f } { m' with current := f' } post
      (x { m with current := f }) fun j => y j { m' with current := f' }) :
    Matches D D' n image m m' post (Exec.inFrame f x m) fun j => Exec.inFrame f' (y j) m' :=
  inFrame_left (inFrame_right h)

theorem asCall {x : Exec α} {y : Nat → Exec α'}
    (h : Matches D D' n image { m with depth := m.depth + 1 } { m' with depth := m'.depth + 1 } post
      (x { m with depth := m.depth + 1 }) fun j => y j { m' with depth := m'.depth + 1 }) :
    Matches D D' n image m m' post (Exec.asCall x m) fun j => Exec.asCall (y j) m' := by
  simp only [Exec.asCall_eq]
  generalize x { m with depth := m.depth + 1 } = r at h ⊢
  cases h with
  | @ok image₁ m₁ m₁' a a' _ harrives honward hm hpost =>
    have hleft : m.Onward { m₁ with depth := m₁.depth - 1 } :=
      ⟨honward.left.size_le, honward.left.enclosing, honward.left.current⟩
    have hright : m'.Onward { m₁' with depth := m₁'.depth - 1 } :=
      ⟨honward.right.size_le, honward.right.enclosing, honward.right.current⟩
    exact .ok (harrives.behind _) ⟨hleft, hright, honward.image⟩
      (hm.setDepth (congrArg (· - 1) hm.depth)) hpost
  | error harrives hsink => exact .error (harrives.behind _) hsink
  | unfinished hout => exact .unfinished fun j hj => (hout j hj).behind _
  | harmful he => exact .harmful he

end Matches

/-! ### Steps of machines -/

theorem Embedding.extends_define (m m' : Machine) (image : Nat → Nat) (f f' : Nat) (name : String)
    (value value' : Value) :
    (m.into m' image).Extends
      ⟨m.frames.define f name value, m'.frames.define f' name value', image⟩ where
  size_le := Nat.le_of_eq (Frames.size_define _ _ _ _).symm
  enclosing g _ := Frames.enclosing?_define _ _ g _ _
  size_le' := Nat.le_of_eq (Frames.size_define _ _ _ _).symm
  enclosing' g _ := Frames.enclosing?_define _ _ g _ _
  image _ _ := rfl

/-- A name is bound to values that correspond, in a frame and in its image. -/
theorem MachineEmbedded.define (hm : MachineEmbedded D D' image m m') {f : Nat}
    (hf : f < m.frames.size) (name : String) {value value' : Value}
    (hvalue : ValueEmbedded D D' (m.into m' image) value value') :
    MachineEmbedded D D' image { m with frames := m.frames.define f name value }
      { m' with frames := m'.frames.define (image f) name value' } := by
  have hextends := Embedding.extends_define m m' image f (image f) name value value'
  have hsize : (m.frames.define f name value).size = m.frames.size := Frames.size_define _ _ _ _
  refine ⟨hm.distances, hm.distances', ?_, hm.global, ?_, ?_, ?_, hm.fieldsSize, ?_,
    hm.nextIdentity, hm.depth, hm.ticks, hm.sink⟩
  · exact hsize.symm ▸ hm.nonempty
  · intro g hg
    change image g < (m'.frames.define _ name value').size
    rw [Frames.size_define]
    exact hm.lt g (hsize ▸ hg)
  · intro g hg h hh
    exact hm.injective g (hsize ▸ hg) h (hsize ▸ hh)
  · intro g hg other
    have hg' : g < m.frames.size := hsize ▸ hg
    change Option.Rel _ ((m.frames.define f name value).findIn? g other)
      ((m'.frames.define (image f) name value').findIn? (image g) other)
    by_cases hsame : g = f ∧ other = name
    · obtain ⟨rfl, rfl⟩ := hsame
      rw [Frames.findIn?_define_self hf, Frames.findIn?_define_self (hm.lt g hf)]
      exact .some (hvalue.extend hextends)
    · have hsame' : ¬ (image g = image f ∧ other = name) := by
        rintro ⟨himage, hother⟩
        exact hsame ⟨hm.injective g hg' f hf himage, hother⟩
      rw [Frames.findIn?_define_of_ne value hsame, Frames.findIn?_define_of_ne value' hsame']
      exact Option.Rel.extend (hm.bound g hg' other) hextends
  · intro i other
    exact Option.Rel.extend (hm.fields i other) hextends

/-- A new frame on both sides; the new ones are images of each other. -/
theorem MachineEmbedded.child (hm : MachineEmbedded D D' image m m') (f f' : Nat) :
    MachineEmbedded D D' ((m.into m' image).child f f').image
      { m with frames := m.frames.child f } { m' with frames := m'.frames.child f' } := by
  have hextends := (m.into m' image).extends_child f f'
  have hsize : (m.frames.child f).size = m.frames.size + 1 := Frames.size_child _ _
  have hold : ∀ g < m.frames.size, ((m.into m' image).child f f').image g = image g :=
    hextends.image
  have hnew : ((m.into m' image).child f f').image m.frames.next = m'.frames.next := if_pos rfl
  -- A frame is an old one, with the image that it had, or the new one with the new image.
  have hcases : ∀ g < (m.frames.child f).size, g < m.frames.size ∨ g = m.frames.next := by
    intro g hg
    exact Nat.lt_succ_iff_lt_or_eq.mp (Nat.lt_of_lt_of_eq hg hsize)
  refine ⟨hm.distances, hm.distances', ?_, ?_, ?_, ?_, ?_, hm.fieldsSize, ?_,
    hm.nextIdentity, hm.depth, hm.ticks, hm.sink⟩
  · exact Nat.lt_of_lt_of_le hm.nonempty (Nat.le_trans (Nat.le_succ _) (Nat.le_of_eq hsize.symm))
  · rw [hold _ hm.nonempty]
    exact hm.global
  · -- Images are frames of the second machine.
    intro g hg
    change _ < (m'.frames.child f').size
    rw [Frames.size_child]
    rcases hcases g hg with hg | rfl
    · rw [hold g hg]
      exact Nat.lt_succ_of_lt (hm.lt g hg)
    · rw [hnew]
      exact Nat.lt_succ_self _
  · -- No two frames have the same image: old images are below the new one.
    intro g hg h hh heq
    rcases hcases g hg with hg | rfl
    · rcases hcases h hh with hh | rfl
      · rw [hold g hg, hold h hh] at heq
        exact hm.injective g hg h hh heq
      · rw [hold g hg, hnew] at heq
        exact absurd heq (Nat.ne_of_lt (hm.lt g hg))
    · rcases hcases h hh with hh | rfl
      · rw [hold h hh, hnew] at heq
        exact absurd heq.symm (Nat.ne_of_lt (hm.lt h hh))
      · rfl
  · -- The bindings of the old frames are kept, the new ones have none.
    intro g hg other
    change Option.Rel _ ((m.frames.child f).findIn? g other)
      ((m'.frames.child f').findIn? (((m.into m' image).child f f').image g) other)
    rw [Frames.findIn?_child, Frames.findIn?_child]
    rcases hcases g hg with hg | rfl
    · rw [hold g hg]
      exact Option.Rel.extend (hm.bound g hg other) hextends
    · have hnone : ∀ frames : Frames Value, frames.findIn? frames.next other = none :=
        fun frames => Frames.findIn?_of_le (Nat.le_refl _) other
      rw [hnew, hnone, hnone]
      exact .none
  · intro i other
    exact Option.Rel.extend (hm.fields i other) hextends

/-- A new frame on the second side only. -/
theorem MachineEmbedded.box (hm : MachineEmbedded D D' image m m') (f' : Nat) :
    MachineEmbedded D D' image m { m' with frames := m'.frames.child f' } := by
  have hextends := (m.into m' image).extends_box f'
  refine ⟨hm.distances, hm.distances', hm.nonempty, hm.global, ?_, hm.injective, ?_,
    hm.fieldsSize, ?_, hm.nextIdentity, hm.depth, hm.ticks, hm.sink⟩
  · intro g hg
    change _ < (m'.frames.child f').size
    rw [Frames.size_child]
    exact Nat.lt_succ_of_lt (hm.lt g hg)
  · intro g hg other
    change Option.Rel _ (m.frames.findIn? g other) ((m'.frames.child f').findIn? (image g) other)
    rw [Frames.findIn?_child]
    exact Option.Rel.extend (hm.bound g hg other) hextends
  · intro i other
    exact Option.Rel.extend (hm.fields i other) hextends

namespace Matches

theorem defineIn (hm : MachineEmbedded D D' image m m') {f f' : Nat} (hf : f < m.frames.size)
    (hf' : f' = image f) (name : String) {value value' : Value}
    (hvalue : ValueEmbedded D D' (m.into m' image) value value') :
    Matches D D' n image m m' (fun _ _ _ => True) (Exec.defineIn f name value m)
      fun _ => Exec.defineIn f' name value' m' := by
  subst hf'
  have hextends := Embedding.extends_define m m' image f (image f) name value value'
  exact .of_ok rfl ⟨⟨hextends.size_le, hextends.enclosing, rfl⟩,
    ⟨hextends.size_le', hextends.enclosing', rfl⟩, fun _ _ => rfl⟩ (hm.define hf name hvalue) trivial

theorem newFrame (hm : MachineEmbedded D D' image m m') (f f' : Nat) :
    Matches D D' n image m m' (fun W g g' => W = (m.into m' image).child f f' ∧
        g = m.frames.next ∧ g' = m'.frames.next)
      (Exec.newFrame f m) fun _ => Exec.newFrame f' m' := by
  have hextends := (m.into m' image).extends_child f f'
  exact .of_ok rfl ⟨⟨hextends.size_le, hextends.enclosing, rfl⟩,
    ⟨hextends.size_le', hextends.enclosing', rfl⟩, hextends.image⟩ (hm.child f f') ⟨rfl, rfl, rfl⟩

theorem newInnerFrame (hm : MachineEmbedded D D' image m m') :
    Matches D D' n image m m' (fun W g g' => W = (m.into m' image).child m.current m'.current ∧
        g = m.frames.next ∧ g' = m'.frames.next)
      (Exec.newInnerFrame m) fun _ => Exec.newInnerFrame m' :=
  newFrame hm m.current m'.current

/-- Only the second execution makes a new frame and goes on in it. -/
theorem boxed {x : Exec.End α} {y : Nat → Exec α'}
    (h : Matches D D' n image m
      { m' with frames := m'.frames.child m'.current, current := m'.frames.next } post x fun j =>
        y j { m' with frames := m'.frames.child m'.current, current := m'.frames.next }) :
    Matches D D' n image m m' post x fun j =>
      (Exec.newInnerFrame >>= fun frame => Exec.inFrame frame (y j)) m' := by
  have hextends := (m.into m' image).extends_box m'.current
  have hframe : Matches D D' n image m { m' with frames := m'.frames.child m'.current } post x
      fun j => Exec.inFrame m'.frames.next (y j) { m' with frames := m'.frames.child m'.current } :=
    inFrame_right h
  have hbox : m'.Onward { m' with frames := m'.frames.child m'.current } :=
    ⟨hextends.size_le', hextends.enclosing', rfl⟩
  change Matches D D' n image m m' post x fun j =>
    Exec.inFrame m'.frames.next (y j) { m' with frames := m'.frames.child m'.current }
  cases hframe with
  | ok harrives honward hm hpost =>
    exact .ok harrives ⟨honward.left, hbox.trans honward.right, honward.image⟩ hm hpost
  | error harrives hsink => exact .error harrives hsink
  | unfinished hout => exact .unfinished hout
  | harmful he => exact .harmful he

/-! ### Functions and instances -/

theorem newIdentity (hm : MachineEmbedded D D' image m m') :
    Matches D D' n image m m' (fun W id id' => W = m.into m' image ∧ id' = id)
      (Exec.newIdentity m) fun _ => Exec.newIdentity m' := by
  refine .of_ok rfl (.of_frames rfl rfl rfl rfl) ?_ ⟨rfl, hm.nextIdentity⟩
  exact ⟨hm.distances, hm.distances', hm.nonempty, hm.global, hm.lt, hm.injective, hm.bound,
    hm.fieldsSize, hm.fields, congrArg (· + 1) hm.nextIdentity, hm.depth, hm.ticks, hm.sink⟩

theorem newFunction (hm : MachineEmbedded D D' image m m') (d d' : FunctionDecl)
    (closure closure' : Nat) (isInitializer : Bool) :
    Matches D D' n image m m' (fun W f f' => W = m.into m' image ∧
        ∃ id, f = ⟨id, d, closure, isInitializer⟩ ∧ f' = ⟨id, d', closure', isInitializer⟩)
      (Exec.newFunction d closure isInitializer m)
      fun _ => Exec.newFunction d' closure' isInitializer m' := by
  unfold Exec.newFunction
  apply bind (newIdentity hm)
  rintro image₁ m₁ m₁' id id' honward hm₁ ⟨hW, rfl⟩
  exact pure hm₁ ⟨hW, id', rfl, rfl⟩

theorem newInstance (hm : MachineEmbedded D D' image m m') (c c' : Class) :
    Matches D D' n image m m' (fun W owner owner' => W = m.into m' image ∧
        ∃ id, owner = ⟨id, c⟩ ∧ owner' = ⟨id, c'⟩)
      (Exec.newInstance c m) fun _ => Exec.newInstance c' m' := by
  refine .of_ok rfl (.of_frames rfl rfl rfl rfl) ?_
    ⟨rfl, m.fields.size, rfl, congrArg (Instance.mk · c') hm.fieldsSize⟩
  refine ⟨hm.distances, hm.distances', hm.nonempty, hm.global, hm.lt, hm.injective, hm.bound,
    ?_, ?_, hm.nextIdentity, hm.depth, hm.ticks, hm.sink⟩
  · rw [Array.size_push, Array.size_push, hm.fieldsSize]
  · intro i name
    rw [Bindings.find?_getD_push, Bindings.find?_getD_push]
    exact hm.fields i name

/-! ### Output and time -/

theorem write (hm : MachineEmbedded D D' image m m') (text : String) (line : Nat) :
    Matches D D' n image m m' (fun _ _ _ => True) (Exec.write text line m)
      fun _ => Exec.write text line m' := by
  unfold Exec.write
  apply get_bind
  rw [hm.sink]
  split
  · exact fail hm _ line
  · refine .of_ok rfl (.of_frames rfl rfl rfl rfl) ?_ trivial
    exact ⟨hm.distances, hm.distances', hm.nonempty, hm.global, hm.lt, hm.injective, hm.bound,
      hm.fieldsSize, hm.fields, hm.nextIdentity, hm.depth, hm.ticks,
      congrArg (Sink.append · text) hm.sink⟩

theorem readClock (hm : MachineEmbedded D D' image m m') (rules : Rules) :
    Matches D D' n image m m' (fun _ x x' => x' = x) (Exec.readClock rules m)
      fun _ => Exec.readClock rules m' := by
  refine .of_ok rfl (.of_frames rfl rfl rfl rfl) ?_ (congrArg rules.clock hm.ticks)
  exact ⟨hm.distances, hm.distances', hm.nonempty, hm.global, hm.lt, hm.injective, hm.bound,
    hm.fieldsSize, hm.fields, hm.nextIdentity, hm.depth, congrArg (· + 1) hm.ticks, hm.sink⟩

end Matches

end Lox
