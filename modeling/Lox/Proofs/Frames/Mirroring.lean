import Lox.Frames
import Lox.Proofs.Resolution.Scopes
import Lox.Value

/-!
# Frames that mirror scopes

Scopes exist while a program is resolved and frames while it runs.  A chain of
frames mirrors a stack of scopes if there is one frame for each scope, in the same
order, which binds every name that can be read in the scope, and if the global
frame stands behind them.  Frames are made and names are bound, but no frame is ever
moved and no name unbound, so what mirrors a stack of scopes goes on to do so.
-/

namespace Lox

namespace Frames

variable {α : Type} {frames frames' frames'' : Frames α}

/-! ### What changes frames -/

theorem enclosing?_child_of_lt {outer f : Nat} (hf : f < frames.size) :
    (frames.child outer).enclosing? f = frames.enclosing? f := by
  have hne : ¬ f = frames.toArray.size := Nat.ne_of_lt hf
  simp [enclosing?, child, Array.getElem?_push, hne]

theorem enclosing?_child_next {outer : Nat} (houter : outer < frames.size) :
    (frames.child outer).enclosing? frames.next = some outer := by
  have hlt : outer < frames.toArray.size := houter
  simp [enclosing?, child, next, hlt]

theorem findIn?_child (frames : Frames α) (outer f : Nat) (name : String) :
    (frames.child outer).findIn? f name = frames.findIn? f name := by
  simp only [findIn?, child, Array.getElem?_push]
  split
  · rename_i heq
    subst heq
    simp [Bindings.empty, Bindings.find?, Bindings.findEntry]
  · rfl

theorem findIn?_of_le {f : Nat} (hf : frames.size ≤ f) (name : String) :
    frames.findIn? f name = none := by
  have hnone : frames.toArray[f]? = none := Array.getElem?_eq_none hf
  simp [findIn?, hnone]

theorem next_lt_child (frames : Frames α) (outer : Nat) :
    frames.next < (frames.child outer).size := by
  rw [size_child]
  exact Nat.lt_succ_self _

theorem findIn?_child_next (frames : Frames α) (outer : Nat) (name : String) :
    (frames.child outer).findIn? frames.next name = none := by
  rw [findIn?_child]
  exact findIn?_of_le (Nat.le_refl _) name

theorem lt_of_enclosing? {f g : Nat} (h : frames.enclosing? f = some g) :
    f < frames.size ∧ g < f := by
  unfold enclosing? at h
  cases hframe : frames.toArray[f]? with
  | none => simp [hframe] at h
  | some frame =>
    rw [hframe, Option.bind_some] at h
    obtain ⟨hlt, heq⟩ := Array.getElem?_eq_some_iff.mp hframe
    subst heq
    exact ⟨hlt, frames.enclosing_lt f hlt g h⟩

theorem findIn?_define_of_ne {f g : Nat} {name other : String} (a : α)
    (h : ¬ (g = f ∧ other = name)) :
    (frames.define f name a).findIn? g other = frames.findIn? g other := by
  by_cases hf : f < frames.size
  · rw [findIn?_define _ _ _ _ _ _ hf, if_neg h]
  · have hnone : frames.toArray[f]? = none := Array.getElem?_eq_none (Nat.le_of_not_lt hf)
    simp only [findIn?, define, Array.getElem?_modify]
    split
    · rename_i heq
      rw [← heq, hnone]
      rfl
    · rfl

theorem findIn?_define_self {f : Nat} (hf : f < frames.size) (name : String) (a : α) :
    (frames.define f name a).findIn? f name = some a := by
  rw [findIn?_define _ _ _ _ _ _ hf, if_pos ⟨rfl, rfl⟩]

/-- What is found after a name was bound is the new value or was there before. -/
theorem findIn?_define_cases {f g : Nat} {name other : String} {a b : α}
    (h : (frames.define f name a).findIn? g other = some b) :
    b = a ∨ frames.findIn? g other = some b := by
  by_cases hsame : g = f ∧ other = name
  · obtain ⟨rfl, rfl⟩ := hsame
    by_cases hg : g < frames.size
    · rw [findIn?_define_self hg] at h
      exact .inl (Option.some.inj h).symm
    · rw [findIn?_of_le (by rw [size_define]; exact Nat.le_of_not_lt hg)] at h
      cases h
  · rw [findIn?_define_of_ne a hsame] at h
    exact .inr h

/-! ### Steps outwards -/

/-- What stands outwards of an old frame does not change while frames are made. -/
theorem ancestor?_of_enclosing (h : ∀ f < frames.size, frames'.enclosing? f = frames.enclosing? f)
    {f : Nat} (hf : f < frames.size) (d : Nat) : frames'.ancestor? f d = frames.ancestor? f d := by
  induction d generalizing f with
  | zero => rfl
  | succ d ih =>
    rw [ancestor?, ancestor?, h f hf]
    cases houter : frames.enclosing? f with
    | none => rfl
    | some outer => exact ih (Nat.lt_trans (lt_of_enclosing? houter).2 hf)

/-- The frames outwards of a frame stand in the same store. -/
theorem lt_of_ancestor? {f d g : Nat} (hf : f < frames.size) (h : frames.ancestor? f d = some g) :
    g < frames.size := by
  induction d generalizing f with
  | zero =>
    cases h
    exact hf
  | succ d ih =>
    rw [ancestor?] at h
    obtain ⟨outer, houter, h⟩ := Option.bind_eq_some_iff.mp h
    exact ih (Nat.lt_trans (lt_of_enclosing? houter).2 hf) h

theorem ancestor?_add (frames : Frames α) (f k d : Nat) :
    frames.ancestor? f (k + d) = (frames.ancestor? f k).bind (frames.ancestor? · d) := by
  induction k generalizing f with
  | zero => rw [Nat.zero_add, ancestor?, Option.bind_some]
  | succ k ih =>
    rw [Nat.succ_add, ancestor?, ancestor?, Option.bind_assoc]
    congr 1
    funext outer
    exact ih outer

/-- The last step outwards, after all others. -/
theorem ancestor?_succ (frames : Frames α) (f : FrameId) (d : Nat) :
    frames.ancestor? f (d + 1) = (frames.ancestor? f d).bind frames.enclosing? := by
  have hone : (frames.ancestor? · 1) = frames.enclosing? := by
    funext g
    exact Option.bind_fun_some _
  rw [ancestor?_add, hone]

/-! ### Searching outwards -/

/-- A search looks into one frame after the other. -/
theorem holder?_eq (frames : Frames α) (name : String) (f : FrameId) :
    frames.holder? name f =
      if (frames.findIn? f name).isSome then some f
      else (frames.enclosing? f).bind (frames.holder? name) := by
  rw [holder?]
  by_cases hf : f < frames.toArray.size
  · have hframe : frames.toArray[f]? = some frames.toArray[f] := Array.getElem?_eq_getElem hf
    have hfind : frames.findIn? f name = frames.toArray[f].bindings.find? name := by
      rw [findIn?, hframe, Option.bind_some]
    have houter : frames.enclosing? f = frames.toArray[f].enclosing? := by
      rw [enclosing?, hframe, Option.bind_some]
    rw [dif_pos hf, hfind, houter, Bindings.contains]
    split
    · rfl
    · split <;> simp only [*, Option.bind_some, Option.bind_none]
  · have hframe : frames.toArray[f]? = none := Array.getElem?_eq_none (Nat.le_of_not_lt hf)
    rw [dif_neg hf, findIn?, enclosing?, hframe]
    rfl

theorem holder?_of_found {f : FrameId} {name : String} {a : α}
    (h : frames.findIn? f name = some a) : frames.holder? name f = some f := by
  rw [holder?_eq, h]
  rfl

/-- A search ends in a frame that binds the name. -/
theorem findIn?_of_holder? {name : String} {f g : FrameId} (h : frames.holder? name f = some g) :
    ∃ a, frames.findIn? g name = some a := by
  induction f using Nat.strongRecOn with
  | ind f ih =>
    rw [holder?_eq] at h
    split at h
    · cases h
      exact Option.isSome_iff_exists.mp ‹_›
    · obtain ⟨outer, houter, hholder⟩ := Option.bind_eq_some_iff.mp h
      exact ih outer (lt_of_enclosing? houter).2 hholder

/-- There is nothing around the global frame, so a search from there ends there. -/
theorem holder?_global (frames : Frames α) (name : String) :
    frames.holder? name globalFrame =
      if (frames.findIn? globalFrame name).isSome then some globalFrame else none := by
  have houtermost : frames.enclosing? globalFrame = none := by
    apply Option.eq_none_iff_forall_ne_some.mpr
    intro outer houter
    exact Nat.not_lt_zero outer (lt_of_enclosing? houter).2
  rw [holder?_eq, houtermost, Option.bind_none]

theorem frameOf_global (frames : Frames α) (name : String) (line : Nat) :
    frames.frameOf globalFrame name line =
      match frames.findIn? globalFrame name with
      | some _ => .ok globalFrame
      | none => .error ⟨.undefinedVariable name, line⟩ := by
  unfold frameOf
  rw [holder?_global]
  cases hfound : frames.findIn? globalFrame name with
  | none => rfl
  | some value => rfl

/-- A frame that does not bind the name is passed. -/
theorem holder?_of_passed {f g : FrameId} {name : String}
    (h : frames.findIn? f name = none) (hg : frames.enclosing? f = some g) :
    frames.holder? name f = frames.holder? name g := by
  rw [holder?_eq, h, hg]
  rfl

end Frames

/-! ### Growth -/

/--
Frames that grew: none of them was moved, no name was unbound, and what stands for
an instance or a superclass is as before.
-/
structure Grows (frames frames' : Frames Value) : Prop where
  size_le : frames.size ≤ frames'.size
  enclosing : ∀ f g, frames.enclosing? f = some g → frames'.enclosing? f = some g
  bound : ∀ f name v, frames.findIn? f name = some v → ∃ v', frames'.findIn? f name = some v'
  special : ∀ f name v, ¬ IsName name → frames.findIn? f name = some v →
    frames'.findIn? f name = some v

namespace Grows

variable {frames frames' frames'' : Frames Value}

theorem refl (frames : Frames Value) : Grows frames frames :=
  ⟨Nat.le_refl _, fun _ _ h => h, fun _ _ v h => ⟨v, h⟩, fun _ _ _ _ h => h⟩

theorem trans (h : Grows frames frames') (h' : Grows frames' frames'') :
    Grows frames frames'' := by
  constructor
  · exact Nat.le_trans h.size_le h'.size_le
  · intro f g hg
    exact h'.enclosing f g (h.enclosing f g hg)
  · intro f name v hv
    obtain ⟨v', hv'⟩ := h.bound f name v hv
    exact h'.bound f name v' hv'
  · intro f name v hname hv
    exact h'.special f name v hname (h.special f name v hname hv)

theorem child (frames : Frames Value) (outer : Nat) : Grows frames (frames.child outer) := by
  constructor
  · rw [Frames.size_child]
    exact Nat.le_succ _
  · intro f g hg
    rw [Frames.enclosing?_child_of_lt (Frames.lt_of_enclosing? hg).1]
    exact hg
  · intro f name v hv
    exact ⟨v, by rw [Frames.findIn?_child]; exact hv⟩
  · intro f name v _ hv
    rw [Frames.findIn?_child]
    exact hv

/-- Binding a name in an old frame does not touch `this` and `super` there. -/
theorem define (frames : Frames Value) (f : Nat) {name : String} (value : Value)
    (h : IsName name ∨ ∀ v, frames.findIn? f name ≠ some v) :
    Grows frames (frames.define f name value) := by
  constructor
  · exact Nat.le_of_eq (Frames.size_define frames f name value).symm
  · intro g g' hg
    rw [Frames.enclosing?_define]
    exact hg
  · intro g other v hv
    by_cases hsame : g = f ∧ other = name
    · obtain ⟨rfl, rfl⟩ := hsame
      have hlt : g < frames.size := by
        apply Nat.lt_of_not_le
        intro hle
        rw [Frames.findIn?_of_le hle] at hv
        cases hv
      exact ⟨value, Frames.findIn?_define_self hlt other value⟩
    · exact ⟨v, by rw [Frames.findIn?_define_of_ne value hsame]; exact hv⟩
  · intro g other v hother hv
    rw [Frames.findIn?_define_of_ne value]
    · exact hv
    · rintro ⟨rfl, rfl⟩
      rcases h with hname | habsent
      · exact hother hname
      · exact habsent v hv

end Grows

/-! ### Mirroring -/

open Resolution

/--
A frame binds every name that can be read in the scope; in a class scope these are
an instance or a superclass.
-/
structure Binds (frames : Frames Value) (scope : Scope) (f : Nat) : Prop where
  names : ∀ name, scope.find? name = some true → ∃ v, frames.findIn? f name = some v
  this : scope.find? "this" = some true →
    ∃ owner, frames.findIn? f "this" = some (.object owner)
  super : scope.find? "super" = some true →
    ∃ parent, frames.findIn? f "super" = some (.class parent)

/-- The frames from `f` out to, and not including, the global frame match the scopes. -/
def Mirrors (frames : Frames Value) : List Scope → Nat → Prop
  | [], f => f = Frames.globalFrame
  | scope :: outer, f =>
    Binds frames scope f ∧ ∃ g, frames.enclosing? f = some g ∧ Mirrors frames outer g

variable {frames frames' : Frames Value} {scope : Scope} {scopes outer : List Scope} {f : Nat}

theorem Binds.grow (h : Binds frames scope f) (hgrows : Grows frames frames') :
    Binds frames' scope f := by
  constructor
  · intro name hname
    obtain ⟨v, hv⟩ := h.names name hname
    exact hgrows.bound f name v hv
  · intro hthis
    obtain ⟨owner, howner⟩ := h.this hthis
    exact ⟨owner, hgrows.special f _ _ not_isName_this howner⟩
  · intro hsuper
    obtain ⟨parent, hparent⟩ := h.super hsuper
    exact ⟨parent, hgrows.special f _ _ not_isName_super hparent⟩

theorem Mirrors.grow (h : Mirrors frames scopes f) (hgrows : Grows frames frames') :
    Mirrors frames' scopes f := by
  induction scopes generalizing f with
  | nil => exact h
  | cons scope outer ih =>
    obtain ⟨hbinds, g, hg, houter⟩ := h
    exact ⟨hbinds.grow hgrows, g, hgrows.enclosing f g hg, ih houter⟩

theorem Mirrors.lt (h : Mirrors frames scopes f) (hglobal : 0 < frames.size) :
    f < frames.size := by
  cases scopes with
  | nil =>
    rw [Mirrors] at h
    rw [h]
    exact hglobal
  | cons scope outer =>
    obtain ⟨-, g, hg, -⟩ := h
    exact (Frames.lt_of_enclosing? hg).1

/-- The frame at the distance of a scope is the one that mirrors it. -/
theorem Mirrors.ancestor? (h : Mirrors frames scopes f) {d : Nat}
    (hscope : scopes[d]? = some scope) :
    ∃ g, frames.ancestor? f d = some g ∧ Binds frames scope g := by
  induction scopes generalizing f d with
  | nil => simp at hscope
  | cons inner outer ih =>
    obtain ⟨hbinds, g, hg, houter⟩ := h
    cases d with
    | zero =>
      cases hscope
      exact ⟨f, rfl, hbinds⟩
    | succ d =>
      obtain ⟨target, htarget, hmirror⟩ := ih houter hscope
      exact ⟨target, by rw [Frames.ancestor?, hg, Option.bind_some, htarget], hmirror⟩

/-- A frame that mirrors a scope is not the global one. -/
theorem Mirrors.ne_global (h : Mirrors frames (scope :: outer) f) : f ≠ Frames.globalFrame := by
  obtain ⟨-, g, hg, -⟩ := h
  intro hglobal
  have hlt := (Frames.lt_of_enclosing? hg).2
  rw [hglobal] at hlt
  exact Nat.not_lt_zero g hlt

/-- Binding a name makes it readable in the scope. -/
theorem Binds.define (h : Binds frames scope f) (hf : f < frames.size) {name : String}
    (hname : IsName name) (value : Value) :
    Binds (frames.define f name value) (scope.insert name true) f := by
  have hgrows : Grows frames (frames.define f name value) := .define frames f value (.inl hname)
  have hthis : "this" ≠ name := fun heq => hname.1 heq.symm
  have hsuper : "super" ≠ name := fun heq => hname.2 heq.symm
  constructor
  · intro other hother
    rw [Bindings.find?_insert] at hother
    split at hother
    · rename_i heq
      subst heq
      exact ⟨value, Frames.findIn?_define_self hf other value⟩
    · exact (h.grow hgrows).names other hother
  · intro hfound
    rw [Bindings.find?_insert, if_neg hthis] at hfound
    exact (h.grow hgrows).this hfound
  · intro hfound
    rw [Bindings.find?_insert, if_neg hsuper] at hfound
    exact (h.grow hgrows).super hfound

theorem Mirrors.define {r : Resolution} (h : Mirrors frames r.scopes f)
    (hglobal : 0 < frames.size) {name : String} (hname : IsName name) (value : Value) :
    Mirrors (frames.define f name value) (r.mark name true).scopes f := by
  have hf := h.lt hglobal
  rw [scopes_mark]
  cases hscopes : r.scopes with
  | nil =>
    rw [hscopes] at h
    exact h
  | cons scope outer =>
    rw [hscopes] at h
    obtain ⟨hbinds, g, hg, houter⟩ := h
    have hgrows : Grows frames (frames.define f name value) := .define frames f value (.inl hname)
    exact ⟨hbinds.define hf hname value, g, hgrows.enclosing f g hg, houter.grow hgrows⟩

/-- A name that is only declared need not be bound. -/
theorem Mirrors.declare {r : Resolution} (h : Mirrors frames r.scopes f) {token : Token}
    (hname : IsName token.lexeme) : Mirrors frames (r.declare token).scopes f := by
  rw [scopes_declare, scopes_mark]
  cases hscopes : r.scopes with
  | nil =>
    rw [hscopes] at h
    exact h
  | cons scope outer =>
    rw [hscopes] at h
    obtain ⟨hbinds, g, hg, houter⟩ := h
    refine ⟨⟨?_, ?_, ?_⟩, g, hg, houter⟩
    · intro name hfound
      rw [Bindings.find?_insert] at hfound
      split at hfound
      · cases hfound
      · exact hbinds.names name hfound
    · intro hfound
      rw [Bindings.find?_insert, if_neg (fun heq => hname.1 heq.symm)] at hfound
      exact hbinds.this hfound
    · intro hfound
      rw [Bindings.find?_insert, if_neg (fun heq => hname.2 heq.symm)] at hfound
      exact hbinds.super hfound

theorem binds_empty (frames : Frames Value) (f : Nat) : Binds frames .empty f :=
  ⟨nofun, nofun, nofun⟩

/-- A new frame mirrors a new scope. -/
theorem Mirrors.child (h : Mirrors frames scopes f) (hglobal : 0 < frames.size) :
    Mirrors (frames.child f) (.empty :: scopes) frames.next :=
  ⟨binds_empty _ _, f, Frames.enclosing?_child_next (h.lt hglobal), h.grow (.child frames f)⟩

end Lox
