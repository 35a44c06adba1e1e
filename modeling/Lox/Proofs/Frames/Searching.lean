import Lox.Proofs.Frames.Mirroring
import Lox.Proofs.Resolution.Outlooks

/-!
# Searching frames

A search goes outwards to the first frame that binds a name.  It ends where resolution has
found the name if no frame further inside binds it.  Mirroring says which names a frame
binds at least; here limits say which names it binds at most.
-/

namespace Lox

/-! ### Limits -/

/-- The names that each frame binds at most. -/
abbrev Limits := FrameId → List String

/-- The frames from `f` outwards have these limits, up to the global one, which has none. -/
def Limited (L : Limits) (frames : Frames Value) : Outlook → FrameId → Prop
  | [], f => f = Frames.globalFrame
  | names :: Δ, f => L f = names ∧ ∃ g, frames.enclosing? f = some g ∧ Limited L frames Δ g

/-- Frames other than the global one keep within their limits. -/
def Kept (L : Limits) (frames : Frames Value) : Prop :=
  ∀ f name value, frames.findIn? f name = some value → f = Frames.globalFrame ∨ name ∈ L f

variable {L L' : Limits} {frames frames' : Frames Value} {Δ : Outlook} {f : FrameId}
  {scopes : List Scope} {name : String}

theorem Limited.grow (h : Limited L frames Δ f) (hgrows : Grows frames frames')
    (hlimits : ∀ g : Nat, g < frames.size → L' g = L g) : Limited L' frames' Δ f := by
  induction Δ generalizing f with
  | nil => exact h
  | cons names Δ ih =>
    obtain ⟨hnames, g, hg, houter⟩ := h
    exact ⟨(hlimits f (Frames.lt_of_enclosing? hg).1).trans hnames, g, hgrows.enclosing f g hg,
      ih houter⟩

theorem Limited.lt (h : Limited L frames Δ f) (hglobal : 0 < frames.size) : f < frames.size := by
  cases Δ with
  | nil =>
    rw [Limited] at h
    rw [h]
    exact hglobal
  | cons names Δ =>
    obtain ⟨-, g, hg, -⟩ := h
    exact (Frames.lt_of_enclosing? hg).1

/-- What is declared in the scope at hand may be bound in the frame at hand. -/
theorem Limited.declares (h : Limited L frames Δ f) (hname : Δ.Declares name) :
    f = Frames.globalFrame ∨ name ∈ L f := by
  cases Δ with
  | nil => exact .inl h
  | cons names Δ => exact .inr (h.1 ▸ hname names rfl)

theorem Kept.findIn?_eq_none (h : Kept L frames) (hf : f ≠ Frames.globalFrame)
    (hname : name ∉ L f) : frames.findIn? f name = none := by
  apply Option.eq_none_iff_forall_ne_some.mpr
  intro value hvalue
  exact hname ((h f name value hvalue).resolve_left hf)

/-! ### Where a search ends -/

/-- A name that has a distance is found at this distance. -/
theorem Mirrors.holder?_of_distance (h : Mirrors frames scopes f) (hlimited : Limited L frames Δ f)
    (hkept : Kept L frames) (hdecides : List.Forall₂ (Decides name) scopes Δ) {d : Nat}
    (hd : Resolution.distance? scopes name = some d) :
    ∃ g value, frames.ancestor? f d = some g ∧ frames.findIn? g name = some value ∧
      frames.holder? name f = some g := by
  induction hdecides generalizing f d with
  | nil => cases hd
  | @cons scope names scopes Δ hscope _ ih =>
    have hne := h.ne_global
    obtain ⟨hbinds, g, hg, houter⟩ := h
    obtain ⟨hnames, g', hg', houter'⟩ := hlimited
    cases hg.symm.trans hg'
    rw [Resolution.distance?_cons] at hd
    unfold Decides at hscope
    by_cases hmem : name ∈ names
    · rw [if_pos hmem] at hscope
      rw [if_pos (Resolution.contains_of_find? hscope)] at hd
      cases hd
      obtain ⟨value, hvalue⟩ := hbinds.names name hscope
      exact ⟨f, value, rfl, hvalue, Frames.holder?_of_found hvalue⟩
    · rw [if_neg hmem] at hscope
      rw [if_neg (by simp [Resolution.not_contains_of_find? hscope])] at hd
      obtain ⟨d', hd', rfl⟩ := Option.map_eq_some_iff.mp hd
      obtain ⟨target, value, htarget, hvalue, hholder⟩ := ih houter houter' hd'
      have hpassed := hkept.findIn?_eq_none hne (hnames ▸ hmem)
      refine ⟨target, value, ?_, hvalue, (Frames.holder?_of_passed hpassed hg).trans hholder⟩
      rw [Frames.ancestor?, hg, Option.bind_some, htarget]

/-- A name that has no distance is looked up among the globals. -/
theorem Mirrors.holder?_of_global (h : Mirrors frames scopes f) (hlimited : Limited L frames Δ f)
    (hkept : Kept L frames) (hdecides : List.Forall₂ (Decides name) scopes Δ)
    (hd : Resolution.distance? scopes name = none) :
    frames.holder? name f = frames.holder? name Frames.globalFrame := by
  induction hdecides generalizing f with
  | nil =>
    have hglobal : f = Frames.globalFrame := h
    rw [hglobal]
  | @cons scope names scopes Δ hscope _ ih =>
    have hne := h.ne_global
    obtain ⟨-, g, hg, houter⟩ := h
    obtain ⟨hnames, g', hg', houter'⟩ := hlimited
    cases hg.symm.trans hg'
    rw [Resolution.distance?_cons] at hd
    unfold Decides at hscope
    by_cases hmem : name ∈ names
    · rw [if_pos hmem] at hscope
      rw [if_pos (Resolution.contains_of_find? hscope)] at hd
      cases hd
    · rw [if_neg hmem] at hscope
      rw [if_neg (by simp [Resolution.not_contains_of_find? hscope]), Option.map_eq_none_iff] at hd
      have hpassed := hkept.findIn?_eq_none hne (hnames ▸ hmem)
      exact (Frames.holder?_of_passed hpassed hg).trans (ih houter houter' hd)

end Lox
