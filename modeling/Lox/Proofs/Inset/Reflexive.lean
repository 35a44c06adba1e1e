import Lox.Proofs.Execution.Similar
import Lox.Proofs.Inset.Machine
import Lox.Proofs.Session.Reached

/-!
# A sound machine with other distances

The functions of a sound machine have code in which every occurrence was visited.  So the
machine is like itself without any further frame, also if it has other distances, provided
that these are the same for what was visited.
-/

namespace Lox

variable {V : Visit → Prop} {D D' : Distances} {W : Embedding}

/-- Without further scopes, an occurrence corresponds to itself if it has one distance. -/
theorem InPlace.reflexive (D D' : Distances) :
    Counterparts.Reflexive (InPlace D D') (· = .flush) fun p => D'[p.id]? = D[p.id]? := by
  constructor
  · rintro σ rfl
    exact Inset.enter_flush
  · rintro σ kind p rfl hp
    refine ⟨rfl, ?_, fun _ _ _ => rfl⟩
    rw [hp]
    exact Option.map_id'.symm

/-- Each frame stands among the same frames as before. -/
theorem Sees.same {frames : Frames Value} {f : Nat} (hf : f < frames.size) :
    Sees ⟨frames, frames, id⟩ .flush f f :=
  ⟨hf, hf, fun _ _ h => h⟩

section

variable {frames : Frames Value} (hV : ∀ v, V v → D'[v.place.id]? = D[v.place.id]?)

include hV

theorem RoutineOk.inset_self {routine : EnclosingRoutine} {d : FunctionDecl} {r : Resolution}
    (h : RoutineOk V routine d r) : FunctionInset (InPlace D D') .flush d d := by
  apply d.inset_self (InPlace.reflexive D D') rfl h.shaped
  intro o ho
  obtain ⟨v, hv, rfl⟩ := List.mem_map.mp ((d.perm_visits routine r).symm.subset ho)
  exact hV v (h.passed.visited v hv)

variable (hglobal : 0 < frames.size)

include hglobal

theorem FunctionOk.embedded_self {f : Function} (h : FunctionOk V frames f) :
    FunctionEmbedded D D' ⟨frames, frames, id⟩ true f f := by
  obtain ⟨routine, r, hroutine, hmirrors, -⟩ := h.routine
  exact ⟨rfl, fun _ => rfl, rfl, .flush, hroutine.inset_self hV, .same (hmirrors.lt hglobal)⟩

theorem MethodOk.embedded_self {inherited : List ClassLayer} {f : Function}
    (h : MethodOk V frames inherited f) :
    FunctionEmbedded D D' ⟨frames, frames, id⟩ false f f := by
  obtain ⟨routine, r, outer, hroutine, -, hmirrors, -⟩ := h
  refine ⟨rfl, fun _ => rfl, rfl, .flush, ?_, .same (hmirrors.lt hglobal)⟩
  rw [if_neg Bool.false_ne_true, Inset.enter_flush]
  exact hroutine.inset_self hV

theorem ClassOk.embedded_self {c : Class} (h : ClassOk V frames c) :
    ClassEmbedded D D' ⟨frames, frames, id⟩ c c := by
  apply List.forall₂_same.mpr
  intro layer hlayer
  refine ⟨rfl, rfl, ?_⟩
  obtain ⟨before, inherited, hchain⟩ := List.append_of_mem hlayer
  intro name
  exact Option.Rel.self fun f hfound =>
    (h before layer inherited hchain name f hfound).embedded_self hV hglobal

theorem ValueOk.embedded_self {value : Value} (h : ValueOk V frames value) :
    ValueEmbedded D D' ⟨frames, frames, id⟩ value value := by
  cases value with
  | nil => exact .nil
  | bool => exact .bool
  | number => exact .number
  | string => exact .string
  | native => exact .native
  | function f => exact .function (FunctionOk.embedded_self hV hglobal h)
  | «class» c => exact .class (ClassOk.embedded_self hV hglobal h)
  | object owner => exact .object rfl (ClassOk.embedded_self hV hglobal h)

end

/-- A sound machine is like itself with other distances, if those of its code are the same. -/
theorem Sound.embedded_self {m : Machine} (h : Sound V m)
    (hV : ∀ v, V v → D'[v.place.id]? = D[v.place.id]?) :
    MachineEmbedded D D' id { m with distances := D } { m with distances := D' } := by
  refine ⟨rfl, rfl, h.global, rfl, fun _ hf => hf, fun _ _ _ _ heq => heq, ?_, rfl, ?_, rfl, rfl,
    rfl, rfl⟩
  · intro f _ name
    exact Option.Rel.self fun value hfound =>
      (h.bound f name value hfound).embedded_self hV h.global
  · intro i name
    exact Option.Rel.self fun value hfound =>
      (forall_fields_getD h.fields hfound).embedded_self hV h.global

end Lox
