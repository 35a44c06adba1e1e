import Mathlib.Data.Nat.Find
import Lox.Proofs.Frames.Mirroring

/-!
# Chains of frames

From every frame a chain leads outwards to a frame that nothing encloses.  A name can be
looked up along this chain in two ways, by a search and at a distance.  The search stops
at the least distance at which the name is bound, and reads and writes there what an
access at that distance reads and writes.  A write changes one binding of one frame, and
this is seen from just those frames whose chains lead through that frame.
-/

namespace Lox

namespace Frames

variable {α : Type} {frames frames' : Frames α} {f g : FrameId} {name : String} {d : Nat} {a : α}

/-! ### The end of a chain -/

/-- A chain ends at a frame that nothing encloses, and there is nothing behind its end. -/
theorem exists_outermost (frames : Frames α) (f : FrameId) :
    ∃ depth outermost, frames.ancestor? f depth = some outermost ∧
      frames.enclosing? outermost = none ∧
      ∀ d, frames.ancestor? f d = none ↔ depth < d := by
  induction f using Nat.strongRecOn with
  | ind f ih =>
    cases houter : frames.enclosing? f with
    | none =>
      refine ⟨0, f, rfl, houter, ?_⟩
      intro d
      cases d with
      | zero => simp [ancestor?]
      | succ d => simp [ancestor?, houter]
    | some outer =>
      obtain ⟨depth, outermost, hdepth, hend, habsent⟩ := ih outer (lt_of_enclosing? houter).2
      refine ⟨depth + 1, outermost, ?_, hend, ?_⟩
      · rw [ancestor?, houter, Option.bind_some, hdepth]
      · intro d
        cases d with
        | zero => simp [ancestor?]
        | succ d =>
          rw [ancestor?, houter, Option.bind_some, habsent d]
          exact Nat.add_lt_add_iff_right.symm

/-! ### Where a name is bound -/

/-- There is a frame at the distance, and it binds the name. -/
def BindsAt (frames : Frames α) (f : FrameId) (d : Nat) (name : String) : Prop :=
  ∃ g a, frames.ancestor? f d = some g ∧ frames.findIn? g name = some a

/-- The distance is the least one at which the name is bound. -/
def BindsFirst (frames : Frames α) (f : FrameId) (d : Nat) (name : String) : Prop :=
  frames.BindsAt f d name ∧ ∀ nearer < d, ¬ frames.BindsAt f nearer name

theorem exists_bindsFirst (h : ∃ d, frames.BindsAt f d name) : ∃ d, frames.BindsFirst f d name := by
  classical
  exact ⟨Nat.find h, Nat.find_spec h, fun _ hlt => Nat.find_min h hlt⟩

/-- From a frame that does not bind the name, everything is one step further than from around it. -/
theorem BindsFirst.tail {outer : FrameId} (h : frames.BindsFirst f (d + 1) name)
    (houter : frames.enclosing? f = some outer) : frames.BindsFirst outer d name := by
  have hstep : ∀ d, frames.BindsAt f (d + 1) name ↔ frames.BindsAt outer d name := by
    intro d
    simp only [BindsAt, ancestor?, houter, Option.bind_some]
  exact ⟨(hstep d).mp h.1, fun nearer hlt hbinds =>
    h.2 (nearer + 1) (Nat.succ_lt_succ hlt) ((hstep nearer).mpr hbinds)⟩

/-- A search ends at the least distance at which the name is bound. -/
theorem BindsFirst.holder? (h : frames.BindsFirst f d name) :
    frames.holder? name f = frames.ancestor? f d := by
  induction d generalizing f with
  | zero =>
    obtain ⟨⟨g, a, hg, ha⟩, -⟩ := h
    cases hg
    exact holder?_of_found ha
  | succ d ih =>
    obtain ⟨g, a, hg, -⟩ := h.1
    obtain ⟨outer, houter, -⟩ := Option.bind_eq_some_iff.mp hg
    have hpassed : frames.findIn? f name = none := by
      apply Option.eq_none_iff_forall_ne_some.mpr
      intro b hb
      exact h.2 0 (Nat.succ_pos d) ⟨f, b, rfl, hb⟩
    rw [holder?_of_passed hpassed houter, ih (h.tail houter), ancestor?, houter, Option.bind_some]

/-- A search ends at some distance. -/
theorem bindsAt_of_holder? (h : frames.holder? name f = some g) :
    ∃ d, frames.BindsAt f d name := by
  induction f using Nat.strongRecOn with
  | ind f ih =>
    rw [holder?_eq] at h
    split at h
    · rename_i hfound
      obtain ⟨a, ha⟩ := Option.isSome_iff_exists.mp hfound
      exact ⟨0, f, a, rfl, ha⟩
    · obtain ⟨outer, houter, hholder⟩ := Option.bind_eq_some_iff.mp h
      obtain ⟨d, target, a, htarget, ha⟩ := ih outer (lt_of_enclosing? houter).2 hholder
      exact ⟨d + 1, target, a, by rw [ancestor?, houter, Option.bind_some, htarget], ha⟩

/-! ### Reading -/

theorem getAt_of_findIn? (hg : frames.ancestor? f d = some g) (ha : frames.findIn? g name = some a)
    (line : Nat) : frames.getAt f d name line = .ok a := by
  rw [getAt, hg, Option.bind_some, ha]

theorem BindsFirst.get_eq (h : frames.BindsFirst f d name) (line : Nat) :
    frames.get f name line = frames.getAt f d name line := by
  obtain ⟨g, a, hg, ha⟩ := h.1
  rw [get, h.holder?, getAt_of_findIn? hg ha, hg, Option.bind_some, ha]

theorem exists_get_iff {line : Nat} :
    (∃ a, frames.get f name line = .ok a) ↔ ∃ d, frames.BindsAt f d name := by
  constructor
  · rintro ⟨a, ha⟩
    cases hholder : frames.holder? name f with
    | none => simp [get, hholder] at ha
    | some g => exact bindsAt_of_holder? hholder
  · intro h
    obtain ⟨d, hfirst⟩ := exists_bindsFirst h
    obtain ⟨g, a, hg, ha⟩ := hfirst.1
    exact ⟨a, (hfirst.get_eq line).trans (getAt_of_findIn? hg ha line)⟩

/-! ### Writing -/

/-- The same frames but for what one of them binds one name to. -/
structure Rebound (frames frames' : Frames α) (g : FrameId) (name : String) (a : α) : Prop where
  size : frames'.size = frames.size
  enclosing? : ∀ f, frames'.enclosing? f = frames.enclosing? f
  findIn? : ∀ f other, frames'.findIn? f other =
    if f = g ∧ other = name then some a else frames.findIn? f other

theorem rebound_define (hg : g < frames.size) (name : String) (a : α) :
    frames.Rebound (frames.define g name a) g name a :=
  ⟨size_define frames g name a, fun f => enclosing?_define frames g f name a,
    fun f other => findIn?_define frames g f name other a hg⟩

theorem Rebound.ancestor? (h : frames.Rebound frames' g name a) (f : FrameId) (d : Nat) :
    frames'.ancestor? f d = frames.ancestor? f d := by
  induction d generalizing f with
  | zero => rfl
  | succ d ih =>
    rw [Frames.ancestor?, Frames.ancestor?, h.enclosing? f]
    congr 1
    funext outer
    exact ih outer

/-- The write is seen on every way to the frame, and nowhere else. -/
theorem Rebound.getAt (h : frames.Rebound frames' g name a) (f : FrameId) (d : Nat)
    (other : String) (line : Nat) :
    frames'.getAt f d other line =
      if frames.ancestor? f d = some g ∧ other = name then .ok a
      else frames.getAt f d other line := by
  unfold Frames.getAt
  rw [h.ancestor? f d]
  cases htarget : frames.ancestor? f d with
  | none => rfl
  | some target =>
    simp only [Option.bind_some, h.findIn? target other, Option.some.injEq]
    by_cases hsame : target = g ∧ other = name
    · rw [if_pos hsame, if_pos hsame]
    · rw [if_neg hsame, if_neg hsame]

theorem assignAt_of_ancestor? (hg : frames.ancestor? f d = some g) (name : String) (line : Nat)
    (a : α) : frames.assignAt f d name line a = .ok (frames.define g name a) := by
  rw [assignAt, frameAt, hg]
  rfl

theorem BindsFirst.assign_eq (h : frames.BindsFirst f d name) (line : Nat) (a : α) :
    frames.assign f name line a = frames.assignAt f d name line a := by
  obtain ⟨g, b, hg, -⟩ := h.1
  rw [assignAt_of_ancestor? hg, assign, frameOf, h.holder?, hg]
  rfl

theorem exists_assign_iff {line : Nat} :
    (∃ frames', frames.assign f name line a = .ok frames') ↔ ∃ d, frames.BindsAt f d name := by
  constructor
  · rintro ⟨frames', hassign⟩
    cases hholder : frames.holder? name f with
    | none =>
      rw [assign, frameOf, hholder] at hassign
      cases hassign
    | some g => exact bindsAt_of_holder? hholder
  · intro h
    obtain ⟨d, hfirst⟩ := exists_bindsFirst h
    obtain ⟨g, b, hg, -⟩ := hfirst.1
    exact ⟨_, (hfirst.assign_eq line a).trans (assignAt_of_ancestor? hg name line a)⟩

/-! ### Calls -/

inductive Call (α : Type) where
  /-- Makes a frame that nothing encloses. -/
  | root
  | child (outer : FrameId)
  | define (f : FrameId) (name : String) (a : α)
  | get (f : FrameId) (name : String) (line : Nat)
  | assign (f : FrameId) (name : String) (line : Nat) (a : α)
  | getAt (f : FrameId) (d : Nat) (name : String) (line : Nat)
  | assignAt (f : FrameId) (d : Nat) (name : String) (line : Nat) (a : α)

inductive Answer (α : Type) where
  | done
  | frame (f : FrameId)
  | value (a : α)

/-- The answer of a call that writes, and the frames behind it; a failing call gives no new ones. -/
def commit (frames : Frames α) :
    Except RuntimeError (Frames α) → Except RuntimeError (Answer α) × Frames α
  | .ok frames' => (.ok .done, frames')
  | .error e => (.error e, frames)

def perform (frames : Frames α) : Call α → Except RuntimeError (Answer α) × Frames α
  | .root => (.ok (.frame frames.next), frames.child frames.next)
  | .child outer => (.ok (.frame frames.next), frames.child outer)
  | .define f name a => (.ok .done, frames.define f name a)
  | .get f name line => ((frames.get f name line).map .value, frames)
  | .assign f name line a => frames.commit (frames.assign f name line a)
  | .getAt f d name line => ((frames.getAt f d name line).map .value, frames)
  | .assignAt f d name line a => frames.commit (frames.assignAt f d name line a)

theorem commit_of_error {result : Except RuntimeError (Frames α)} {e : RuntimeError}
    (h : frames.commit result = (.error e, frames')) : frames' = frames := by
  cases result with
  | ok frames'' => cases h
  | error e' =>
    cases h
    rfl

/-- A call that fails leaves all frames as they were. -/
theorem perform_of_error {call : Call α} {e : RuntimeError}
    (h : frames.perform call = (.error e, frames')) : frames' = frames := by
  cases call with
  | root | child | define => cases h
  | get | getAt => exact (Prod.mk.inj h).2.symm
  | assign | assignAt => exact commit_of_error h

/-! ### Both ways agree -/

/--
A search along the chain of a frame and accesses at distances agree.  Steps outwards add
up, and lead nowhere just past the end of the chain.  A name is found and assigned by a
search just if it is bound at some distance, and then the search does what an access at the
least such distance does.  An assignment at a distance in the chain succeeds, changes that
one binding of that one frame, and is read back there.  A call that fails changes nothing.
-/
theorem search_agrees (frames : Frames α) {f : FrameId} (hf : f < frames.size) :
    (∀ b c, frames.ancestor? f (b + c) = (frames.ancestor? f b).bind (frames.ancestor? · c)) ∧
    (∃ depth outermost, frames.ancestor? f depth = some outermost ∧
      frames.enclosing? outermost = none ∧ ∀ d, frames.ancestor? f d = none ↔ depth < d) ∧
    (∀ name line,
      ((∃ a, frames.get f name line = .ok a) ↔ ∃ d, frames.BindsAt f d name) ∧
      (∀ a, (∃ frames', frames.assign f name line a = .ok frames') ↔
        ∃ d, frames.BindsAt f d name) ∧
      ((∃ d, frames.BindsAt f d name) → ∃ d, frames.BindsFirst f d name) ∧
      ∀ d, frames.BindsFirst f d name →
        frames.get f name line = frames.getAt f d name line ∧
        ∀ a, frames.assign f name line a = frames.assignAt f d name line a) ∧
    (∀ d g, frames.ancestor? f d = some g → ∀ name line a, ∃ frames',
      frames.assignAt f d name line a = .ok frames' ∧ frames.Rebound frames' g name a ∧
      (∀ line', frames'.getAt f d name line' = .ok a) ∧
      ∀ f' d' other line', frames'.getAt f' d' other line' =
        if frames.ancestor? f' d' = some g ∧ other = name then .ok a
        else frames.getAt f' d' other line') ∧
    ∀ call e frames', frames.perform call = (.error e, frames') → frames' = frames := by
  refine ⟨frames.ancestor?_add f, frames.exists_outermost f, ?_, ?_, fun _ _ _ => perform_of_error⟩
  · intro name line
    exact ⟨exists_get_iff, fun a => exists_assign_iff, exists_bindsFirst,
      fun d h => ⟨h.get_eq line, h.assign_eq line⟩⟩
  · intro d g hg name line a
    have hrebound := rebound_define (lt_of_ancestor? hf hg) name a
    refine ⟨_, assignAt_of_ancestor? hg name line a, hrebound, ?_, hrebound.getAt⟩
    intro line'
    rw [hrebound.getAt, if_pos ⟨hg, rfl⟩]

/-- Two frames inside of the outermost one, of which the first binds the same name and has one inside. -/
def sharedForest : Frames Bool :=
  ((((Frames.initial.define 0 "x" false).child 0).child 0).child 1).define 1 "x" true

theorem sharedForest_agrees :
    3 < sharedForest.size ∧ sharedForest.BindsFirst 3 1 "x" ∧
      sharedForest.get 3 "x" 1 = .ok true ∧
      ∃ frames', sharedForest.assignAt 3 2 "x" 1 true = .ok frames' ∧
        frames'.getAt 2 1 "x" 1 = .ok true ∧ frames'.getAt 3 1 "x" 1 = .ok true := by
  have hsize : 3 < sharedForest.size := by decide
  have hbound : sharedForest.ancestor? 3 1 = some 1 ∧ sharedForest.findIn? 1 "x" = some true := by
    decide
  have hpassed : sharedForest.findIn? 3 "x" = none := by decide
  have hfirst : sharedForest.BindsFirst 3 1 "x" := by
    refine ⟨⟨1, true, hbound⟩, ?_⟩
    rintro nearer hlt ⟨g, a, hg, ha⟩
    cases Nat.lt_one_iff.mp hlt
    cases hg
    cases hpassed.symm.trans ha
  obtain ⟨-, -, hsearch, hassign, -⟩ := search_agrees sharedForest hsize
  obtain ⟨frames', hassigned, -, -, hread⟩ := hassign 2 0 (by decide) "x" 1 true
  refine ⟨hsize, hfirst, ?_, frames', hassigned, ?_, ?_⟩
  · obtain ⟨hget, -⟩ := (hsearch "x" 1).2.2.2 1 hfirst
    exact hget.trans (getAt_of_findIn? hbound.1 hbound.2 1)
  · rw [hread, if_pos (by decide)]
  · rw [hread, if_neg (by decide)]
    exact getAt_of_findIn? hbound.1 hbound.2 1

end Frames

end Lox
