import Lox.Proofs.Compiled
import Lox.Proofs.Execution.Evaluation
import Lox.Session

/-!
# The sessions that can be reached

A session starts with nothing but its sink, and then runs sources one after the other.
Whatever becomes of these runs, the machine is sound: its functions are those of the
programs that compiled, and its distances are those of their occurrences.
-/

namespace Lox

open Resolution

/-- The sessions that runs of sources lead to, and the programs among these sources. -/
inductive Reached (sink : Sink) : List Program → Session → Prop where
  | initial : Reached sink [] (Session.initial sink)
  | rejected {units : List Program} {session : Session} {rules : Rules} {fuel : Nat}
      {source : String} {errors : List Diagnostic} {n : NodeId} :
      Reached sink units session →
      Program.compile source session.nextId = (.error errors, n) →
      Reached sink units (session.run rules fuel source).2
  | ran {units : List Program} {session : Session} {rules : Rules} {fuel : Nat}
      {source : String} {program : Program} {n : NodeId} :
      Reached sink units session →
      Program.compile source session.nextId = (.ok program, n) →
      Reached sink (program :: units) (session.run rules fuel source).2

/-- The visits of all programs of a session. -/
def Visited (units : List Program) (v : Visit) : Prop :=
  ∃ unit ∈ units, v ∈ Stmt.visitsEach unit.statements {}

/-- Between two runs the machine is sound, and the global frame is the current one. -/
structure Steady (units : List Program) (session : Session) : Prop where
  sound : Sound (Visited units) session.machine
  current : session.machine.current = Frames.globalFrame
  visits_lt : ∀ v, Visited units v → v.place.id < session.nextId
  distances_lt : ∀ (id d : Nat), session.machine.distances[id]? = some d → id < session.nextId

/-! ### The start -/

theorem Frames.findIn?_initial (f : Nat) (name : String) :
    (Frames.initial : Frames Value).findIn? f name = none := by
  cases f with
  | zero => rfl
  | succ f => rfl

theorem Machine.findIn?_initialFrames {f : Nat} {name : String} {value : Value}
    (h : initialFrames.findIn? f name = some value) : ∃ native, value = .native native := by
  simp only [initialFrames, Native.all, List.foldl_cons, List.foldl_nil] at h
  rcases Frames.findIn?_define_cases h with rfl | h
  · exact ⟨.print, rfl⟩
  rcases Frames.findIn?_define_cases h with rfl | h
  · exact ⟨.clock, rfl⟩
  rw [Frames.findIn?_initial] at h
  cases h

theorem steady_initial (sink : Sink) : Steady [] (Session.initial sink) := by
  constructor
  · constructor
    · rintro v ⟨unit, hunit, -⟩
      cases hunit
    · change 0 < Machine.initialFrames.size
      decide
    · intro f name value hfound
      obtain ⟨native, rfl⟩ := Machine.findIn?_initialFrames hfound
      trivial
    · intro i bindings hbindings
      simp [Session.initial, Machine.initial] at hbindings
  · rfl
  · rintro v ⟨unit, hunit, -⟩
    cases hunit
  · intro id d hd
    simp [Session.initial, Machine.initial] at hd

/-! ### One more program -/

section

variable {units : List Program} {session : Session} {source : String} {program : Program}
  {n : NodeId}

theorem Program.place_of_visit {statements : List Stmt} {v : Visit}
    (hv : v ∈ Stmt.visitsEach statements {}) :
    (v.kind, v.place) ∈ Stmt.occurrencesEach statements :=
  (Stmt.perm_visitsEach {} statements).subset (List.mem_map_of_mem hv)

/-- The identities of a new program lie behind all of those that were used before. -/
theorem Program.id_of_distance? (hcompile : Program.compile source session.nextId = (.ok program, n))
    {id d : Nat} (hd : program.distances[id]? = some d) : session.nextId ≤ id ∧ id < n := by
  have hmade := Program.wellMade_of_compile hcompile
  have hmem := mem_visits_of_getElem? (Program.compile_eq_ok_iff.mp hcompile).2.2 hd
  obtain ⟨v, hv, rfl⟩ := List.mem_map.mp hmem
  exact hmade.ids.bounds _ (place_of_visit hv)

theorem Program.recorded {a : NodeId} (hcompile : Program.compile source a = (.ok program, n))
    {v : Visit} (hv : v ∈ Stmt.visitsEach program.statements {}) :
    v.Recorded program.distances := by
  have hmade := Program.wellMade_of_compile hcompile
  have hrun := (Program.compile_eq_ok_iff.mp hcompile).2.2
  exact ⟨getElem?_of_run hrun hmade.ids.nodup hv, faultless_of_run hrun v hv,
    hmade.fitting _ (place_of_visit hv)⟩

/-- A program that is learned adds nothing for the identities that were there before. -/
theorem Program.learned_old {id : Nat}
    (hcompile : compile source session.nextId = (.ok program, n)) (hid : id < session.nextId)
    (machine : Machine) :
    (machine.learn program.distances).distances[id]? = machine.distances[id]? := by
  have hnew : program.distances[id]? = none := by
    apply Option.eq_none_iff_forall_ne_some.mpr
    intro d hd
    exact Nat.lt_irrefl _ (Nat.lt_of_lt_of_le hid (id_of_distance? hcompile hd).1)
  rw [getElem?_learn, hnew, Option.none_or]

/-- The frame that is at hand is there. -/
theorem Steady.current_lt (h : Steady units session) :
    session.machine.current < session.machine.frames.size := by
  rw [h.current]
  exact h.sound.global

/-- For the identities that are new, only the program that is learned counts. -/
theorem Steady.learned_new (h : Steady units session) {id : Nat} (hid : session.nextId ≤ id)
    (distances : Distances) :
    (session.machine.learn distances).distances[id]? = distances[id]? := by
  have hold : session.machine.distances[id]? = none := by
    apply Option.eq_none_iff_forall_ne_some.mpr
    intro d hd
    exact Nat.lt_irrefl _ (Nat.lt_of_lt_of_le (h.distances_lt _ _ hd) hid)
  rw [getElem?_learn, hold, Option.or_none]

/-- What a steady machine knows of its programs stays true when it learns one more. -/
theorem Steady.learn (h : Steady units session)
    (hcompile : Program.compile source session.nextId = (.ok program, n)) :
    Sound (Visited (program :: units)) (session.machine.learn program.distances) := by
  have hgrow : ∀ v, Visited units v → Visited (program :: units) v := by
    rintro v ⟨unit, hunit, hv⟩
    exact ⟨unit, List.mem_cons_of_mem _ hunit, hv⟩
  have hmade := Program.wellMade_of_compile hcompile
  constructor
  · rintro v ⟨unit, hunit, hv⟩
    rcases List.mem_cons.mp hunit with rfl | hunit
    · have hrecorded := Program.recorded hcompile hv
      have hbounds := hmade.ids.bounds _ (Program.place_of_visit hv)
      refine ⟨?_, hrecorded.faultless, hrecorded.fits⟩
      rw [h.learned_new hbounds.1, hrecorded.distance]
    · have hvisited : Visited units v := ⟨unit, hunit, hv⟩
      have hrecorded := h.sound.recorded v hvisited
      refine ⟨?_, hrecorded.faultless, hrecorded.fits⟩
      rw [Program.learned_old hcompile (h.visits_lt v hvisited), hrecorded.distance]
  · exact h.sound.global
  · intro f name value hfound
    exact (h.sound.bound f name value hfound).mono hgrow (.refl _)
  · intro i bindings hbindings name value hfound
    exact (h.sound.fields i bindings hbindings name value hfound).mono hgrow (.refl _)

/-- A new program is resolved in the empty state. -/
theorem Program.stmtEachOk (hcompile : Program.compile source session.nextId = (.ok program, n)) :
    StmtEachOk (Visited (program :: units)) {} program.statements := by
  have hrun := (Program.compile_eq_ok_iff.mp hcompile).2.2
  refine ⟨⟨(distances_of_run hrun).1, ?_⟩, (Program.wellMade_of_compile hcompile).shaped,
    ready_initial⟩
  intro v hv
  exact ⟨program, List.mem_cons_self, hv⟩

/-- A run of a program that compiled keeps the machine sound. -/
theorem Steady.keeps (h : Steady units session)
    (hcompile : Program.compile source session.nextId = (.ok program, n)) (rules : Rules)
    (fuel : Nat) :
    Keeps (Visited (program :: units)) (session.machine.learn program.distances)
      (FlowOk (Visited (program :: units)) {} (Stmt.resolveEach program.statements {}))
      (Exec.executeEach rules fuel program.statements
        (session.machine.learn program.distances)) :=
  (soundAt _ rules fuel).executeEach (h.learn hcompile) h.current (Program.stmtEachOk hcompile)

/-- The machine behind a run, and the error that ended it if there is one. -/
theorem Keeps.interpret {V : Visit → Prop} {m : Machine} {post : Flow → Machine → Prop}
    {rules : Rules} {fuel : Nat} {statements : List Stmt}
    (h : Keeps V m post (Exec.executeEach rules fuel statements m)) :
    After V m (Session.interpret rules fuel statements m).2 ∧
      ∀ error, (Session.interpret rules fuel statements m).1 = .failed (.runtime error) →
        error.cause.Harmless := by
  -- The statements are followed by a flush, which changes nothing else.
  have hinterpret : Keeps V m (fun _ _ => True) (Exec.interpret rules fuel statements m) := by
    unfold Exec.interpret
    apply Keeps.bind h
    intro flow m' hafter _
    exact Keeps.pure hafter.sound trivial
  unfold Session.interpret
  cases hrun : Exec.interpret rules fuel statements m with
  -- The run ended well, so it failed at most in its flush.
  | ok a m' =>
    rw [hrun] at hinterpret
    refine ⟨hinterpret.1, ?_⟩
    intro error herror
    simp only at herror
    split at herror <;> cases herror
  | error e m' =>
    rw [hrun] at hinterpret
    cases e with
    -- A run out of fuel has no error.
    | outOfFuel =>
      refine ⟨hinterpret.1, ?_⟩
      intro error herror
      cases herror
    -- An error is reported if the flush does not fail.
    | error e =>
      refine ⟨hinterpret.1, ?_⟩
      intro error herror
      simp only at herror
      split at herror
      · cases herror
      · cases herror
        exact hinterpret.2

end

/-- Every session that can be reached is steady. -/
theorem Reached.steady {sink : Sink} {units : List Program} {session : Session}
    (h : Reached sink units session) : Steady units session := by
  induction h with
  | initial => exact steady_initial sink
  | @rejected units session rules fuel source errors n _ hcompile ih =>
    have hle := Program.le_compile source session.nextId
    rw [hcompile] at hle
    unfold Session.run
    rw [hcompile]
    exact ⟨ih.sound, ih.current, fun v hv => Nat.lt_of_lt_of_le (ih.visits_lt v hv) hle,
      fun id d hd => Nat.lt_of_lt_of_le (ih.distances_lt id d hd) hle⟩
  | @ran units session rules fuel source program n _ hcompile ih =>
    have hmade := Program.wellMade_of_compile hcompile
    have hafter := (ih.keeps hcompile rules fuel).interpret.1
    unfold Session.run
    rw [hcompile]
    refine ⟨hafter.sound, hafter.current.trans ih.current, ?_, ?_⟩
    · rintro v ⟨unit, hunit, hv⟩
      rcases List.mem_cons.mp hunit with rfl | hunit
      · exact (hmade.ids.bounds _ (Program.place_of_visit hv)).2
      · exact Nat.lt_of_lt_of_le (ih.visits_lt v ⟨unit, hunit, hv⟩) hmade.le
    · intro id d hd
      change (Session.interpret _ _ _ _).2.distances[id]? = some d at hd
      rw [hafter.distances, getElem?_learn] at hd
      cases hnew : program.distances[id]? with
      | some d' => exact (Program.id_of_distance? hcompile hnew).2
      | none =>
        rw [hnew, Option.none_or] at hd
        exact Nat.lt_of_lt_of_le (ih.distances_lt id d hd) hmade.le

end Lox
