import Lox.Proofs.Execution.Restored
import Lox.Proofs.Session.Reached

/-!
# One counter for all parses

A process parses tokens and runs sources, in one session or in several.  All parses draw
the identities of occurrences from the same counter, whether or not they return a tree.
So no two occurrences of the trees that were returned have the same identity, and what an
interpreter learns from one program says nothing about the occurrences of another one.
-/

namespace Lox

/-! ### What one parse draws -/

namespace Parser

/-- A parse that succeeds numbers a tree from the next unused identity on. -/
theorem exists_numbered_of_parse {tokens : List Token} {n n' : NodeId} {program : List Stmt}
    (h : parse tokens n = (.ok program, n')) :
    ∃ tree, program = Stmt.numberedEach n tree ∧ n' = n + Stmt.drawnEach tree := by
  unfold parse at h
  split at h
  · rename_i tree s hrun
    by_cases hclean : s.errors = []
    · obtain ⟨htook, hending⟩ := (stmtSound _).declarations [.eof] _ tree s hrun
      obtain ⟨-, w, hw, hderives⟩ := htook hclean
      obtain ⟨numbered, m, hsettles, hexact⟩ :=
        readsStmt (Grammar.Relaxed.unbroken hderives) n [.eof] (by decide) s.rest [] hending
      rw [← hw] at hsettles
      -- The run of the bound and the one that the derivation gives are the same.
      have hparse := parse_of_settles hsettles
      rw [parse, hrun] at hparse
      simp only [hclean, List.isEmpty_nil, if_true, List.append_nil] at h hparse
      rw [hparse, Prod.mk.injEq, Except.ok.injEq] at h
      obtain ⟨rfl, rfl⟩ := hexact trivial rfl
      exact ⟨tree, h.1.symm, h.2.symm⟩
    · simp [hclean] at h
  · cases h

/-- The identities of a tree lie between those before and those behind its parse. -/
theorem idsBetween_of_parse {tokens : List Token} {n n' : NodeId} {program : List Stmt}
    (h : parse tokens n = (.ok program, n')) :
    IdsBetween n n' (Stmt.occurrencesEach program) := by
  obtain ⟨tree, rfl, rfl⟩ := exists_numbered_of_parse h
  exact Stmt.idsBetween_numberedEach n tree

end Parser

/-! ### Processes -/

def Stmt.idsEach (program : List Stmt) : List NodeId :=
  (Stmt.occurrencesEach program).map fun entry => entry.2.id

/-- The distances of the occurrences in a program, and no others. -/
def Resolution.within (program : List Stmt) (distances : Distances) : Distances :=
  distances.filter fun id _ => id ∈ Stmt.idsEach program

/-- The trees that a parse returns: one, or none if it fails. -/
def Parser.returned (tokens : List Token) (n : NodeId) : List (List Stmt) :=
  (parse tokens n).1.toOption.toList

/-- The machine of a session, and the programs that were executed on it. -/
structure Interpreter where
  machine : Machine
  units : List Program

/-- The interpreter behind a run of a source, for which identities are drawn from `n` on. -/
def Interpreter.run (i : Interpreter) (n : NodeId) (rules : Rules) (fuel : Nat)
    (source : String) : Interpreter where
  machine := ((Session.mk i.machine n).run rules fuel source).2.machine
  units := i.units ++ (Program.compile source n).1.toOption.toList

structure Process where
  /-- The next unused identity. -/
  nextId : NodeId
  /-- The trees that parses returned, those of sources that were rejected later included. -/
  trees : List (List Stmt)
  interpreters : List Interpreter

namespace Process

inductive Request where
  /-- To parse tokens, whatever they are. -/
  | parse (tokens : List Token)
  /-- To begin a session. -/
  | begin (sink : Sink)
  /-- To run a source in a session, which may be rejected, and may end in any way. -/
  | run (index : Nat) (rules : Rules) (fuel : Nat) (source : String)

/-- The process behind a request.  A parse that fails has drawn identities as well. -/
def serve (p : Process) : Request → Process
  | .parse tokens =>
    { p with
      nextId := (Parser.parse tokens p.nextId).2
      trees := p.trees ++ Parser.returned tokens p.nextId }
  | .begin sink => { p with interpreters := p.interpreters ++ [⟨.initial sink, []⟩] }
  | .run index rules fuel source =>
    match p.interpreters[index]? with
    | none => p
    | some i =>
      { nextId := ((Session.mk i.machine p.nextId).run rules fuel source).2.nextId
        trees := p.trees ++ Parser.returned (Item.tokens (Item.scan source)) p.nextId
        interpreters := p.interpreters.set index (i.run p.nextId rules fuel source) }

def after (requests : List Request) : Process := requests.foldl serve ⟨0, [], []⟩

/-- The identities of all occurrences in the trees that were returned. -/
def ids (p : Process) : List NodeId := p.trees.flatMap Stmt.idsEach

end Process

/-! ### Identities that were drawn -/

theorem IdsBetween.join {lo mid hi : Nat} {first second : List (OccurrenceKind × Occurrence)}
    (hfirst : IdsBetween lo mid first) (hsecond : IdsBetween mid hi second) (hlo : lo ≤ mid)
    (hhi : mid ≤ hi) : IdsBetween lo hi (first ++ second) := by
  refine (hfirst.widen (Nat.le_refl lo) hhi).append_of_disjoint
    (hsecond.widen hlo (Nat.le_refl hi)) ?_
  intro x hx y hy
  exact Nat.ne_of_lt (Nat.lt_of_lt_of_le (hfirst.bounds x hx).2 (hsecond.bounds y hy).1)

theorem Parser.idsBetween_returned (tokens : List Token) (n : NodeId) :
    IdsBetween n (parse tokens n).2 ((returned tokens n).flatMap Stmt.occurrencesEach) := by
  unfold returned
  cases hparse : parse tokens n with
  | mk parsed n' =>
    cases parsed with
    | error errors => exact .nil
    | ok program =>
      have hids := idsBetween_of_parse hparse
      simpa [Except.toOption] using hids

/-- A run draws what the parse of its source draws, whatever becomes of it. -/
theorem Session.nextId_run (session : Session) (rules : Rules) (fuel : Nat) (source : String) :
    (session.run rules fuel source).2.nextId =
      (Parser.parse (Item.tokens (Item.scan source)) session.nextId).2 := by
  have hcompile : (Program.compile source session.nextId).2 =
      (Parser.parse (Item.tokens (Item.scan source)) session.nextId).2 := by
    unfold Program.compile
    dsimp only
    split
    · rename_i hparse
      rw [hparse]
    · rename_i hparse
      rw [hparse]
      split <;> rfl
  rw [← hcompile]
  unfold run
  split
  · rename_i hresult
    rw [hresult]
  · rename_i hresult
    rw [hresult]

/-! ### What an interpreter knows -/

/-- A program has distances for its own occurrences only. -/
theorem Resolution.mem_idsEach_of_getElem? {program : List Stmt} {distances : Distances}
    (h : Resolution.run program = .ok distances) {id d : Nat} (hid : distances[id]? = some d) :
    id ∈ Stmt.idsEach program := by
  obtain ⟨v, hv, rfl⟩ := List.mem_map.mp (mem_visits_of_getElem? h hid)
  exact List.mem_map_of_mem (Program.place_of_visit hv)

/-- Where distances are those of a program, what lies within the program is all of these. -/
theorem Resolution.toList_within {program : List Stmt} {distances all : Distances}
    (h : Resolution.run program = .ok distances)
    (hsame : ∀ id ∈ Stmt.idsEach program, all[id]? = distances[id]?) :
    (within program all).toList = distances.toList := by
  apply Std.TreeMap.Equiv.toList_eq
  apply Std.TreeMap.Equiv.of_forall_constGet?_eq
  intro id
  change (within program all)[id]? = distances[id]?
  unfold within
  rw [Std.TreeMap.getElem?_filter']
  by_cases hid : id ∈ Stmt.idsEach program
  · rw [hsame id hid]
    cases distances[id]? <;> simp [hid]
  · have hnone : distances[id]? = none := by
      apply Option.eq_none_iff_forall_ne_some.mpr
      intro d hd
      exact hid (mem_idsEach_of_getElem? h hd)
    simp [hid, hnone]

/--
In a process that has returned these trees and drawn the identities below `n`, the
interpreter has the distances of its programs, and none that have yet to be drawn.
-/
structure Interpreter.Informed (trees : List (List Stmt)) (n : NodeId) (i : Interpreter) :
    Prop where
  distances_lt : ∀ (id d : Nat), i.machine.distances[id]? = some d → id < n
  returned : ∀ unit ∈ i.units, unit.statements ∈ trees
  resolved : ∀ unit ∈ i.units, Resolution.run unit.statements = .ok unit.distances
  same : ∀ unit ∈ i.units, ∀ id ∈ Stmt.idsEach unit.statements,
    i.machine.distances[id]? = unit.distances[id]?

namespace Interpreter.Informed

variable {trees trees' : List (List Stmt)} {n n' : NodeId} {i : Interpreter}

theorem initial (sink : Sink) : Informed trees n ⟨.initial sink, []⟩ := by
  refine ⟨?_, nofun, nofun, nofun⟩
  intro id d hd
  simp [Machine.initial] at hd

theorem mono (h : Informed trees n i) (htrees : trees ⊆ trees') (hle : n ≤ n') :
    Informed trees' n' i :=
  ⟨fun id d hd => Nat.lt_of_lt_of_le (h.distances_lt id d hd) hle,
    fun unit hunit => htrees (h.returned unit hunit), h.resolved, h.same⟩

/-- A program that is executed brings its own distances, and leaves those of others alone. -/
theorem learned (h : Informed trees n i) (hdrawn : ∀ tree ∈ trees, ∀ id ∈ Stmt.idsEach tree, id < n)
    {source : String} {program : Program} {n' : NodeId}
    (hcompile : Program.compile source n = (.ok program, n')) {m : Machine}
    (hm : m.distances = (i.machine.learn program.distances).distances) :
    Informed (trees ++ [program.statements]) n' ⟨m, i.units ++ [program]⟩ := by
  have hmade := Program.wellMade_of_compile hcompile
  have hrun := (Program.compile_eq_ok_iff.mp hcompile).2.2
  -- The identities of the new program begin where the older ones end.
  have hnew : ∀ id ∈ Stmt.idsEach program.statements, n ≤ id ∧ id < n' := by
    intro id hid
    obtain ⟨entry, hentry, rfl⟩ := List.mem_map.mp hid
    exact hmade.ids.bounds entry hentry
  have hget (id : Nat) : m.distances[id]? = program.distances[id]?.or i.machine.distances[id]? := by
    rw [hm, getElem?_learn]
  constructor
  · -- A distance belongs to the new program or to an older one.
    intro id d hd
    rw [hget] at hd
    cases hprogram : program.distances[id]? with
    | some d' => exact (hnew id (Resolution.mem_idsEach_of_getElem? hrun hprogram)).2
    | none =>
      rw [hprogram, Option.none_or] at hd
      exact Nat.lt_of_lt_of_le (h.distances_lt id d hd) hmade.le
  · intro unit hunit
    rcases List.mem_append.mp hunit with hunit | hunit
    · exact List.mem_append_left _ (h.returned unit hunit)
    · rw [List.mem_singleton.mp hunit]
      exact List.mem_append_right _ List.mem_cons_self
  · intro unit hunit
    rcases List.mem_append.mp hunit with hunit | hunit
    · exact h.resolved unit hunit
    · rwa [List.mem_singleton.mp hunit]
  · intro unit hunit id hid
    rw [hget]
    rcases List.mem_append.mp hunit with hunit | hunit
    · -- The occurrences of an older program were drawn before those of the new one.
      have hnone : program.distances[id]? = none := by
        apply Option.eq_none_iff_forall_ne_some.mpr
        intro d hd
        have hlow := (hnew id (Resolution.mem_idsEach_of_getElem? hrun hd)).1
        exact Nat.not_lt.mpr hlow (hdrawn _ (h.returned unit hunit) id hid)
      rw [hnone, Option.none_or]
      exact h.same unit hunit id hid
    · rw [List.mem_singleton.mp hunit] at hid ⊢
      -- None of the identities of the new program had a distance before.
      have hnone : i.machine.distances[id]? = none := by
        apply Option.eq_none_iff_forall_ne_some.mpr
        intro d hd
        exact Nat.not_lt.mpr (hnew id hid).1 (h.distances_lt id d hd)
      rw [hnone, Option.or_none]

/-- A run of a source keeps an interpreter informed, whatever the outcome. -/
theorem run (h : Informed trees n i) (hdrawn : ∀ tree ∈ trees, ∀ id ∈ Stmt.idsEach tree, id < n)
    (rules : Rules) (fuel : Nat) (source : String) :
    Informed (trees ++ Parser.returned (Item.tokens (Item.scan source)) n)
      (Parser.parse (Item.tokens (Item.scan source)) n).2 (i.run n rules fuel source) := by
  have hle := Parser.le_parse (Item.tokens (Item.scan source)) n
  cases hcompile : Program.compile source n with
  | mk compiled n' =>
    cases compiled with
    | error errors =>
      have hrun : i.run n rules fuel source = i := by
        simp [Interpreter.run, Session.run, hcompile, Except.toOption]
      rw [hrun]
      exact h.mono (List.subset_append_left _ _) hle
    | ok program =>
      have hparse := (Program.compile_eq_ok_iff.mp hcompile).2.1
      have hreturned : Parser.returned (Item.tokens (Item.scan source)) n =
          [program.statements] := by
        simp [Parser.returned, hparse, Except.toOption]
      have hrun : i.run n rules fuel source =
          ⟨(Session.interpret rules fuel program.statements
            (i.machine.learn program.distances)).2, i.units ++ [program]⟩ := by
        simp [Interpreter.run, Session.run, Session.execute, hcompile, Except.toOption]
      rw [hreturned, hparse, hrun]
      exact h.learned hdrawn hcompile (Session.restored_interpret _ _ _ _).distances

end Interpreter.Informed

/-! ### Requests one after the other -/

/-- The trees have identities of their own, and every interpreter is informed. -/
structure Process.Orderly (p : Process) : Prop where
  drawn : IdsBetween 0 p.nextId (p.trees.flatMap Stmt.occurrencesEach)
  informed : ∀ i ∈ p.interpreters, i.Informed p.trees p.nextId

namespace Process

theorem ids_eq (p : Process) :
    p.ids = (p.trees.flatMap Stmt.occurrencesEach).map fun entry => entry.2.id := by
  simp only [ids, List.map_flatMap]
  rfl

namespace Orderly

variable {p : Process}

theorem ids_lt (h : Orderly p) : ∀ id ∈ p.ids, id < p.nextId := by
  intro id hid
  rw [ids_eq] at hid
  obtain ⟨entry, hentry, rfl⟩ := List.mem_map.mp hid
  exact (h.drawn.bounds entry hentry).2

/-- A parse adds identities behind all that were drawn before. -/
theorem drawn_returned (h : Orderly p) (tokens : List Token) :
    IdsBetween 0 (Parser.parse tokens p.nextId).2
      ((p.trees ++ Parser.returned tokens p.nextId).flatMap Stmt.occurrencesEach) := by
  rw [List.flatMap_append]
  exact h.drawn.join (Parser.idsBetween_returned tokens p.nextId) (Nat.zero_le _)
    (Parser.le_parse tokens p.nextId)

theorem serve (h : Orderly p) (request : Request) : Orderly (p.serve request) := by
  cases request with
  | parse tokens =>
    refine ⟨h.drawn_returned tokens, ?_⟩
    intro i hi
    exact (h.informed i hi).mono (List.subset_append_left _ _) (Parser.le_parse tokens p.nextId)
  | begin sink =>
    refine ⟨h.drawn, ?_⟩
    intro i hi
    rcases List.mem_append.mp hi with hi | hi
    · exact h.informed i hi
    · rw [List.mem_singleton.mp hi]
      exact .initial sink
  | run index rules fuel source =>
    cases hindex : p.interpreters[index]? with
    | none =>
      simp only [Process.serve, hindex]
      exact h
    | some i =>
      simp only [Process.serve, hindex, Session.nextId_run]
      refine ⟨h.drawn_returned _, ?_⟩
      intro j hj
      rcases List.mem_or_eq_of_mem_set hj with hj | rfl
      · exact (h.informed j hj).mono (List.subset_append_left _ _) (Parser.le_parse _ p.nextId)
      · refine (h.informed i (List.mem_of_getElem? hindex)).run ?_ rules fuel source
        intro tree htree id hid
        exact h.ids_lt id (List.mem_flatMap.mpr ⟨tree, htree, hid⟩)

theorem foldl (h : Orderly p) (requests : List Request) :
    Orderly (requests.foldl Process.serve p) := by
  induction requests generalizing p with
  | nil => exact h
  | cons request rest ih => exact ih (h.serve request)

end Orderly

theorem orderly_after (requests : List Request) : Orderly (after requests) :=
  Orderly.foldl ⟨.nil, fun _ hi => absurd hi List.not_mem_nil⟩ requests

/-- Identities are words of the machine as long as there are words left for them. -/
theorem nodup_words {ids : List NodeId} (hnodup : ids.Nodup) (hlt : ∀ id ∈ ids, id < UInt64.size) :
    (ids.map UInt64.ofNat).Nodup := by
  refine List.pairwise_map.mpr (hnodup.imp_of_mem ?_)
  intro a b ha hb hne heq
  have hvalues := congrArg UInt64.toNat heq
  rw [UInt64.toNat_ofNat_of_lt' (hlt a ha), UInt64.toNat_ofNat_of_lt' (hlt b hb)] at hvalues
  exact hne hvalues

end Process

/--
Identities keep programs apart.  Whatever a process was asked to do, no two occurrences in
all the trees that its parses returned have the same identity, and neither do they as words
of the machine while fewer identities were drawn than there are words.  So in each of its sessions,
however many programs were executed after it, the distances of a program's occurrences are
exactly those that resolution has found for this program.
-/
theorem Process.identities_apart (requests : List Process.Request) :
    (Process.after requests).ids.Nodup ∧
    ((Process.after requests).nextId < UInt64.size →
      ((Process.after requests).ids.map UInt64.ofNat).Nodup) ∧
    ∀ i ∈ (Process.after requests).interpreters, ∀ unit ∈ i.units,
      unit.statements ∈ (Process.after requests).trees ∧
      Resolution.run unit.statements = .ok unit.distances ∧
      (Resolution.within unit.statements i.machine.distances).toList =
        unit.distances.toList := by
  have horderly := Process.orderly_after requests
  have hnodup : (Process.after requests).ids.Nodup := by
    rw [Process.ids_eq]
    exact horderly.drawn.nodup
  refine ⟨hnodup, ?_, ?_⟩
  · intro hfew
    exact nodup_words hnodup fun id hid => Nat.lt_trans (horderly.ids_lt id hid) hfew
  · intro i hi unit hunit
    have hinformed := horderly.informed i hi
    have hresolved := hinformed.resolved unit hunit
    exact ⟨hinformed.returned unit hunit, hresolved,
      Resolution.toList_within hresolved (hinformed.same unit hunit)⟩

/-- Two sessions, with a parse that fails and a source that is rejected among their runs. -/
def Process.twoSessions : List Process.Request :=
  let rules : Rules := ⟨1024, .byDistance, fun _ => 0⟩
  [.begin .unlimited,
   .run 0 rules 100 "fun f(a) \x7b fun g() \x7b return a; \x7d return g; \x7d",
   .parse [⟨.identifier, "x", 1⟩, ⟨.rightParen, ")", 1⟩, .endOfInput 1],
   .begin .unlimited,
   .run 1 rules 100 "var a; \x7b var a = a; \x7d",
   .run 1 rules 100 "\x7b var b; b = b; \x7d",
   .run 0 rules 100 "\x7b var c = f; print(c(c)()); \x7d"]

theorem Process.twoSessions_apart :
    (Process.after Process.twoSessions).nextId < UInt64.size ∧
    ((Process.after Process.twoSessions).interpreters.map fun i =>
      i.units.map fun unit => unit.distances.toList.length) = [[2, 2], [2]] ∧
    ((Process.after Process.twoSessions).ids.map UInt64.ofNat).Nodup ∧
    ∀ i ∈ (Process.after Process.twoSessions).interpreters, ∀ unit ∈ i.units,
      (Resolution.within unit.statements i.machine.distances).toList =
        unit.distances.toList := by
  have hfew : (Process.after Process.twoSessions).nextId < UInt64.size := by decide +kernel
  obtain ⟨-, hwords, hunits⟩ := Process.identities_apart Process.twoSessions
  exact ⟨hfew, by decide +kernel, hwords hfew, fun i hi unit hunit => (hunits i hi unit hunit).2.2⟩

end Lox
