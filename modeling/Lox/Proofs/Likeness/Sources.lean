import Lox.Proofs.Likeness.MadeOf
import Lox.Proofs.Likeness.Moved

/-!
# Sources that compile alike

Whether a source compiles depends neither on the identities that are handed out for it nor
on blank lines in front of it.  Two sources with a line break between them compile if each
of them does; the tree is then made of both trees, the second one further down, and so are
the distances.
-/

namespace Lox

open Grammar Resolution

/-! ### Programs one behind the other -/

theorem Grammar.StmtDerives.append {attachment : Attachment} {ss ts : List Stmt}
    {w₁ w₂ : List Token} (h₁ : StmtDerives attachment (.declarations ss) w₁)
    (h₂ : StmtDerives attachment (.declarations ts) w₂) :
    StmtDerives attachment (.declarations (ss ++ ts)) (w₁ ++ w₂) := by
  induction ss generalizing w₁ with
  | nil =>
    cases h₁
    exact h₂
  | cons s ss ih =>
    cases h₁ with
    | declarationsMore hs hrest =>
      rw [List.append_assoc]
      exact .declarationsMore hs (ih hrest)

theorem Stmt.resolveEach_append (ss ts : List Stmt) (r : Resolution) :
    Stmt.resolveEach (ss ++ ts) r = Stmt.resolveEach ts (Stmt.resolveEach ss r) := by
  induction ss generalizing r with
  | nil => rfl
  | cons s ss ih => exact ih (s.resolve r)

theorem Stmt.visitsEach_append (ss ts : List Stmt) (r : Resolution) :
    Stmt.visitsEach (ss ++ ts) r =
      Stmt.visitsEach ss r ++ Stmt.visitsEach ts (Stmt.resolveEach ss r) := by
  induction ss generalizing r with
  | nil => rfl
  | cons s ss ih =>
    rw [List.cons_append, Stmt.visitsEach, ih, Stmt.visitsEach, List.append_assoc]
    rfl

/-- What visits note on top of other distances hides those. -/
theorem getElem?_foldl_note_or {visits : List Visit}
    (hnodup : (visits.map fun v => v.place.id).Nodup) (distances : Distances) (id : Nat) :
    (visits.foldl Visit.note distances)[id]? =
      (visits.foldl Visit.note ∅)[id]?.or distances[id]? := by
  by_cases hmem : id ∈ visits.map fun v => v.place.id
  · obtain ⟨v, hv, rfl⟩ := List.mem_map.mp hmem
    rw [getElem?_foldl_note hnodup hv, getElem?_foldl_note hnodup hv]
    simp
  · rw [getElem?_foldl_note_of_notMem hmem, getElem?_foldl_note_of_notMem hmem]
    simp

/-- Programs that have no errors one by one have none together. -/
theorem Resolution.run_append {ss ts : List Stmt} {distances₁ distances₂ : Distances}
    (h₁ : Resolution.run ss = .ok distances₁) (h₂ : Resolution.run ts = .ok distances₂)
    (hnodup : ((Stmt.occurrencesEach ts).map fun entry => entry.2.id).Nodup) :
    ∃ distances, Resolution.run (ss ++ ts) = .ok distances ∧
      ∀ id : NodeId, distances[id]? = distances₂[id]?.or distances₁[id]? := by
  obtain ⟨herrors₁, hdistances₁⟩ := distances_of_run h₁
  obtain ⟨herrors₂, hdistances₂⟩ := distances_of_run h₂
  -- Behind the first program the walk is at the top level again, as at the start.
  have htop : ResolutionLike (fun _ => False) .top {} (Stmt.resolveEach ss {}) :=
    resolutionLike_top (Stmt.sameOuter_resolveEach ss {}) herrors₁
  have hsame : StmtEachLike ((Likeness.moved Eq fun _ => True).renumbered 0 0) .top ts ts := by
    apply Stmt.likeEach_self (P := fun _ => True)
    · exact ⟨rfl, fun _ => ⟨rfl, rfl, rfl⟩, fun _ => ⟨rfl, rfl, rfl, rfl⟩,
        fun p _ => ⟨⟨p, p, ⟨rfl, trivial, rfl, rfl, rfl, rfl⟩, rfl, rfl⟩, rfl⟩⟩
    · exact fun _ _ => trivial
  have hwalk := hsame.walk (Likeness.moved_static Eq _ 0 0) htop fun _ _ => trivial
  have herrors := hwalk.ends.errors
  rw [herrors₂, List.map_nil, List.map_eq_nil_iff] at herrors
  have hrun : Resolution.run (ss ++ ts) = .ok (Stmt.resolveEach (ss ++ ts) {}).distances := by
    simp only [Resolution.run, Stmt.resolveEach_append, herrors, List.isEmpty_nil, if_true]
  have hids : ∀ Γ p p', ((Likeness.moved Eq fun _ => True).renumbered 0 0).place Γ p p' →
      p'.id = p.id := fun _ _ _ hplace => hplace.2.symm
  refine ⟨_, hrun, ?_⟩
  intro id
  rw [(distances_of_run hrun).2, Stmt.visitsEach_append, List.foldl_append, ← hdistances₁,
    foldl_note_like hids hwalk.visits, getElem?_foldl_note_or (nodup_visitsEach hnodup {}),
    ← hdistances₂]

namespace Program

variable {source first second : String} {program : Program} {a a' n n₁ n₂ : NodeId}

/-- The tokens of a source that compiles, and its tree, numbered as it is. -/
theorem derives_of_compile (h : compile source a = (.ok program, a')) :
    ∃ w last, Item.tokens (Item.scan source) = w ++ [last] ∧ last.kind = .eof ∧
      StmtDerives .nearest (.declarations program.statements) w ∧
      Stmt.numberedEach a program.statements = program.statements ∧
      a' = a + Stmt.drawnEach program.statements := by
  obtain ⟨-, hparse, -⟩ := compile_eq_ok_iff.mp h
  have hprogram := Parser.derives_of_parse (Item.endsWithOnlyEof_scan source)
    (congrArg Prod.fst hparse)
  have hnumbered := Parser.parse_eq_numbered hprogram a
  rw [hparse, Prod.mk.injEq, Except.ok.injEq] at hnumbered
  obtain ⟨hsame, hnext⟩ := hnumbered
  generalize Item.tokens (Item.scan source) = tokens at hprogram
  cases hprogram with
  | mk hderives hlast => exact ⟨_, _, rfl, hlast, hderives, hsame.symm, hnext⟩

/-- A program is made of the tokens of its source. -/
theorem madeOf {Q : Token → Prop} (hcompile : compile source a = (.ok program, a'))
    (hQ : ∀ t ∈ Item.tokens (Item.scan source), Q t) :
    StmtEachLike (.madeOf Q) .top program.statements program.statements := by
  obtain ⟨w, last, htokens, -, hderives, -, -⟩ := derives_of_compile hcompile
  refine hderives.madeOf fun t ht => ?_
  have hmem : t ∈ Item.tokens (Item.scan source) := by
    rw [htokens]
    exact List.mem_append_left _ ht
  exact ⟨Item.spelled_tokens_scan source t hmem, hQ t hmem⟩

/-- A source compiles if its tree looks like that of a source that does. -/
theorem compile_like {line : Nat → Nat → Prop} {source' : String} {w' : List Token} {last' : Token}
    {ss' : List Stmt} (h : compile source a = (.ok program, a'))
    (herrors : Item.errors (Item.scan source') = [])
    (htokens : Item.tokens (Item.scan source') = w' ++ [last']) (hlast : last'.kind = .eof)
    (hderives : StmtDerives .nearest (.declarations ss') w')
    (hlike : StmtEachLike (.moved line fun _ => True) .top program.statements ss') (b : NodeId) :
    ∃ program', compile source' b = (.ok program', b + Stmt.drawnEach program.statements) ∧
      StmtEachLike ((Likeness.moved line fun _ => True).renumbered a b) .top program.statements
        program'.statements ∧
      (b = a → program'.distances = program.distances) := by
  obtain ⟨-, -, -, -, -, hnumbered, -⟩ := derives_of_compile h
  have hrun := (compile_eq_ok_iff.mp h).2.2
  have hlike' := hlike.numbered (n := a) (m := b) (Nat.add_comm a b)
  rw [hnumbered] at hlike'
  have hstatic := Likeness.moved_static line (fun _ => True) a b
  have hrun' := (hlike'.run_isOk hstatic (fun _ _ => trivial) hrun).1
  refine ⟨⟨Stmt.numberedEach b ss', _⟩, compile_eq_ok_iff.mpr ⟨herrors, ?_, hrun'⟩, hlike', ?_⟩
  · rw [htokens, Parser.parse_of_derives hderives hlast, hlike.drawn_eq]
  · rintro rfl
    have hids : ∀ Γ p p', ((Likeness.moved line fun _ => True).renumbered b b).place Γ p p' →
        p'.id = p.id := fun _ _ _ hplace => (Nat.add_right_cancel hplace.2).symm
    have heq := hlike'.run_eq hstatic hids (fun _ _ => trivial) hrun
    rw [hrun', Except.ok.injEq] at heq
    exact heq

/-- Whether a source compiles does not depend on the identities that are free. -/
theorem compile_of_compile (h : compile source a = (.ok program, a')) (b : NodeId) :
    ∃ program' b', compile source b = (.ok program', b') := by
  obtain ⟨w, last, htokens, hlast, hderives, -, -⟩ := derives_of_compile h
  have hself : StmtEachLike (.moved Eq fun _ => True) .top program.statements program.statements :=
    Stmt.likeEach_self (Likeness.moved_reflexive fun _ => rfl) _ fun _ _ => trivial
  obtain ⟨program', hcompile, -, -⟩ :=
    compile_like h (compile_eq_ok_iff.mp h).1 htokens hlast hderives hself b
  exact ⟨program', _, hcompile⟩

theorem Compiles.compile (h : Compiles source) (n : NodeId) :
    ∃ program n', Program.compile source n = (.ok program, n') := by
  obtain ⟨program, n', hcompile⟩ := h
  exact compile_of_compile hcompile n

theorem map_down_of_forall₂ {lines : Nat} {w w' : List Token}
    (h : List.Forall₂ (Token.Moved fun a b => b = a + lines) w w') :
    w' = w.map (Token.down lines) := by
  induction h with
  | nil => rfl
  | @cons t t' w w' ht _ ih =>
    have hdown : t' = t.down lines := by
      obtain ⟨kind, lexeme, n⟩ := t'
      obtain ⟨hkind, hlexeme, hmoved⟩ := ht
      cases hkind
      cases hlexeme
      cases hmoved
      rfl
    rw [List.map_cons, ← ih, hdown]

/-- Blank lines in front of a source move its tree down and change nothing else. -/
theorem compile_blankLines (h : compile source a = (.ok program, a')) (lines : Nat) :
    ∃ program', compile (Item.blankLines lines ++ source) a = (.ok program', a') ∧
      program'.distances = program.distances ∧
      StmtEachLike (.moved (fun a b => b = a + lines) fun _ => True) .top program.statements
        program'.statements := by
  have htotal : ∀ n : Nat, ∃ n', n' = n + lines := fun n => ⟨n + lines, rfl⟩
  obtain ⟨w, last, htokens, hlast, hderives, -, hnext⟩ := derives_of_compile h
  obtain ⟨ss', hlike⟩ := Stmt.exists_likeEach (Likeness.moved_total htotal) program.statements
  have hrespelling := Likeness.moved_respelling (fun _ => True) htotal
  obtain ⟨w', hw, hderives'⟩ := hderives.carried hrespelling _ _ hlike
  have htokens' : Item.tokens (Item.scan (Item.blankLines lines ++ source)) =
      w' ++ [last.down lines] := by
    rw [Item.tokens_scan_blankLines, htokens, List.map_append, map_down_of_forall₂ hw]
    rfl
  obtain ⟨program', hcompile, hlike', hdistances⟩ :=
    compile_like h ((Item.errors_scan_blankLines lines source).mpr (compile_eq_ok_iff.mp h).1)
      htokens' hlast hderives' hlike a
  exact ⟨program', hnext ▸ hcompile, hdistances rfl,
    hlike'.mono (Likeness.renumbered_moved_le _ a)⟩

/-- Two sources with a line break between them: the tree and the distances of both. -/
theorem compile_lineByLine {program₁ program₂ : Program}
    (h₁ : compile first n = (.ok program₁, n₁))
    (h₂ : compile (Item.blankLines (lineBreaks first + 1) ++ second) n₁ = (.ok program₂, n₂)) :
    ∃ distances, compile (Item.lineByLine first second) n =
        (.ok ⟨program₁.statements ++ program₂.statements, distances⟩, n₂) ∧
      ∀ id : NodeId, distances[id]? = program₂.distances[id]?.or program₁.distances[id]? := by
  obtain ⟨herrors₁, -, hrun₁⟩ := compile_eq_ok_iff.mp h₁
  obtain ⟨herrors₂, -, hrun₂⟩ := compile_eq_ok_iff.mp h₂
  obtain ⟨w₁, last₁, htokens₁, -, hderives₁, hnumbered₁, hnext₁⟩ := derives_of_compile h₁
  obtain ⟨w₂, last₂, htokens₂, hlast₂, hderives₂, hnumbered₂, hnext₂⟩ := derives_of_compile h₂
  obtain ⟨body, line, hbody, htokens⟩ := Item.tokens_scan_lineByLine herrors₁ second
  have hsame : w₁ = body := by
    rw [htokens₁] at hbody
    exact List.append_inj_left' hbody rfl
  rw [htokens₂, ← List.append_assoc, ← hsame] at htokens
  obtain ⟨distances, hrun, hdistances⟩ :=
    Resolution.run_append hrun₁ hrun₂ (wellMade_of_compile h₂).ids.nodup
  refine ⟨distances, compile_eq_ok_iff.mpr ⟨?_, ?_, hrun⟩, hdistances⟩
  · exact Item.errors_scan_lineByLine herrors₁ _ ((Item.errors_scan_blankLines _ _).mp herrors₂)
  · rw [htokens, Parser.parse_of_derives (hderives₁.append hderives₂) hlast₂,
      Stmt.numberedEach_append, Stmt.drawnEach_append, hnumbered₁, ← hnext₁, hnumbered₂, hnext₂,
      hnext₁, Nat.add_assoc]

end Program

end Lox
