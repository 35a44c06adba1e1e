import Lox.Proofs.Grammar.Relaxed

/-!
# The dangling `else`

The rules as written are ambiguous: an `else` behind two `if`s can belong to
either of them.  To give it to the nearest one is a choice of the tree only.  Every
token sequence that the rules derive is also derived in this way, and with the same errors
in place.
-/

namespace Lox.Grammar

namespace Relaxed

/-- An `else` behind a statement that can take one is taken by some `if` at its end. -/
theorem StmtDerives.attach_else {phrase : StmtPhrase} {w : List Token}
    {es : List GrammarError} (h : StmtDerives .nearest phrase w es) {s : Stmt}
    (hphrase : phrase = .statement .opened s) {kwElse : Token} {elseEnding : Ending}
    {elseBranch : Stmt} {w' : List Token} {es' : List GrammarError}
    (hkwElse : kwElse.kind = .kwElse)
    (helse : StmtDerives .nearest (.statement elseEnding elseBranch) w' es') :
    ∃ ending s', StmtDerives .nearest (.statement ending s') (w ++ kwElse :: w') (es ++ es') := by
  induction h generalizing s with
  -- A loop takes the `else` into its body.
  | forStmt hkind hleft hinit hcondition hsemi hincrement hright _ ih =>
    cases hphrase
    obtain ⟨ending, body, hbody⟩ := ih rfl
    have hfor := StmtDerives.forStmt hkind hleft hinit hcondition hsemi hincrement hright hbody
    exact ⟨ending, _, by simpa only [List.cons_append, List.append_assoc] using hfor⟩
  -- An `if` takes it for itself if its branch is closed, and leaves it to the branch otherwise.
  | @ifStmt _ _ _ _ thenEnding _ _ _ _ _ hkind hleft hcondition hright hthen ih =>
    cases hphrase
    cases thenEnding with
    | closed =>
      have hif := StmtDerives.ifElseStmt hkind hleft hcondition hright hthen (fun _ => rfl)
        hkwElse helse
      exact ⟨elseEnding, _, by simpa only [List.cons_append, List.append_assoc] using hif⟩
    | opened =>
      obtain ⟨ending, thenBranch, hbranch⟩ := ih rfl
      have hif := StmtDerives.ifStmt hkind hleft hcondition hright hbranch
      exact ⟨.opened, _, by simpa only [List.cons_append, List.append_assoc] using hif⟩
  -- An `if` with an `else` takes it into the branch behind that one.
  | ifElseStmt hkind hleft hcondition hright hthen hclosed hkwElse' _ _ ih =>
    cases hphrase
    obtain ⟨ending, branch, hbranch⟩ := ih rfl
    have hif := StmtDerives.ifElseStmt hkind hleft hcondition hright hthen hclosed hkwElse'
      hbranch
    exact ⟨ending, _, by simpa only [List.cons_append, List.append_assoc] using hif⟩
  | whileStmt hkind hleft hcondition hright _ ih =>
    cases hphrase
    obtain ⟨ending, body, hbody⟩ := ih rfl
    have hwhile := StmtDerives.whileStmt hkind hleft hcondition hright hbody
    exact ⟨ending, _, by simpa only [List.cons_append, List.append_assoc] using hwhile⟩
  -- No other statement is open at its end.
  | _ => cases hphrase

/--
The tokens form a phrase of the kind at hand, with every `else` at the nearest `if` and with
these errors.
-/
def HasNearest : StmtPhrase → List Token → List GrammarError → Prop
  | .declaration _, w, es => ∃ s, StmtDerives .nearest (.declaration s) w es
  | .declarations _, w, es => ∃ ss, StmtDerives .nearest (.declarations ss) w es
  | .function _, w, es => ∃ d, StmtDerives .nearest (.function d) w es
  | .functions _, w, es => ∃ ds, StmtDerives .nearest (.functions ds) w es
  | .statement _ _, w, es => ∃ ending s, StmtDerives .nearest (.statement ending s) w es

/-- Tokens that the rules derive are derived with every `else` at the nearest `if`. -/
theorem StmtDerives.nearest {phrase : StmtPhrase} {w : List Token} {es : List GrammarError}
    (h : StmtDerives .free phrase w es) : HasNearest phrase w es := by
  induction h with
  | classDecl hkind hname hsuper hopening _ hclosing ih =>
    obtain ⟨methods, hmethods⟩ := ih
    exact ⟨_, .classDecl hkind hname hsuper hopening hmethods hclosing⟩
  | funDecl hkind _ ih =>
    obtain ⟨d, hd⟩ := ih
    exact ⟨_, .funDecl hkind hd⟩
  | varDecl hvar => exact ⟨_, .varDecl hvar⟩
  | plain _ ih =>
    obtain ⟨ending, s, hs⟩ := ih
    exact ⟨_, .plain hs⟩
  | declarationsEnd => exact ⟨_, .declarationsEnd⟩
  | declarationsMore _ _ ih ih' =>
    obtain ⟨s, hs⟩ := ih
    obtain ⟨ss, hss⟩ := ih'
    exact ⟨_, .declarationsMore hs hss⟩
  | function hname hleft hparameters hright hopening _ hclosing ih =>
    obtain ⟨body, hbody⟩ := ih
    exact ⟨_, .function hname hleft hparameters hright hopening hbody hclosing⟩
  | functionsEnd => exact ⟨_, .functionsEnd⟩
  | functionsMore _ _ ih ih' =>
    obtain ⟨d, hd⟩ := ih
    obtain ⟨ds, hds⟩ := ih'
    exact ⟨_, .functionsMore hd hds⟩
  | exprStmt he => exact ⟨_, _, .exprStmt he⟩
  | forStmt hkind hleft hinit hcondition hsemi hincrement hright _ ih =>
    obtain ⟨ending, body, hbody⟩ := ih
    exact ⟨_, _, .forStmt hkind hleft hinit hcondition hsemi hincrement hright hbody⟩
  | ifStmt hkind hleft hcondition hright _ ih =>
    obtain ⟨ending, thenBranch, hthen⟩ := ih
    exact ⟨_, _, .ifStmt hkind hleft hcondition hright hthen⟩
  | ifElseStmt hkind hleft hcondition hright _ _ hkwElse _ ih ih' =>
    obtain ⟨thenEnding, thenBranch, hthen⟩ := ih
    obtain ⟨elseEnding, elseBranch, helse⟩ := ih'
    cases thenEnding with
    | closed =>
      exact ⟨_, _,
        .ifElseStmt hkind hleft hcondition hright hthen (fun _ => rfl) hkwElse helse⟩
    | opened =>
      -- The `else` goes to an `if` inside the branch, and this `if` is left without one.
      obtain ⟨ending, branch, hbranch⟩ := hthen.attach_else rfl hkwElse helse
      exact ⟨_, _, .ifStmt hkind hleft hcondition hright hbranch⟩
  | returnStmt hkind hvalue hsemi => exact ⟨_, _, .returnStmt hkind hvalue hsemi⟩
  | whileStmt hkind hleft hcondition hright _ ih =>
    obtain ⟨ending, body, hbody⟩ := ih
    exact ⟨_, _, .whileStmt hkind hleft hcondition hright hbody⟩
  | breakStmt hkind hsemi => exact ⟨_, _, .breakStmt hkind hsemi⟩
  | continueStmt hkind hsemi => exact ⟨_, _, .continueStmt hkind hsemi⟩
  | block hopening _ hclosing ih =>
    obtain ⟨body, hbody⟩ := ih
    exact ⟨_, _, .block hopening hbody hclosing⟩

theorem program_nearest {tokens : List Token} {es : List GrammarError}
    (h : Program .free es tokens) : Program .nearest es tokens := by
  cases h with
  | mk hderives hlast =>
    obtain ⟨program, hnearest⟩ := hderives.nearest
    exact .mk hnearest hlast

end Relaxed

/-- Deriving with every `else` at the nearest `if` is deriving. -/
theorem StmtDerives.free {phrase : StmtPhrase} {w : List Token}
    (h : StmtDerives .nearest phrase w) : StmtDerives .free phrase w := by
  induction h with
  | classDecl hkind hname hsuper hopening _ hclosing ih =>
    exact .classDecl hkind hname hsuper hopening ih hclosing
  | funDecl hkind _ ih => exact .funDecl hkind ih
  | varDecl hvar => exact .varDecl hvar
  | plain _ ih => exact .plain ih
  | declarationsEnd => exact .declarationsEnd
  | declarationsMore _ _ ih ih' => exact .declarationsMore ih ih'
  | function hname hleft hparameters hright hopening _ hclosing ih =>
    exact .function hname hleft hparameters hright hopening ih hclosing
  | functionsEnd => exact .functionsEnd
  | functionsMore _ _ ih ih' => exact .functionsMore ih ih'
  | exprStmt he => exact .exprStmt he
  | forStmt hkind hleft hinit hcondition hsemi hincrement hright _ ih =>
    exact .forStmt hkind hleft hinit hcondition hsemi hincrement hright ih
  | ifStmt hkind hleft hcondition hright _ ih => exact .ifStmt hkind hleft hcondition hright ih
  | ifElseStmt hkind hleft hcondition hright _ _ hkwElse _ ih ih' =>
    exact .ifElseStmt hkind hleft hcondition hright ih nofun hkwElse ih'
  | returnStmt hkind hvalue hsemi => exact .returnStmt hkind hvalue hsemi
  | whileStmt hkind hleft hcondition hright _ ih =>
    exact .whileStmt hkind hleft hcondition hright ih
  | breakStmt hkind hsemi => exact .breakStmt hkind hsemi
  | continueStmt hkind hsemi => exact .continueStmt hkind hsemi
  | block hopening _ hclosing ih => exact .block hopening ih hclosing

end Lox.Grammar
