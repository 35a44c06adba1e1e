import Lox.Proofs.Resolution.Mentions
import Lox.Proofs.Resolution.Scopes

/-!
# All that a scope ever declares

At a point of the walk a scope may lack names that are only declared further on.  In a
program in which names are used behind their local declarations this makes no difference:
whoever looks up a name finds that each of the open scopes either declares it by then or
never does.
-/

namespace Lox

open Resolution

/-- All names that the scopes around a place ever declare, those of the innermost scope first. -/
abbrev Outlook := List (List String)

namespace Outlook

/-- The innermost scope declares the name; at top level, where there is no scope, any name is. -/
def Declares (Δ : Outlook) (name : String) : Prop := ∀ names ∈ Δ.head?, name ∈ names

def ofMethods (derived : Bool) (Δ : Outlook) : Outlook :=
  ["this"] :: if derived then ["super"] :: Δ else Δ

end Outlook

/-- The scope of a block that these statements are the body of. -/
def Stmt.declaredEach (ss : List Stmt) : List String := ss.filterMap Stmt.declared?

/-- The scope of a function, which its parameters and its body share. -/
def FunctionDecl.declared (d : FunctionDecl) : List String :=
  d.parameters.map Token.lexeme ++ Stmt.declaredEach d.body

/-- A scope that ever declares `names` declares this one already or never. -/
def Decides (name : String) (scope : Scope) (names : List String) : Prop :=
  scope.find? name = if name ∈ names then some true else none

/-! ### Code that is seen -/

section

variable (V : Visit → Prop)

/-- Wherever a place is visited, each scope has decided on its name. -/
def Occurrence.Seen (place : Occurrence) (Δ : Outlook) : Prop :=
  ∀ v, V v → v.place = place → List.Forall₂ (Decides place.name) v.state.scopes Δ

/-- All scopes have decided on the names that are used. -/
def SeenAll (mentions : List Mention) (Δ : Outlook) : Prop :=
  ∀ place, .uses place ∈ mentions → place.Seen V Δ

def Expr.Seen (e : Expr) (Δ : Outlook) : Prop := SeenAll V e.mentions Δ

def Expr.SeenEach (es : List Expr) (Δ : Outlook) : Prop :=
  SeenAll V ((Expr.occurrencesEach es).filterMap Mention.ofOccurrence) Δ

mutual

/--
All scopes have decided on the names in a statement when they are looked up, and the
innermost one comes to declare what the statement declares.
-/
def Stmt.Seen : Stmt → Outlook → Prop
  | .expression value, Δ => value.Seen V Δ
  | .var name initializer, Δ => Δ.Declares name.lexeme ∧ ∀ e ∈ initializer, e.Seen V Δ
  | .block body, Δ => Stmt.SeenEach body (Stmt.declaredEach body :: Δ)
  | .conditional condition thenBranch none, Δ => condition.Seen V Δ ∧ thenBranch.Seen Δ
  | .conditional condition thenBranch (some elseBranch), Δ =>
    condition.Seen V Δ ∧ thenBranch.Seen Δ ∧ elseBranch.Seen Δ
  | .loop condition body increment, Δ =>
    condition.Seen V Δ ∧ body.Seen Δ ∧ ∀ e ∈ increment, e.Seen V Δ
  | .function declaration, Δ => Δ.Declares declaration.name.lexeme ∧ declaration.Seen Δ
  | .returning _ value, Δ => ∀ e ∈ value, e.Seen V Δ
  | .breaking _, _ | .continuing _, _ => True
  | .class name superclass methods, Δ =>
    Δ.Declares name.lexeme ∧ (∀ parent ∈ superclass, parent.Seen V Δ) ∧
      FunctionDecl.SeenEach methods (Δ.ofMethods superclass.isSome)
termination_by structural s => s

def Stmt.SeenEach : List Stmt → Outlook → Prop
  | [], _ => True
  | s :: rest, Δ => s.Seen Δ ∧ Stmt.SeenEach rest Δ
termination_by structural ss => ss

def FunctionDecl.Seen : FunctionDecl → Outlook → Prop
  | ⟨name, parameters, body⟩, Δ =>
    Stmt.SeenEach body (FunctionDecl.declared ⟨name, parameters, body⟩ :: Δ)
termination_by structural d => d

def FunctionDecl.SeenEach : List FunctionDecl → Outlook → Prop
  | [], _ => True
  | d :: rest, Δ => d.Seen Δ ∧ FunctionDecl.SeenEach rest Δ
termination_by structural ds => ds

end

end

variable {V : Visit → Prop} {Δ : Outlook}

/-! ### The parts of code that is seen -/

/-- Names that are used one after the other. -/
theorem SeenAll.append {first second : List (OccurrenceKind × Occurrence)}
    (h : SeenAll V ((first ++ second).filterMap Mention.ofOccurrence) Δ) :
    SeenAll V (first.filterMap Mention.ofOccurrence) Δ ∧
      SeenAll V (second.filterMap Mention.ofOccurrence) Δ := by
  rw [List.filterMap_append] at h
  exact ⟨fun place huse => h place (List.mem_append_left _ huse),
    fun place huse => h place (List.mem_append_right _ huse)⟩

theorem Expr.Seen.binary {left right : Expr} {operator : Token}
    (h : (Expr.binary left operator right).Seen V Δ) : left.Seen V Δ ∧ right.Seen V Δ :=
  SeenAll.append h

theorem Expr.Seen.logical {left right : Expr} {operator : Token}
    (h : (Expr.logical left operator right).Seen V Δ) : left.Seen V Δ ∧ right.Seen V Δ :=
  SeenAll.append h

theorem Expr.Seen.read {place : Occurrence} (h : (Expr.read place).Seen V Δ) : place.Seen V Δ :=
  h place List.mem_cons_self

theorem Expr.Seen.assign {place : Occurrence} {value : Expr}
    (h : (Expr.assign place value).Seen V Δ) : value.Seen V Δ ∧ place.Seen V Δ :=
  ⟨fun other hother => h other (List.mem_cons_of_mem _ hother), h place List.mem_cons_self⟩

theorem Expr.Seen.set {object value : Expr} {name : Token}
    (h : (Expr.set object name value).Seen V Δ) : object.Seen V Δ ∧ value.Seen V Δ :=
  SeenAll.append h

theorem Expr.Seen.call {callee : Expr} {paren : Token} {arguments : List Expr}
    (h : (Expr.call callee paren arguments).Seen V Δ) :
    callee.Seen V Δ ∧ Expr.SeenEach V arguments Δ :=
  SeenAll.append h

theorem Expr.SeenEach.cons {e : Expr} {rest : List Expr} (h : Expr.SeenEach V (e :: rest) Δ) :
    e.Seen V Δ ∧ Expr.SeenEach V rest Δ :=
  SeenAll.append h

theorem FunctionDecl.Seen.inner {d : FunctionDecl} (h : d.Seen V Δ) :
    Stmt.SeenEach V d.body (d.declared :: Δ) := by
  cases d with
  | mk name parameters body => exact h

/-! ### Scopes and declarations to come -/

/-- A scope that comes to declare `names` lacks only names that are pending. -/
structure Awaits (pending : String → Prop) (scope : Scope) (names : List String) : Prop where
  within : ∀ name, scope.contains name = true → name ∈ names
  there : ∀ name ∈ names, scope.find? name = some true ∨ pending name

/-- A name is declared in a local scope further on. -/
def Comes (rest : List Mention) (name : String) : Prop := .declares true name ∈ rest

/-- Scopes that lack only names that are declared further on. -/
abbrev AwaitsEach (rest : List Mention) : List Scope → Outlook → Prop :=
  List.Forall₂ (Awaits (Comes rest))

/--
The scopes at a statement.  The innermost one lacks the names that it still declares itself;
those around it lack names that are declared behind its end.
-/
inductive Front (own : List String) (rest : List Mention) : Bool → List Scope → Outlook → Prop
  | top : Front own rest false [] []
  | inner {scope : Scope} {outer : List Scope} {names : List String} {Δ : Outlook} :
    Awaits (· ∈ own) scope names → (∀ name ∈ own, name ∈ names) →
    AwaitsEach rest outer Δ → Front own rest true (scope :: outer) (names :: Δ)

variable {scope : Scope} {scopes : List Scope} {names own : List String} {name : String}
  {rest rest' : List Mention} {isLocal : Bool} {pending pending' : String → Prop} {r : Resolution}

theorem Awaits.mono (h : Awaits pending scope names) (hpending : ∀ n, pending n → pending' n) :
    Awaits pending' scope names :=
  ⟨h.within, fun n hn => (h.there n hn).imp_right (hpending n)⟩

theorem Awaits.decides (h : Awaits pending scope names) (hname : ¬ pending name) :
    Decides name scope names := by
  unfold Decides
  split
  · exact (h.there name ‹_›).resolve_right hname
  · rename_i hnot
    cases hfind : scope.find? name with
    | none => rfl
    | some b => exact absurd (h.within name (contains_of_find? hfind)) hnot

theorem Awaits.insert (h : Awaits (· ∈ name :: own) scope names) (hname : name ∈ names) :
    Awaits (· ∈ own) (scope.insert name true) names := by
  constructor
  · intro n hn
    rw [Bindings.contains, Bindings.find?_insert] at hn
    split at hn
    · exact ‹n = name› ▸ hname
    · exact h.within n hn
  · intro n hn
    rw [Bindings.find?_insert]
    split
    · exact .inl rfl
    · exact (h.there n hn).imp_right fun hmem => (List.mem_cons.mp hmem).resolve_left ‹_›

/-- A name that cannot be read yet is still pending. -/
theorem Awaits.declare (h : Awaits pending scope names) (hname : name ∈ names)
    (hpending : pending name) : Awaits pending (scope.insert name false) names := by
  constructor
  · intro n hn
    rw [Bindings.contains, Bindings.find?_insert] at hn
    split at hn
    · exact ‹n = name› ▸ hname
    · exact h.within n hn
  · intro n hn
    rw [Bindings.find?_insert]
    split
    · exact .inr (‹n = name› ▸ hpending)
    · exact h.there n hn

theorem awaits_empty (own : List String) : Awaits (· ∈ own) .empty own :=
  ⟨nofun, fun _ hn => .inr hn⟩

theorem awaits_only (pending : String → Prop) (name : String) :
    Awaits pending (Bindings.empty.insert name true) [name] := by
  constructor
  · intro n hn
    rw [Bindings.contains, Bindings.find?_insert] at hn
    split at hn
    · exact List.mem_singleton.mpr ‹_›
    · cases hn
  · intro n hn
    rw [Bindings.find?_insert, if_pos (List.mem_singleton.mp hn)]
    exact .inl rfl

theorem AwaitsEach.mono (h : AwaitsEach rest scopes Δ) (hrest : rest ⊆ rest') :
    AwaitsEach rest' scopes Δ :=
  h.imp fun _ _ hawaits => hawaits.mono fun _ hn => hrest hn

namespace Front

theorem mono (h : Front own rest isLocal scopes Δ) (hrest : rest ⊆ rest') :
    Front own rest' isLocal scopes Δ := by
  cases h with
  | top => exact .top
  | inner hscope hown houter => exact .inner hscope hown (AwaitsEach.mono houter hrest)

/-- What the innermost scope still declares is declared further on. -/
theorem awaits (h : Front own rest isLocal scopes Δ)
    (hown : isLocal = true → ∀ name ∈ own, Comes rest name) : AwaitsEach rest scopes Δ := by
  cases h with
  | top => exact .nil
  | inner hscope hnames houter => exact .cons (hscope.mono (hown rfl)) houter

theorem declares (h : Front (name :: own) rest isLocal scopes Δ) : Δ.Declares name := by
  cases h with
  | top => exact nofun
  | inner hscope hnames houter =>
    rintro _ ⟨⟩
    exact hnames name List.mem_cons_self

/-- A name that is declared is not pending any more. -/
theorem mark (h : Front (name :: own) rest isLocal r.scopes Δ) :
    Front own rest isLocal (r.mark name true).scopes Δ := by
  rw [scopes_mark]
  generalize r.scopes = scopes at h
  cases h with
  | top => exact .top
  | inner hscope hnames houter =>
    exact .inner (hscope.insert (hnames name List.mem_cons_self))
      (fun n hn => hnames n (List.mem_cons_of_mem _ hn)) houter

/-- A variable is declared behind its initializer. -/
theorem declare {token : Token} (h : Front (token.lexeme :: own) rest isLocal r.scopes Δ)
    (hown : isLocal = true → ∀ name ∈ own, Comes rest name) :
    AwaitsEach (.declares isLocal token.lexeme :: rest) (r.declare token).scopes Δ := by
  rw [scopes_declare, scopes_mark]
  generalize r.scopes = scopes at h
  cases h with
  | top => exact .nil
  | inner hscope hnames houter =>
    have hcomes : ∀ n, n ∈ token.lexeme :: own → Comes (.declares true token.lexeme :: rest) n := by
      intro n hn
      rcases List.mem_cons.mp hn with rfl | hn
      · exact List.mem_cons_self
      · exact List.mem_cons_of_mem _ (hown rfl n hn)
    refine .cons ?_ (AwaitsEach.mono houter (List.subset_cons_self _ _))
    exact (hscope.mono hcomes).declare (hnames _ List.mem_cons_self) List.mem_cons_self

/-- A new scope lacks all that it ever declares. -/
theorem openScope (h : AwaitsEach rest r.scopes Δ) (own : List String) :
    Front own rest true r.openScope.scopes (own :: Δ) :=
  .inner (awaits_empty own) (fun _ hn => hn) h

theorem declareParameters {parameters : List Token}
    (h : Front (parameters.map Token.lexeme ++ own) rest isLocal r.scopes Δ) :
    Front own rest isLocal (r.declareParameters parameters).scopes Δ := by
  induction parameters generalizing r with
  | nil => exact h
  | cons parameter parameters ih =>
    apply ih
    rw [scopes_define_declare (SameScopes.refl (r.declare parameter))]
    exact h.mark

/-- Behind a statement its name is not pending any more. -/
theorem resolve {s : Stmt} (hshaped : s.Shaped)
    (h : Front (s.declared?.toList ++ own) rest isLocal r.scopes Δ) :
    Front own rest isLocal (s.resolve r).scopes Δ := by
  have hscopes := s.scopes_resolve hshaped r
  cases hdeclared : s.declared? with
  | none =>
    rw [hdeclared] at h hscopes
    rw [hscopes]
    exact h
  | some name =>
    rw [hdeclared] at h hscopes
    rw [hscopes]
    exact h.mark

end Front

/-! ### Orderly programs are seen -/

theorem pairwise_split {α : Type} {R : α → α → Prop} {first second rest : List α}
    (h : ((first ++ second) ++ rest).Pairwise R) :
    (first ++ (second ++ rest)).Pairwise R ∧ (second ++ rest).Pairwise R := by
  rw [List.append_assoc] at h
  exact ⟨h, (List.pairwise_append.mp h).2.1⟩

theorem Stmt.declaredEach_cons (s : Stmt) (ss : List Stmt) :
    Stmt.declaredEach (s :: ss) = s.declared?.toList ++ Stmt.declaredEach ss := by
  unfold Stmt.declaredEach
  rw [List.filterMap_cons]
  cases s.declared? with
  | none => rfl
  | some name => rfl

theorem Stmt.declares_mem_mentions {s : Stmt} (h : name ∈ s.declared?) (isLocal : Bool) :
    .declares isLocal name ∈ s.mentions isLocal := by
  cases s with
  | var token initializer =>
    cases h
    exact List.mem_append_right _ List.mem_cons_self
  | function d =>
    cases h
    exact List.mem_cons_self
  | «class» token superclass methods =>
    cases h
    exact List.mem_cons_self
  | _ => cases h

/-- What statements declare in their scope is mentioned. -/
theorem Stmt.declares_mem_mentionsEach {ss : List Stmt} (h : name ∈ Stmt.declaredEach ss)
    (isLocal : Bool) : .declares isLocal name ∈ Stmt.mentionsEach ss isLocal := by
  induction ss with
  | nil => cases h
  | cons s ss ih =>
    rw [Stmt.declaredEach_cons] at h
    rcases List.mem_append.mp h with h | h
    · exact List.mem_append_left _ (Stmt.declares_mem_mentions (Option.mem_toList.mp h) isLocal)
    · exact List.mem_append_right _ (ih h)

/-- Every place that is used was visited. -/
theorem Expr.exists_visit {e : Expr} {place : Occurrence} (h : .uses place ∈ e.mentions)
    (r : Resolution) : ∃ v ∈ e.visits r, v.place = place := by
  obtain ⟨⟨kind, other⟩, hmem, huses⟩ := List.mem_filterMap.mp h
  have hsame : other = place := by
    cases kind with
    | read | assign =>
      cases huses
      rfl
    | this | super => cases huses
  obtain ⟨v, hv, hentry⟩ := List.mem_map.mp ((e.perm_visits r).mem_iff.mpr hmem)
  exact ⟨v, hv, (congrArg Prod.snd hentry).trans hsame⟩

/-- No other visit is of the same place. -/
def Sole (V : Visit → Prop) (v : Visit) : Prop := ∀ v', V v' → v'.place = v.place → v' = v

theorem Expr.seen {e : Expr} (hvisited : ∀ v ∈ e.visits r, Sole V v)
    (hscopes : AwaitsEach rest r.scopes Δ) (horder : (e.mentions ++ rest).Pairwise Mention.InOrder) :
    e.Seen V Δ := by
  intro place huse v hv hplace
  obtain ⟨v', hv', hplace'⟩ := e.exists_visit huse r
  rw [hvisited v' hv' v hv (hplace.trans hplace'.symm), e.scopes_visits r v' hv']
  refine hscopes.imp fun _ _ hawaits => hawaits.decides fun hcomes => ?_
  exact (List.pairwise_append.mp horder).2.2 _ huse _ hcomes place rfl rfl

theorem Expr.seenIn? {e : Option Expr} (hvisited : ∀ v ∈ Expr.visitsIn? e r, Sole V v)
    (hscopes : AwaitsEach rest r.scopes Δ)
    (horder : (Expr.mentionsIn? e ++ rest).Pairwise Mention.InOrder) : ∀ e' ∈ e, e'.Seen V Δ := by
  rintro e' ⟨⟩
  exact e'.seen hvisited hscopes horder

mutual

/-- An orderly statement is seen in its scopes. -/
theorem Stmt.seen : (s : Stmt) → s.Shaped → {r : Resolution} → {isLocal : Bool} →
    {own : List String} → {rest : List Mention} → {Δ : Outlook} →
    Front (s.declared?.toList ++ own) rest isLocal r.scopes Δ →
    (isLocal = true → ∀ name ∈ own, Comes rest name) → (∀ v ∈ s.visits r, Sole V v) →
    (s.mentions isLocal ++ rest).Pairwise Mention.InOrder → s.Seen V Δ
  | .expression value, _, _, _, _, _, _, hfront, hown, hvisited, horder =>
    value.seen hvisited (hfront.awaits hown) horder
  | .var name none, _, _, _, _, _, _, hfront, _, _, _ => ⟨hfront.declares, nofun⟩
  | .var name (some value), _, r, _, _, _, _, hfront, hown, hvisited, horder => by
    refine ⟨hfront.declares, ?_⟩
    rintro _ ⟨⟩
    -- The name is declared while its initializer is read, but decided on before.
    have hscopes := hfront.declare hown
    rw [← scopes_enterInitializer name.lexeme] at hscopes
    exact value.seen hvisited hscopes (pairwise_split horder).1
  -- A block has a scope of its own, which awaits what the block declares.
  | .block body, hshaped, _, _, _, _, _, hfront, hown, hvisited, horder =>
    Stmt.seenEach body hshaped (.openScope (hfront.awaits hown) _) hvisited horder
  | .conditional condition thenBranch none, hshaped, r, isLocal, own, rest, Δ, hfront, hown,
      hvisited, horder => by
    obtain ⟨horder₁, horder₂⟩ := pairwise_split horder
    obtain ⟨hvisited₁, hvisited₂⟩ := List.forall_mem_append.mp hvisited
    -- The branch declares nothing, so the same stands behind it as behind the conditional.
    have hthen : Front (thenBranch.declared?.toList ++ own) rest isLocal
        (condition.resolve r).scopes Δ := by
      rw [hshaped.1, (condition.sameScopes_resolve r).scopes]
      exact hfront
    exact ⟨condition.seen hvisited₁
        (AwaitsEach.mono (hfront.awaits hown) (List.subset_append_right _ _)) horder₁,
      thenBranch.seen hshaped.2 hthen hown hvisited₂ horder₂⟩
  | .conditional condition thenBranch (some elseBranch), hshaped, r, isLocal, own, rest, Δ, hfront,
      hown, hvisited, horder => by
    obtain ⟨⟨hclosed, hthen⟩, hclosed', helse⟩ := hshaped
    obtain ⟨horder₁, hbranches⟩ := pairwise_split horder
    -- What the second branch mentions comes behind the first one.
    obtain ⟨horder₂, horder₃⟩ := pairwise_split hbranches
    obtain ⟨hbefore, hvisited₃⟩ := List.forall_mem_append.mp hvisited
    obtain ⟨hvisited₁, hvisited₂⟩ := List.forall_mem_append.mp hbefore
    have hfront₂ : Front (thenBranch.declared?.toList ++ own) (elseBranch.mentions isLocal ++ rest)
        isLocal (condition.resolve r).scopes Δ := by
      rw [hclosed, (condition.sameScopes_resolve r).scopes]
      exact hfront.mono (List.subset_append_right _ _)
    have hfront₃ : Front (elseBranch.declared?.toList ++ own) rest isLocal
        (thenBranch.resolve (condition.resolve r)).scopes Δ := by
      rw [hclosed', Stmt.scopes_of_declares_nothing hthen hclosed,
        (condition.sameScopes_resolve r).scopes]
      exact hfront
    exact ⟨condition.seen hvisited₁
        (AwaitsEach.mono (hfront.awaits hown) (List.subset_append_right _ _)) horder₁,
      thenBranch.seen hthen hfront₂
        (fun hlocal n hn => List.mem_append_right _ (hown hlocal n hn)) hvisited₂ horder₂,
      elseBranch.seen helse hfront₃ hown hvisited₃ horder₃⟩
  | .loop condition body increment, hshaped, r, isLocal, own, rest, Δ, hfront, hown, hvisited,
      horder => by
    obtain ⟨horder₁, hturn⟩ := pairwise_split horder
    obtain ⟨horder₂, horder₃⟩ := pairwise_split hturn
    obtain ⟨hbefore, hvisited₃⟩ := List.forall_mem_append.mp hvisited
    obtain ⟨hvisited₁, hvisited₂⟩ := List.forall_mem_append.mp hbefore
    -- The body stands behind the condition, and the increment behind the body.
    have hbody : Front (body.declared?.toList ++ own) rest isLocal
        (condition.resolve r).enterLoop.scopes Δ := by
      rw [hshaped.1]
      exact (condition.sameScopes_resolve r).scopes ▸ hfront
    have hbehind : AwaitsEach rest ((condition.resolve r).inLoop body.resolve).scopes Δ := by
      rw [scopes_inLoop, Stmt.scopes_of_declares_nothing hshaped.2 hshaped.1]
      exact (condition.sameScopes_resolve r).scopes ▸ hfront.awaits hown
    exact ⟨condition.seen hvisited₁
        (AwaitsEach.mono (hfront.awaits hown) (List.subset_append_right _ _)) horder₁,
      body.seen hshaped.2 hbody hown hvisited₂ horder₃,
      Expr.seenIn? hvisited₃ (hbehind.mono (List.subset_append_right _ _)) horder₂⟩
  | .function d, hshaped, r, _, _, _, _, hfront, hown, hvisited, horder => by
    refine ⟨hfront.declares, d.seen hshaped.2 ?_ hvisited horder.of_cons⟩
    -- The parameters and the body see the name of the function.
    rw [scopes_define_declare (SameScopes.refl (r.declare d.name))]
    exact hfront.mark.awaits hown
  | .returning _ none, _, _, _, _, _, _, _, _, _, _ => nofun
  | .returning keyword (some value), _, r, _, _, _, _, hfront, hown, hvisited, horder => by
    rintro _ ⟨⟩
    -- The two checks of a `return` leave the scopes as they are.
    have hsame := (sameScopes_reportIf (r.routine = .topLevel) .returnAtTopLevel keyword r).trans
      (sameScopes_reportIf ((r.reportIf (r.routine = .topLevel) .returnAtTopLevel
        keyword).routine = .initializer) .returnValueFromInitializer keyword _)
    have hscopes := hfront.awaits hown
    rw [← hsame.scopes] at hscopes
    exact value.seen hvisited hscopes horder
  | .breaking _, _, _, _, _, _, _, _, _, _, _ => trivial
  | .continuing _, _, _, _, _, _, _, _, _, _, _ => trivial
  | .class name superclass methods, hshaped, r, _, _, rest, Δ, hfront, hown, hvisited, horder => by
    obtain ⟨hvisited₁, hvisited₂⟩ := List.forall_mem_append.mp hvisited
    obtain ⟨horder₁, horder₂⟩ := pairwise_split horder.of_cons
    have hscopes := hfront.mark.awaits hown
    refine ⟨hfront.declares, ?_, ?_⟩
    · -- The superclass is read first, and nothing further on declares its name locally.
      rintro parent ⟨⟩ v hv hplace
      rw [hvisited₁ _ List.mem_cons_self v hv hplace, scopes_enterSuperclass name parent r]
      have hlater := (List.pairwise_cons.mp horder₁).1
      refine hscopes.imp fun _ _ hawaits => hawaits.decides fun hcomes => ?_
      exact hlater _ (List.mem_append_right _ (List.mem_append_right _ hcomes)) parent rfl rfl
    · -- The methods see `this`, and `super` if there is a superclass.
      refine FunctionDecl.seenEach methods hshaped.2 ?_ hvisited₂ horder₂
      rw [scopes_enterClassBody, scopes_enterClass, Outlook.ofMethods]
      refine .cons (awaits_only _ _) ?_
      split
      · exact .cons (awaits_only _ _) hscopes
      · exact hscopes
termination_by structural s => s

theorem Stmt.seenEach : (ss : List Stmt) → Stmt.ShapedEach ss → {r : Resolution} →
    {isLocal : Bool} → {rest : List Mention} → {Δ : Outlook} →
    Front (Stmt.declaredEach ss) rest isLocal r.scopes Δ → (∀ v ∈ Stmt.visitsEach ss r, Sole V v) →
    (Stmt.mentionsEach ss isLocal ++ rest).Pairwise Mention.InOrder → Stmt.SeenEach V ss Δ
  | [], _, _, _, _, _, _, _, _ => trivial
  | s :: ss, hshaped, _, isLocal, _, _, hfront, hvisited, horder => by
    obtain ⟨horder₁, horder₂⟩ := pairwise_split horder
    obtain ⟨hvisited₁, hvisited₂⟩ := List.forall_mem_append.mp hvisited
    rw [Stmt.declaredEach_cons] at hfront
    refine ⟨s.seen hshaped.1 (hfront.mono (List.subset_append_right _ _)) ?_ hvisited₁ horder₁,
      Stmt.seenEach ss hshaped.2 (hfront.resolve hshaped.1) hvisited₂ horder₂⟩
    rintro rfl n hn
    exact List.mem_append_left _ (Stmt.declares_mem_mentionsEach hn true)
termination_by structural ss => ss

theorem FunctionDecl.seen : (d : FunctionDecl) → d.Shaped → {routine : EnclosingRoutine} →
    {r : Resolution} → {rest : List Mention} → {Δ : Outlook} → AwaitsEach rest r.scopes Δ →
    (∀ v ∈ d.visits routine r, Sole V v) → (d.mentions ++ rest).Pairwise Mention.InOrder → d.Seen V Δ
  | ⟨_, parameters, body⟩, hshaped, routine, r, _, _, hscopes, hvisited, horder => by
    refine Stmt.seenEach body hshaped.2 ?_ hvisited (pairwise_split horder).2
    have hfront := @Front.openScope _ _ { r with routine := routine, loopDepth := 0 } hscopes
      (parameters.map Token.lexeme ++ Stmt.declaredEach body)
    exact hfront.declareParameters
termination_by structural d => d

theorem FunctionDecl.seenEach : (ds : List FunctionDecl) → FunctionDecl.ShapedEach ds →
    {r : Resolution} → {rest : List Mention} → {Δ : Outlook} → AwaitsEach rest r.scopes Δ →
    (∀ v ∈ FunctionDecl.visitsMethods ds r, Sole V v) →
    (FunctionDecl.mentionsEach ds ++ rest).Pairwise Mention.InOrder → FunctionDecl.SeenEach V ds Δ
  | [], _, _, _, _, _, _, _ => trivial
  | d :: ds, hshaped, r, _, _, hscopes, hvisited, horder => by
    obtain ⟨horder₁, horder₂⟩ := pairwise_split horder
    obtain ⟨hvisited₁, hvisited₂⟩ := List.forall_mem_append.mp hvisited
    refine ⟨d.seen hshaped.1 (hscopes.mono (List.subset_append_right _ _)) hvisited₁ horder₁, ?_⟩
    refine FunctionDecl.seenEach ds hshaped.2 ?_ hvisited₂ horder₂
    rw [d.scopes_resolve]
    exact hscopes
termination_by structural ds => ds

end

end Lox
