import Lox.Proofs.Likeness.Respelled
import Lox.Proofs.Token.Respelled

/-!
# Exchanges that go unnoticed

If the names of some scopes are exchanged for fresh ones, every occurrence is found at the
distance where it was found before: no scope in between has the old name or the new one
unless it had the name of the occurrence.  So a program that is spelled anew is resolved,
derived and executed like the one it comes from.
-/

namespace Lox

open Resolution

/-! ### Scopes with other names -/

/-- The renaming exchanges names for fresh ones, and those for the names. -/
structure Renaming.Exchanges (σ : Renaming) (fresh : String → Prop) : Prop where
  involutive : ∀ name, σ (σ name) = name
  fresh : ∀ name, ¬ fresh name → σ name = name ∨ fresh (σ name)

theorem Renaming.exchange_exchanges (x y : String) : (exchange x y).Exchanges (· = y) := by
  constructor
  · intro name
    by_cases hnames : IsName x ∧ IsName y
    · rw [exchange_apply hnames.1 hnames.2, exchange_apply hnames.1 hnames.2]
      grind
    · rw [exchange, dif_neg hnames]
      rfl
  · intro name hname
    rcases exchange_cases (x := x) hname with hsame | ⟨-, hnew⟩
    · exact .inl hsame
    · exact .inr hnew

section

variable {σ : Renaming} {fresh : String → Prop} {Γ : Surroundings} {scopes scopes' : List Scope}
  {name name' : String}

/-- A scope that does not have a name has nothing else in its place. -/
theorem find?_exchanged (hσ : σ.Exchanges fresh) {scope scope' : Scope} {τ : Renaming}
    (hτ : τ = .same ∨ τ = σ) (hfresh : ∀ other, fresh other → scope.find? other = none)
    (hfind : ∀ other, scope'.find? (τ other) = scope.find? other) (hname : ¬ fresh name)
    (hcases : name' = name ∨ name' = σ name) (hnone : scope.find? name = none) :
    scope'.find? name' = none := by
  have hother : scope.find? (σ name) = none := by
    rcases hσ.fresh name hname with hsame | hnew
    · rwa [hsame]
    · exact hfresh _ hnew
  rcases hτ with rfl | rfl
  · have hsame := hfind name'
    rw [Renaming.same_apply] at hsame
    rcases hcases with rfl | rfl
    · exact hsame.trans hnone
    · exact hsame.trans hother
  · rcases hcases with rfl | rfl
    · rw [← hσ.involutive name', hfind, hother]
    · rw [hfind, hnone]

/-- A name is found where it was if the scope that has it gives it anew, and fresh names are exchanged. -/
theorem ScopesLike.distance?_exchanged (hσ : σ.Exchanges fresh)
    (h : ScopesLike fresh Γ scopes scopes') (hΓ : Γ.Of σ) (hname : ¬ fresh name)
    (hcases : name' = name ∨ name' = σ name)
    (hnear : ∀ d, distance? scopes name = some d → name' = Γ d name) :
    distance? scopes' name' = distance? scopes name := by
  induction h with
  | nil _ => rfl
  | @cons Γ scope scope' outer outer' hfresh hfind _ ih =>
    rw [distance?_cons, distance?_cons]
    cases hfound : scope.find? name with
    | some readable =>
      have hcontains : scope.contains name = true := contains_of_find? hfound
      have hname' : name' = Γ 0 name := hnear 0 (by rw [distance?_cons, if_pos hcontains])
      rw [if_pos hcontains, if_pos]
      apply contains_of_find?
      rw [hname', hfind, hfound]
    | none =>
      have hcontains : scope.contains name = false := not_contains_of_find? hfound
      have hcontains' : scope'.contains name' = false :=
        not_contains_of_find? (find?_exchanged hσ (hΓ 0) hfresh hfind hname hcases hfound)
      rw [hcontains, hcontains', ih fun d => hΓ (d + 1)]
      intro d hd
      apply hnear (d + 1)
      rw [distance?_cons, hcontains, hd]
      rfl

end

/-! ### Occurrences with other names -/

section

variable {distances : Distances} {Γ : Surroundings} {p : Occurrence}

theorem Occurrence.respell_of_none (h : distances[p.id]? = none) : p.respell distances Γ = p := by
  rw [respell, h]

theorem Occurrence.respell_of_some {d : Nat} (h : distances[p.id]? = some d) :
    p.respell distances Γ = ⟨p.id, p.token.respell (Γ d)⟩ := by
  rw [respell, h]

theorem Occurrence.name_respell {d : Nat} (h : distances[p.id]? = some d) :
    (p.respell distances Γ).name = Γ d p.name := by
  rw [respell_of_some h]
  rfl

theorem Occurrence.id_respell : (p.respell distances Γ).id = p.id := by
  cases h : distances[p.id]? with
  | none => rw [respell_of_none h]
  | some d => rw [respell_of_some h]

theorem Occurrence.line_respell : (p.respell distances Γ).line = p.line := by
  cases h : distances[p.id]? with
  | none => rw [respell_of_none h]
  | some d =>
    rw [respell_of_some h]
    rfl

theorem Occurrence.respell_top : p.respell distances .top = p := by
  cases h : distances[p.id]? with
  | none => rw [respell_of_none h]
  | some d =>
    rw [respell_of_some h]
    rfl

/-- The name stays, or is renamed as in some of the scopes. -/
theorem Occurrence.name_respell_cases {σ : Renaming} (hΓ : Γ.Of σ) :
    (p.respell distances Γ).name = p.name ∨ (p.respell distances Γ).name = σ p.name := by
  cases h : distances[p.id]? with
  | none => exact .inl (congrArg Occurrence.name (respell_of_none h))
  | some d =>
    rw [name_respell h]
    rcases hΓ d with hsame | hσ
    · exact .inl (by rw [hsame]; rfl)
    · exact .inr (by rw [hσ])

end

/-! ### What the likeness is good for -/

namespace Likeness

variable {σ : Renaming} {fresh : String → Prop} {distances distances' : Distances}
  {Q : Token → Prop} {known : NodeId → Prop}

theorem respelled_keepsIds : ((respelled σ distances).restrict Q known).KeepsIds := by
  rintro Γ p p' ⟨⟨-, rfl⟩, -⟩
  exact Occurrence.id_respell

/-- Trees in which fresh names are exchanged are resolved alike. -/
theorem respelled_static (hσ : σ.Exchanges fresh) (hQ : ∀ t, Q t → ¬ fresh t.lexeme)
    (hkeywords : ¬ fresh "this" ∧ ¬ fresh "super") :
    ((respelled σ distances).restrict Q known).Static fresh fun v => v.Recorded distances := by
  refine ⟨?_, ?_, hkeywords, ?_⟩
  · rintro t t' ⟨rfl, ht⟩
    exact ⟨rfl, hQ _ ht⟩
  · rintro τ t t' ⟨⟨-, rfl⟩, ht, -⟩
    exact ⟨rfl, hQ t ht⟩
  · rintro Γ kind p p' r scopes' hv hscopes ⟨⟨hΓ, rfl⟩, hp, -, -⟩
    have hdistance : distances[p.id]? = distance? r.scopes p.name := hv.distance
    have hnear : ∀ d, distance? r.scopes p.name = some d → (p.respell distances Γ).name = Γ d p.name :=
      fun d hd => Occurrence.name_respell (hdistance.trans hd)
    refine ⟨?_, hnear, ?_⟩
    · exact hscopes.distance?_exchanged hσ hΓ (hQ _ hp) (Occurrence.name_respell_cases hΓ) hnear
    · intro hfar
      rw [Occurrence.respell_of_none (hdistance.trans hfar)]

/-- Trees that are spelled anew do the same on machines that know the distances. -/
theorem respelled_faithful (σ : Renaming) (distances : Distances) :
    Faithful (respelled σ distances) Eq distances distances := by
  constructor
  · exact .inl rfl
  · rintro t t' rfl
    exact ⟨rfl, rfl, rfl⟩
  · rintro τ t t' ⟨-, rfl⟩
    rfl
  · rintro Γ p p' ⟨-, rfl⟩
    rw [Occurrence.id_respell]
  · rintro Γ p p' ⟨-, rfl⟩ d hd
    exact Occurrence.name_respell hd
  · rintro Γ p p' ⟨-, rfl⟩ hd
    rw [Occurrence.respell_of_none hd]
  · rintro Γ p p' ⟨-, rfl⟩
    exact Occurrence.line_respell.symm

theorem respelled_reflexive (σ : Renaming) (distances : Distances) :
    (respelled σ distances).Reflexive fun _ => True := by
  refine ⟨.inl rfl, fun _ => rfl, fun _ => ⟨.inl rfl, rfl⟩, ?_⟩
  intro p _
  exact ⟨Surroundings.of_top σ, Occurrence.respell_top.symm⟩

/-- Only the distances of the occurrences that a tree has matter. -/
theorem respelled_le (h : ∀ id, known id → distances'[id]? = distances[id]?) :
    ((respelled σ distances).restrict Q known).Le (respelled σ distances') := by
  refine ⟨fun _ h => h, fun _ _ h => h.1, fun _ _ _ h => h.1, ?_⟩
  rintro Γ p p' ⟨⟨hΓ, rfl⟩, -, -, hid⟩
  refine ⟨hΓ, ?_⟩
  unfold Occurrence.respell
  rw [h p.id hid]

/-- An identifier that is no fresh name is spelled anew only if it is the one that is exchanged. -/
theorem respell_exchange {x y : String} {t : Token} {τ : Renaming}
    (hτ : τ = .same ∨ τ = .exchange x y) (hname : t.lexeme ≠ y)
    (hkind : t.kind = .identifier ∨ t.lexeme = "this" ∨ t.lexeme = "super") :
    t.Respelled x y (t.respell τ) := by
  have hfixed : τ t.lexeme = t.lexeme → t.Respelled x y (t.respell τ) := by
    intro hsame
    refine .inl ?_
    rw [Token.respell, hsame]
  rcases hkind with hkind | hthis | hsuper
  · rcases hτ with rfl | rfl
    · exact hfixed rfl
    · rcases Renaming.exchange_cases (x := x) hname with hsame | ⟨hx, hy⟩
      · exact hfixed hsame
      · refine .inr ⟨hkind, hx, ?_⟩
        rw [Token.respell, hy]
  · exact hfixed (by rw [hthis, τ.this])
  · exact hfixed (by rw [hsuper, τ.super])

/-- Trees that are spelled anew are derived from tokens that are. -/
theorem respelled_respelling {x y : String} (hQ : ∀ t, Q t → t.lexeme ≠ y) :
    Grammar.Respelling ((respelled (.exchange x y) distances).restrict Q known)
      (Token.Respelled x y) := by
  constructor
  · rintro t t' (rfl | ⟨-, -, rfl⟩)
    · rfl
    · rfl
  · intro t
    exact ⟨t, .inl rfl, fun _ => rfl⟩
  · rintro t t' - ⟨rfl, -⟩
    exact .inl rfl
  · rintro τ t t' - ⟨⟨hτ, rfl⟩, ht, hkind⟩
    exact respell_exchange hτ (hQ t ht) (.inl hkind)
  · rintro Γ p p' - ⟨⟨hΓ, rfl⟩, hp, hplain, -⟩
    cases hd : distances[p.id]? with
    | none => exact .inl (congrArg Occurrence.token (Occurrence.respell_of_none hd))
    | some d =>
      rw [Occurrence.respell_of_some hd]
      exact respell_exchange (hΓ d) (hQ _ hp) hplain

end Likeness

/-! ### One scope -/

theorem Renaming.only_cases (k : Nat) (σ : Renaming) (i : Nat) : only k σ i = .same ∨ only k σ i = σ := by
  unfold only
  split
  · exact .inr rfl
  · exact .inl rfl

/-- A variable of a scope can be given a fresh name. -/
theorem suits_only {scopes : List LocalScope} (hdistinct : AllDistinct scopes) {k : Nat}
    {scope : LocalScope} (hscope : scopes[k]? = some scope) {t : Token} (ht : ⟨true, t⟩ ∈ scope)
    {Q : Token → Prop} {y : String} (hQ : ∀ t, Q t → t.lexeme ≠ y) :
    Suits (.exchange t.lexeme y) Q (.only k (.exchange t.lexeme y)) scopes := by
  refine ⟨Renaming.only_cases k _, ?_⟩
  intro i found hfound d hd hfunction hq
  unfold Renaming.only
  split
  · rename_i hi
    subst hi
    cases hscope.symm.trans hfound
    have hdistinct := hdistinct scope (List.mem_of_getElem? hscope)
    have hne : d.name.lexeme ≠ t.lexeme := hdistinct.ne hd ht (by simp [hfunction])
    rcases Renaming.exchange_cases (x := t.lexeme) (hQ _ hq) with hsame | ⟨hx, -⟩
    · exact hsame
    · exact absurd hx hne
  · rfl

end Lox
