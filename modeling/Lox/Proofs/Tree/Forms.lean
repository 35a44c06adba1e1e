import Lox.Proofs.Token.Division

/-!
# Forms

A printed form is a word, a node with a head and parts, or the signature of a function.
The text of a form has a blank in front of every part and parentheses around every node
and every list of parameters.  When no blank and no parenthesis occurs in the words, the
text says where each part ends, so that no two forms have the same text.
-/

namespace Lox

open Piece

inductive Form where
  | word (text : String)
  /-- The name of a function, and those of its parameters. -/
  | signature (name : String) (parameters : List String)
  | node (head : String) (parts : List Form)

namespace Form

mutual

def text : Form → List Char
  | word w => w.toList
  | signature name parameters =>
    name.toList ++ '(' :: ((" ".intercalate parameters).toList ++ [')'])
  | node head parts => '(' :: (head.toList ++ (textEach parts ++ [')']))
termination_by structural form => form

def textEach : List Form → List Char
  | [] => []
  | form :: rest => ' ' :: (form.text ++ textEach rest)
termination_by structural forms => forms

end

def isSolid (c : Char) : Bool := c ≠ ' ' && c ≠ '(' && c ≠ ')'

def Solid (w : String) : Prop := w.toList ≠ [] ∧ ∀ c ∈ w.toList, isSolid c = true

instance (w : String) : Decidable (Solid w) :=
  decidable_of_iff ((!w.toList.isEmpty && w.toList.all isSolid) = true) (by simp [Solid])

mutual

def Proper : Form → Prop
  | word w => Solid w
  | signature name parameters => Solid name ∧ ∀ p ∈ parameters, Solid p
  | node head parts => Solid head ∧ ProperEach parts
termination_by structural form => form

def ProperEach : List Form → Prop
  | [] => True
  | form :: rest => form.Proper ∧ ProperEach rest
termination_by structural forms => forms

end

/-! ### Where words end -/

/-- Behind a form nothing comes, or a blank, or a closing parenthesis. -/
def AtEnd (rest : List Char) : Prop := ∀ c ∈ rest.head?, c = ' ' ∨ c = ')'

theorem AtEnd.not_solid {rest : List Char} (h : AtEnd rest) : StartsWith? isSolid rest = false := by
  cases rest with
  | nil => rfl
  | cons c rest => rcases h c rfl with rfl | rfl <;> rfl

theorem AtEnd.ne_paren {rest : List Char} (h : AtEnd rest) (more : List Char) :
    rest ≠ '(' :: more := by
  rintro rfl
  have := h '(' rfl
  simp at this

theorem atEnd_textEach (parts : List Form) (rest : List Char) :
    AtEnd (textEach parts ++ ')' :: rest) := by
  intro c hc
  cases parts with
  | nil =>
    cases hc
    exact Or.inr rfl
  | cons form parts =>
    rw [textEach] at hc
    cases hc
    exact Or.inl rfl

/-- A word ends where something else comes. -/
theorem Solid.append_inj {w w' : String} (hw : Solid w) (hw' : Solid w') {rest rest' : List Char}
    (hrest : StartsWith? isSolid rest = false) (hrest' : StartsWith? isSolid rest' = false)
    (h : w.toList ++ rest = w'.toList ++ rest') : w = w' ∧ rest = rest' := by
  have hwords := congrArg (List.takeWhile isSolid) h
  have hrests := congrArg (List.dropWhile isSolid) h
  rw [takeWhile_run hw.2 hrest, takeWhile_run hw'.2 hrest'] at hwords
  rw [dropWhile_run hw.2 hrest, dropWhile_run hw'.2 hrest'] at hrests
  exact ⟨String.toList_inj.mp hwords, hrests⟩

/-- A word does not start with a separator. -/
theorem Solid.ne_append {w : String} (hw : Solid w) {c : Char} (hc : isSolid c = false)
    (rest rest' : List Char) : c :: rest ≠ w.toList ++ rest' := by
  obtain ⟨d, more, hword⟩ := List.exists_cons_of_ne_nil hw.1
  intro h
  rw [hword, List.cons_append, List.cons.injEq] at h
  have hd := hw.2 d (hword ▸ List.mem_cons_self)
  rw [← h.1, hc] at hd
  cases hd

/-! ### Lists of parameters -/

def moreParameters : List String → List Char
  | [] => []
  | p :: rest => ' ' :: (" ".intercalate (p :: rest)).toList

theorem toList_intercalate_cons (p : String) (rest : List String) :
    (" ".intercalate (p :: rest)).toList = p.toList ++ moreParameters rest := by
  cases rest with
  | nil => simp [moreParameters]
  | cons q rest =>
    rw [String.intercalate_cons_cons, String.toList_append, String.toList_append, List.append_assoc]
    rfl

theorem parameters_inj {parameters parameters' : List String} (hsolid : ∀ p ∈ parameters, Solid p)
    (hsolid' : ∀ p ∈ parameters', Solid p) {rest rest' : List Char}
    (h : (" ".intercalate parameters).toList ++ ')' :: rest =
      (" ".intercalate parameters').toList ++ ')' :: rest') :
    parameters = parameters' ∧ rest = rest' := by
  induction parameters generalizing parameters' with
  -- One list ends, and the other goes on with a name instead of the parenthesis.
  | nil =>
    cases parameters' with
    | nil => exact ⟨rfl, (List.cons.inj h).2⟩
    | cons p' more' =>
      rw [toList_intercalate_cons, List.append_assoc] at h
      exact absurd h ((hsolid' p' List.mem_cons_self).ne_append rfl _ _)
  | cons p more ih =>
    cases parameters' with
    | nil =>
      rw [toList_intercalate_cons, List.append_assoc] at h
      exact absurd h.symm ((hsolid p List.mem_cons_self).ne_append rfl _ _)
    -- Both go on with a name, which ends where no solid character follows.
    | cons p' more' =>
      obtain ⟨hp, hmore⟩ := List.forall_mem_cons.mp hsolid
      obtain ⟨hp', hmore'⟩ := List.forall_mem_cons.mp hsolid'
      have hend : ∀ (more : List String) rest,
          StartsWith? isSolid (moreParameters more ++ ')' :: rest) = false := by
        intro more rest
        cases more <;> rfl
      rw [toList_intercalate_cons, toList_intercalate_cons, List.append_assoc,
        List.append_assoc] at h
      obtain ⟨rfl, hbehind⟩ := hp.append_inj hp' (hend more rest) (hend more' rest') h
      rcases more with _ | ⟨q, more⟩ <;> rcases more' with _ | ⟨q', more'⟩
      · exact ⟨rfl, (List.cons.inj hbehind).2⟩
      · cases hbehind
      · cases hbehind
      · obtain ⟨hsame, hrests⟩ := ih hmore hmore' (List.cons.inj hbehind).2
        exact ⟨congrArg (p :: ·) hsame, hrests⟩

/-! ### Where forms end -/

mutual

/-- The text of a form says where it ends, and which form it is. -/
theorem text_append_inj : (form form' : Form) → form.Proper → form'.Proper →
    ∀ {rest rest' : List Char}, AtEnd rest → AtEnd rest' →
      form.text ++ rest = form'.text ++ rest' → form = form' ∧ rest = rest'
  | word w, word w', h, h', _, _, hrest, hrest', heq => by
    obtain ⟨rfl, hrests⟩ := Solid.append_inj h h' hrest.not_solid hrest'.not_solid heq
    exact ⟨rfl, hrests⟩
  -- A word in front of a parenthesis would be a signature.
  | word w, signature name' parameters', h, h', _, _, hrest, _, heq => by
    rw [text, text, List.append_assoc] at heq
    exact absurd (Solid.append_inj h h'.1 hrest.not_solid rfl heq).2 (hrest.ne_paren _)
  | word w, node head' parts', h, _, _, _, _, _, heq => absurd heq.symm (h.ne_append rfl _ _)
  | signature name parameters, word w', h, h', _, _, _, hrest', heq => by
    rw [text, text, List.append_assoc] at heq
    exact absurd (Solid.append_inj h' h.1 hrest'.not_solid rfl heq.symm).2 (hrest'.ne_paren _)
  | signature name parameters, signature name' parameters', h, h', _, _, _, _, heq => by
    simp only [text, List.append_assoc, List.cons_append, List.nil_append] at heq
    obtain ⟨rfl, hbehind⟩ := Solid.append_inj h.1 h'.1 rfl rfl heq
    obtain ⟨rfl, hrests⟩ := parameters_inj h.2 h'.2 (List.cons.inj hbehind).2
    exact ⟨rfl, hrests⟩
  | signature name parameters, node head' parts', h, _, _, _, _, _, heq => by
    rw [text, text, List.append_assoc] at heq
    exact absurd heq.symm (h.1.ne_append rfl _ _)
  | node head parts, word w', _, h', _, _, _, _, heq => absurd heq (h'.ne_append rfl _ _)
  | node head parts, signature name' parameters', _, h', _, _, _, _, heq => by
    rw [text, text, List.append_assoc] at heq
    exact absurd heq (h'.1.ne_append rfl _ _)
  -- Two nodes: their heads end at the first part or at the parenthesis.
  | node head parts, node head' parts', h, h', rest, rest', _, _, heq => by
    simp only [text, List.append_assoc, List.cons_append, List.nil_append] at heq
    obtain ⟨rfl, hbehind⟩ := Solid.append_inj h.1 h'.1 (atEnd_textEach parts rest).not_solid
      (atEnd_textEach parts' rest').not_solid (List.cons.inj heq).2
    obtain ⟨rfl, hrests⟩ := textEach_append_inj parts parts' h.2 h'.2 hbehind
    exact ⟨rfl, hrests⟩
termination_by structural form => form

theorem textEach_append_inj : (parts parts' : List Form) → ProperEach parts → ProperEach parts' →
    ∀ {rest rest' : List Char}, textEach parts ++ ')' :: rest = textEach parts' ++ ')' :: rest' →
      parts = parts' ∧ rest = rest'
  | [], [], _, _, _, _, heq => ⟨rfl, (List.cons.inj heq).2⟩
  | [], form' :: parts', _, _, _, _, heq => by cases heq
  | form :: parts, [], _, _, _, _, heq => by cases heq
  | form :: parts, form' :: parts', h, h', rest, rest', heq => by
    simp only [textEach, List.cons_append, List.append_assoc] at heq
    obtain ⟨rfl, hbehind⟩ := text_append_inj form form' h.1 h'.1 (atEnd_textEach parts rest)
      (atEnd_textEach parts' rest') (List.cons.inj heq).2
    obtain ⟨rfl, hrests⟩ := textEach_append_inj parts parts' h.2 h'.2 hbehind
    exact ⟨rfl, hrests⟩
termination_by structural parts => parts

end

/-- No two forms have the same text. -/
theorem text_inj {form form' : Form} (h : form.Proper) (h' : form'.Proper)
    (heq : form.text = form'.text) : form = form' := by
  have hnil : AtEnd [] := fun _ hc => by cases hc
  have happend : form.text ++ [] = form'.text ++ [] := congrArg (· ++ []) heq
  exact (text_append_inj form form' h h' hnil hnil happend).1

end Form

end Lox
