import Lox.Proofs.Execution.Course
import Lox.Proofs.Execution.Sinks

/-!
# Runs on a sink that is full at some time

The same run is compared on a sink that accepts everything, and on one that refuses what
is beyond a bound.  As long as nothing is refused, the two do the same.  The first write
that is refused stops the second run with an error at the line of the call that prints,
and no task begins behind it.
-/

namespace Lox

open Exec

/-! ### Sinks -/

namespace Sink

/-- The sink with a bound: it is full when the bound says so. -/
def capped (full : String → Nat → Bool) (sink : Sink) : Sink := { sink with full := full }

def AcceptsAll (sink : Sink) : Prop := ∀ text breaks, sink.full text breaks = false

def Grows (sink sink' : Sink) : Prop := ∃ text, sink' = sink.append text

variable {sink sink' sink'' : Sink} {full : String → Nat → Bool} {text : String}

theorem append_empty (sink : Sink) : sink.append "" = sink := by
  cases sink
  simp [append, lineBreaks]

theorem append_append (sink : Sink) (first second : String) :
    (sink.append first).append second = sink.append (first ++ second) := by
  simp [append, lineBreaks, String.append_assoc, Nat.add_assoc]

theorem AcceptsAll.refuses (h : sink.AcceptsAll) (text : String) : sink.refuses text = false := by
  rw [Sink.refuses, h, Bool.and_false]

namespace Grows

theorem refl (sink : Sink) : Grows sink sink := ⟨"", (append_empty sink).symm⟩

theorem append (sink : Sink) (text : String) : Grows sink (sink.append text) := ⟨text, rfl⟩

theorem trans (h : Grows sink sink') (h' : Grows sink' sink'') : Grows sink sink'' := by
  obtain ⟨first, rfl⟩ := h
  obtain ⟨second, rfl⟩ := h'
  exact ⟨first ++ second, append_append sink first second⟩

theorem acceptsAll (h : Grows sink sink') (hsink : sink.AcceptsAll) : sink'.AcceptsAll := by
  obtain ⟨text, rfl⟩ := h
  exact hsink

theorem isPrefix (h : Grows sink sink') : sink.accepted.toList <+: sink'.accepted.toList := by
  obtain ⟨text, rfl⟩ := h
  exact ⟨text.toList, (String.toList_append ..).symm⟩

end Grows

end Sink

def Machine.capped (full : String → Nat → Bool) (m : Machine) : Machine :=
  m.withSink (m.sink.capped full)

def Moment.capped (full : String → Nat → Bool) (x : Moment) : Moment :=
  { x with machine := x.machine.capped full }

/--
A call of `print` writes a text or the line break behind it where the bound is reached.
The line is that of the call, and the sink has accepted all that is written before.
-/
inductive Moment.Refuses (full : String → Nat → Bool) : Moment → Nat → Sink → Prop where
  | text {fuel : Nat} {arguments : List Value} {line : Nat} {m : Machine} :
      (m.sink.capped full).refuses (arguments.headD .nil).display = true →
      Refuses full ⟨fuel + 1, .call (.native .print) arguments line, m⟩ line m.sink
  | lineBreak {fuel : Nat} {arguments : List Value} {line : Nat} {m : Machine} :
      (m.sink.capped full).refuses (arguments.headD .nil).display = false →
      ((m.sink.append (arguments.headD .nil).display).capped full).refuses "\n" = true →
      Refuses full ⟨fuel + 1, .call (.native .print) arguments line, m⟩ line
        (m.sink.append (arguments.headD .nil).display)

/-- The moment writes where the bound is reached. -/
def Moment.WritesPast (full : String → Nat → Bool) (x : Moment) : Prop :=
  ∃ line sink, x.Refuses full line sink

/-! ### One run on two sinks -/

variable {full : String → Nat → Bool} {rules : Rules} {α β : Type}

/--
The course and the result on a sink that accepts everything, and those with the bound:
they are the same, or they are so up to the first write past the bound.
-/
inductive Cut (full : String → Nat → Bool) (course course' : List Moment)
    (result result' : EStateM.Result Interrupt Machine α) : Prop where
  | same : (∀ x ∈ course, ¬ x.WritesPast full) → course' = course.map (Moment.capped full) →
      result' = mapMachine (Machine.capped full) result → Cut full course course' result result'
  | refused {before after : List Moment} {x : Moment} {line : Nat} {sink : Sink} {m : Machine} :
      course = before ++ x :: after → (∀ y ∈ before, ¬ y.WritesPast full) →
      x.Refuses full line sink → sink.Grows (endOf result).sink →
      course' = (before ++ [x]).map (Moment.capped full) →
      result' = .error (.error ⟨.outputRefused, line⟩) m → m.sink = sink.capped full →
      Cut full course course' result result'

/-- The computation with these parts, and with those on the bounded sink, is cut like this. -/
structure Cuts (full : String → Nat → Bool) (rules : Rules) (m : Machine)
    (parts parts' : List Moment) (p : Exec α) : Prop where
  grows : m.sink.Grows (endOf (p m)).sink
  cut : Cut full (parts.flatMap (Moment.course rules)) (parts'.flatMap (Moment.course rules))
    (p m) (p (m.capped full))

variable {m : Machine} {parts parts' : List Moment} {x x' : Moment}

namespace Cuts

/-- A step that ignores the sink has no parts. -/
theorem step {p : Exec α} (h : IgnoresSink p) (m : Machine) : Cuts full rules m [] [] p := by
  have hsink := h.sink_eq m
  refine ⟨?_, .same (List.forall_mem_nil _) rfl ?_⟩
  · rw [hsink]
    exact .refl _
  · rw [Machine.capped, h]
    cases hrun : p m with
    | ok a m' =>
      rw [hrun] at hsink
      simp only [mapMachine, Machine.capped, ← hsink, endOf]
    | error e m' =>
      rw [hrun] at hsink
      simp only [mapMachine, Machine.capped, ← hsink, endOf]

/-- One computation goes on where the other has ended. -/
theorem bind {p : Exec α} {k : α → Exec β} {rest : α → Machine → List Moment}
    (hm : m.sink.AcceptsAll) (hp : Cuts full rules m parts parts' p)
    (hk : ∀ a m', m'.sink.AcceptsAll →
      Cuts full rules m' (rest a m') (rest a (m'.capped full)) (k a)) :
    Cuts full rules m (parts ++ behind p rest m) (parts' ++ behind p rest (m.capped full))
      (p >>= k) := by
  -- The sink only grows, so with all accepted before, all is accepted up to the end.
  obtain ⟨hgrows, hcut⟩ := hp
  have hgrows' : (endOf (p m)).sink.Grows (endOf ((p >>= k) m)).sink := by
    cases hrun : p m with
    | ok a m' =>
      rw [hrun] at hgrows
      rw [bind_of_ok hrun]
      exact (hk a m' (hgrows.acceptsAll hm)).grows
    | error e m' =>
      rw [bind_of_error hrun]
      exact .refl _
  -- The first computation either runs the same on both sides or ends at the refused write.
  refine ⟨hgrows.trans hgrows', ?_⟩
  rw [List.flatMap_append, List.flatMap_append]
  cases hcut with
  -- It ran the same, so the continuation starts from machines that differ in the sink alone.
  | same hfree hcourse hresult =>
    cases hrun : p m with
    | error e m' =>
      rw [hrun] at hresult
      rw [bind_of_error hrun, bind_of_error hresult, behind_of_error hrun, behind_of_error hresult,
        List.flatMap_nil, List.append_nil, List.append_nil]
      exact .same hfree hcourse rfl
    | ok a m' =>
      rw [hrun] at hresult hgrows
      rw [bind_of_ok hrun, bind_of_ok hresult, behind_of_ok hrun, behind_of_ok hresult, hcourse]
      cases (hk a m' (hgrows.acceptsAll hm)).cut with
      -- The continuation ran the same as well: both courses are put behind each other.
      | same hfree' hcourse' hresult' =>
        refine .same ?_ ?_ hresult'
        · intro x hx
          rcases List.mem_append.mp hx with hx | hx
          · exact hfree x hx
          · exact hfree' x hx
        · rw [hcourse', List.map_append]
      -- The refused write is in the continuation, behind all of the first course.
      | @refused before after x line sink m'' hsplit hfree' hrefuses hleft hcourse' hresult'
          hsink =>
        have hsplit' : parts.flatMap (Moment.course rules) ++
            (rest a m').flatMap (Moment.course rules) =
            (parts.flatMap (Moment.course rules) ++ before) ++ x :: after := by
          rw [hsplit, List.append_assoc]
        refine .refused hsplit' ?_ hrefuses hleft ?_ hresult' hsink
        · intro y hy
          rcases List.mem_append.mp hy with hy | hy
          · exact hfree y hy
          · exact hfree' y hy
        · rw [hcourse', List.append_assoc, ← List.map_append]
  -- The refused write is in the first computation, and the continuation is not reached.
  | refused hsplit hfree hrefuses hleft hcourse hresult hsink =>
    rw [bind_of_error hresult, behind_of_error hresult, List.flatMap_nil, List.append_nil, hsplit,
      List.append_assoc, List.cons_append]
    exact .refused rfl hfree hrefuses (hleft.trans hgrows') hcourse rfl hsink

/-- A first part is followed by others. -/
theorem first {p : Exec α} {k : α → Exec β} {rest : α → Machine → List Moment}
    (hm : m.sink.AcceptsAll) (hp : Cuts full rules m [x] [x'] p)
    (hk : ∀ a m', m'.sink.AcceptsAll →
      Cuts full rules m' (rest a m') (rest a (m'.capped full)) (k a)) :
    Cuts full rules m (x :: behind p rest m) (x' :: behind p rest (m.capped full)) (p >>= k) :=
  bind hm hp hk

/-- A computation that is no task is followed by the parts. -/
theorem after {p : Exec α} {k : α → Exec β} {rest : α → Machine → List Moment}
    (hm : m.sink.AcceptsAll) (hp : IgnoresSink p)
    (hk : ∀ a m', m'.sink.AcceptsAll →
      Cuts full rules m' (rest a m') (rest a (m'.capped full)) (k a)) :
    Cuts full rules m (behind p rest m) (behind p rest (m.capped full)) (p >>= k) :=
  bind hm (step hp m) hk

/-- The last part is followed by a computation that is no task. -/
theorem last {p : Exec α} {k : α → Exec β} (hm : m.sink.AcceptsAll)
    (hp : Cuts full rules m parts parts' p) (hk : ∀ a, IgnoresSink (k a)) :
    Cuts full rules m parts parts' (p >>= k) := by
  have hnothing : ∀ m, behind p (fun _ _ => []) m = [] := by
    intro m
    unfold behind
    split <;> rfl
  have hboth : Cuts full rules m (parts ++ behind p (fun _ _ => []) m)
      (parts' ++ behind p (fun _ _ => []) (m.capped full)) (p >>= k) :=
    bind hm hp fun a m' _ => step (hk a) m'
  rwa [hnothing, hnothing, List.append_nil, List.append_nil] at hboth

/-! ### Other surroundings -/

/-- What is put back in the machine has nothing to do with its sink. -/
theorem inside {p q : Exec α} (inner : Machine) (f : Machine → Machine)
    (hsink : inner.sink = m.sink) (hq : q m = mapMachine f (p inner))
    (hq' : q (m.capped full) = mapMachine f (p (inner.capped full)))
    (hf : ∀ m, (f m).sink = m.sink) (hcapped : ∀ m, f (m.capped full) = (f m).capped full)
    (hp : Cuts full rules inner parts parts' p) : Cuts full rules m parts parts' q := by
  obtain ⟨hgrows, hcut⟩ := hp
  have hend : (endOf (mapMachine f (p inner))).sink = (endOf (p inner)).sink := by
    cases p inner <;> exact hf _
  refine ⟨?_, ?_⟩
  · rw [hq, hend, ← hsink]
    exact hgrows
  · rw [hq, hq']
    cases hcut with
    | same hfree hcourse hresult =>
      refine .same hfree hcourse ?_
      rw [hresult]
      cases p inner <;> simp only [mapMachine, hcapped]
    | @refused before after x line sink m' hsplit hfree hrefuses hleft hcourse hresult hback =>
      rw [hresult]
      refine .refused hsplit hfree hrefuses ?_ hcourse rfl ((hf m').trans hback)
      rw [hend]
      exact hleft

theorem inFrame {p : Exec α} {frame : FrameId}
    (hp : Cuts full rules { m with current := frame } parts parts' p) :
    Cuts full rules m parts parts' (Exec.inFrame frame p) := by
  have hq : ∀ m : Machine, Exec.inFrame frame p m =
      mapMachine (fun m' => { m' with current := m.current }) (p { m with current := frame }) := by
    intro m
    unfold Exec.inFrame
    cases p { m with current := frame } <;> rfl
  exact inside { m with current := frame } (fun m' => { m' with current := m.current }) rfl
    (hq m) (hq (m.capped full)) (fun _ => rfl) (fun _ => rfl) hp

theorem asCall {p : Exec α} (hp : Cuts full rules { m with depth := m.depth + 1 } parts parts' p) :
    Cuts full rules m parts parts' (Exec.asCall p) := by
  have hq : ∀ m : Machine, Exec.asCall p m =
      mapMachine (fun m' => { m' with depth := m'.depth - 1 })
        (p { m with depth := m.depth + 1 }) := by
    intro m
    unfold Exec.asCall
    cases p { m with depth := m.depth + 1 } <;> rfl
  exact inside { m with depth := m.depth + 1 } (fun m' => { m' with depth := m'.depth - 1 }) rfl
    (hq m) (hq (m.capped full)) (fun _ => rfl) (fun _ => rfl) hp

/-! ### Tasks -/

/-- A task that is no refused call is cut like its parts. -/
theorem task {fuel : Nat} {t : Task} {p : Exec α} (hx : ¬ Moment.WritesPast full ⟨fuel, t, m⟩)
    (hp : Cuts full rules m (Moment.parts rules ⟨fuel, t, m⟩)
      (Moment.parts rules ⟨fuel, t, m.capped full⟩) p) :
    Cuts full rules m [⟨fuel, t, m⟩] [⟨fuel, t, m.capped full⟩] p := by
  obtain ⟨hgrows, hcut⟩ := hp
  refine ⟨hgrows, ?_⟩
  rw [List.flatMap_singleton, List.flatMap_singleton, Moment.course_eq, Moment.course_eq]
  cases hcut with
  | same hfree hcourse hresult =>
    refine .same (List.forall_mem_cons.mpr ⟨hx, hfree⟩) ?_ hresult
    rw [hcourse, List.map_cons]
    rfl
  | refused hsplit hfree hrefuses hleft hcourse hresult hsink =>
    rw [hsplit, ← List.cons_append]
    refine .refused rfl (List.forall_mem_cons.mpr ⟨hx, hfree⟩) hrefuses hleft ?_ hresult hsink
    rw [hcourse, List.cons_append, List.map_cons]
    rfl

end Cuts

/-- A write on a machine whose sink refuses it, or accepts it. -/
theorem Exec.write_eq (text : String) (line : Nat) (m : Machine) :
    write text line m =
      if m.sink.refuses text then .error (.error ⟨.outputRefused, line⟩) m
      else .ok () (m.withSink (m.sink.append text)) := by
  have hget : (MonadState.get : Exec Machine) m = .ok m m := rfl
  unfold write
  rw [bind_of_ok hget]
  split <;> rfl

/-- Printing writes a text and then a line break. -/
theorem Exec.print_eq (rules : Rules) (arguments : List Value) (line : Nat) (m : Machine) :
    callNative rules .print arguments line m =
      let text := (arguments.headD .nil).display
      if m.sink.refuses text then .error (.error ⟨.outputRefused, line⟩) m
      else if (m.sink.append text).refuses "\n" then
        .error (.error ⟨.outputRefused, line⟩) (m.withSink (m.sink.append text))
      else .ok .nil (m.withSink ((m.sink.append text).append "\n")) := by
  have hwrite := write_eq (arguments.headD .nil).display line m
  simp only [callNative]
  by_cases hfirst : m.sink.refuses (arguments.headD .nil).display = true
  · rw [if_pos hfirst] at hwrite ⊢
    rw [bind_of_error hwrite]
  · rw [if_neg hfirst] at hwrite ⊢
    rw [bind_of_ok hwrite]
    have hbreak := write_eq "\n" line (m.withSink (m.sink.append (arguments.headD .nil).display))
    change _ = if (m.sink.append (arguments.headD .nil).display).refuses "\n" then _ else _
      at hbreak
    by_cases hsecond : (m.sink.append (arguments.headD .nil).display).refuses "\n" = true
    · rw [if_pos hsecond] at hbreak ⊢
      rw [bind_of_error hbreak]
    · rw [if_neg hsecond] at hbreak ⊢
      rw [bind_of_ok hbreak]
      rfl

/-- A call of `print` is refused where the bound is reached, and else does the same. -/
theorem Cuts.print (hm : m.sink.AcceptsAll) (fuel : Nat) (arguments : List Value) (line : Nat) :
    Cuts full rules m [⟨fuel + 1, .call (.native .print) arguments line, m⟩]
      [⟨fuel + 1, .call (.native .print) arguments line, m.capped full⟩]
      (callNative rules .print arguments line) := by
  let text := (arguments.headD .nil).display
  have htext : m.sink.Grows (m.sink.append text) := .append _ _
  have hbreak : (m.sink.append text).Grows ((m.sink.append text).append "\n") := .append _ _
  have hall : callNative rules .print arguments line m =
      .ok .nil (m.withSink ((m.sink.append text).append "\n")) := by
    rw [print_eq]
    simp only [hm.refuses, (htext.acceptsAll hm).refuses, Bool.false_eq_true, if_false, text]
  have hgrows : m.sink.Grows (endOf (callNative rules .print arguments line m)).sink := by
    rw [hall]
    exact htext.trans hbreak
  refine ⟨hgrows, ?_⟩
  rw [List.flatMap_singleton, List.flatMap_singleton, Moment.course_eq, Moment.course_eq]
  -- The text is refused.
  by_cases hfirst : (m.sink.capped full).refuses text = true
  · have hrun : callNative rules .print arguments line (m.capped full) =
        .error (.error ⟨.outputRefused, line⟩) (m.capped full) :=
      (print_eq rules arguments line _).trans (if_pos hfirst)
    exact .refused rfl (List.forall_mem_nil _) (.text hfirst) hgrows rfl hrun rfl
  -- The line break behind the text is refused.
  by_cases hsecond : ((m.sink.append text).capped full).refuses "\n" = true
  · have hrun : callNative rules .print arguments line (m.capped full) =
        .error (.error ⟨.outputRefused, line⟩) ((m.withSink (m.sink.append text)).capped full) :=
      (print_eq rules arguments line _).trans ((if_neg hfirst).trans (if_pos hsecond))
    refine .refused rfl (List.forall_mem_nil _)
      (.lineBreak (Bool.eq_false_iff.mpr hfirst) hsecond) ?_ rfl hrun rfl
    rw [hall]
    exact hbreak
  · -- Nothing is refused, and both sinks take the same two writes.
    have hrun : callNative rules .print arguments line (m.capped full) =
        mapMachine (Machine.capped full) (callNative rules .print arguments line m) := by
      rw [hall]
      exact (print_eq rules arguments line _).trans ((if_neg hfirst).trans (if_neg hsecond))
    refine .same ?_ rfl hrun
    rintro x hx ⟨_, _, hrefuses⟩
    cases List.mem_singleton.mp hx
    cases hrefuses with
    | text h => exact hfirst h
    | lineBreak _ h => exact hsecond h

/-! ### Whole executions -/

/-- What is said of tasks, with a bound on the depth of their recursion. -/
structure CutsAt (full : String → Nat → Bool) (rules : Rules) (fuel : Nat) : Prop where
  evaluate {m : Machine} (hm : m.sink.AcceptsAll) (e : Expr) :
    Cuts full rules m [⟨fuel, .evaluate e, m⟩] [⟨fuel, .evaluate e, m.capped full⟩]
      (evaluate rules fuel e)
  evaluateEach {m : Machine} (hm : m.sink.AcceptsAll) (es : List Expr) :
    Cuts full rules m [⟨fuel, .evaluateEach es, m⟩] [⟨fuel, .evaluateEach es, m.capped full⟩]
      (evaluateEach rules fuel es)
  call {m : Machine} (hm : m.sink.AcceptsAll) (callee : Value) (arguments : List Value)
    (line : Nat) :
    Cuts full rules m [⟨fuel, .call callee arguments line, m⟩]
      [⟨fuel, .call callee arguments line, m.capped full⟩] (call rules fuel callee arguments line)
  callFunction {m : Machine} (hm : m.sink.AcceptsAll) (f : Function) (arguments : List Value)
    (line : Nat) :
    Cuts full rules m [⟨fuel, .callFunction f arguments line, m⟩]
      [⟨fuel, .callFunction f arguments line, m.capped full⟩]
      (callFunction rules fuel f arguments line)
  execute {m : Machine} (hm : m.sink.AcceptsAll) (s : Stmt) :
    Cuts full rules m [⟨fuel, .execute s, m⟩] [⟨fuel, .execute s, m.capped full⟩]
      (execute rules fuel s)
  executeEach {m : Machine} (hm : m.sink.AcceptsAll) (ss : List Stmt) :
    Cuts full rules m [⟨fuel, .executeEach ss, m⟩] [⟨fuel, .executeEach ss, m.capped full⟩]
      (executeEach rules fuel ss)
  iterate {m : Machine} (hm : m.sink.AcceptsAll) (condition : Expr) (body : Stmt)
    (increment : Option Expr) :
    Cuts full rules m [⟨fuel, .iterate condition body increment, m⟩]
      [⟨fuel, .iterate condition body increment, m.capped full⟩]
      (iterate rules fuel condition body increment)

namespace CutsAt

variable {fuel : Nat}

theorem zero (full : String → Nat → Bool) (rules : Rules) : CutsAt full rules 0 where
  evaluate {m} _ _ := by
    rw [Exec.evaluate]
    exact .task (by rintro ⟨_, _, ⟨⟩⟩) (.step .outOfFuel m)
  evaluateEach {m} _ _ := by
    rw [Exec.evaluateEach]
    exact .task (by rintro ⟨_, _, ⟨⟩⟩) (.step .outOfFuel m)
  call {m} _ _ _ _ := by
    rw [Exec.call]
    exact .task (by rintro ⟨_, _, ⟨⟩⟩) (.step .outOfFuel m)
  callFunction {m} _ _ _ _ := by
    rw [Exec.callFunction]
    exact .task (by rintro ⟨_, _, ⟨⟩⟩) (.step .outOfFuel m)
  execute {m} _ _ := by
    rw [Exec.execute]
    exact .task (by rintro ⟨_, _, ⟨⟩⟩) (.step .outOfFuel m)
  executeEach {m} _ _ := by
    rw [Exec.executeEach]
    exact .task (by rintro ⟨_, _, ⟨⟩⟩) (.step .outOfFuel m)
  iterate {m} _ _ _ _ := by
    rw [Exec.iterate]
    exact .task (by rintro ⟨_, _, ⟨⟩⟩) (.step .outOfFuel m)

theorem evaluate_succ (h : CutsAt full rules fuel) (hm : m.sink.AcceptsAll) (e : Expr) :
    Cuts full rules m [⟨fuel + 1, .evaluate e, m⟩] [⟨fuel + 1, .evaluate e, m.capped full⟩]
      (Exec.evaluate rules (fuel + 1) e) := by
  refine .task (by rintro ⟨_, _, ⟨⟩⟩) ?_
  rw [Exec.evaluate.eq_def]
  cases e with
  | literal value => exact .step (.pure _) m
  | group inner => exact h.evaluate hm inner
  -- Behind its parts an expression does not look at the sink.
  | unary operator operand => exact .last hm (h.evaluate hm operand) fun _ => .lift _
  | binary left operator right =>
    refine .first hm (h.evaluate hm left) fun _ m₁ h₁ => ?_
    exact .last h₁ (h.evaluate h₁ right) fun _ => .lift _
  | logical left operator right =>
    refine .first hm (h.evaluate hm left) fun value m₁ h₁ => ?_
    split
    · exact .step (.pure _) m₁
    · exact h.evaluate h₁ right
  | read place => exact .step (.readVariable rules place) m
  | this place => exact .step (.readResolved place) m
  | super place method => exact .step (.getSuper place method) m
  | assign place value =>
    exact .last hm (h.evaluate hm value) fun result =>
      (IgnoresSink.assignVariable rules place result).bind fun _ => .pure _
  | call callee paren arguments =>
    refine .first hm (h.evaluate hm callee) fun value m₁ h₁ => ?_
    refine .first h₁ (h.evaluateEach h₁ arguments) fun values m₂ h₂ => ?_
    refine .after h₂ (.checkCall rules _ _ _) fun _ m₃ h₃ => ?_
    -- The counter of the calls leaves the sink as it is.
    have hinner : ({ m₃ with depth := m₃.depth + 1 } : Machine).sink.AcceptsAll := h₃
    exact .asCall (h.call hinner value values paren.line)
  | get object name =>
    refine .last hm (h.evaluate hm object) fun value => ?_
    cases value with
    | object owner => exact .getProperty owner name
    | _ => exact .fail _ _
  | set object name value =>
    refine .first hm (h.evaluate hm object) fun found m₁ h₁ => ?_
    cases found with
    | object owner =>
      exact .last h₁ (h.evaluate h₁ value) fun result =>
        (IgnoresSink.setField owner name.lexeme result).bind fun _ => .pure _
    | _ => exact .step (.fail _ _) m₁

theorem evaluateEach_succ (h : CutsAt full rules fuel) (hm : m.sink.AcceptsAll)
    (es : List Expr) :
    Cuts full rules m [⟨fuel + 1, .evaluateEach es, m⟩]
      [⟨fuel + 1, .evaluateEach es, m.capped full⟩] (Exec.evaluateEach rules (fuel + 1) es) := by
  refine .task (by rintro ⟨_, _, ⟨⟩⟩) ?_
  rw [Exec.evaluateEach.eq_def]
  cases es with
  | nil => exact .step (.pure _) m
  | cons e rest =>
    refine .first hm (h.evaluate hm e) fun value m₁ h₁ => ?_
    exact .last h₁ (h.evaluateEach h₁ rest) fun _ => .pure _

theorem call_succ (h : CutsAt full rules fuel) (hm : m.sink.AcceptsAll) (callee : Value)
    (arguments : List Value) (line : Nat) :
    Cuts full rules m [⟨fuel + 1, .call callee arguments line, m⟩]
      [⟨fuel + 1, .call callee arguments line, m.capped full⟩]
      (Exec.call rules (fuel + 1) callee arguments line) := by
  rw [Exec.call.eq_def]
  cases callee with
  | native native =>
    cases native with
    | print => exact .print hm fuel arguments line
    | clock =>
      refine .task (by rintro ⟨_, _, ⟨⟩⟩) (.step ?_ m)
      exact (IgnoresSink.readClock rules).bind fun _ => .pure _
  | function f =>
    exact .task (by rintro ⟨_, _, ⟨⟩⟩) (h.callFunction hm f arguments line)
  | «class» c =>
    refine .task (by rintro ⟨_, _, ⟨⟩⟩) ?_
    rw [Moment.parts_class, Moment.parts_class]
    refine .after hm (.newInstance c) fun owner m₁ h₁ => ?_
    cases c.initializer? with
    | none => exact .step (.pure _) m₁
    | some method =>
      refine .after h₁ (.bindMethod method owner) fun f m₂ h₂ => ?_
      exact .last h₂ (h.callFunction h₂ f arguments line) fun _ => .pure _
  | _ => exact .task (by rintro ⟨_, _, ⟨⟩⟩) (.step (.fail _ _) m)

theorem callFunction_succ (h : CutsAt full rules fuel) (hm : m.sink.AcceptsAll) (f : Function)
    (arguments : List Value) (line : Nat) :
    Cuts full rules m [⟨fuel + 1, .callFunction f arguments line, m⟩]
      [⟨fuel + 1, .callFunction f arguments line, m.capped full⟩]
      (Exec.callFunction rules (fuel + 1) f arguments line) := by
  refine .task (by rintro ⟨_, _, ⟨⟩⟩) ?_
  rw [Exec.callFunction.eq_def]
  refine .after hm (.bindArguments f arguments) fun frame m₁ h₁ => ?_
  have hinner : ({ m₁ with current := frame } : Machine).sink.AcceptsAll := h₁
  exact .last h₁ (.inFrame (h.executeEach hinner f.declaration.body)) fun flow =>
    .callResult f flow line

theorem execute_succ (h : CutsAt full rules fuel) (hm : m.sink.AcceptsAll) (s : Stmt) :
    Cuts full rules m [⟨fuel + 1, .execute s, m⟩] [⟨fuel + 1, .execute s, m.capped full⟩]
      (Exec.execute rules (fuel + 1) s) := by
  refine .task (by rintro ⟨_, _, ⟨⟩⟩) ?_
  rw [Exec.execute.eq_def]
  cases s with
  | expression value => exact .last hm (h.evaluate hm value) fun _ => .pure _
  | var name value =>
    cases value with
    | none => exact .step ((IgnoresSink.define _ _).bind fun _ => .pure _) m
    | some value =>
      exact .last hm (h.evaluate hm value) fun _ => (IgnoresSink.define _ _).bind fun _ => .pure _
  | block body =>
    rw [Moment.parts_block, Moment.parts_block]
    refine .after hm .newInnerFrame fun frame m₁ h₁ => ?_
    -- Entering a frame leaves the sink as it is.
    have hinner : ({ m₁ with current := frame } : Machine).sink.AcceptsAll := h₁
    exact .inFrame (h.executeEach hinner body)
  | conditional condition thenBranch elseBranch =>
    refine .first hm (h.evaluate hm condition) fun value m₁ h₁ => ?_
    split
    · exact h.execute h₁ thenBranch
    · cases elseBranch with
      | none => exact .step (.pure _) m₁
      | some branch => exact h.execute h₁ branch
  | loop condition body increment => exact h.iterate hm condition body increment
  | function d =>
    -- A declaration writes nothing to the sink.
    refine .step (.get_bind (fun m => ?_) fun _ _ => rfl) m
    exact (IgnoresSink.newFunction d m.current false).bind fun f =>
      (IgnoresSink.define d.name.lexeme (.function f)).bind fun _ => .pure _
  | returning keyword value =>
    cases value with
    | none => exact .step (.pure _) m
    | some value => exact .last hm (h.evaluate hm value) fun _ => .pure _
  | breaking keyword => exact .step (.pure _) m
  | continuing keyword => exact .step (.pure _) m
  | «class» name superclass methods =>
    exact .step ((IgnoresSink.declareClass rules name superclass methods).bind fun _ => .pure _) m

theorem executeEach_succ (h : CutsAt full rules fuel) (hm : m.sink.AcceptsAll)
    (ss : List Stmt) :
    Cuts full rules m [⟨fuel + 1, .executeEach ss, m⟩]
      [⟨fuel + 1, .executeEach ss, m.capped full⟩] (Exec.executeEach rules (fuel + 1) ss) := by
  refine .task (by rintro ⟨_, _, ⟨⟩⟩) ?_
  rw [Exec.executeEach.eq_def]
  cases ss with
  | nil => exact .step (.pure _) m
  | cons s rest =>
    refine .first hm (h.execute hm s) fun flow m₁ h₁ => ?_
    cases flow with
    | normal => exact h.executeEach h₁ rest
    | _ => exact .step (.pure _) m₁

theorem nextTurn (h : CutsAt full rules fuel) (hm : m.sink.AcceptsAll) (condition : Expr)
    (body : Stmt) (increment : Option Expr) :
    Cuts full rules m (Moment.partsOfTurn rules fuel condition body m increment)
      (Moment.partsOfTurn rules fuel condition body (m.capped full) increment)
      (Exec.nextTurn rules fuel condition body increment) := by
  cases increment with
  | none => exact h.iterate hm condition body none
  | some step =>
    refine .first hm (h.evaluate hm step) fun _ m₁ h₁ => ?_
    exact h.iterate h₁ condition body (some step)

theorem iterate_succ (h : CutsAt full rules fuel) (hm : m.sink.AcceptsAll) (condition : Expr)
    (body : Stmt) (increment : Option Expr) :
    Cuts full rules m [⟨fuel + 1, .iterate condition body increment, m⟩]
      [⟨fuel + 1, .iterate condition body increment, m.capped full⟩]
      (Exec.iterate rules (fuel + 1) condition body increment) := by
  refine .task (by rintro ⟨_, _, ⟨⟩⟩) ?_
  rw [Exec.iterate_succ]
  refine .first hm (h.evaluate hm condition) fun value m₁ h₁ => ?_
  split
  · refine .first h₁ (h.execute h₁ body) fun flow m₂ h₂ => ?_
    cases flow with
    | normal => exact h.nextTurn h₂ condition body increment
    | continuing => exact h.nextTurn h₂ condition body increment
    | breaking => exact .step (.pure _) m₂
    | returning value => exact .step (.pure _) m₂
  · exact .step (.pure _) m₁

end CutsAt

/-- Every task is cut at the first write past the bound. -/
theorem cutsAt (full : String → Nat → Bool) (rules : Rules) (fuel : Nat) :
    CutsAt full rules fuel := by
  induction fuel with
  | zero => exact .zero full rules
  | succ fuel ih =>
    exact ⟨ih.evaluate_succ, ih.evaluateEach_succ, ih.call_succ, ih.callFunction_succ,
      ih.execute_succ, ih.executeEach_succ, ih.iterate_succ⟩

end Lox
