import BraceScript.Proofs.Grammar.Complete
import BraceScript.Proofs.WellFormed

/-!
# Proofs/Session — the stack over a whole session

A session gives one machine a sequence of inputs, each of which may fail.  Whatever came before, the
machine stands between two inputs with a single frame; every state that an input passes on the way,
also inside nested calls, has a well-formed stack; and an input that cannot be read changes nothing.
-/

namespace BraceScript

/-- A source given to a session, what it is, and the bound for running it. -/
structure Input where
  step : Step
  source : String
  fuel : Nat

namespace Input

/-- Reads and runs an input. -/
def run (i : Input) : Eval (Option Value) := i.step.run i.fuel i.source

end Input

/-- The machine after a sequence of inputs, whether they succeed or fail. -/
def session (limit : Option Nat) (inputs : List Input) : Machine :=
  inputs.foldl (fun m i => (i.run.run m).2) (.fresh limit)

/-- **`m'` is passed while an input is read and run on `m`.** -/
inductive Input.Passes : Input → Machine → Machine → Prop
  | start (i : Input) (m : Machine) : Passes i m m
  | finish (i : Input) (m : Machine) : Passes i m (i.run.run m).2
  /-- The whole source was read as a program, whose name is bound before its body runs. -/
  | whole {source : String} {fuel : Nat} {p : Program} {m m₁ m' : Machine} :
    (Eval.ofRule Rule.wholeProgram source).run (m.emit (.opened source.utf8ByteSize)) =
        (.ok p, m₁) →
      BraceScript.Passes fuel (.block p.body)
        ((m₁.emit (.parsed p.name.text)).bind p.name.text (.program p.name.text)) m' →
      Passes ⟨.whole, source, fuel⟩ m m'
  | program {source : String} {fuel : Nat} {p : Program} {m m₁ m' : Machine} :
    (Eval.ofRule Rule.program source).run m = (.ok p, m₁) →
      BraceScript.Passes fuel (.block p.body) (m₁.bind p.name.text (.program p.name.text)) m' →
      Passes ⟨.program, source, fuel⟩ m m'
  | block {source : String} {fuel : Nat} {b : Block} {m m₁ m' : Machine} :
    (Eval.ofRule Rule.block source).run m = (.ok b, m₁) →
      BraceScript.Passes fuel (.block b) m₁ m' → Passes ⟨.block, source, fuel⟩ m m'
  | statement {source : String} {fuel : Nat} {s : Statement} {m m₁ m' : Machine} :
    (Eval.ofRule Rule.statement source).run m = (.ok s, m₁) →
      BraceScript.Passes fuel (.statement s) m₁ m' → Passes ⟨.statement, source, fuel⟩ m m'
  | call {source : String} {fuel : Nat} {c : Call} {m m₁ m' : Machine} :
    (Eval.ofRule Rule.call source).run m = (.ok c, m₁) →
      BraceScript.Passes fuel (.call c) m₁ m' → Passes ⟨.call, source, fuel⟩ m m'
  | expression {source : String} {fuel : Nat} {e : Expr} {m m₁ m' : Machine} :
    (Eval.ofRule Rule.comparison source).run m = (.ok e, m₁) →
      BraceScript.Passes fuel (.expr e) m₁ m' → Passes ⟨.expression, source, fuel⟩ m m'

namespace Eval

/-! ## Reading -/

/-- Recording an event cannot fail. -/
theorem run_emit (e : Event) (m : Machine) : (emit e).run m = (.ok (), m.emit e) := rfl

/-- Reading a source gives what the rule gives, and touches the record of events only. -/
theorem ofRule_run {α : Type} (rule : Rule α) (source : String) (m : Machine) :
    ∃ events, (ofRule rule source).run m =
      ((rule.parse source).1.mapError .syntaxError, { m with events := events }) := by
  simp only [ofRule, Action.run]
  rcases rule.parse source with ⟨_ | _, feed⟩ <;> exact ⟨_, rfl⟩

/-- Reading touches neither the frames nor what was printed. -/
theorem ofRule_unchanged {α : Type} (rule : Rule α) (source : String) (m : Machine) :
    ((ofRule rule source).run m).2.stack = m.stack ∧
      ((ofRule rule source).run m).2.sink = m.sink := by
  obtain ⟨events, hrun⟩ := ofRule_run rule source m
  rw [hrun]
  exact ⟨rfl, rfl⟩

theorem extendsStack_ofRule {α : Type} (rule : Rule α) (source : String) :
    ExtendsStack (ofRule rule source) := fun m => .of_eq (ofRule_unchanged rule source m).1

theorem extendsStack_emit (e : Event) : ExtendsStack (emit e) := fun m => .refl m.stack

/-- A program binds its name and runs its body in the frame that is there. -/
theorem extendsStack_run (fuel : Nat) (p : Program) : ExtendsStack (p.run fuel) :=
  Discipline.stack.stmt_bind (Discipline.stack.stmt_bindName _ _) fun _ =>
    Discipline.stack.stmt_bind (Discipline.stack.stmt_discard (Discipline.stack.run fuel p.body))
      fun _ m => .refl m.stack

/-- **A source that is read as a program is run as that program**; reading it leaves events only. -/
theorem interpret_of_parse {source : String} {p : Program}
    (h : (Rule.wholeProgram.parse source).1 = .ok p) (fuel : Nat) (limit : Option Nat) :
    ∃ events, (interpret fuel source).run (.fresh limit) =
      (p.run fuel).run { Machine.fresh limit with events := events } := by
  obtain ⟨events, hread⟩ :=
    ofRule_run Rule.wholeProgram source ((Machine.fresh limit).emit (.opened source.utf8ByteSize))
  rw [h] at hread
  rw [interpret, Action.run_bind_of_ok (run_emit _ _), Action.run_bind_of_ok hread,
    Action.run_bind_of_ok (run_emit _ _)]
  exact ⟨_, rfl⟩

/-! ## Failing to read

A syntax error comes from reading; running never makes one. -/

/-- The computations that fail with no syntax error. -/
def AfterReading {α : Type} (x : Eval α) : Prop :=
  ∀ (m : Machine) (e : SyntaxError), (x.run m).1 ≠ .error (.syntaxError e)

/-- A sequence makes no syntax error if neither part makes one. -/
theorem AfterReading.bind {α β : Type} {x : Eval α} {f : α → Eval β} (hx : AfterReading x)
    (hf : ∀ a, AfterReading (f a)) : AfterReading (x >>= f) := by
  intro m e h
  rcases hrun : (x >>= f).run m with ⟨r, m'⟩
  rw [hrun] at h
  obtain rfl : r = .error (.syntaxError e) := h
  obtain hx' | ⟨a, m₁, -, hf'⟩ := Action.run_bind_eq_error hrun
  · exact hx m e (congrArg Prod.fst hx')
  · exact hf a m₁ e (congrArg Prod.fst hf')

theorem afterReading_pure {α : Type} (a : α) : AfterReading (pure a : Eval α) := by
  intro m e h
  rw [Action.run_pure] at h
  cases h

theorem afterReading_modify (f : Machine → Machine) : AfterReading (modify f : Eval Unit) := by
  intro m e h
  rw [Action.run_modify] at h
  cases h

theorem afterReading_get : AfterReading (get : Eval Machine) := by
  intro m e h
  rw [Action.run_get] at h
  cases h

theorem afterReading_fail {α : Type} (e : RuntimeError) :
    AfterReading (throw (.runtimeError e) : Eval α) := by
  intro m e' h
  rw [Action.run_throw] at h
  cases h

theorem afterReading_outOfFuel {α : Type} : AfterReading (throw .outOfFuel : Eval α) := by
  intro m e h
  rw [Action.run_throw] at h
  cases h

theorem afterReading_resolve (name : Name) : AfterReading (resolve name) := by
  intro m e h
  simp only [resolve, Action.run_bind, Action.run_get] at h
  cases hv : m.stack.lookup? name.text with
  | none => simp only [hv] at h; cases h
  | some v => simp only [hv] at h; cases h

theorem afterReading_callBuiltin (b : Builtin) (args : List Value) (p : Position) :
    AfterReading (callBuiltin b args p) := by
  unfold callBuiltin
  split
  · refine AfterReading.bind (afterReading_modify _) fun _ m e h => ?_
    simp only [applyBuiltin, Action.run] at h
    rcases hb : b.apply args p m.sink with ⟨_ | _, _⟩ <;> simp only [hb] at h <;> cases h
  · exact afterReading_fail _

/-- A call makes no syntax error of its own: its errors are of the run, or come from the body. -/
theorem afterReading_callRoutine (enter : Block → Eval (Option Value))
    (henter : ∀ b, AfterReading (enter b)) (r : Routine) (args : List Value) (p : Position) :
    AfterReading (callRoutine enter r args p) := by
  intro m e h
  obtain ⟨e', he'⟩ | ⟨parent, -, -, hrun⟩ := callRoutine_cases enter r args p m
  · rw [he'] at h
    cases h
  · rw [hrun] at h
    exact henter r.body _ e h

end Eval

/-- **Running makes no syntax errors.** -/
def Discipline.afterReading : Discipline where
  expr := Eval.AfterReading
  stmt := Eval.AfterReading
  expr_pure := Eval.afterReading_pure
  expr_bind := Eval.AfterReading.bind
  expr_fail := Eval.afterReading_fail
  expr_resolve := Eval.afterReading_resolve
  expr_callBuiltin := Eval.afterReading_callBuiltin
  expr_callRoutine := Eval.afterReading_callRoutine
  stmt_of_expr := id
  stmt_bind := Eval.AfterReading.bind
  stmt_outOfFuel := Eval.afterReading_outOfFuel
  stmt_bindName _ _ := Eval.afterReading_modify _

namespace Eval

/-- **A program that was read makes no syntax error when it is run.** -/
theorem afterReading_run (fuel : Nat) (p : Program) : AfterReading (p.run fuel) :=
  AfterReading.bind (afterReading_modify _) fun _ =>
    AfterReading.bind
      (Discipline.afterReading.stmt_discard (Discipline.afterReading.run fuel p.body))
      fun _ => AfterReading.bind afterReading_get fun _ => afterReading_modify _

/-- The computations whose syntax errors leave the stack and the sink as they are. -/
def ReadsFirst {α : Type} (x : Eval α) : Prop :=
  ∀ (m m' : Machine) (e : SyntaxError), x.run m = (.error (.syntaxError e), m') →
    m'.stack = m.stack ∧ m'.sink = m.sink

/-- A syntax error comes out of the reading itself, with the stack and the sink as they were. -/
theorem readsFirst_ofRule {α : Type} (rule : Rule α) (source : String) :
    ReadsFirst (ofRule rule source) := by
  intro m m' e h
  have hsame := ofRule_unchanged rule source m
  rwa [h] at hsame

/-- What runs after the reading adds no syntax errors. -/
theorem ReadsFirst.bind {α β : Type} {x : Eval α} {f : α → Eval β} (hx : ReadsFirst x)
    (hf : ∀ a, AfterReading (f a)) : ReadsFirst (x >>= f) := by
  intro m m' e h
  obtain hx' | ⟨a, m₁, -, hf'⟩ := Action.run_bind_eq_error h
  · exact hx m m' e hx'
  · exact absurd (congrArg Prod.fst hf') (hf a m₁ e)

theorem ReadsFirst.emit {α : Type} {x : Eval α} (hx : ReadsFirst x) (event : Event) :
    ReadsFirst (do emit event; x) := fun m m' e h => hx (m.emit event) m' e h

end Eval

namespace Input

/-- An input extends the stack, like the statements it consists of. -/
theorem run_extends (i : Input) : Eval.ExtendsStack i.run := by
  have hbind {α β : Type} {x : Eval α} {f : α → Eval β} :
      Eval.ExtendsStack x → (∀ a, Eval.ExtendsStack (f a)) → Eval.ExtendsStack (x >>= f) :=
    Discipline.stack.stmt_bind
  have hrun := Discipline.stack.run i.fuel
  rcases i with ⟨step, source, fuel⟩
  cases step with
  | whole =>
    exact hbind (hbind (Eval.extendsStack_emit _) fun _ =>
      hbind (Eval.extendsStack_ofRule _ _) fun p =>
        hbind (Eval.extendsStack_emit _) fun _ => Eval.extendsStack_run fuel p)
      fun _ => Discipline.stack.stmt_pure none
  | program =>
    exact hbind (Eval.extendsStack_ofRule _ _) fun p =>
      hbind (Eval.extendsStack_run fuel p) fun _ => Discipline.stack.stmt_pure none
  | block => exact hbind (Eval.extendsStack_ofRule _ _) hrun
  | statement =>
    exact hbind (Eval.extendsStack_ofRule _ _) fun s => Discipline.stack.exec hrun fuel s
  | call =>
    exact hbind (Eval.extendsStack_ofRule _ _) fun c => Eval.KeepsStack.extends
      (Discipline.stack.call hrun c.callee (Discipline.stack.evalAll hrun c.args))
  | expression =>
    exact hbind (Eval.extendsStack_ofRule _ _) fun e =>
      hbind (Eval.KeepsStack.extends (Discipline.stack.eval hrun e)) fun v =>
        Discipline.stack.stmt_pure (some v)

/-- **An input that cannot be read changes nothing.** -/
theorem run_readsFirst (i : Input) : Eval.ReadsFirst i.run := by
  have hrun := Discipline.afterReading.run i.fuel
  rcases i with ⟨step, source, fuel⟩
  cases step with
  | whole =>
    refine Eval.ReadsFirst.bind (Eval.ReadsFirst.emit ?_ _) fun _ => Eval.afterReading_pure none
    exact (Eval.readsFirst_ofRule _ source).bind fun p =>
      Eval.AfterReading.bind (Eval.afterReading_modify _) fun _ => Eval.afterReading_run fuel p
  | program =>
    exact (Eval.readsFirst_ofRule _ source).bind fun p =>
      (Eval.afterReading_run fuel p).bind fun _ => Eval.afterReading_pure none
  | block => exact (Eval.readsFirst_ofRule _ source).bind hrun
  | statement =>
    exact (Eval.readsFirst_ofRule _ source).bind fun s => Discipline.afterReading.exec hrun fuel s
  | call =>
    exact (Eval.readsFirst_ofRule _ source).bind fun c =>
      Discipline.afterReading.call hrun c.callee (Discipline.afterReading.evalAll hrun c.args)
  | expression =>
    exact (Eval.readsFirst_ofRule _ source).bind fun e =>
      (Discipline.afterReading.expr_bind (Discipline.afterReading.eval hrun e)) fun v =>
        Eval.afterReading_pure (some v)

/-- **Every state that an input passes has a well-formed stack**, if the first one has. -/
theorem Passes.wellFormed {i : Input} {m m' : Machine} (h : i.Passes m m')
    (hm : m.stack.WellFormed) : m'.stack.WellFormed := by
  have hread {α : Type} {rule : Rule α} {source : String} {a : α} {k k₁ : Machine}
      (hk : k.stack.WellFormed) (hrun : (Eval.ofRule rule source).run k = (.ok a, k₁)) :
      k₁.stack.WellFormed := by
    have hsame := (Eval.ofRule_unchanged rule source k).1
    rw [hrun] at hsame
    exact hsame ▸ hk
  cases h with
  | start => exact hm
  | finish => exact hm.of_extends (i.run_extends m)
  | whole hrun hpass =>
    exact hpass.wellFormed ((hread (k := m.emit _) hm hrun).of_extends (.bind _ _ _))
  | program hrun hpass => exact hpass.wellFormed ((hread hm hrun).of_extends (.bind _ _ _))
  | block hrun hpass => exact hpass.wellFormed (hread hm hrun)
  | statement hrun hpass => exact hpass.wellFormed (hread hm hrun)
  | call hrun hpass => exact hpass.wellFormed (hread hm hrun)
  | expression hrun hpass => exact hpass.wellFormed (hread hm hrun)

end Input

/-- A session only ever extends the stack it starts with. -/
theorem session_extends (limit : Option Nat) (inputs : List Input) :
    Stack.Extends Stack.initial (session limit inputs).stack := by
  have hfold : ∀ (is : List Input) (m : Machine),
      Stack.Extends m.stack (is.foldl (fun m i => (i.run.run m).2) m).stack := by
    intro is
    induction is with
    | nil => exact fun m => .refl m.stack
    | cons i is ih => exact fun m => (i.run_extends m).trans (ih _)
  exact hfold inputs (.fresh limit)

/-- **Stacks are well formed over whole sessions.**  After any inputs, succeeding or failing, the
machine has one frame.  Every state passed by a further input has a stack whose outermost frame has
level zero, no parent and the built-in names, and whose other frames have a parent below them and
stand one level deeper, so that levels count the links to the outermost frame and built-in names
always resolve.  If the further input cannot be read, it leaves the stack and the sink as they
are. -/
theorem session_wellFormed (limit : Option Nat) (inputs : List Input) :
    (session limit inputs).stack.depth = 1 ∧
    ∀ i : Input,
      (∀ m : Machine, i.Passes (session limit inputs) m →
        m.stack.WellFormed ∧
        (∀ (j : Nat) (f : Frame), m.stack.frame? j = some f →
          ∀ n, m.stack.Links j 0 n ↔ n = f.level) ∧
        ∀ (b : Builtin) (p : Position), ∃ v, (Eval.resolve ⟨b.name, p⟩).run m = (.ok v, m)) ∧
      (∀ (e : SyntaxError) (m : Machine),
        i.run.run (session limit inputs) = (.error (.syntaxError e), m) →
          m.stack = (session limit inputs).stack ∧ m.sink = (session limit inputs).sink) := by
  have hext := session_extends limit inputs
  refine ⟨hext.depth_eq, fun i => ⟨fun m hpass => ?_, fun e m h => i.run_readsFirst _ m e h⟩⟩
  have hm : m.stack.WellFormed := hpass.wellFormed (Stack.WellFormed.initial.of_extends hext)
  refine ⟨hm, fun j f hf n => hm.links_iff hf n, fun b p => ?_⟩
  obtain ⟨v, hv⟩ := hm.lookup?_builtin b
  exact ⟨v, by simp only [Eval.resolve, Action.run_bind, Action.run_get, hv, Action.run_pure]⟩

/-- A block that declares a function and calls it. -/
def Input.calling : Input := ⟨.block, "\x7bdef f()\x7bx=True\x7d f()\x7d", 3⟩

/-- A call that breaks off. -/
def Input.unclosed : Input := ⟨.call, "f(", 3⟩

open Grammar in
/-- The first input passes a state inside the call, where the second frame binds `x`, and it is well
formed; the second cannot be read, and leaves the stack as it is. -/
theorem session_wellFormed_calling :
    (∃ m, Input.calling.Passes (session none []) m ∧ m.stack.depth = 2 ∧
      m.stack.topFrame.bindings.binds "x" ∧ m.stack.WellFormed) ∧
    ∃ e m, Input.unclosed.run.run (session none []) = (.error (.syntaxError e), m) ∧
      m.stack = (session none []).stack := by
  have h := (session_wellFormed none []).2
  constructor
  · obtain ⟨events, hread⟩ := Eval.ofRule_run Rule.block Input.calling.source (session none [])
    have hvalue := IsComparison.sum (.mk (.mk (.bool true ⟨1, 12⟩) (.stop _)) (.stop _))
    have hassign := IsStatement.assign (p := ⟨1, 11⟩) (x := ⟨"x", ⟨1, 10⟩⟩) hvalue
    have hbody := IsBlock.mk (p := ⟨1, 9⟩) (q := ⟨1, 16⟩) (.cons hassign .nil)
    have hdefine := IsStatement.define (p := ⟨1, 2⟩) (x := ⟨"f", ⟨1, 6⟩⟩)
      (.mk (p := ⟨1, 7⟩) (q := ⟨1, 8⟩) .none) hbody
    have hcall := IsStatement.call
      (.mk (x := ⟨"f", ⟨1, 18⟩⟩) (p := ⟨1, 19⟩) (q := ⟨1, 20⟩) .none)
    have hblock := IsBlock.mk (p := ⟨1, 1⟩) (q := ⟨1, 21⟩) (.cons hdefine (.cons hcall .nil))
    have hparse : (Rule.block.parse Input.calling.source).1 = .ok _ :=
      (Rule.reads_block hblock []).parse_eq rfl
    rw [hparse] at hread
    have hpass : Input.calling.Passes (session none []) _ :=
      .block hread (.entered (.next rfl (.first (.performed (.body rfl rfl rfl rfl rfl
        (.entered (.first (.finish _ _))))))))
    exact ⟨_, hpass, rfl, rfl, ((h _).1 _ hpass).1⟩
  · obtain ⟨events, hread⟩ := Eval.ofRule_run Rule.call Input.unclosed.source (session none [])
    have hparse : (Rule.call.parse Input.unclosed.source).1 =
        .error ⟨.unexpectedEnd "an expression", ⟨1, 2⟩⟩ := rfl
    rw [hparse] at hread
    have hrun : Input.unclosed.run.run (session none []) = _ := Action.run_bind_of_error hread _
    exact ⟨_, _, hrun, ((h _).2 _ _ hrun).1⟩

end BraceScript
