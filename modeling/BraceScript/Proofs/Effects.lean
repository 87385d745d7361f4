import BraceScript.Proofs.Action
import BraceScript.Proofs.Discipline
import BraceScript.Proofs.Passes
import BraceScript.Proofs.Stack

/-!
# Proofs/Effects — what a run may do to the stack

* `expr_run_stack`, `call_run_stack` — expressions and calls leave the whole stack as it was.
* `statement_run_extends`, `block_run_extends` — statements and blocks change the top frame only,
  and lose no name there.
* `Passes.inProgress` — and on the way, however deep the calls, the stack is what the task itself
  made of it, with the frames of the calls in progress on top.

All three hold of runs that fail as of runs that succeed: the frame of a call is taken off in both
cases (`pop_eq_of_push_extends`), and nothing else pushes.
-/

namespace BraceScript

namespace Eval

/-- The computations that leave the stack as it is. -/
def KeepsStack {α : Type} (x : Eval α) : Prop :=
  Action.Preserves (fun m m' : Machine => m'.stack = m.stack) x

/-- The computations that change the top frame only, and lose no name there. -/
def ExtendsStack {α : Type} (x : Eval α) : Prop :=
  Action.Preserves (fun m m' : Machine => Stack.Extends m.stack m'.stack) x

theorem KeepsStack.extends {α : Type} {x : Eval α} (h : KeepsStack x) : ExtendsStack x := fun m =>
  .of_eq (h m)

/-- Looking up a name changes nothing, whether it is found or not. -/
theorem keepsStack_resolve (name : Name) : KeepsStack (resolve name) := by
  intro m
  simp only [resolve, Action.run_bind, Action.run_get]
  cases m.stack.lookup? name.text <;> rfl

theorem keepsStack_applyBuiltin (b : Builtin) (args : List Value) (p : Position) :
    KeepsStack (applyBuiltin b args p) := by
  intro m
  simp only [applyBuiltin, Action.run]
  rcases b.apply args p m.sink with ⟨_ | _, _⟩ <;> rfl

/-- A built-in function may print, but has no access to the stack. -/
theorem keepsStack_callBuiltin (b : Builtin) (args : List Value) (p : Position) :
    KeepsStack (callBuiltin b args p) := by
  unfold callBuiltin
  split
  · exact Action.Preserves.bind (fun h h' => h'.trans h) (fun _ => rfl)
      fun _ => keepsStack_applyBuiltin b args p
  · exact fun _ => rfl

/-- **A call leaves the stack as it is**, if the body of the callee only extends its own. -/
theorem keepsStack_callRoutine (enter : Block → Eval (Option Value))
    (henter : ∀ b, ExtendsStack (enter b)) (r : Routine) (args : List Value) (p : Position) :
    KeepsStack (callRoutine enter r args p) := by
  intro m
  obtain ⟨e, he⟩ | ⟨parent, -, -, hrun⟩ := callRoutine_cases enter r args p m
  · rw [he]
  · rw [hrun, Machine.pop_stack]
    exact Stack.pop_eq_of_push_extends (henter r.body (m.enter r args parent))

end Eval

/-- **The stack discipline**: expressions keep the stack, statements extend it. -/
def Discipline.stack : Discipline where
  expr := Eval.KeepsStack
  stmt := Eval.ExtendsStack
  expr_pure _ _ := rfl
  expr_bind := Action.Preserves.bind fun h h' => h'.trans h
  expr_fail _ _ := rfl
  expr_resolve := Eval.keepsStack_resolve
  expr_callBuiltin := Eval.keepsStack_callBuiltin
  expr_callRoutine := Eval.keepsStack_callRoutine
  stmt_of_expr := Eval.KeepsStack.extends
  stmt_bind := Action.Preserves.bind fun h h' => h.trans h'
  stmt_outOfFuel m := .refl m.stack
  stmt_bindName name value m := .bind m.stack name value

/-- **An expression leaves the stack as it was**, also where it calls functions or fails. -/
theorem expr_run_stack (fuel : Nat) (e : Expr) (m : Machine) :
    ((e.run fuel).run m).2.stack = m.stack :=
  Discipline.stack.eval (Discipline.stack.run fuel) e m

theorem evalAll_stack (fuel : Nat) (es : List Expr) (m : Machine) :
    ((Expr.evalAll (Block.run fuel) es).run m).2.stack = m.stack :=
  Discipline.stack.evalAll (Discipline.stack.run fuel) es m

/-- Once arguments are computed, the stack is what it was before them. -/
theorem stack_eq_of_evalAll {fuel : Nat} {es : List Expr} {m m' : Machine}
    {r : Except Failure (List Value)} (h : (Expr.evalAll (Block.run fuel) es).run m = (r, m')) :
    m'.stack = m.stack := by
  have hstack := evalAll_stack fuel es m
  rwa [h] at hstack

/-- The frame of a call is gone when the call ends, and with it all that its body bound. -/
theorem call_run_stack (fuel : Nat) (c : Call) (m : Machine) :
    ((c.run fuel).run m).2.stack = m.stack :=
  Discipline.stack.call (Discipline.stack.run fuel) c.callee
    (Discipline.stack.evalAll (Discipline.stack.run fuel) c.args) m

theorem test_stack (fuel : Nat) (e : Expr) (m : Machine) :
    ((e.test (Block.run fuel)).run m).2.stack = m.stack :=
  Discipline.stack.test (Discipline.stack.run fuel) e m

/-- **A statement changes the stack by bindings in the top frame only.** -/
theorem statement_run_extends (fuel : Nat) (s : Statement) (m : Machine) :
    Stack.Extends m.stack ((s.run fuel).run m).2.stack :=
  Discipline.stack.exec (Discipline.stack.run fuel) fuel s m

theorem execFrom_extends (fuel : Nat) (last : Option Value) (ss : List Statement) (m : Machine) :
    Stack.Extends m.stack ((Statement.execFrom (Block.run fuel) fuel last ss).run m).2.stack :=
  Discipline.stack.execFrom (Discipline.stack.run fuel) fuel last ss m

/-- A block has no frame of its own: what it binds is bound in the frame that it runs in. -/
theorem block_run_extends (fuel : Nat) (b : Block) (m : Machine) :
    Stack.Extends m.stack ((Block.run fuel b).run m).2.stack :=
  Discipline.stack.run fuel b m

/-! ## On the way

A task sees its stack through its own changes: `Leaves` is what it may have made of the stack at a
moment between its parts.  Everything above that is the business of calls in progress. -/

/-- **`u` is `s` with calls in progress on top**, each in a frame under the nearest one that binds
the name of the callee. -/
inductive Stack.InProgress : Stack → Stack → Prop
  | none (s : Stack) : InProgress s s
  | call {s t u : Stack} {parent : Nat} (r : Routine) (args : List Value) :
    s.find? r.name.text = some parent → Extends (s.push (s.calleeFrame r args parent)) t →
      InProgress t u → InProgress s u

/-- Calls in progress leave the frames below them alone. -/
theorem Stack.InProgress.above {s u : Stack} (h : InProgress s u) : Above s u := by
  induction h with
  | none s => exact .refl s
  | @call s t u parent r args _ hext _ ih =>
    have hst : Above s t := fun i hi => by
      have htop : i < (s.push (s.calleeFrame r args parent)).top := (top_push s _).symm ▸ hi
      rw [hext.below i htop, frame?_push_of_lt hi]
    exact hst.trans ih

/-- What a task itself may make of a stack. -/
def Task.Leaves (t : Task) (s s' : Stack) : Prop :=
  Stack.Extends s s' ∧ (t.isExpression → s' = s)

namespace Task.Leaves

variable {t u : Task} {s s' s'' : Stack}

theorem refl (t : Task) (s : Stack) : t.Leaves s s := ⟨.refl s, fun _ => rfl⟩

/-- What an expression leaves, any task around it leaves. -/
theorem of_isExpression (h : u.Leaves s s') (hu : u.isExpression) : t.Leaves s s' := by
  rw [h.2 hu]
  exact refl t s

/-- What a task binds before one of its parts starts counts among what it leaves. -/
theorem after (ht : ¬ t.isExpression) (h : Stack.Extends s s') (h' : u.Leaves s' s'') :
    t.Leaves s s'' :=
  ⟨h.trans h'.1, fun h => absurd h ht⟩

theorem of_keepsStack {α : Type} {x : Eval α} (hx : Eval.KeepsStack x) (t : Task) (m : Machine) :
    t.Leaves m.stack ((discard x).run m).2.stack := by
  have h : Eval.KeepsStack (discard x) :=
    Discipline.stack.expr_bind hx fun _ => Discipline.stack.expr_pure _
  exact ⟨.of_eq (h m), fun _ => h m⟩

theorem of_extendsStack {α : Type} {x : Eval α} (hx : Eval.ExtendsStack x) (ht : ¬ t.isExpression)
    (m : Machine) : t.Leaves m.stack ((discard x).run m).2.stack :=
  ⟨Discipline.stack.stmt_discard hx m, fun h => absurd h ht⟩

end Task.Leaves

/-- **What a task makes of the stack by the time it ends.** -/
theorem Task.leaves_run (t : Task) (fuel : Nat) (m : Machine) :
    t.Leaves m.stack ((t.run fuel).run m).2.stack := by
  have hrun := Discipline.stack.run fuel
  cases t with
  | expr e => exact .of_keepsStack (Discipline.stack.eval hrun e) _ m
  | exprs es => exact .of_keepsStack (Discipline.stack.evalAll hrun es) _ m
  | call c =>
    exact .of_keepsStack
      (Discipline.stack.call hrun c.callee (Discipline.stack.evalAll hrun c.args)) _ m
  | statement s => exact .of_extendsStack (Discipline.stack.exec hrun fuel s) id m
  | statements ss => exact .of_extendsStack (Discipline.stack.execFrom hrun fuel none ss) id m
  | loop condition body turns =>
    exact ⟨Discipline.stack.repeatWhile (Discipline.stack.test hrun condition)
      (Discipline.stack.stmt_discard (Discipline.stack.execFrom hrun fuel none body)) turns m,
      False.elim⟩
  | block b => exact .of_extendsStack (hrun b) id m

/-- **On the way, the stack is what the task itself made of it, with calls in progress on top.** -/
theorem Passes.inProgress {fuel : Nat} {t : Task} {m m' : Machine} (h : Passes fuel t m m') :
    ∃ s, t.Leaves m.stack s ∧ Stack.InProgress s m'.stack := by
  induction h with
  | start t m => exact ⟨m.stack, .refl t m.stack, .none m.stack⟩
  | @finish fuel t m => exact ⟨_, t.leaves_run fuel m, .none _⟩
  | operand _ ih | left _ ih | called _ ih | head _ ih | args _ _ _ ih | assigned _ ih
  | performed _ ih | condition _ ih | tested _ ih | returned _ ih =>
    obtain ⟨s, hs, hcalls⟩ := ih
    exact ⟨s, hs.of_isExpression trivial, hcalls⟩
  | @right fuel _ _ a _ _ m _ _ hrun _ ih | @tail fuel a _ _ m _ _ hrun _ ih =>
    obtain ⟨s, hs, hcalls⟩ := ih
    have hstack := expr_run_stack fuel a m
    rw [hrun] at hstack
    rw [hstack] at hs
    exact ⟨s, hs.of_isExpression trivial, hcalls⟩
  | @body fuel c _ r vs parent m m₁ _ _ _ hargs hparent _ _ ih =>
    obtain ⟨s, ⟨hs, -⟩, hcalls⟩ := ih
    have hstack := stack_eq_of_evalAll hargs
    rw [Machine.enter_stack, hstack] at hs
    exact ⟨m.stack, .refl _ _, .call r vs (hstack ▸ hparent) hs hcalls⟩
  | @chosen fuel e _ _ _ m _ _ htest _ ih | @turn fuel _ e _ m _ _ htest _ ih =>
    obtain ⟨s, hs, hcalls⟩ := ih
    have hstack := test_stack fuel e m
    rw [htest] at hstack
    exact ⟨s, .after id (.of_eq hstack) hs, hcalls⟩
  | @again fuel _ e body _ m m₁ _ _ htest hbody _ ih =>
    obtain ⟨s, hs, hcalls⟩ := ih
    have hstack := test_stack fuel e m
    have hext := execFrom_extends fuel none body m₁
    rw [htest] at hstack
    rw [hbody] at hext
    exact ⟨s, .after id ((Stack.Extends.of_eq hstack).trans hext) hs, hcalls⟩
  | looped _ ih | first _ ih | entered _ ih =>
    obtain ⟨s, hs, hcalls⟩ := ih
    exact ⟨s, ⟨hs.1, False.elim⟩, hcalls⟩
  | @next fuel a _ _ m _ _ hrun _ ih =>
    obtain ⟨s, hs, hcalls⟩ := ih
    have hext := statement_run_extends fuel a m
    rw [hrun] at hext
    exact ⟨s, .after id hext hs, hcalls⟩

/-- **Effects stay in the top frame, and those of a call in the frame of the call.**  Expressions
and calls leave the stack as it was; statements and blocks change the top frame only, where they
lose no name; and at no moment of a call, whether it succeeds or fails, does any frame of the
caller's stack differ from what it was. -/
theorem run_effects (fuel : Nat) (m : Machine) :
    (∀ e : Expr, ((e.run fuel).run m).2.stack = m.stack) ∧
    (∀ c : Call, ((c.run fuel).run m).2.stack = m.stack) ∧
    (∀ s : Statement, Stack.Extends m.stack ((s.run fuel).run m).2.stack) ∧
    (∀ b : Block, Stack.Extends m.stack ((Block.run fuel b).run m).2.stack) ∧
    (∀ (c : Call) (m' : Machine), Passes fuel (.call c) m m' → Stack.Above m.stack m'.stack) := by
  refine ⟨fun e => expr_run_stack fuel e m, fun c => call_run_stack fuel c m,
    fun s => statement_run_extends fuel s m, fun b => block_run_extends fuel b m,
    fun c m' h => ?_⟩
  obtain ⟨s, ⟨-, hs⟩, hcalls⟩ := h.inProgress
  exact hs trivial ▸ hcalls.above

/-- A function that binds a name and then calls what no frame binds. -/
def Routine.failing : Routine :=
  ⟨⟨"f", .start⟩, [], [.assign ⟨"x", .start⟩ (.bool true .start), .call ⟨"g", .start⟩ []]⟩

/-- A machine on which `f` is that function. -/
def Machine.failing : Machine := (Machine.fresh none).bind "f" (.function .failing)

/-- While the failing body runs it has bound `x` in a second frame; the first one is untouched, then
and after the failure. -/
theorem run_effects_failing :
    (∃ m', Passes 2 (.call ⟨⟨"f", .start⟩, []⟩) .failing m' ∧ m'.stack.depth = 2 ∧
      m'.stack.topFrame.bindings.binds "x" ∧ Stack.Above Machine.failing.stack m'.stack) ∧
    ((Call.run 2 ⟨⟨"f", .start⟩, []⟩).run .failing).2.stack = Machine.failing.stack := by
  have hpass : Passes 2 (.call ⟨⟨"f", .start⟩, []⟩) .failing _ :=
    .body rfl rfl rfl rfl rfl (.entered (.first (.finish _ _)))
  exact ⟨⟨_, hpass, by decide +kernel, by decide +kernel,
    (run_effects 2 .failing).2.2.2.2 _ _ hpass⟩, (run_effects 2 .failing).2.1 _⟩

end BraceScript
