import BraceScript.Machine.Run

/-!
# Proofs/Discipline — one induction over everything that runs

Expressions, calls, statements and blocks run each other.  A **discipline** names what the two
halves of the language may do — `expr` for expressions and calls, `stmt` for statements and blocks —
and says that the steps of a run keep to it.  Then everything keeps to it: `Discipline.eval`,
`Discipline.call`, `Discipline.exec` and `Discipline.run`.

The induction is on the fuel for the bodies of called functions, on the tree inside a body, and on
the turns of a loop.  It is done here once; a law about runs is a discipline.
-/

namespace BraceScript

/-- **A discipline**: two classes of computations, closed under the steps that runs are made of. -/
structure Discipline where
  /-- What expressions and calls may do. -/
  expr : ∀ {α : Type}, Eval α → Prop
  /-- What statements and blocks may do. -/
  stmt : ∀ {α : Type}, Eval α → Prop
  expr_pure : ∀ {α : Type} (a : α), expr (pure a : Eval α)
  expr_bind : ∀ {α β : Type} {x : Eval α} {f : α → Eval β},
    expr x → (∀ a, expr (f a)) → expr (x >>= f)
  expr_fail : ∀ {α : Type} (e : RuntimeError), expr (throw (.runtimeError e) : Eval α)
  expr_resolve : ∀ name : Name, expr (Eval.resolve name)
  expr_callBuiltin : ∀ (b : Builtin) (args : List Value) (p : Position),
    expr (Eval.callBuiltin b args p)
  /-- A call may do what it may do, whatever a body may do in a frame of its own. -/
  expr_callRoutine : ∀ (enter : Block → Eval (Option Value)), (∀ b, stmt (enter b)) →
    ∀ (r : Routine) (args : List Value) (p : Position), expr (Eval.callRoutine enter r args p)
  stmt_of_expr : ∀ {α : Type} {x : Eval α}, expr x → stmt x
  stmt_bind : ∀ {α β : Type} {x : Eval α} {f : α → Eval β},
    stmt x → (∀ a, stmt (f a)) → stmt (x >>= f)
  stmt_outOfFuel : ∀ {α : Type}, stmt (throw .outOfFuel : Eval α)
  stmt_bindName : ∀ (name : String) (value : Value), stmt (Eval.bindName name value)

namespace Discipline

variable (d : Discipline) {enter : Block → Eval (Option Value)}

theorem ofExcept {α : Type} : ∀ x : Except RuntimeError α, d.expr (Eval.ofExcept x)
  | .ok a => d.expr_pure a
  | .error e => d.expr_fail e

theorem stmt_pure {α : Type} (a : α) : d.stmt (pure a : Eval α) := d.stmt_of_expr (d.expr_pure a)

theorem stmt_discard {α : Type} {x : Eval α} (h : d.stmt x) : d.stmt (discard x) :=
  d.stmt_bind h fun _ => d.stmt_pure _

/-- Calls keep to the discipline if the bodies of functions and the arguments do. -/
theorem call (henter : ∀ b, d.stmt (enter b)) (callee : Name) {args : Eval (List Value)}
    (hargs : d.expr args) : d.expr (Eval.call enter callee args) := by
  refine d.expr_bind (d.expr_resolve callee) fun v => ?_
  cases v with
  | builtin b => exact d.expr_bind hargs fun vs => d.expr_callBuiltin b vs callee.position
  | function r => exact d.expr_bind hargs fun vs => d.expr_callRoutine enter henter r vs _
  | lambda r => exact d.expr_bind hargs fun vs => d.expr_callRoutine enter henter r vs _
  | int _ => exact d.expr_fail _
  | float _ => exact d.expr_fail _
  | bool _ => exact d.expr_fail _
  | program _ => exact d.expr_fail _

mutual

/-- **Expressions keep to the discipline** if the bodies of functions do. -/
theorem eval (henter : ∀ b, d.stmt (enter b)) : ∀ e : Expr, d.expr (e.eval enter)
  | .number n _ => by
    unfold Expr.eval
    exact d.expr_pure n.toValue
  | .bool b _ => by
    unfold Expr.eval
    exact d.expr_pure (Value.bool b)
  | .var name => by
    unfold Expr.eval
    exact d.expr_resolve name
  | .unary op p operand => by
    unfold Expr.eval
    exact d.expr_bind (eval henter operand) fun v => d.ofExcept (op.apply v p)
  | .binary op p left right => by
    unfold Expr.eval
    exact d.expr_bind (eval henter left) fun v =>
      d.expr_bind (eval henter right) fun w => d.ofExcept (op.apply v w p)
  | .call callee args => by
    unfold Expr.eval
    refine d.expr_bind (d.call henter callee (evalAll henter args)) fun v => ?_
    cases v with
    | some v => exact d.expr_pure v
    | none => exact d.expr_fail _

/-- Lists of expressions keep to the discipline. -/
theorem evalAll (henter : ∀ b, d.stmt (enter b)) :
    ∀ es : List Expr, d.expr (Expr.evalAll enter es)
  | [] => by
    unfold Expr.evalAll
    exact d.expr_pure []
  | e :: rest => by
    unfold Expr.evalAll
    exact d.expr_bind (eval henter e) fun v =>
      d.expr_bind (evalAll henter rest) fun vs => d.expr_pure (v :: vs)

end

theorem test (henter : ∀ b, d.stmt (enter b)) (e : Expr) : d.expr (e.test enter) :=
  d.expr_bind (d.eval henter e) fun v => d.ofExcept (v.condition e.position)

/-- Loops keep to the discipline, however many turns they take. -/
theorem repeatWhile {test : Eval Bool} {body : Eval Unit} (htest : d.expr test)
    (hbody : d.stmt body) : ∀ turns, d.stmt (Eval.repeatWhile test body turns)
  | 0 => d.stmt_outOfFuel
  | turns + 1 => by
    refine d.stmt_bind (d.stmt_of_expr htest) fun b => ?_
    cases b with
    | true => exact d.stmt_bind hbody fun _ => repeatWhile htest hbody turns
    | false => exact d.stmt_pure ()

mutual

/-- **Statements keep to the discipline** if the bodies of functions do. -/
theorem exec (henter : ∀ b, d.stmt (enter b)) (turns : Nat) :
    ∀ s : Statement, d.stmt (s.exec enter turns)
  | .assign target value => by
    unfold Statement.exec
    exact d.stmt_bind (d.stmt_of_expr (d.eval henter value)) fun v =>
      d.stmt_bind (d.stmt_bindName target.text v) fun _ => d.stmt_pure none
  | .lambda target params body => by
    unfold Statement.exec
    exact d.stmt_bind (d.stmt_bindName target.text _) fun _ => d.stmt_pure none
  | .define name params body => by
    unfold Statement.exec
    exact d.stmt_bind (d.stmt_bindName name.text _) fun _ => d.stmt_pure none
  | .call callee args => by
    unfold Statement.exec
    exact d.stmt_of_expr (d.call henter callee (d.evalAll henter args))
  | .branch condition yes no => by
    unfold Statement.exec
    refine d.stmt_bind (d.stmt_of_expr (d.test henter condition)) fun b => ?_
    cases b with
    | true => exact execFrom henter turns none yes
    | false => exact execFrom henter turns none no
  | .loop condition body => by
    unfold Statement.exec
    exact d.stmt_bind (d.repeatWhile (d.test henter condition)
      (d.stmt_discard (execFrom henter turns none body)) turns) fun _ => d.stmt_pure none
  | .result _ value => by
    unfold Statement.exec
    exact d.stmt_bind (d.stmt_of_expr (d.eval henter value)) fun v => d.stmt_pure (some v)

/-- Sequences of statements keep to the discipline. -/
theorem execFrom (henter : ∀ b, d.stmt (enter b)) (turns : Nat) :
    ∀ (last : Option Value) (ss : List Statement), d.stmt (Statement.execFrom enter turns last ss)
  | last, [] => by
    unfold Statement.execFrom
    exact d.stmt_pure last
  | _, s :: rest => by
    unfold Statement.execFrom
    exact d.stmt_bind (exec henter turns s) fun v => execFrom henter turns v rest

end

/-- **Blocks keep to the discipline**, with any fuel. -/
theorem run : ∀ (fuel : Nat) (b : Block), d.stmt (Block.run fuel b)
  | 0, _ => d.stmt_outOfFuel
  | fuel + 1, b => d.execFrom (run fuel) fuel none b

end Discipline

end BraceScript
