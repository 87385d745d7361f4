import BraceScript.Machine
import BraceScript.Value.Arithmetic

/-!
# Machine/Run — running programs

Expressions, statements and blocks are run by recursion on the tree, given `enter`, which runs the
body of a called function, and a bound on the turns of a loop.  `Block.run` closes the circle: with
fuel left, a call enters the callee's body with less of it.
-/

namespace BraceScript

namespace Eval

/-- Calls a built-in function. -/
def callBuiltin (b : Builtin) (args : List Value) (p : Position) : Eval (Option Value) := do
  if b.arity.allows args.length then
    emit (.invoked b args.length)
    applyBuiltin b args p
  else fail (.builtinArity b args.length) p

/-- Calls a function of the program.  Its frame stands under the nearest frame that binds the name
it was declared with. -/
def callRoutine (enter : Block → Eval (Option Value)) (r : Routine) (args : List Value)
    (p : Position) : Eval (Option Value) := do
  let stack := (← get).stack
  match stack.find? r.name.text with
  | none => fail (.unknownName r.name.text) p
  | some parent =>
    if r.params.length = args.length then
      let level := stack.level parent + 1
      let bindings := Bindings.ofList ((r.params.map Name.text).zip args)
      emit (.entered r.name.text level r.params.length)
      inFrame ⟨level, some parent, bindings⟩ (enter r.body)
    else fail (.argumentCount r.name.text r.params.length args.length) p

/-- Calls what a name is bound to; the arguments are computed only if it is a function. -/
def call (enter : Block → Eval (Option Value)) (callee : Name) (args : Eval (List Value)) :
    Eval (Option Value) := do
  match ← resolve callee with
  | .builtin b => callBuiltin b (← args) callee.position
  | .function r => callRoutine enter r (← args) callee.position
  | .lambda r => callRoutine enter r (← args) callee.position
  | _ => fail (.notCallable callee.text) callee.position

end Eval

mutual

/-- Computes an expression. -/
def Expr.eval (enter : Block → Eval (Option Value)) : Expr → Eval Value
  | .number n _ => return n.toValue
  | .bool b _ => return .bool b
  | .var name => Eval.resolve name
  | .unary op p operand => do
    let v ← Expr.eval enter operand
    Eval.ofExcept (op.apply v p)
  | .binary op p left right => do
    let v ← Expr.eval enter left
    let w ← Expr.eval enter right
    Eval.ofExcept (op.apply v w p)
  | .call callee args => do
    match ← Eval.call enter callee (Expr.evalAll enter args) with
    | some v => return v
    | none => Eval.fail (.missingValue callee.text) callee.position

/-- Computes a list of expressions from left to right. -/
def Expr.evalAll (enter : Block → Eval (Option Value)) : List Expr → Eval (List Value)
  | [] => return []
  | e :: rest => do
    let v ← Expr.eval enter e
    return v :: (← Expr.evalAll enter rest)

end

/-- Computes an expression as a condition. -/
def Expr.test (enter : Block → Eval (Option Value)) (e : Expr) : Eval Bool := do
  let v ← e.eval enter
  Eval.ofExcept (v.condition e.position)

mutual

/-- Runs a statement; its value is none unless it returns or calls. -/
def Statement.exec (enter : Block → Eval (Option Value)) (turns : Nat) :
    Statement → Eval (Option Value)
  | .assign target value => do
    Eval.bindName target.text (← value.eval enter)
    return none
  | .lambda target params body => do
    Eval.bindName target.text (.lambda ⟨target, params, body⟩)
    return none
  | .define name params body => do
    Eval.bindName name.text (.function ⟨name, params, body⟩)
    return none
  | .call callee args => Eval.call enter callee (Expr.evalAll enter args)
  | .branch condition yes no => do
    if ← condition.test enter then Statement.execFrom enter turns none yes
    else Statement.execFrom enter turns none no
  | .loop condition body => do
    Eval.repeatWhile (condition.test enter)
      (discard (Statement.execFrom enter turns none body)) turns
    return none
  | .result _ value => do return some (← value.eval enter)

/-- Runs statements one after another; the value is that of the last one, or the given one if there
is none. -/
def Statement.execFrom (enter : Block → Eval (Option Value)) (turns : Nat) :
    Option Value → List Statement → Eval (Option Value)
  | last, [] => return last
  | _, s :: rest => do
    let v ← Statement.exec enter turns s
    Statement.execFrom enter turns v rest

end

/-- Runs a block, with calls nested less than `fuel` deep and loops of less than `fuel` turns. -/
def Block.run : Nat → Block → Eval (Option Value)
  | 0 => fun _ => throw .outOfFuel
  | fuel + 1 => Statement.execFrom (Block.run fuel) fuel none

/-- Runs a statement. -/
def Statement.run (fuel : Nat) (s : Statement) : Eval (Option Value) := s.exec (Block.run fuel) fuel

/-- Runs a call. -/
def Call.run (fuel : Nat) (c : Call) : Eval (Option Value) :=
  Eval.call (Block.run fuel) c.callee (Expr.evalAll (Block.run fuel) c.args)

/-- Computes an expression. -/
def Expr.run (fuel : Nat) (e : Expr) : Eval Value := e.eval (Block.run fuel)

/-- Runs a program: binds its name and runs its body. -/
def Program.run (fuel : Nat) (p : Program) : Eval Unit := do
  Eval.bindName p.name.text (.program p.name.text)
  discard (Block.run fuel p.body)
  Eval.emit (.finished (← get).stack.depth)

end BraceScript
