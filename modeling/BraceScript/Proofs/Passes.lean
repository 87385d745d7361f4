import BraceScript.Interpreter

/-!
# Proofs/Passes — the states that a run goes through

A run is a function from a machine to a result and a machine, and shows its two ends only.
`Passes fuel t m m'` names what lies between: while task `t` runs on `m`, a part of it begins or
ends on `m'`.  Bodies of called functions count among the parts, so the states inside nested calls,
at any depth, are passed too, and so are those of runs that fail.

States that differ in the record of events only are not told apart by the parts listed here.
-/

namespace BraceScript

/-- The function of the program that a value is. -/
def Value.routine? : Value → Option Routine
  | function r => some r
  | lambda r => some r
  | _ => none

/-- Whether a value can be called. -/
def Value.isCallable : Value → Bool
  | builtin _ | function _ | lambda _ => true
  | _ => false

/-- The frame that a call of a function runs in, under a given parent. -/
def Stack.calleeFrame (s : Stack) (r : Routine) (args : List Value) (parent : Nat) : Frame :=
  ⟨s.level parent + 1, some parent, .ofList ((r.params.map Name.text).zip args)⟩

/-- The machine on which the body of a called function starts. -/
def Machine.enter (m : Machine) (r : Routine) (args : List Value) (parent : Nat) : Machine :=
  (m.emit (.entered r.name.text (m.stack.level parent + 1) r.params.length)).push
    (m.stack.calleeFrame r args parent)

@[simp] theorem Machine.enter_stack (m : Machine) (r : Routine) (args : List Value) (parent : Nat) :
    (m.enter r args parent).stack = m.stack.push (m.stack.calleeFrame r args parent) := rfl

/-- Taking a frame off a machine takes it off the stack. -/
@[simp] theorem Machine.pop_stack (m : Machine) : m.pop.stack = m.stack.pop := by
  unfold Machine.pop Stack.pop
  split
  · next h => rw [dif_pos (show 1 < m.stack.frames.size from h)]
  · next h => rw [dif_neg (show ¬ 1 < m.stack.frames.size from h)]

/-- Taking a frame off does not print. -/
@[simp] theorem Machine.pop_sink (m : Machine) : m.pop.sink = m.sink := by
  unfold Machine.pop
  split <;> rfl

namespace Eval

/-- What a call of a function does, in full. -/
theorem callRoutine_run (enter : Block → Eval (Option Value)) (r : Routine) (args : List Value)
    (p : Position) (m : Machine) :
    (callRoutine enter r args p).run m =
      match m.stack.find? r.name.text with
      | none => (.error (.runtimeError (.located (.unknownName r.name.text) p)), m)
      | some parent =>
        if r.params.length = args.length then
          (((enter r.body).run (m.enter r args parent)).1,
            ((enter r.body).run (m.enter r args parent)).2.pop)
        else
          (.error (.runtimeError
            (.located (.argumentCount r.name.text r.params.length args.length) p)), m) := by
  simp only [callRoutine, Action.run_bind, Action.run_get]
  cases m.stack.find? r.name.text with
  | none => rfl
  | some parent =>
    by_cases hlen : r.params.length = args.length
    · simp only [if_pos hlen]
      rfl
    · simp only [if_neg hlen]
      rfl

/-- **A call of a function fails and leaves the machine as it is, or runs the body** in a frame
under the nearest one that binds the declared name, and takes that frame off. -/
theorem callRoutine_cases (enter : Block → Eval (Option Value)) (r : Routine) (args : List Value)
    (p : Position) (m : Machine) :
    (∃ e, (callRoutine enter r args p).run m = (.error (.runtimeError e), m)) ∨
    ∃ parent, m.stack.find? r.name.text = some parent ∧ r.params.length = args.length ∧
      (callRoutine enter r args p).run m =
        (((enter r.body).run (m.enter r args parent)).1,
          ((enter r.body).run (m.enter r args parent)).2.pop) := by
  rw [callRoutine_run]
  cases m.stack.find? r.name.text with
  | none => exact .inl ⟨_, rfl⟩
  | some parent =>
    by_cases hlen : r.params.length = args.length
    · exact .inr ⟨parent, rfl, hlen, if_pos hlen⟩
    · exact .inl ⟨_, if_neg hlen⟩

end Eval

/-- Something that runs. -/
inductive Task
  | expr (e : Expr)
  | exprs (es : List Expr)
  | call (c : Call)
  | statement (s : Statement)
  /-- The statements of a block, one after another. -/
  | statements (ss : List Statement)
  /-- A loop with so many turns left. -/
  | loop (condition : Expr) (body : Block) (turns : Nat)
  | block (b : Block)

namespace Task

/-- Runs a task for its effects. -/
def run (fuel : Nat) : Task → Eval Unit
  | expr e => discard (e.run fuel)
  | exprs es => discard (Expr.evalAll (Block.run fuel) es)
  | call c => discard (c.run fuel)
  | statement s => discard (s.run fuel)
  | statements ss => discard (Statement.execFrom (Block.run fuel) fuel none ss)
  | loop condition body turns =>
    Eval.repeatWhile (condition.test (Block.run fuel))
      (discard (Statement.execFrom (Block.run fuel) fuel none body)) turns
  | block b => discard (Block.run fuel b)

/-- The tasks that compute and call, and bind nothing themselves. -/
def isExpression : Task → Prop
  | expr _ | exprs _ | call _ => True
  | _ => False

end Task

/-- **`m'` is passed while a task runs on `m`**: a part of the task begins or ends there. -/
inductive Passes : Nat → Task → Machine → Machine → Prop
  | start {fuel : Nat} (t : Task) (m : Machine) : Passes fuel t m m
  | finish {fuel : Nat} (t : Task) (m : Machine) : Passes fuel t m ((t.run fuel).run m).2
  | operand {fuel : Nat} {op : UnaryOp} {p : Position} {e : Expr} {m m' : Machine} :
    Passes fuel (.expr e) m m' → Passes fuel (.expr (.unary op p e)) m m'
  | left {fuel : Nat} {op : BinaryOp} {p : Position} {a b : Expr} {m m' : Machine} :
    Passes fuel (.expr a) m m' → Passes fuel (.expr (.binary op p a b)) m m'
  | right {fuel : Nat} {op : BinaryOp} {p : Position} {a b : Expr} {v : Value} {m m₁ m' : Machine} :
    (a.run fuel).run m = (.ok v, m₁) → Passes fuel (.expr b) m₁ m' →
      Passes fuel (.expr (.binary op p a b)) m m'
  | called {fuel : Nat} {callee : Name} {args : List Expr} {m m' : Machine} :
    Passes fuel (.call ⟨callee, args⟩) m m' → Passes fuel (.expr (.call callee args)) m m'
  | head {fuel : Nat} {e : Expr} {es : List Expr} {m m' : Machine} :
    Passes fuel (.expr e) m m' → Passes fuel (.exprs (e :: es)) m m'
  | tail {fuel : Nat} {e : Expr} {es : List Expr} {v : Value} {m m₁ m' : Machine} :
    (e.run fuel).run m = (.ok v, m₁) → Passes fuel (.exprs es) m₁ m' →
      Passes fuel (.exprs (e :: es)) m m'
  | args {fuel : Nat} {c : Call} {v : Value} {m m' : Machine} :
    m.stack.lookup? c.callee.text = some v → v.isCallable → Passes fuel (.exprs c.args) m m' →
      Passes fuel (.call c) m m'
  /-- The body of the callee, in its own frame. -/
  | body {fuel : Nat} {c : Call} {v : Value} {r : Routine} {vs : List Value} {parent : Nat}
      {m m₁ m' : Machine} :
    m.stack.lookup? c.callee.text = some v → v.routine? = some r →
      (Expr.evalAll (Block.run fuel) c.args).run m = (.ok vs, m₁) →
      m₁.stack.find? r.name.text = some parent → r.params.length = vs.length →
      Passes fuel (.block r.body) (m₁.enter r vs parent) m' → Passes fuel (.call c) m m'
  | assigned {fuel : Nat} {target : Name} {e : Expr} {m m' : Machine} :
    Passes fuel (.expr e) m m' → Passes fuel (.statement (.assign target e)) m m'
  | performed {fuel : Nat} {callee : Name} {args : List Expr} {m m' : Machine} :
    Passes fuel (.call ⟨callee, args⟩) m m' → Passes fuel (.statement (.call callee args)) m m'
  | condition {fuel : Nat} {e : Expr} {yes no : Block} {m m' : Machine} :
    Passes fuel (.expr e) m m' → Passes fuel (.statement (.branch e yes no)) m m'
  | chosen {fuel : Nat} {e : Expr} {yes no : Block} {b : Bool} {m m₁ m' : Machine} :
    (e.test (Block.run fuel)).run m = (.ok b, m₁) →
      Passes fuel (.statements (if b then yes else no)) m₁ m' →
      Passes fuel (.statement (.branch e yes no)) m m'
  | looped {fuel : Nat} {e : Expr} {body : Block} {m m' : Machine} :
    Passes fuel (.loop e body fuel) m m' → Passes fuel (.statement (.loop e body)) m m'
  | tested {fuel turns : Nat} {e : Expr} {body : Block} {m m' : Machine} :
    Passes fuel (.expr e) m m' → Passes fuel (.loop e body (turns + 1)) m m'
  | turn {fuel turns : Nat} {e : Expr} {body : Block} {m m₁ m' : Machine} :
    (e.test (Block.run fuel)).run m = (.ok true, m₁) → Passes fuel (.statements body) m₁ m' →
      Passes fuel (.loop e body (turns + 1)) m m'
  | again {fuel turns : Nat} {e : Expr} {body : Block} {v : Option Value} {m m₁ m₂ m' : Machine} :
    (e.test (Block.run fuel)).run m = (.ok true, m₁) →
      (Statement.execFrom (Block.run fuel) fuel none body).run m₁ = (.ok v, m₂) →
      Passes fuel (.loop e body turns) m₂ m' → Passes fuel (.loop e body (turns + 1)) m m'
  | returned {fuel : Nat} {p : Position} {e : Expr} {m m' : Machine} :
    Passes fuel (.expr e) m m' → Passes fuel (.statement (.result p e)) m m'
  | first {fuel : Nat} {s : Statement} {rest : List Statement} {m m' : Machine} :
    Passes fuel (.statement s) m m' → Passes fuel (.statements (s :: rest)) m m'
  | next {fuel : Nat} {s : Statement} {rest : List Statement} {v : Option Value}
      {m m₁ m' : Machine} :
    (s.run fuel).run m = (.ok v, m₁) → Passes fuel (.statements rest) m₁ m' →
      Passes fuel (.statements (s :: rest)) m m'
  /-- Entering a block spends fuel, for its calls and its loops. -/
  | entered {fuel : Nat} {b : Block} {m m' : Machine} :
    Passes fuel (.statements b) m m' → Passes (fuel + 1) (.block b) m m'

end BraceScript
