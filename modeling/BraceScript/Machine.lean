import BraceScript.Action
import BraceScript.Builtin.Apply
import BraceScript.Event
import BraceScript.Stack
import BraceScript.SyntaxError

/-!
# Machine — the state of a running program

A machine is a stack, a sink and the record of what happened.  An `Eval` computes on a machine;
whether it gives a value or fails, the machine it leaves stays.
-/

namespace BraceScript

/-- The state of a running program. -/
structure Machine where
  stack : Stack
  sink : Sink
  /-- What happened so far, the latest first. -/
  events : List Event

/-- Why a computation gives no value. -/
inductive Failure
  | syntaxError (e : SyntaxError)
  | runtimeError (e : RuntimeError)
  /-- The bound on loops and nested calls was reached. -/
  | outOfFuel

namespace Failure

/-- The place of a failure, if it has one. -/
def position? : Failure → Option Position
  | syntaxError e => some e.position
  | runtimeError e => e.position?
  | outOfFuel => none

/-- The class and the wording of a failure. -/
def report : Failure → ErrorClass × String
  | syntaxError e => (.syntaxError, e.message)
  | runtimeError e => (e.errorClass, e.message)
  | outOfFuel => (.boundError, "the program did not end within its bound")

end Failure

/-- A computation on a machine. -/
abbrev Eval := Action Machine Failure

namespace Machine

/-- A machine on which nothing has run, with an empty sink. -/
def fresh (limit : Option Nat) : Machine := ⟨.initial, .empty limit, []⟩

/-- Records an event. -/
def emit (m : Machine) (e : Event) : Machine := { m with events := e :: m.events }

/-- Binds a name in the top frame. -/
def bind (m : Machine) (name : String) (value : Value) : Machine :=
  { m with stack := m.stack.bind name value }

/-- Puts a frame on the stack. -/
def push (m : Machine) (f : Frame) : Machine :=
  { m with stack := m.stack.push f, events := .pushed f.level f.parent :: m.events }

/-- Takes the top frame off the stack, unless it is the only one. -/
def pop (m : Machine) : Machine :=
  if 1 < m.stack.depth then
    { m with stack := m.stack.pop, events := .popped m.stack.topFrame :: m.events }
  else m

end Machine

namespace Eval

/-- Fails at a place of the program. -/
def fail {α : Type} (fault : RuntimeFault) (p : Position) : Eval α :=
  throw (.runtimeError (.located fault p))

/-- Takes over the result of a pure computation. -/
def ofExcept {α : Type} : Except RuntimeError α → Eval α
  | .ok a => pure a
  | .error e => throw (.runtimeError e)

/-- Records an event. -/
def emit (e : Event) : Eval Unit := modify (·.emit e)

/-- Binds a name in the top frame. -/
def bindName (name : String) (value : Value) : Eval Unit := modify (·.bind name value)

/-- The value of a name at a place of the program. -/
def resolve (name : Name) : Eval Value := do
  match (← get).stack.lookup? name.text with
  | some v => return v
  | none => fail (.unknownName name.text) name.position

/-- Computes in a new frame, which is taken off again whatever happens. -/
def inFrame {α : Type} (f : Frame) (body : Eval α) : Eval α := fun m =>
  let (result, m) := body (m.push f)
  (result, m.pop)

/-- Runs a built-in function on the machine's sink. -/
def applyBuiltin (b : Builtin) (args : List Value) (p : Position) : Eval (Option Value) := fun m =>
  match b.apply args p m.sink with
  | (.ok v, sink) => (.ok v, { m with sink })
  | (.error e, sink) => (.error (.runtimeError e), { m with sink })

/-- Computes again and again as long as a test succeeds, at most `turns` times. -/
def repeatWhile (test : Eval Bool) (body : Eval Unit) : Nat → Eval Unit
  | 0 => throw .outOfFuel
  | turns + 1 => do
    if ← test then
      body
      repeatWhile test body turns

end Eval

end BraceScript
