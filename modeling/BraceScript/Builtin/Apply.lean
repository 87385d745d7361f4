import BraceScript.RuntimeError
import BraceScript.Sink

/-!
# Builtin/Apply — what the built-in functions do

Arguments are values already computed.  Only `print` touches the sink, and only it gives no value on
arguments it accepts.
-/

namespace BraceScript.Builtin

/-- A line of values, with one blank between them. -/
def line (args : List Value) : String := " ".intercalate (args.map Value.text)

/-- The best of the arguments by their values as doubles, beginning with the best so far; the first
of equally good ones stays. -/
def extremeFrom (better : Float → Float → Bool) (p : Position) :
    Option (Value × Float) → List Value → Except RuntimeError (Option Value)
  | best, [] => .ok (best.map Prod.fst)
  | best, v :: rest =>
    match v.number? with
    | none => .error (.located (.typeMismatch (.comparison v.kind)) p)
    | some n =>
      match best with
      | none => extremeFrom better p (some (v, n.toFloat)) rest
      | some (w, y) =>
        if better n.toFloat y then extremeFrom better p (some (v, n.toFloat)) rest
        else extremeFrom better p (some (w, y)) rest

/-- The smallest argument. -/
def minimum (args : List Value) (p : Position) : Except RuntimeError (Option Value) :=
  extremeFrom (fun x y => x < y) p none args

/-- The largest argument. -/
def maximum (args : List Value) (p : Position) : Except RuntimeError (Option Value) :=
  extremeFrom (fun x y => x > y) p none args

/-- The magnitude of a number; the least integer has none and stays as it is. -/
def magnitude : Number → Number
  | .int n => .int (if n < 0 then -n else n)
  | .float x => .float x.abs

/-- The magnitude of the first argument. -/
def absolute (args : List Value) (p : Position) : Except RuntimeError (Option Value) :=
  match args with
  | [] => .error (.located (.builtinArity abs 0) p)
  | v :: _ =>
    match v.number? with
    | some n => .ok (some (magnitude n).toValue)
    | none => .error (.located (.typeMismatch (.absolute v.kind)) p)

/-- The arguments added one after another to a first number. -/
def totalFrom (p : Position) : Number → List Value → Except RuntimeError (Option Value)
  | acc, [] => .ok (some acc.toValue)
  | acc, v :: rest =>
    match acc, v.number? with
    | .int a, some (.int b) => totalFrom p (.int (a + b)) rest
    | a, some b => totalFrom p (.float (a.toFloat + b.toFloat)) rest
    | _, none => .error (.located (.typeMismatch (.summand v.kind)) p)

/-- The arguments added up. -/
def total (args : List Value) (p : Position) : Except RuntimeError (Option Value) :=
  totalFrom p (.int 0) args

/-- Prints the arguments on a line. -/
def printLine (args : List Value) (sink : Sink) : Except RuntimeError (Option Value) × Sink :=
  match sink.writeLine (line args) with
  | (true, sink) => (.ok none, sink)
  | (false, sink) => (.error .output, sink)

/-- What a built-in function does with arguments, however many they are, called at a place of the
program. -/
def apply (b : Builtin) (args : List Value) (p : Position) (sink : Sink) :
    Except RuntimeError (Option Value) × Sink :=
  match b with
  | print => printLine args sink
  | min => (minimum args p, sink)
  | max => (maximum args p, sink)
  | abs => (absolute args p, sink)
  | sum => (total args p, sink)

end BraceScript.Builtin
