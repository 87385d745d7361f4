import BraceScript.Grammar.Statement
import BraceScript.Machine.Run

/-!
# Interpreter — from source text to effects

`interpret` reads a whole program and runs it.  A `Step` reads and runs a part of a program instead,
on a machine that may have run others before.
-/

namespace BraceScript

/-- Applies a grammar rule to a source and records the tokens read. -/
def Eval.ofRule {α : Type} (rule : Rule α) (source : String) : Eval α := fun m =>
  let (result, feed) := rule.parse source
  let m := { m with events := feed.history.map .token ++ m.events }
  match result with
  | .ok a => (.ok a, m)
  | .error e => (.error (.syntaxError e), m)

/-- Reads a source as a whole program and runs it. -/
def interpret (fuel : Nat) (source : String) : Eval Unit := do
  Eval.emit (.opened source.utf8ByteSize)
  let p ← Eval.ofRule Rule.wholeProgram source
  Eval.emit (.parsed p.name.text)
  p.run fuel

/-- What a source given to a session is. -/
inductive Step
  /-- A program and nothing else. -/
  | whole
  /-- A program; what follows it is not looked at. -/
  | program
  | block
  | statement
  | call
  | expression
deriving DecidableEq, Repr

/-- Reads a source as a part of a program and runs it. -/
def Step.run (fuel : Nat) (source : String) : Step → Eval (Option Value)
  | whole => do
    interpret fuel source
    return none
  | program => do
    let p ← Eval.ofRule Rule.program source
    p.run fuel
    return none
  | block => do
    let b ← Eval.ofRule Rule.block source
    Block.run fuel b
  | statement => do
    let s ← Eval.ofRule Rule.statement source
    s.run fuel
  | call => do
    let c ← Eval.ofRule Rule.call source
    c.run fuel
  | expression => do
    let e ← Eval.ofRule Rule.comparison source
    return some (← e.run fuel)

/-- A bound that no program meant to end comes near. -/
def ampleFuel : Nat := 1000000000000

end BraceScript
