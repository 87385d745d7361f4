import BraceScript.Grammar.Expression

/-!
# Grammar/Statement — reading statements and blocks

A statement is known by its first token, or by the token after a name at its start.  As with
expressions, the forms that hold blocks are written over the reader of statements, and
`statementWithin` closes the circle under a bound on the nesting that the number of items left
always meets.
-/

namespace BraceScript.Rule

/-- Reads the parameters of a function after the opening parenthesis. -/
def params : Rule (List Name) := commaSeparated name

/-- Reads a condition in parentheses. -/
def condition : Rule Expr := do
  discard (mark .leftParen)
  let e ← comparison
  discard (mark .rightParen)
  return e

/-- Reads statements up to a closing brace, which is left unread; at most `count` of them. -/
def statementsWithin (statement : Rule Statement) : Nat → Rule Block
  | 0 => endOfInput "'\x7d'"
  | count + 1 => do
    let t ← read "'\x7d'"
    unread t
    match t.lexeme with
    | .mark .rightBrace => return []
    | _ =>
      let first ← statement
      return first :: (← statementsWithin statement count)

/-- Reads statements in braces. -/
def blockOf (statement : Rule Statement) : Rule Block := do
  discard (mark .leftBrace)
  let body ← statementsWithin statement ((← remaining) + 1)
  discard (mark .rightBrace)
  return body

/-- Reads the definition of a function. -/
def definitionOf (statement : Rule Statement) : Rule Statement := do
  discard (word .kwDef)
  let target ← name
  discard (mark .leftParen)
  let formals ← params
  return .define target formals (← blockOf statement)

/-- Reads a choice between two blocks. -/
def branchOf (statement : Rule Statement) : Rule Statement := do
  discard (word .kwIf)
  let test ← condition
  let yes ← blockOf statement
  discard (word .kwElse)
  return .branch test yes (← blockOf statement)

/-- Reads a loop. -/
def loopOf (statement : Rule Statement) : Rule Statement := do
  discard (word .kwWhile)
  let test ← condition
  return .loop test (← blockOf statement)

/-- Reads the statement that has the value of an expression. -/
def result : Rule Statement := do
  let t ← word .kwReturn
  return .result t.position (← comparison)

/-- Reads an assignment, of a function without a name of its own or of a value. -/
def assignmentOf (statement : Rule Statement) : Rule Statement := do
  let target ← name
  discard (mark .assign)
  match ← accept? (.keyword .kwLambda) with
  | some _ =>
    discard (mark .leftParen)
    let formals ← params
    discard (mark .colon)
    return .lambda target formals (← blockOf statement)
  | none => return .assign target (← comparison)

/-- Reads a statement with less than `depth` others nested in it. -/
def statementWithin : Nat → Rule Statement
  | 0 => endOfInput "a statement"
  | depth + 1 => do
    let t ← read "a statement"
    match t.lexeme with
    | .keyword .kwDef =>
      unread t
      definitionOf (statementWithin depth)
    | .keyword .kwIf =>
      unread t
      branchOf (statementWithin depth)
    | .keyword .kwWhile =>
      unread t
      loopOf (statementWithin depth)
    | .keyword .kwReturn =>
      unread t
      result
    | .identifier _ =>
      let u ← read "'=' or '('"
      match u.lexeme with
      | .mark .assign =>
        unread u
        unread t
        assignmentOf (statementWithin depth)
      | .mark .leftParen =>
        unread u
        unread t
        let c ← call
        return .call c.callee c.args
      | _ => throw ⟨.invalidStatement u.lexeme, u.position⟩
    | _ => unexpected "a statement" t

/-- Reads a statement. -/
def statement : Rule Statement := do statementWithin ((← remaining) + 1)

/-- Reads a block. -/
def block : Rule Block := do blockOf (statementWithin ((← remaining) + 1))

/-- Reads a program, leaving what follows it. -/
def program : Rule Program := do
  discard (word .kwProgram)
  let title ← name
  return ⟨title, ← block⟩

/-- Reads a program that is the whole source. -/
def wholeProgram : Rule Program := do
  let p ← program
  match ← read? with
  | some t => throw ⟨.trailingToken t.lexeme, t.position⟩
  | none => return p

end BraceScript.Rule
