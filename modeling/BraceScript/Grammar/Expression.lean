import BraceScript.Feed
import BraceScript.Tree

/-!
# Grammar/Expression — reading expressions

A comparison is a sum, or two sums joined by one relational operator; a sum joins products, a
product joins factors, both grouped from the left.  A factor is a literal, a name, a call, a sign
before a factor, or a comparison in parentheses.

Each level is written over the reader of factors, and `factorWithin` closes the circle.  Its bound
is on the nesting, and every nested factor follows at least one token more, so the number of items
left is enough; a loop takes at least one token a turn, and is bounded in the same way.
-/

namespace BraceScript.Rule

/-- Reads a name. -/
def name : Rule Name := do
  let t ← read "identifier"
  match t.lexeme with
  | .identifier text => return ⟨text, t.position⟩
  | _ => unexpected "identifier" t

/-- Reads items separated by commas up to a closing parenthesis, at most `count` of them. -/
def itemsWithin {α : Type} (item : Rule α) : Nat → Rule (List α)
  | 0 => endOfInput "',' or ')'"
  | count + 1 => do
    let first ← item
    let t ← read "',' or ')'"
    match t.lexeme with
    | .mark .comma => return first :: (← itemsWithin item count)
    | .mark .rightParen => return [first]
    | _ => unexpected "',' or ')'" t

/-- Reads a possibly empty list, separated by commas and closed by a parenthesis. -/
def commaSeparated {α : Type} (item : Rule α) : Rule (List α) := do
  match ← accept? (.mark .rightParen) with
  | some _ => return []
  | none => itemsWithin item ((← remaining) + 1)

/-- Reads a binary operator that is accepted here; else puts back what it read. -/
def operator (accept : BinaryOp → Bool) : Rule (Option (BinaryOp × Position)) := do
  match ← read? with
  | none => return none
  | some t =>
    match (BinaryOp.ofLexeme? t.lexeme).filter accept with
    | some op => return some (op, t.position)
    | none =>
      unread t
      return none

/-- Extends an expression to the right by operators and operands, at most `count` times. -/
def chainWithin (accept : BinaryOp → Bool) (operand : Rule Expr) : Nat → Expr → Rule Expr
  | 0, left => return left
  | count + 1, left => do
    match ← operator accept with
    | none => return left
    | some (op, p) =>
      let right ← operand
      chainWithin accept operand count (.binary op p left right)

/-- Reads operands joined by accepted operators, grouped from the left. -/
def chain (accept : BinaryOp → Bool) (operand : Rule Expr) : Rule Expr := do
  let first ← operand
  chainWithin accept operand (← remaining) first

/-- Reads a product. -/
def productOf (factor : Rule Expr) : Rule Expr := chain BinaryOp.isMultiplicative factor

/-- Reads a sum. -/
def sumOf (factor : Rule Expr) : Rule Expr := chain BinaryOp.isAdditive (productOf factor)

/-- Reads a comparison. -/
def comparisonOf (factor : Rule Expr) : Rule Expr := do
  let left ← sumOf factor
  match ← operator BinaryOp.isComparison with
  | none => return left
  | some (op, p) => return .binary op p left (← sumOf factor)

/-- Reads a call. -/
def callOf (factor : Rule Expr) : Rule Call := do
  let callee ← name
  discard (mark .leftParen)
  return ⟨callee, ← commaSeparated (comparisonOf factor)⟩

/-- Reads a factor with less than `depth` others nested in it. -/
def factorWithin : Nat → Rule Expr
  | 0 => endOfInput "an expression"
  | depth + 1 => do
    let t ← read "an expression"
    match t.lexeme with
    | .identifier text =>
      match ← accept? (.mark .leftParen) with
      | some paren =>
        unread paren
        unread t
        let c ← callOf (factorWithin depth)
        return .call c.callee c.args
      | none => return .var ⟨text, t.position⟩
    | .number value => return .number value t.position
    | .bool value => return .bool value t.position
    | .mark .leftParen =>
      let inner ← comparisonOf (factorWithin depth)
      discard (mark .rightParen)
      return inner
    | .mark .plus => return .unary .plus t.position (← factorWithin depth)
    | .mark .minus => return .unary .minus t.position (← factorWithin depth)
    | _ => unexpected "an expression" t

/-- Reads a factor. -/
def factor : Rule Expr := do factorWithin ((← remaining) + 1)

/-- Reads a product. -/
def product : Rule Expr := do productOf (factorWithin ((← remaining) + 1))

/-- Reads a sum. -/
def sum : Rule Expr := do sumOf (factorWithin ((← remaining) + 1))

/-- Reads a comparison, the widest form of expression. -/
def comparison : Rule Expr := do comparisonOf (factorWithin ((← remaining) + 1))

/-- Reads a call. -/
def call : Rule Call := do callOf (factorWithin ((← remaining) + 1))

end BraceScript.Rule
