import BraceScript.Token

/-!
# Operator — the unary and binary operators
-/

namespace BraceScript

/-- An operator between two operands. -/
inductive BinaryOp
  | add
  | sub
  | mul
  /-- Division that stays among the integers when both operands are integers. -/
  | div
  /-- Division that always gives a double. -/
  | trueDiv
  | greater
  | less
  | greaterEqual
  | lessEqual
  | equal
  | notEqual
deriving DecidableEq, Repr

namespace BinaryOp

/-- The mark of an operator. -/
def mark : BinaryOp → Mark
  | add => .plus
  | sub => .minus
  | mul => .star
  | div => .slash
  | trueDiv => .doubleSlash
  | greater => .greater
  | less => .less
  | greaterEqual => .greaterEqual
  | lessEqual => .lessEqual
  | equal => .equalEqual
  | notEqual => .bangEqual

/-- The operator of a mark. -/
def ofMark? : Mark → Option BinaryOp
  | .plus => some add
  | .minus => some sub
  | .star => some mul
  | .slash => some div
  | .doubleSlash => some trueDiv
  | .greater => some greater
  | .less => some less
  | .greaterEqual => some greaterEqual
  | .lessEqual => some lessEqual
  | .equalEqual => some equal
  | .bangEqual => some notEqual
  | _ => none

/-- An operator is found under its own mark. -/
theorem ofMark?_mark (op : BinaryOp) : ofMark? op.mark = some op := by cases op <;> rfl

/-- The operator of a token. -/
def ofLexeme? : Lexeme → Option BinaryOp
  | .mark m => ofMark? m
  | _ => none

/-- The spelling of an operator. -/
def text (op : BinaryOp) : String := op.mark.text

/-- The operators that join terms to a sum. -/
def isAdditive : BinaryOp → Bool
  | add | sub => true
  | _ => false

/-- The operators that join factors to a product. -/
def isMultiplicative : BinaryOp → Bool
  | mul | div | trueDiv => true
  | _ => false

/-- The operators that compare. -/
def isComparison : BinaryOp → Bool
  | greater | less | greaterEqual | lessEqual | equal | notEqual => true
  | _ => false

end BinaryOp

/-- A sign before an operand. -/
inductive UnaryOp
  | plus
  | minus
deriving DecidableEq, Repr

namespace UnaryOp

/-- The mark of a sign. -/
def mark : UnaryOp → Mark
  | plus => .plus
  | minus => .minus

/-- The spelling of a sign. -/
def text (op : UnaryOp) : String := op.mark.text

end UnaryOp

end BraceScript
