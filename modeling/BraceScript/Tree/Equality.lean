import BraceScript.Tree

/-!
# Tree/Equality — when two trees are the same

Trees are compared node by node, positions included.  Numbers compare as `Number.same` says, so two
doubles that differ only in the sign of a zero do not tell two trees apart.
-/

namespace BraceScript

mutual

/-- Whether two expressions are the same. -/
def Expr.same : Expr → Expr → Bool
  | .number a p, .number b q => a.same b && p == q
  | .bool a p, .bool b q => a == b && p == q
  | .var a, .var b => a == b
  | .unary f p a, .unary g q b => f == g && p == q && a.same b
  | .binary f p a b, .binary g q c d => f == g && p == q && a.same c && b.same d
  | .call f as, .call g bs => f == g && Expr.sameAll as bs
  | _, _ => false

/-- Whether two lists of expressions are the same. -/
def Expr.sameAll : List Expr → List Expr → Bool
  | [], [] => true
  | a :: as, b :: bs => a.same b && Expr.sameAll as bs
  | _, _ => false

end

mutual

/-- Whether two statements are the same. -/
def Statement.same : Statement → Statement → Bool
  | .assign x a, .assign y b => x == y && a.same b
  | .lambda x ps a, .lambda y qs b => x == y && ps == qs && Statement.sameAll a b
  | .define x ps a, .define y qs b => x == y && ps == qs && Statement.sameAll a b
  | .call f as, .call g bs => f == g && Expr.sameAll as bs
  | .branch c a b, .branch d e f => c.same d && Statement.sameAll a e && Statement.sameAll b f
  | .loop c a, .loop d b => c.same d && Statement.sameAll a b
  | .result p a, .result q b => p == q && a.same b
  | _, _ => false

/-- Whether two blocks are the same. -/
def Statement.sameAll : List Statement → List Statement → Bool
  | [], [] => true
  | a :: as, b :: bs => a.same b && Statement.sameAll as bs
  | _, _ => false

end

/-- Whether two routines are the same. -/
def Routine.same (a b : Routine) : Bool :=
  a.name == b.name && a.params == b.params && Statement.sameAll a.body b.body

end BraceScript
