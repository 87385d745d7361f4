import BraceScript.Tree

/-!
# Tree/Outline — trees in parentheses

The outline of a tree shows every node in prefix form with its position, as in
`(binary + @1:7 (var x @1:5) (int 1 @1:9))`.
-/

namespace BraceScript

/-- A position in an outline. -/
def Position.outline (p : Position) : String := s!"@{p.line}:{p.column}"

/-- A node: its parts between parentheses, with one blank between them. -/
def outlineNode (parts : List String) : String := "(" ++ " ".intercalate parts ++ ")"

/-- The parameters of a function. -/
def outlineParams (params : List Name) : String :=
  outlineNode ("params" :: params.map fun p => p.text ++ p.position.outline)

mutual

/-- The outline of an expression. -/
def Expr.outline : Expr → String
  | .number (.int n) p => outlineNode ["int", Decimal.integerText n.toInt, p.outline]
  | .number (.float x) p => outlineNode ["float", Decimal.text x, p.outline]
  | .bool b p => outlineNode ["bool", if b then "true" else "false", p.outline]
  | .var x => outlineNode ["var", x.text, x.position.outline]
  | .unary op p a => outlineNode ["unary", op.text, p.outline, a.outline]
  | .binary op p a b => outlineNode ["binary", op.text, p.outline, a.outline, b.outline]
  | .call f args =>
    outlineNode ["call", f.text, f.position.outline, outlineNode ("args" :: Expr.outlines args)]

/-- The outlines of a list of expressions. -/
def Expr.outlines : List Expr → List String
  | [] => []
  | e :: rest => e.outline :: Expr.outlines rest

end

/-- The outline of a call. -/
def Call.outline (c : Call) : String := (Expr.call c.callee c.args).outline

mutual

/-- The outline of a statement. -/
def Statement.outline : Statement → String
  | .assign x e => outlineNode ["assign", x.text, x.position.outline, e.outline]
  | .lambda x params body =>
    outlineNode ["assign", x.text, x.position.outline,
      outlineNode ["lambda", x.text, x.position.outline, outlineParams params,
        outlineNode ("block" :: Statement.outlines body)]]
  | .define x params body =>
    outlineNode ["def", x.text, x.position.outline, outlineParams params,
      outlineNode ("block" :: Statement.outlines body)]
  | .call f args => Call.outline ⟨f, args⟩
  | .branch c yes no =>
    outlineNode ["if", c.outline, outlineNode ("block" :: Statement.outlines yes),
      outlineNode ("block" :: Statement.outlines no)]
  | .loop c body =>
    outlineNode ["while", c.outline, outlineNode ("block" :: Statement.outlines body)]
  | .result p e => outlineNode ["return", p.outline, e.outline]

/-- The outlines of a list of statements. -/
def Statement.outlines : List Statement → List String
  | [] => []
  | s :: rest => s.outline :: Statement.outlines rest

end

/-- The outline of a block. -/
def Block.outline (b : Block) : String := outlineNode ("block" :: Statement.outlines b)

end BraceScript
