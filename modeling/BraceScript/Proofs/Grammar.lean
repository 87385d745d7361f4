import BraceScript.Tree

/-!
# Proofs/Grammar — the grammar, as derivations with their trees

    program              := "PROGRAM" var block
    block                := "{" statement* "}"
    statement            := function_declaration | if_statement | while_statement
                          | return_statement | assign_statement | function_call
    function_declaration := "def" var "(" (var ("," var)*)? ")" block
    if_statement         := "if" "(" expr_complement ")" block "else" block
    while_statement      := "while" "(" expr_complement ")" block
    return_statement     := "return" expr_complement
    assign_statement     := var "=" (expr_complement | lambda_expr)
    lambda_expr          := "lambda" "(" (var ("," var)*)? ")" ":" block
    function_call        := var "(" (expr_complement ("," expr_complement)*)? ")"
    expr_complement      := expr (rel_op expr)?
    expr                 := term (("+" | "-") term)*
    term                 := factor (("*" | "/" | "//") factor)*
    factor               := ("+" | "-") factor | INT | FLOAT | BOOL
                          | var | function_call | "(" expr_complement ")"

Each nonterminal is a relation between a list of tokens and a tree, with one constructor for each
alternative.  Nothing here looks ahead, and no choice is made: a derivation is any way to cut the
tokens up.  Repetitions and lists are relations over the relation of their parts; a repetition of
operators carries the tree built so far, and so groups from the left.
-/

namespace BraceScript

/-- The token of a name. -/
def Name.token (x : Name) : Token := ⟨.identifier x.text, x.position⟩

namespace Grammar

/-- Which tokens are derived, and with which tree. -/
abbrev Derivation (α : Type) : Type := List Token → α → Prop

/-! ## Repetitions and lists -/

/-- `(op operand)*`, grouped from the left: what follows a first operand with tree `a` makes `c` of
it. -/
inductive Tail (accept : BinaryOp → Bool) (operand : Derivation Expr) :
    Expr → List Token → Expr → Prop
  | stop (a : Expr) : Tail accept operand a [] a
  | more {op : BinaryOp} {p : Position} {a b c : Expr} {us vs : List Token} :
    accept op → operand us b → Tail accept operand (.binary op p a b) vs c →
      Tail accept operand a (⟨.mark op.mark, p⟩ :: (us ++ vs)) c

/-- `operand (op operand)*`, grouped from the left. -/
inductive Joined (accept : BinaryOp → Bool) (operand : Derivation Expr) : Derivation Expr
  | mk {a b : Expr} {us vs : List Token} :
    operand us a → Tail accept operand a vs b → Joined accept operand (us ++ vs) b

/-- `item ("," item)*` -/
inductive Separated {α : Type} (item : Derivation α) : Derivation (List α)
  | one {a : α} {us : List Token} : item us a → Separated item us [a]
  | more {a : α} {as : List α} {p : Position} {us vs : List Token} :
    item us a → Separated item vs as → Separated item (us ++ ⟨.mark .comma, p⟩ :: vs) (a :: as)

/-- `(item ("," item)*)?` -/
inductive Listed {α : Type} (item : Derivation α) : Derivation (List α)
  | none : Listed item [] []
  | some {as : List α} {us : List Token} : Separated item us as → Listed item us as

/-- `item*` -/
inductive Repeated {α : Type} (item : Derivation α) : Derivation (List α)
  | nil : Repeated item [] []
  | cons {a : α} {as : List α} {us vs : List Token} :
    item us a → Repeated item vs as → Repeated item (us ++ vs) (a :: as)

/-! ## Expressions -/

/-- `var` -/
inductive IsName : Derivation Name
  | mk (x : Name) : IsName [x.token] x

mutual

/-- `factor` -/
inductive IsFactor : List Token → Expr → Prop
  | number (n : Number) (p : Position) : IsFactor [⟨.number n, p⟩] (.number n p)
  | bool (b : Bool) (p : Position) : IsFactor [⟨.bool b, p⟩] (.bool b p)
  | var (x : Name) : IsFactor [x.token] (.var x)
  | call {c : Call} {us : List Token} : IsCall us c → IsFactor us (.call c.callee c.args)
  | sign (op : UnaryOp) (p : Position) {a : Expr} {us : List Token} :
    IsFactor us a → IsFactor (⟨.mark op.mark, p⟩ :: us) (.unary op p a)
  /-- Parentheses leave no node. -/
  | parens {p q : Position} {a : Expr} {us : List Token} :
    IsComparison us a → IsFactor (⟨.mark .leftParen, p⟩ :: (us ++ [⟨.mark .rightParen, q⟩])) a

/-- `function_call` -/
inductive IsCall : List Token → Call → Prop
  | mk {x : Name} {p q : Position} {as : List Expr} {us : List Token} : Listed IsComparison us as →
    IsCall (x.token :: ⟨.mark .leftParen, p⟩ :: (us ++ [⟨.mark .rightParen, q⟩])) ⟨x, as⟩

/-- `expr_complement`, over `expr` and `term`. -/
inductive IsComparison : List Token → Expr → Prop
  | sum {a : Expr} {us : List Token} :
    Joined BinaryOp.isAdditive (Joined BinaryOp.isMultiplicative IsFactor) us a → IsComparison us a
  | compare {op : BinaryOp} {p : Position} {a b : Expr} {us vs : List Token} :
    Joined BinaryOp.isAdditive (Joined BinaryOp.isMultiplicative IsFactor) us a → op.isComparison →
      Joined BinaryOp.isAdditive (Joined BinaryOp.isMultiplicative IsFactor) vs b →
      IsComparison (us ++ ⟨.mark op.mark, p⟩ :: vs) (.binary op p a b)

end

/-- `term` -/
abbrev IsProduct : Derivation Expr := Joined BinaryOp.isMultiplicative IsFactor

/-- `expr` -/
abbrev IsSum : Derivation Expr := Joined BinaryOp.isAdditive IsProduct

/-! ## Statements -/

/-- A condition in parentheses. -/
inductive IsCondition : Derivation Expr
  | mk {p q : Position} {a : Expr} {us : List Token} : IsComparison us a →
    IsCondition (⟨.mark .leftParen, p⟩ :: (us ++ [⟨.mark .rightParen, q⟩])) a

/-- Parameters in parentheses. -/
inductive IsParams : Derivation (List Name)
  | mk {p q : Position} {xs : List Name} {us : List Token} : Listed IsName us xs →
    IsParams (⟨.mark .leftParen, p⟩ :: (us ++ [⟨.mark .rightParen, q⟩])) xs

mutual

/-- `statement` -/
inductive IsStatement : List Token → Statement → Prop
  | define {p : Position} {x : Name} {xs : List Name} {b : Block} {us vs : List Token} :
    IsParams us xs → IsBlock vs b →
      IsStatement (⟨.keyword .kwDef, p⟩ :: x.token :: (us ++ vs)) (.define x xs b)
  | branch {p q : Position} {a : Expr} {yes no : Block} {us vs ws : List Token} :
    IsCondition us a → IsBlock vs yes → IsBlock ws no →
      IsStatement (⟨.keyword .kwIf, p⟩ :: (us ++ (vs ++ ⟨.keyword .kwElse, q⟩ :: ws)))
        (.branch a yes no)
  | loop {p : Position} {a : Expr} {b : Block} {us vs : List Token} :
    IsCondition us a → IsBlock vs b →
      IsStatement (⟨.keyword .kwWhile, p⟩ :: (us ++ vs)) (.loop a b)
  | result {p : Position} {a : Expr} {us : List Token} :
    IsComparison us a → IsStatement (⟨.keyword .kwReturn, p⟩ :: us) (.result p a)
  | assign {p : Position} {x : Name} {a : Expr} {us : List Token} :
    IsComparison us a → IsStatement (x.token :: ⟨.mark .assign, p⟩ :: us) (.assign x a)
  /-- A function without a name of its own takes the name that it is assigned to. -/
  | lambda {p q r : Position} {x : Name} {xs : List Name} {b : Block} {us vs : List Token} :
    IsParams us xs → IsBlock vs b →
      IsStatement (x.token :: ⟨.mark .assign, p⟩ :: ⟨.keyword .kwLambda, q⟩ ::
        (us ++ ⟨.mark .colon, r⟩ :: vs)) (.lambda x xs b)
  | call {c : Call} {us : List Token} : IsCall us c → IsStatement us (.call c.callee c.args)

/-- `block` -/
inductive IsBlock : List Token → Block → Prop
  | mk {p q : Position} {b : Block} {us : List Token} : Repeated IsStatement us b →
    IsBlock (⟨.mark .leftBrace, p⟩ :: (us ++ [⟨.mark .rightBrace, q⟩])) b

end

/-- `program` -/
inductive IsProgram : Derivation Program
  | mk {p : Position} {x : Name} {b : Block} {us : List Token} : IsBlock us b →
    IsProgram (⟨.keyword .kwProgram, p⟩ :: x.token :: us) ⟨x, b⟩

end Grammar

end BraceScript
