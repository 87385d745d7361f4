import BraceScript.Grammar.Statement
import BraceScript.Proofs.Feed
import BraceScript.Proofs.Grammar

/-!
# Proofs/Grammar/Complete — what is derived is read

A derivation may be followed by anything, while a rule decides on the next token whether to go on.
So a rule can only be **complete** in front of tokens that do not begin with one that it would go on
with: a parenthesis after a name would make it a call, an operator would extend a product, a sum or
a comparison.  The grammar has no separators, but each level is only ever followed by tokens that
stop it: an operand by an operator of a wider level, an expression by a closing mark, a comma or the
first token of a statement.

The bound on nesting is met by the number of tokens: what is nested in a derivation is shorter than
it.
-/

namespace BraceScript

open Grammar

/-! ## First tokens -/

namespace Lexeme

/-- The lexemes that an expression can begin with. -/
def beginsExpr : Lexeme → Bool
  | .identifier _ | .number _ | .bool _ => true
  | .mark m => m = .leftParen ∨ m = .plus ∨ m = .minus
  | _ => false

/-- The lexemes that a statement can begin with. -/
def beginsStatement : Lexeme → Bool
  | .identifier _ => true
  | .keyword k => k = .kwDef ∨ k = .kwIf ∨ k = .kwWhile ∨ k = .kwReturn
  | _ => false

/-- The lexemes that an expression before them goes on with: a parenthesis, which makes a call of a
name, and some of the operators. -/
def continues (ops : BinaryOp → Bool) (l : Lexeme) : Bool :=
  l.sameClass (.mark .leftParen) || (BinaryOp.ofLexeme? l).any ops

theorem continues_mark (ops : BinaryOp → Bool) (op : BinaryOp) :
    continues ops (.mark op.mark) = ops op := by
  cases op <;> rfl

theorem continues_mono {ops ops' : BinaryOp → Bool} (h : ∀ op, ops op → ops' op) {l : Lexeme}
    (hl : continues ops l) : continues ops' l := by
  simp only [continues, Bool.or_eq_true, Option.any_eq_true] at hl ⊢
  exact hl.imp_right fun ⟨op, hop, hops⟩ => ⟨op, hop, h op hops⟩

/-- No expression begins with the parenthesis that ends a list, so an empty list is told apart. -/
theorem beginsExpr_rightParen (l : Lexeme) (hl : l.beginsExpr) :
    l.sameClass (.mark .rightParen) = false := by
  cases l with
  | mark m => cases m <;> first | rfl | cases hl
  | _ => rfl

theorem beginsExpr_lambda (l : Lexeme) (hl : l.beginsExpr) :
    l.sameClass (.keyword .kwLambda) = false := by
  cases l <;> first | rfl | cases hl

/-- No statement begins with what an expression before it would go on with, which is why statements
need no separator. -/
theorem beginsStatement_continues (ops : BinaryOp → Bool) (l : Lexeme) (hl : l.beginsStatement) :
    continues ops l = false := by
  cases l <;> first | rfl | cases hl

end Lexeme

namespace Grammar

variable {α : Type}

/-- **What is derived has a first token, and it passes the test.** -/
def Starts (p : Lexeme → Bool) (G : Derivation α) : Prop :=
  ∀ ⦃us : List Token⦄ ⦃a : α⦄, G us a → ∃ t vs, us = t :: vs ∧ p t.lexeme

/-- Tokens that begin with something derived do not begin with what it never begins with. -/
theorem Starts.halts {p q : Lexeme → Bool} {G : Derivation α} (hG : Starts p G)
    (hpq : ∀ l, p l → q l = false) {us : List Token} {a : α} (h : G us a) (rest : List Token) :
    Rule.Halts q (us ++ rest) := by
  obtain ⟨t, vs, rfl, ht⟩ := hG h
  exact Rule.halts_cons.mpr (hpq _ ht)

theorem Starts.length_pos {p : Lexeme → Bool} {G : Derivation α} (hG : Starts p G)
    {us : List Token} {a : α} (h : G us a) : 0 < us.length := by
  obtain ⟨t, vs, rfl, -⟩ := hG h
  exact Nat.succ_pos _

theorem Starts.joined {p : Lexeme → Bool} {accept : BinaryOp → Bool} {G : Derivation Expr}
    (hG : Starts p G) : Starts p (Joined accept G) := by
  rintro _ _ ⟨ha, -⟩
  obtain ⟨t, vs, rfl, ht⟩ := hG ha
  exact ⟨t, _, rfl, ht⟩

theorem starts_name : Starts Lexeme.beginsExpr IsName := by
  rintro _ x ⟨⟩
  exact ⟨x.token, [], rfl, rfl⟩

/-- What a factor begins with: a sign, a literal, a name or a parenthesis. -/
theorem starts_factor : Starts Lexeme.beginsExpr IsFactor := by
  intro us a h
  cases h with
  | number n p => exact ⟨_, _, rfl, rfl⟩
  | bool b p => exact ⟨_, _, rfl, rfl⟩
  | var x => exact ⟨_, _, rfl, rfl⟩
  | call hc =>
    obtain ⟨-⟩ := hc
    exact ⟨_, _, rfl, rfl⟩
  | sign op p ha => exact ⟨_, _, rfl, by cases op <;> rfl⟩
  | parens ha => exact ⟨_, _, rfl, rfl⟩

theorem starts_comparison : Starts Lexeme.beginsExpr IsComparison := by
  intro us a h
  cases h with
  | sum ha => exact starts_factor.joined.joined ha
  | compare ha _ _ =>
    obtain ⟨t, vs, rfl, ht⟩ := starts_factor.joined.joined ha
    exact ⟨t, _, rfl, ht⟩

/-- What a statement begins with: a reserved word or a name. -/
theorem starts_statement : Starts Lexeme.beginsStatement IsStatement := by
  intro us c h
  cases h with
  | call hc =>
    obtain ⟨-⟩ := hc
    exact ⟨_, _, rfl, rfl⟩
  | _ => exact ⟨_, _, rfl, rfl⟩

/-- After the operands of a chain stands an operator of the chain, or what follows the chain. -/
theorem Tail.halts {accept ops : BinaryOp → Bool} {G : Derivation Expr}
    (hops : ∀ op, accept op → ops op = false) {a c : Expr} {us rest : List Token}
    (h : Tail accept G a us c) (hrest : Rule.Halts (Lexeme.continues ops) rest) :
    Rule.Halts (Lexeme.continues ops) (us ++ rest) := by
  cases h with
  | stop => exact hrest
  | more haccept _ _ =>
    exact Rule.halts_cons.mpr ((Lexeme.continues_mark ops _).trans (hops _ haccept))

end Grammar

namespace Rule

variable {α : Type}

/-- **The rule reads every derivation of at most `n` tokens**, in front of tokens that an expression
does not go on with. -/
def Complete (x : Rule α) (G : Derivation α) (ops : BinaryOp → Bool) (n : Nat) : Prop :=
  ∀ ⦃us : List Token⦄ ⦃a : α⦄ ⦃rest : List Token⦄, G us a → us.length ≤ n →
    Halts (Lexeme.continues ops) rest → Reads x (us ++ rest) a rest

theorem Halts.mono {ops ops' : BinaryOp → Bool} {ts : List Token}
    (h : Halts (Lexeme.continues ops') ts) (hops : ∀ op, ops op → ops' op) :
    Halts (Lexeme.continues ops) ts :=
  h.imp fun _ => Lexeme.continues_mono hops

/-! ## Names, operators and lists -/

theorem reads_name (x : Name) (rest : List Token) : Reads name (x.token :: rest) x rest :=
  (reads_read _ x.token rest).bind (.pure x rest)

theorem complete_name (ops : BinaryOp → Bool) (n : Nat) : Complete name IsName ops n := by
  rintro _ x rest ⟨⟩ - -
  exact reads_name x rest

theorem reads_operator {accept : BinaryOp → Bool} {op : BinaryOp} (h : accept op) (p : Position)
    (rest : List Token) :
    Reads (operator accept) (⟨.mark op.mark, p⟩ :: rest) (some (op, p)) rest := by
  refine (reads_read? _ rest).bind ?_
  simp only [BinaryOp.ofLexeme?, BinaryOp.ofMark?_mark, Option.filter_some, h, if_true]
  exact .pure _ rest

/-- An operator that is not accepted is put back. -/
theorem reads_operator_none {accept : BinaryOp → Bool} {ts : List Token}
    (h : Halts (Lexeme.continues accept) ts) : Reads (operator accept) ts none ts := by
  cases ts with
  | nil => exact reads_read?_nil.bind (.pure none [])
  | cons t v =>
    refine (reads_read? t v).bind ?_
    have hnone : (BinaryOp.ofLexeme? t.lexeme).filter accept = none := by
      have hany := (Bool.or_eq_false_iff.mp (halts_cons.mp h)).2
      cases hop : BinaryOp.ofLexeme? t.lexeme with
      | none => rfl
      | some op => simpa [hop] using hany
    simp only [hnone]
    exact (reads_unread t v).bind (.pure none (t :: v))

section Chain

variable {accept ops : BinaryOp → Bool} {operand : Rule Expr} {G : Derivation Expr} {n : Nat}
  (hoperand : Complete operand G ops n) (hops : ∀ op, accept op → ops op = false)

include hoperand hops

/-- **A chain of operands is read to its end**, if the bound on its length is no smaller than the
tokens left. -/
theorem reads_chainWithin {a c : Expr} {us rest : List Token} (h : Tail accept G a us c)
    (hrest : Halts (Lexeme.continues fun op => ops op || accept op) rest) :
    ∀ {count : Nat}, us.length ≤ n → us.length ≤ count →
      Reads (chainWithin accept operand count a) (us ++ rest) c rest := by
  have hstop : Halts (Lexeme.continues ops) rest :=
    hrest.mono fun _ hop => Bool.or_eq_true_iff.mpr (.inl hop)
  induction h with
  | stop a =>
    intro count _ _
    have hnone : Halts (Lexeme.continues accept) rest :=
      hrest.mono fun _ hop => Bool.or_eq_true_iff.mpr (.inr hop)
    cases count with
    | zero => exact .pure a rest
    | succ count => exact (reads_operator_none hnone).bind (.pure a rest)
  | @more op p a b c us vs haccept hb htail ih =>
    intro count hn hcount
    simp only [List.length_cons, List.length_append] at hn hcount
    obtain ⟨count, rfl⟩ := Nat.exists_eq_add_one.mpr (show 0 < count by omega)
    rw [List.cons_append, List.append_assoc]
    refine (reads_operator haccept p _).bind ?_
    refine (hoperand hb (by omega) (htail.halts hops hstop)).bind ?_
    exact ih (by omega) (by omega)

/-- A chain reads its operands as far as the operators go. -/
theorem complete_chain :
    Complete (chain accept operand) (Joined accept G) (fun op => ops op || accept op) n := by
  rintro _ c rest ⟨ha, htail⟩ hn hrest
  have hstop : Halts (Lexeme.continues ops) rest :=
    hrest.mono fun _ hop => Bool.or_eq_true_iff.mpr (.inl hop)
  rw [List.length_append] at hn
  rw [List.append_assoc]
  refine (hoperand ha (by omega) (htail.halts hops hstop)).bind (.remaining fun count hcount => ?_)
  rw [List.length_append] at hcount
  exact reads_chainWithin hoperand hops htail hrest (by omega) (by omega)

end Chain

section Lists

variable {item : Rule α} {G : Derivation α} {ops : BinaryOp → Bool} {n : Nat}
  (hitem : Complete item G ops n)

include hitem

/-- The closing parenthesis is read with the items. -/
theorem reads_itemsWithin {us rest : List Token} {as : List α} (h : Separated G us as)
    (q : Position) : ∀ {count : Nat}, us.length ≤ n → us.length < count →
      Reads (itemsWithin item count) (us ++ ⟨.mark .rightParen, q⟩ :: rest) as rest := by
  induction h with
  | @one a us ha =>
    intro count hn hcount
    obtain ⟨count, rfl⟩ := Nat.exists_eq_add_one.mpr (show 0 < count by omega)
    refine (hitem ha hn (halts_cons.mpr rfl)).bind ?_
    exact (reads_read _ _ rest).bind (.pure [a] rest)
  | @more a as p us vs ha _ ih =>
    intro count hn hcount
    rw [List.length_append, List.length_cons] at hn hcount
    obtain ⟨count, rfl⟩ := Nat.exists_eq_add_one.mpr (show 0 < count by omega)
    rw [List.append_assoc, List.cons_append]
    refine (hitem ha (by omega) (halts_cons.mpr rfl)).bind ?_
    refine (reads_read _ _ _).bind ?_
    exact (ih (by omega) (by omega)).bind (.pure (a :: as) rest)

/-- No item begins with the parenthesis that closes a list. -/
theorem reads_commaSeparated (hG : Starts Lexeme.beginsExpr G) {us rest : List Token} {as : List α}
    (h : Listed G us as) (q : Position) (hn : us.length ≤ n) :
    Reads (commaSeparated item) (us ++ ⟨.mark .rightParen, q⟩ :: rest) as rest := by
  cases h with
  | none => exact (reads_accept? rfl rest).bind (.pure [] rest)
  | some has =>
    have hfirst : Halts (fun l => l.sameClass (.mark .rightParen))
        (us ++ ⟨.mark .rightParen, q⟩ :: rest) := by
      cases has with
      | one ha => exact hG.halts Lexeme.beginsExpr_rightParen ha _
      | more ha _ =>
        rw [List.append_assoc]
        exact hG.halts Lexeme.beginsExpr_rightParen ha _
    refine (reads_accept?_none hfirst).bind (.remaining fun count hcount => ?_)
    rw [List.length_append] at hcount
    exact reads_itemsWithin hitem has q hn (by omega)

end Lists

/-! ## Expressions -/

section Expressions

variable {factor : Rule Expr} {n : Nat} (hfactor : Complete factor IsFactor (fun _ => false) n)

include hfactor

theorem complete_productOf : Complete (productOf factor) IsProduct BinaryOp.isMultiplicative n := by
  intro us a rest h hn hrest
  exact complete_chain hfactor (fun _ _ => rfl) h hn hrest

theorem complete_sumOf :
    Complete (sumOf factor) IsSum (fun op => op.isMultiplicative || op.isAdditive) n :=
  complete_chain (complete_productOf hfactor) fun op hop => by cases op <;> first | rfl | cases hop

/-- A comparison is read in front of anything that no expression goes on with. -/
theorem complete_comparisonOf : Complete (comparisonOf factor) IsComparison (fun _ => true) n := by
  intro us c rest h hn hrest
  cases h with
  | sum ha =>
    refine (complete_sumOf hfactor ha hn (hrest.mono fun _ _ => rfl)).bind ?_
    exact (reads_operator_none (hrest.mono fun _ _ => rfl)).bind
      (.pure c rest)
  | @compare op p a b us vs ha haccept hb =>
    rw [List.length_append, List.length_cons] at hn
    rw [List.append_assoc, List.cons_append]
    have hstop : (op.isMultiplicative || op.isAdditive) = false := by
      cases op <;> first | rfl | cases haccept
    refine (complete_sumOf hfactor ha (by omega)
      (halts_cons.mpr ((Lexeme.continues_mark _ op).trans hstop))).bind ?_
    refine (reads_operator haccept p _).bind ?_
    refine (complete_sumOf hfactor hb (by omega)
      (hrest.mono fun _ _ => rfl)).bind ?_
    exact .pure _ rest

/-- A call ends with its parenthesis, whatever follows. -/
theorem reads_callOf {c : Call} {us : List Token} (h : IsCall us c) (hn : us.length ≤ n + 1)
    (rest : List Token) : Reads (callOf factor) (us ++ rest) c rest := by
  obtain @⟨x, p, q, as, us, has⟩ := h
  simp only [List.length_cons, List.length_append] at hn
  simp only [List.cons_append, List.append_assoc, List.nil_append]
  refine (reads_name x _).bind ?_
  refine (reads_mark .leftParen p _).discard.bind ?_
  exact (reads_commaSeparated (complete_comparisonOf hfactor) starts_comparison has q
    (by omega)).bind
    (.pure _ rest)

end Expressions

/-- **Factors are complete**: a bound on nesting allows for as many tokens. -/
theorem complete_factorWithin :
    ∀ depth, Complete (factorWithin depth) IsFactor (fun _ => false) depth
  | 0 => by
    intro us a rest h hn _
    exact absurd (starts_factor.length_pos h) (by omega)
  | depth + 1 => by
    intro us a rest h hn hrest
    have ih := complete_factorWithin depth
    cases h with
    | number n p => exact (reads_read _ _ rest).bind (.pure _ rest)
    | bool b p => exact (reads_read _ _ rest).bind (.pure _ rest)
    | var x =>
      have hname : Halts (fun l => l.sameClass (.mark .leftParen)) rest :=
        hrest.imp fun _ hl => Bool.or_eq_true_iff.mpr (.inl hl)
      refine (reads_read _ x.token rest).bind ?_
      exact (reads_accept?_none hname).bind (.pure _ rest)
    | call hc =>
      -- The name and the parenthesis are read to see that this is a call, and put back.
      have hcall := reads_callOf ih hc hn rest
      obtain @⟨x, p, q, as, us, has⟩ := hc
      refine (reads_read _ x.token _).bind ?_
      refine (reads_accept? (t := ⟨.mark .leftParen, p⟩) rfl _).bind ?_
      refine (reads_unread _ _).bind ((reads_unread _ _).bind ?_)
      exact hcall.bind (.pure _ rest)
    | sign op p ha =>
      have hoperand := ih ha (Nat.le_of_succ_le_succ hn) hrest
      refine (reads_read _ _ _).bind ?_
      cases op <;> exact hoperand.bind (.pure _ rest)
    | @parens p q a us ha =>
      simp only [List.length_cons, List.length_append] at hn
      simp only [List.cons_append, List.append_assoc, List.nil_append]
      refine (reads_read _ _ _).bind ?_
      refine (complete_comparisonOf ih ha (by omega) (halts_cons.mpr rfl)).bind ?_
      exact (reads_mark .rightParen q rest).discard.bind (.pure a rest)

/-- **Comparisons are complete**, of any length. -/
theorem reads_comparison {us rest : List Token} {a : Expr} (h : IsComparison us a)
    (hrest : Halts (Lexeme.continues fun _ => true) rest) :
    Reads comparison (us ++ rest) a rest := by
  refine .remaining fun n hn => ?_
  rw [List.length_append] at hn
  exact complete_comparisonOf (complete_factorWithin (n + 1)) h (by omega) hrest

theorem reads_call {us : List Token} {c : Call} (h : IsCall us c) (rest : List Token) :
    Reads call (us ++ rest) c rest := by
  refine .remaining fun n hn => ?_
  rw [List.length_append] at hn
  exact reads_callOf (complete_factorWithin (n + 1)) h (by omega) rest

/-! ## Statements -/

theorem reads_condition {us : List Token} {a : Expr} (h : IsCondition us a) (rest : List Token) :
    Reads condition (us ++ rest) a rest := by
  obtain @⟨p, q, a, us, ha⟩ := h
  simp only [List.cons_append, List.append_assoc, List.nil_append]
  refine (reads_mark .leftParen p _).discard.bind ?_
  refine (reads_comparison ha (halts_cons.mpr rfl)).bind ?_
  exact (reads_mark .rightParen q rest).discard.bind (.pure a rest)

/-- Parameters are read in two steps, the parenthesis first. -/
theorem reads_params {us : List Token} {xs : List Name} (h : IsParams us xs) (rest : List Token) :
    ∃ vs, Reads (discard (mark .leftParen)) (us ++ rest) () vs ∧ Reads params vs xs rest := by
  obtain @⟨p, q, xs, us, hxs⟩ := h
  simp only [List.cons_append, List.append_assoc, List.nil_append]
  refine ⟨_, (reads_mark .leftParen p _).discard, ?_⟩
  exact reads_commaSeparated (complete_name (fun _ => false) us.length) starts_name hxs q
    (Nat.le_refl _)

/-- After a statement of a block stands another one or the closing brace, and no expression goes on
with either. -/
theorem halts_statements {us : List Token} {b : Block} (h : Repeated IsStatement us b)
    (ops : BinaryOp → Bool) (q : Position) (rest : List Token) :
    Halts (Lexeme.continues ops) (us ++ ⟨.mark .rightBrace, q⟩ :: rest) := by
  cases h with
  | nil => exact halts_cons.mpr rfl
  | cons hc _ =>
    rw [List.append_assoc]
    exact starts_statement.halts (Lexeme.beginsStatement_continues ops) hc _

section Statements

variable {statement : Rule Statement} {n : Nat}
  (hstatement : Complete statement IsStatement (fun _ => true) n)

include hstatement

/-- The closing brace is left. -/
theorem reads_statementsWithin {us : List Token} {b : Block} (h : Repeated IsStatement us b)
    (q : Position) (rest : List Token) : ∀ {count : Nat}, us.length ≤ n → us.length < count →
      Reads (statementsWithin statement count) (us ++ ⟨.mark .rightBrace, q⟩ :: rest) b
        (⟨.mark .rightBrace, q⟩ :: rest) := by
  induction h with
  | nil =>
    intro count _ hcount
    obtain ⟨count, rfl⟩ := Nat.exists_eq_add_one.mpr (show 0 < count by omega)
    exact (reads_read _ _ _).bind ((reads_unread _ _).bind (.pure [] _))
  | @cons c b us vs hc hb ih =>
    intro count hn hcount
    have hfollow := halts_statements hb (fun _ => true) q rest
    have hpos := starts_statement.length_pos hc
    obtain ⟨t, ts, hus, ht⟩ := starts_statement hc
    rw [List.length_append] at hn hcount
    obtain ⟨count, rfl⟩ := Nat.exists_eq_add_one.mpr (show 0 < count by omega)
    have hfirst := hstatement hc (by omega) hfollow
    have hothers := ih (show vs.length ≤ n by omega) (show vs.length < count by omega)
    rw [List.append_assoc]
    rw [hus] at hfirst ⊢
    refine (reads_read _ t _).bind ((reads_unread t _).bind ?_)
    split
    · next hbrace => exact absurd ht (by simp [hbrace, Lexeme.beginsStatement])
    · exact hfirst.bind (hothers.bind (.pure (c :: b) _))

/-- A block ends with its brace, whatever follows. -/
theorem reads_blockOf {us : List Token} {b : Block} (h : IsBlock us b) (hn : us.length ≤ n + 1)
    (rest : List Token) : Reads (blockOf statement) (us ++ rest) b rest := by
  obtain @⟨p, q, b, us, hb⟩ := h
  simp only [List.length_cons, List.length_append] at hn
  simp only [List.cons_append, List.append_assoc, List.nil_append]
  refine (reads_mark .leftBrace p _).discard.bind (.remaining fun count hcount => ?_)
  rw [List.length_append] at hcount
  refine (reads_statementsWithin hstatement hb q rest (by omega) (by omega)).bind ?_
  exact (reads_mark .rightBrace q rest).discard.bind (.pure b rest)

end Statements

/-- **Statements are complete**: a bound on nesting allows for as many tokens. -/
theorem complete_statementWithin : ∀ depth,
    Complete (statementWithin depth) IsStatement (fun _ => true) depth
  | 0 => by
    intro us c rest h hn _
    exact absurd (starts_statement.length_pos h) (by omega)
  | depth + 1 => by
    intro us c rest h hn hrest
    have hblock {us : List Token} {b : Block} (h : IsBlock us b) (hn : us.length ≤ depth + 1) :=
      reads_blockOf (complete_statementWithin depth) h hn
    cases h with
    | @define p x xs b us vs hxs hb =>
      simp only [List.length_cons, List.length_append] at hn
      simp only [List.cons_append, List.append_assoc]
      obtain ⟨ws, hopen, hparams⟩ := reads_params hxs (vs ++ rest)
      refine (reads_read _ _ _).bind ((reads_unread _ _).bind ?_)
      refine (reads_word .kwDef p _).discard.bind ((reads_name x _).bind ?_)
      refine hopen.bind (hparams.bind ?_)
      exact (hblock hb (by omega) rest).bind (.pure _ rest)
    | @branch p q a yes no us vs ws ha hyes hno =>
      simp only [List.length_cons, List.length_append] at hn
      simp only [List.cons_append, List.append_assoc]
      refine (reads_read _ _ _).bind ((reads_unread _ _).bind ?_)
      refine (reads_word .kwIf p _).discard.bind ((reads_condition ha _).bind ?_)
      refine (hblock hyes (by omega) _).bind ?_
      refine (reads_word .kwElse q _).discard.bind ?_
      exact (hblock hno (by omega) rest).bind (.pure _ rest)
    | @loop p a b us vs ha hb =>
      simp only [List.length_cons, List.length_append] at hn
      simp only [List.cons_append, List.append_assoc]
      refine (reads_read _ _ _).bind ((reads_unread _ _).bind ?_)
      refine (reads_word .kwWhile p _).discard.bind ((reads_condition ha _).bind ?_)
      exact (hblock hb (by omega) rest).bind (.pure _ rest)
    | @result p a us ha =>
      refine (reads_read _ _ _).bind ((reads_unread _ _).bind ?_)
      refine (reads_word .kwReturn p _).bind ?_
      exact (reads_comparison ha hrest).bind (.pure _ rest)
    | @assign p x a us ha =>
      -- No expression begins with the word that would make this a function.
      have hvalue := starts_comparison.halts Lexeme.beginsExpr_lambda ha rest
      refine (reads_read _ x.token _).bind ((reads_read _ _ _).bind ?_)
      refine (reads_unread _ _).bind ((reads_unread _ _).bind ?_)
      refine (reads_name x _).bind ((reads_mark .assign p _).discard.bind ?_)
      refine (reads_accept?_none hvalue).bind ?_
      exact (reads_comparison ha hrest).bind (.pure _ rest)
    | @lambda p q r x xs b us vs hxs hb =>
      simp only [List.length_cons, List.length_append] at hn
      simp only [List.cons_append, List.append_assoc]
      obtain ⟨ws, hopen, hparams⟩ := reads_params hxs (⟨.mark .colon, r⟩ :: (vs ++ rest))
      refine (reads_read _ x.token _).bind ((reads_read _ _ _).bind ?_)
      refine (reads_unread _ _).bind ((reads_unread _ _).bind ?_)
      refine (reads_name x _).bind ((reads_mark .assign p _).discard.bind ?_)
      refine (reads_accept? (t := ⟨.keyword .kwLambda, q⟩) rfl _).bind ?_
      refine hopen.bind (hparams.bind ?_)
      refine (reads_mark .colon r _).discard.bind ?_
      exact (hblock hb (by omega) rest).bind (.pure _ rest)
    | call hc =>
      have hcall := reads_call hc rest
      obtain @⟨x, p, q, as, us, has⟩ := hc
      refine (reads_read _ x.token _).bind ((reads_read _ ⟨.mark .leftParen, p⟩ _).bind ?_)
      refine (reads_unread _ _).bind ((reads_unread _ _).bind ?_)
      exact hcall.bind (.pure _ rest)

/-- **Blocks are complete**, of any length. -/
theorem reads_block {us : List Token} {b : Block} (h : IsBlock us b) (rest : List Token) :
    Reads block (us ++ rest) b rest := by
  refine .remaining fun n hn => ?_
  rw [List.length_append] at hn
  exact reads_blockOf (complete_statementWithin (n + 1)) h (by omega) rest

/-- **Programs are complete**, of any length. -/
theorem reads_program {us : List Token} {r : Program} (h : IsProgram us r) (rest : List Token) :
    Reads program (us ++ rest) r rest := by
  obtain @⟨p, x, b, us, hb⟩ := h
  rw [List.cons_append, List.cons_append]
  refine (reads_word .kwProgram p _).discard.bind ((reads_name x _).bind ?_)
  exact (reads_block hb rest).bind (.pure _ rest)

/-- A program is read where it is the whole source: nothing is left after it. -/
theorem reads_wholeProgram {us : List Token} {r : Program} (h : IsProgram us r) :
    Reads wholeProgram us r [] := by
  have hprogram := reads_program h []
  rw [List.append_nil] at hprogram
  exact hprogram.bind (reads_read?_nil.bind (.pure r []))

end Rule

end BraceScript
