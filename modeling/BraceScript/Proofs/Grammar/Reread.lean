import BraceScript.Proofs.Log
import BraceScript.Proofs.Reread
import BraceScript.Proofs.Token.Cut

/-!
# Proofs/Grammar/Reread — reading again adds up, and does not multiply

Where an expression ends, every level of the grammar looks at the next token and puts it back: a
name to see whether it is called, a product, a sum and a comparison to see whether they go on.
After that a list of statements looks at it, and the statement that begins with it reads it twice,
once to know its form.  These are seven readings, and there is no eighth, however deep the construct
is nested: a construct that encloses another goes on with a token of its own.

A rule that reads an operand may be called on a token read up to five times, and leaves one read as
many times as there are levels below it (`Operand`).
-/

namespace BraceScript

namespace Rule

namespace Rereads

variable {α : Type} {held : List (Token × Nat)} {ks js : List Nat}

/-- An operator is taken; any other token was read once more. -/
theorem operator_bind {accept : BinaryOp → Bool} {f : Option (BinaryOp × Position) → Rule α}
    (hk : ks.headD 0 < 7) (hsome : ∀ op p, Rereads [] ks.tail (f (some (op, p))) js)
    (hnone : Rereads held ((ks.headD 0 + 1) :: ks.tail) (f none) js) :
    Rereads held ks (operator accept >>= f) js := by
  rw [operator, bind_assoc]
  refine read?_bind hk (fun t => ?_) fun _ _ hs => hnone (hs.mono fun _ => Nat.zero_le _)
  rcases hop : (BinaryOp.ofLexeme? t.lexeme).filter accept with _ | op
  · simp only [hop]
    exact unread_bind (f := fun _ => f none) hnone
  · simp only [hop]
    exact (hsome op t.position).forget

/-- A name may be a token that was read before, but not too often. -/
theorem name_bind {f : Name → Rule α} (hk : ks.headD 0 < 7)
    (hf : ∀ a, Rereads [] ks.tail (f a) js) : Rereads held ks (name >>= f) js := by
  rw [name, bind_assoc]
  refine read_bind hk fun t => ?_
  rcases t with ⟨l, p⟩
  cases l with
  | identifier text => exact (hf _).forget
  | _ => exact throw _

/-- Nothing is left of what was read before. -/
theorem anew {x : Rule α} (h : Rereads held ks x []) (js : List Nat) : Rereads held ks x js :=
  h.mono fun _ => Nat.zero_le _

/-- The next token was read a few times more at most. -/
theorem more {x : Rule α} {j j' : Nat} (h : Rereads held ks x [j]) (hj : j ≤ j') :
    Rereads held ks x [j'] := by
  refine h.mono fun i => ?_
  cases i with
  | zero => exact hj
  | succ i => exact Nat.le_refl _

end Rereads

/-- **A rule that may begin with a token read up to five times**, and leaves one that was read `j`
times at most. -/
def Operand {α : Type} (j : Nat) (x : Rule α) : Prop := ∀ ⦃k : Nat⦄, k ≤ 5 → Rereads [] [k] x [j]

variable {α : Type} {j k : Nat}

theorem Operand.fresh {x : Rule α} (h : Operand j x) : Rereads [] [] x [j] :=
  (h (Nat.zero_le 5)).fresh

/-! ## Lists -/

theorem operand_name : Operand 0 name := by
  intro k hk
  rw [← bind_pure name]
  exact .anew (.name_bind (hk.trans_lt (by decide)) fun a => .pure a) _

/-- **A list goes on after a comma**, which is its own. -/
theorem rereads_itemsWithin {item : Rule α} (hitem : Operand j item) (hj : j < 7) (count : Nat)
    (hk : k ≤ 5) : Rereads [] [k] (itemsWithin item count) [] := by
  induction count generalizing k with
  | zero => exact .endOfInput _
  | succ count ih =>
    refine (hitem hk).bind fun first => .read_bind hj fun t => ?_
    rcases t with ⟨l, p⟩
    cases l with
    | mark m =>
      cases m with
      | comma => exact (ih (Nat.zero_le 5)).fresh.forget.bind_pure _
      | rightParen => exact .pure _
      | _ => exact .throw _
    | _ => exact .throw _

theorem rereads_commaSeparated {item : Rule α} (hitem : Operand j item) (hj : j < 7) :
    Rereads [] [] (commaSeparated item) [] :=
  .accept?_bind (by decide) (fun _ => .pure []) <| .remaining_bind fun n =>
    rereads_itemsWithin hitem hj (n + 1) (by decide)

/-! ## Expressions -/

section Expressions

variable {operand : Rule Expr}

/-- **A chain looks at the token after its last operand once more.** -/
theorem rereads_chainWithin (accept : BinaryOp → Bool) (h : Operand j operand) (hj : j < 7)
    (count : Nat) (left : Expr) :
    Rereads [] [j] (chainWithin accept operand count left) [j + 1] := by
  induction count generalizing left with
  | zero => exact (Rereads.pure left).more (Nat.le_succ j)
  | succ count ih =>
    exact .operator_bind hj (fun op p => h.fresh.bind fun right => ih _) (.pure left)

/-- After the last operand of a chain one more token is looked at and put back. -/
theorem operand_chain (accept : BinaryOp → Bool) (h : Operand j operand) (hj : j < 7) :
    Operand (j + 1) (chain accept operand) :=
  fun _ hk => (h hk).bind fun left => .remaining_bind fun n =>
    rereads_chainWithin accept h hj n left

theorem operand_sumOf (h : Operand 1 operand) : Operand 3 (sumOf operand) :=
  operand_chain _ (operand_chain _ h (by decide)) (by decide)

/-- An expression leaves a token that was read four times at most: by its product, its sum and the
comparison, each once, and by a factor. -/
theorem operand_comparisonOf (h : Operand 1 operand) : Operand 4 (comparisonOf operand) := by
  intro k hk
  refine (operand_sumOf h hk).bind fun left =>
    .operator_bind (by decide) (fun op p => ?_) (.pure left)
  exact ((operand_sumOf h).fresh.more (by decide)).bind_pure _

/-- A call begins with the name and the parenthesis that were looked at. -/
theorem rereads_callOf (h : Operand 1 operand) (hk : k < 7) :
    Rereads [] [k, 1] (callOf operand) [] := by
  refine .name_bind hk fun callee => .mark_bind (by decide : 1 < 7) ?_
  exact (rereads_commaSeparated (operand_comparisonOf h) (by decide)).bind_pure _

/-- **A factor leaves a token that was read once**, if it is a name, and else one that was not
read. -/
theorem operand_factorWithin (depth : Nat) : Operand 1 (factorWithin depth) := by
  induction depth with
  | zero => exact fun _ _ => .endOfInput _
  | succ depth ih =>
    intro k hk
    refine .read_bind (hk.trans_lt (by decide)) fun t => ?_
    rcases t with ⟨l, p⟩
    cases l with
    | identifier text =>
      refine .accept?_bind (by decide : 0 < 7) (fun paren => ?_) (.pure _)
      refine .unread_bind (.unread_bind ?_)
      exact ((rereads_callOf ih (Nat.succ_lt_succ (hk.trans_lt (by decide)))).bind_pure _).anew _
    | number value => exact (Rereads.pure _).anew _
    | bool value => exact (Rereads.pure _).anew _
    | mark m =>
      cases m with
      | leftParen =>
        refine .bind (operand_comparisonOf ih).fresh.forget fun inner => ?_
        exact .mark_bind (by decide : 4 < 7) (Rereads.anew (.pure inner) _)
      | plus => exact ih.fresh.forget.bind_pure _
      | minus => exact ih.fresh.forget.bind_pure _
      | _ => exact .throw _
    | _ => exact .throw _

theorem operand_comparison : Operand 4 comparison :=
  fun _ hk => .remaining_bind fun n => operand_comparisonOf (operand_factorWithin (n + 1)) hk

end Expressions

/-! ## Statements -/

theorem rereads_params : Rereads [] [] params [] := rereads_commaSeparated operand_name (by decide)

theorem rereads_condition : Rereads [] [] condition [] := by
  refine .mark_bind (by decide) (operand_comparison.fresh.bind fun e => ?_)
  exact .mark_bind (by decide) (.pure e)

section Statements

variable {statement : Rule Statement}

/-- **A list of statements looks at the first token of each**, which the statement before it left
read four times at most. -/
theorem rereads_statementsWithin (h : Operand 4 statement) (count : Nat) (hk : k ≤ 4) :
    Rereads [] [k] (statementsWithin statement count) [5] := by
  induction count generalizing k with
  | zero => exact .endOfInput _
  | succ count ih =>
    refine .read_bind (hk.trans_lt (by decide)) fun t => .unread_bind ?_
    have hmore : Rereads [] [k + 1]
        (do let first ← statement; return first :: (← statementsWithin statement count)) [5] :=
      (h (Nat.succ_le_succ hk)).bind fun first => (ih (Nat.le_refl 4)).bind_pure _
    rcases t with ⟨l, p⟩
    cases l with
    | mark m =>
      cases m with
      | rightBrace => exact (Rereads.pure _).more (Nat.succ_le_succ hk)
      | _ => exact hmore
    | _ => exact hmore

/-- A brace ends the statements, so the token after a block was not read before. -/
theorem rereads_blockOf (h : Operand 4 statement) : Rereads [] [] (blockOf statement) [] := by
  refine .mark_bind (by decide) (.remaining_bind fun n => ?_)
  refine (rereads_statementsWithin h (n + 1) (Nat.zero_le 4)).fresh.bind fun body => ?_
  exact .mark_bind (by decide) (.pure body)

section Forms

-- The word that a form begins with was looked at to know the form.
variable (h : Operand 4 statement) (hk : k < 7)

include h hk

theorem rereads_definitionOf : Rereads [] [k] (definitionOf statement) [] := by
  refine .word_bind hk (.name_bind (by decide : 0 < 7) fun target => ?_)
  refine .mark_bind (by decide : 0 < 7) (rereads_params.bind fun formals => ?_)
  exact (rereads_blockOf h).bind_pure _

theorem rereads_branchOf : Rereads [] [k] (branchOf statement) [] := by
  refine .word_bind hk (rereads_condition.bind fun test => (rereads_blockOf h).bind fun yes => ?_)
  exact .word_bind (by decide) ((rereads_blockOf h).bind_pure _)

theorem rereads_loopOf : Rereads [] [k] (loopOf statement) [] :=
  .word_bind hk (rereads_condition.bind fun _ => (rereads_blockOf h).bind_pure _)

/-- The name of an assignment was read to tell it from a call, and is read again. -/
theorem rereads_assignmentOf : Rereads [] [k, 1] (assignmentOf statement) [4] := by
  refine .name_bind hk fun target => .mark_bind (by decide : 1 < 7) ?_
  refine .accept?_bind (by decide : 0 < 7) (fun t => ?_) ?_
  · refine .mark_bind (by decide : 0 < 7) (rereads_params.bind fun formals => ?_)
    exact .mark_bind (by decide) (((rereads_blockOf h).bind_pure _).anew _)
  · exact (operand_comparison (by decide : 1 ≤ 5)).bind_pure _

end Forms

theorem rereads_result (hk : k < 7) : Rereads [] [k] result [4] :=
  .require_bind hk fun _ => operand_comparison.fresh.bind_pure _

end Statements

/-- **A statement leaves a token that was read four times at most**, by the expression that it ends
with. -/
theorem operand_statementWithin (depth : Nat) : Operand 4 (statementWithin depth) := by
  induction depth with
  | zero => exact fun _ _ => .endOfInput _
  | succ depth ih =>
    intro k hk
    have hk' : k + 1 < 7 := Nat.succ_lt_succ (hk.trans_lt (by decide))
    refine .read_bind (hk.trans_lt (by decide)) fun t => ?_
    rcases t with ⟨l, p⟩
    cases l with
    | identifier text =>
      refine .read_bind (by decide : 0 < 7) fun u => ?_
      rcases u with ⟨l, q⟩
      cases l with
      | mark m =>
        cases m with
        | assign => exact .unread_bind (.unread_bind (rereads_assignmentOf ih hk'))
        | leftParen =>
          refine .unread_bind (.unread_bind (.anew (.bind_pure ?_ _) _))
          exact .remaining_bind fun n => rereads_callOf (operand_factorWithin (n + 1)) hk'
        | _ => exact .throw _
      | _ => exact .throw _
    | keyword w =>
      cases w with
      | kwDef => exact .unread_bind ((rereads_definitionOf ih hk').anew _)
      | kwIf => exact .unread_bind ((rereads_branchOf ih hk').anew _)
      | kwWhile => exact .unread_bind ((rereads_loopOf ih hk').anew _)
      | kwReturn => exact .unread_bind (rereads_result hk')
      | _ => exact .throw _
    | _ => exact .throw _

theorem rereads_program : Rereads [] [] program [] := by
  have hblock : Rereads [] [] block [] :=
    .remaining_bind fun n => rereads_blockOf (operand_statementWithin (n + 1))
  exact .word_bind (by decide) (.name_bind (by decide) fun title => hblock.bind_pure _)

/-- **A program that is the whole source is read so**: no token more than seven times. -/
theorem rereads_wholeProgram : Rereads [] [] wholeProgram [] :=
  rereads_program.bind fun p => .read?_bind (by decide) (fun _ => .throw _) (.pure p)

end Rule

/-! ## Every source -/

/-- No two items of a source stand at the same place. -/
theorem nodup_lex (source : String) : (lex source).Nodup := by
  have hbefore : ((lex source).map Item.position).Pairwise Position.Before := by
    have hitems : lex source = _ := Lexer.items_eq_itemsAfter _ rfl (.ofSource source)
    rw [hitems]
    exact Piece.pairwise_itemsAfter _ _ (Piece.text_ne_nil_of_mem_cut _)
  refine List.Nodup.of_map Item.position (hbefore.imp fun {p q} hpq heq => ?_)
  rw [heq, Position.Before] at hpq
  omega

/-- **Backtracking is bounded.**  A whole source is read, whether or not it is a program, with no
token read more than seven times, and the tokens recorded, each where it occurs first, are the first
items of the source in their order. -/
theorem readings_bounded (source : String) (m : Machine) :
    ∃ reads : List Token,
      ((Eval.ofRule Rule.wholeProgram source).run m).2.events =
        (reads.map .token).reverse ++ m.events ∧
      reads.eraseDups.map .ok <+: lex source ∧ ∀ t, reads.count t ≤ 7 := by
  have hcounted := Rule.rereads_wholeProgram (Feed.tally_ofSource (nodup_lex source))
  have hsparing : (Rule.wholeProgram.parse source).2.Sparing (lex source) := by
    change Rule.Counted _ _ (Rule.wholeProgram.parse source) at hcounted
    rcases hparse : Rule.wholeProgram.parse source with ⟨e | p, s⟩ <;> rw [hparse] at hcounted
    · exact hcounted
    · exact Feed.Tally.sparing hcounted
  refine ⟨(Rule.wholeProgram.parse source).2.reads, ?_, hsparing.firsts, hsparing.total⟩
  rw [Eval.ofRule_run_events, Feed.reads, List.map_reverse, List.reverse_reverse]

/-- A name at the start of a statement, after a statement that ends with a name. -/
example : (Rule.wholeProgram.parse "PROGRAM p \x7b x = a y = b \x7d").2.reads.count
    ⟨.identifier "y", ⟨1, 19⟩⟩ = 7 := by decide +kernel

end BraceScript
