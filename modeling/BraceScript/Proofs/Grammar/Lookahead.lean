import BraceScript.Grammar.Statement
import BraceScript.Proofs.Lookahead

/-!
# Proofs/Grammar/Lookahead — every rule of the grammar looks at one item at most

The rules are local, each level over a local reader of factors or of statements.  Calls, conditions,
lists and blocks end with a mark of their own and look at nothing after it; an expression has to see
the item that it does not go on with.  Two tokens are looked at in one place, at a name that begins
a statement or a call, and they are read again at once: the run is the same as if it had gone on
behind them.
-/

namespace BraceScript.Rule

variable {α : Type}

/-! ## Reading again -/

/-- Where a token is wanted and the feed is at its end. -/
theorem run_read_nil (expected : String) (g : Token → Rule α) {s : Feed} (hs : s.items = []) :
    (read expected >>= g).run s = (endOfInput expected).run s := by
  have hread : read?.run s = (.ok none, s) := Feed.take_of_nil hs
  have hend : (read expected).run s = (.error ⟨.unexpectedEnd expected, s.lastRead⟩, s) :=
    Action.run_bind_of_ok hread _
  exact Action.run_bind_of_error hend _

/-- A mark that was just put back is read again. -/
theorem run_mark_putBack (k : Mark) (q : Position) (s : Feed) :
    (discard (mark k)).run (s.putBack ⟨.mark k, q⟩) = (.ok (), s.note ⟨.mark k, q⟩) := by
  have hread : (mark k).run (s.putBack ⟨.mark k, q⟩) = (.ok ⟨.mark k, q⟩, s.note ⟨.mark k, q⟩) := by
    have hclass : (Lexeme.mark k).sameClass (.mark k) := (Lexeme.sameClass_mark _ k).mpr rfl
    have hfirst : (read (Lexeme.mark k).quoted).run (s.putBack ⟨.mark k, q⟩) =
        (.ok ⟨.mark k, q⟩, s.note ⟨.mark k, q⟩) := rfl
    refine (Action.run_bind_of_ok hfirst _).trans ?_
    simp only [if_pos hclass]
    rfl
  exact Action.run_bind_of_ok hread _

/-- **A name and a mark that are put back are read again**, and the rule goes on behind them. -/
theorem run_reread (text : String) (p : Position) (k : Mark) (q : Position) (g : Name → Rule α)
    (s : Feed) :
    (do unread ⟨.mark k, q⟩; unread ⟨.identifier text, p⟩
        let x ← name; discard (mark k); g x).run s =
      (g ⟨text, p⟩).run ((s.note ⟨.identifier text, p⟩).note ⟨.mark k, q⟩) := by
  have hname : name.run ((s.putBack ⟨.mark k, q⟩).putBack ⟨.identifier text, p⟩) =
      (.ok ⟨text, p⟩, (s.note ⟨.identifier text, p⟩).putBack ⟨.mark k, q⟩) := rfl
  rw [run_unread_bind, run_unread_bind, Action.run_bind_of_ok hname,
    Action.run_bind_of_ok (run_mark_putBack k q _)]

/-- The arguments of a call, after its opening parenthesis. -/
def argsOf (factor : Rule Expr) (callee : Name) : Rule Call := do
  return ⟨callee, ← commaSeparated (comparisonOf factor)⟩

/-- **Reading a call again from its name** comes to reading its arguments, after both tokens are
noted. -/
theorem run_callOf_reread (factor : Rule Expr) (text : String) (p q : Position) (g : Call → Rule α)
    (s : Feed) :
    (do unread ⟨.mark .leftParen, q⟩; unread ⟨.identifier text, p⟩
        let c ← callOf factor; g c).run s =
      (do let c ← argsOf factor ⟨text, p⟩; g c).run
        ((s.note ⟨.identifier text, p⟩).note ⟨.mark .leftParen, q⟩) := by
  have h := run_reread text p .leftParen q (fun x => argsOf factor x >>= g) s
  simpa only [callOf, argsOf, bind_assoc] using h

/-- To put a name and a parenthesis back and read a call is to go on with its arguments. -/
theorem resumes_callOf (factor : Rule Expr) (text : String) (p q : Position) (g : Call → Rule α) :
    Resumes ⟨.mark .leftParen, q⟩
      (do unread ⟨.mark .leftParen, q⟩; unread ⟨.identifier text, p⟩; let c ← callOf factor; g c)
      (do let c ← argsOf factor ⟨text, p⟩; g c) :=
  fun s hs => ⟨(s.note ⟨.identifier text, p⟩).note ⟨.mark .leftParen, q⟩, rfl, hs.symm,
    run_callOf_reread factor text p q g s⟩

/-- The bound that a call asks for counts the two tokens that are put back. -/
theorem resumes_call (text : String) (p q : Position) (g : Call → Rule α) :
    Resumes ⟨.mark .leftParen, q⟩
      (do unread ⟨.mark .leftParen, q⟩; unread ⟨.identifier text, p⟩; let c ← call; g c)
      (do let n ← remaining; let c ← argsOf (factorWithin (n + 3)) ⟨text, p⟩; g c) := by
  intro s hs
  refine ⟨(s.note ⟨.identifier text, p⟩).note ⟨.mark .leftParen, q⟩, rfl, hs.symm, ?_⟩
  have hsize :
      ((s.putBack ⟨.mark .leftParen, q⟩).putBack ⟨.identifier text, p⟩).size + 1 = s.size + 3 := by
    simp only [Feed.size, Feed.putBack, List.length_cons]
    omega
  have hrun := run_callOf_reread (factorWithin (s.size + 3)) text p q g s
  rw [run_unread_bind, run_unread_bind] at hrun ⊢
  rw [call, bind_assoc, run_remaining_bind, run_remaining_bind, hsize]
  exact hrun

/-- What is assigned, after the mark of an assignment. -/
def assignedOf (statement : Rule Statement) (target : Name) : Rule Statement := do
  match ← accept? (.keyword .kwLambda) with
  | some _ =>
    discard (mark .leftParen)
    let formals ← params
    discard (mark .colon)
    return .lambda target formals (← blockOf statement)
  | none => return .assign target (← comparison)

/-- To put a name and its sign back and read an assignment is to go on with its value. -/
theorem resumes_assignmentOf (statement : Rule Statement) (text : String) (p q : Position) :
    Resumes ⟨.mark .assign, q⟩
      (do unread ⟨.mark .assign, q⟩; unread ⟨.identifier text, p⟩; assignmentOf statement)
      (assignedOf statement ⟨text, p⟩) :=
  fun s hs => ⟨(s.note ⟨.identifier text, p⟩).note ⟨.mark .assign, q⟩, rfl, hs.symm,
    run_reread text p .assign q (assignedOf statement) s⟩

variable [Placed α] {f : Position → Position} {n m : Int}

/-! ## Names, operators and lists -/

theorem local_name : Local f 1 0 n m name name := by
  refine local_read_bind Nat.one_pos fun l p p' hp => ?_
  cases l with
  | identifier text => exact .go (local_pure (congrArg (Name.mk text) hp))
  | _ => exact .reject rfl rfl

/-- An optional operator takes nothing for sure and looks at one item. -/
theorem local_operator (accept : BinaryOp → Bool) :
    Local f 0 1 n m (operator accept) (operator accept) := by
  refine local_read?_bind Nat.one_pos (fun l p p' hp => ?_) (local_pure rfl)
  cases hop : (BinaryOp.ofLexeme? l).filter accept with
  | some op =>
    simp only [hop]
    exact .go (local_pure (congrArg (fun p => some (op, p)) hp))
  | none =>
    simp only [hop]
    exact .back (local_pure rfl)

/-- Operators that are the same up to their positions. -/
theorem place_operator_cases {r r' : Option (BinaryOp × Position)} (h : place f r = place f r') :
    r = none ∧ r' = none ∨ ∃ op p p', r = some (op, p) ∧ r' = some (op, p') ∧ f p = f p' := by
  rcases r with _ | ⟨op, p⟩ <;> rcases r' with _ | ⟨op', p'⟩
  · exact .inl ⟨rfl, rfl⟩
  · cases h
  · cases h
  · obtain ⟨hop, hp⟩ := Prod.mk.inj (Option.some.inj h)
    obtain rfl : op = op' := hop
    exact .inr ⟨op, p, p', rfl, rfl, hp⟩

/-- At the end of a feed no operator follows. -/
theorem run_chainWithin_nil (accept : BinaryOp → Bool) (operand : Rule Expr) (a : Expr) {s : Feed}
    (hs : s.items = []) : (chainWithin accept operand 1 a).run s = (.ok a, s) := by
  have hread : read?.run s = (.ok none, s) := Feed.take_of_nil hs
  have hop : (operator accept).run s = (.ok none, s) := Action.run_bind_of_ok hread _
  exact Action.run_bind_of_ok hop _

section Chain

variable {x y : Rule Expr}

/-- The bound on the length of a chain plays no part on feeds that are shorter. -/
theorem local_chainWithin (accept : BinaryOp → Bool) (hoperand : Local f 1 1 n m x y) (i j : Nat)
    {a b : Expr} (hab : place f a = place f b) :
    Local f 0 1 (min n i) (min m j) (chainWithin accept x i a) (chainWithin accept y j b) := by
  refine Local.within (fun a s hs => ?_) (fun a s hs => ?_) (fun a b hab => local_pure hab)
    (fun i j ih a b hab => ?_) i j a b hab
  · exact (run_chainWithin_nil accept x a hs).symm
  · exact (run_chainWithin_nil accept y a hs).symm
  · refine (local_operator accept).bind 0 (fun r r' hr => ?_) (by omega)
    obtain ⟨rfl, rfl⟩ | ⟨op, p, p', rfl, rfl, hp⟩ := place_operator_cases hr
    · exact local_pure hab
    · refine (hoperand.mono (by omega) (by omega)).bind 0 (fun r r' hr => ?_) (by omega)
      refine (ih _ _ ?_).mono (by omega) (by omega)
      rw [place_binary, place_binary, hab, hr, hp]

/-- **A chain looks at one item after it**: whether another operator follows. -/
theorem local_chain (accept : BinaryOp → Bool) (hoperand : Local f 1 1 n m x y) :
    Local f 1 1 n m (chain accept x) (chain accept y) := by
  refine hoperand.bind 0 (fun a b hab => ?_) (by omega)
  exact local_remaining_bind fun i j =>
    local_chainWithin accept (hoperand.mono (by omega) (by omega)) i j hab

end Chain

section Lists

variable {x y : Rule α} (hitem : Local f 1 1 n m x y)

include hitem

/-- As for chains, the bound on the length of a list plays no part on shorter feeds. -/
theorem local_itemsWithin : ∀ i j : Nat,
    Local f 1 0 (min n i) (min m j) (itemsWithin x (i + 1)) (itemsWithin y (j + 1)) := by
  intro i
  induction i using Nat.strong_induction_on with
  | _ i ih =>
    intro j
    refine (hitem.mono (by omega) (by omega)).bind 1 (fun a b hab => ?_) (by omega)
    refine local_read_bind Nat.one_pos fun l p p' hp => ?_
    have hrest : Local f 1 0 (min n i - 1 - 1) (min m j - 1 - 1) (itemsWithin x i)
        (itemsWithin y j) :=
      .of_pred ih (by omega) (by omega)
    have hmore := hrest.bind (c := 0) (w := 0) (g := fun as => pure (a :: as))
      (h := fun bs => pure (b :: bs)) 0
      (fun as bs h => local_pure (by rw [place_cons, place_cons, hab, h])) (by omega)
    have hlast : place f [a] = place f [b] := by rw [place_cons, place_cons, hab]
    cases l with
    | mark k =>
      cases k with
      | comma => exact .go hmore
      | rightParen => exact .go (local_pure hlast)
      | _ => exact .reject rfl rfl
    | _ => exact .reject rfl rfl

/-- A list ends with its parenthesis and looks at nothing after it. -/
theorem local_commaSeparated : Local f 1 0 n m (commaSeparated x) (commaSeparated y) := by
  refine local_accept?_bind Nat.one_pos (fun l p p' _ _ => .go (local_pure rfl)) ?_
  exact local_remaining_bind fun i j => local_itemsWithin hitem i j

end Lists

/-! ## Expressions -/

section Expressions

variable {x y : Rule Expr}

theorem local_sumOf (hfactor : Local f 1 1 n m x y) : Local f 1 1 n m (sumOf x) (sumOf y) :=
  local_chain _ (local_chain _ hfactor)

/-- A comparison looks at one item after it, if factors do. -/
theorem local_comparisonOf (hfactor : Local f 1 1 n m x y) :
    Local f 1 1 n m (comparisonOf x) (comparisonOf y) := by
  refine (local_sumOf hfactor).bind 0 (fun a b hab => ?_) (by omega)
  refine (local_operator _).bind 0 (fun r r' hr => ?_) (by omega)
  obtain ⟨rfl, rfl⟩ | ⟨op, p, p', rfl, rfl, hp⟩ := place_operator_cases hr
  · exact local_pure hab
  · refine ((local_sumOf hfactor).mono (by omega) (by omega)).bind 0 (fun r r' hr => ?_) (by omega)
    exact local_pure (by rw [place_binary, place_binary, hab, hr, hp])

/-- Arguments end with their parenthesis. -/
theorem local_argsOf (hfactor : Local f 1 1 n m x y) {a b : Name} (hab : place f a = place f b) :
    Local f 1 0 n m (argsOf x a) (argsOf y b) := by
  refine (local_commaSeparated (local_comparisonOf hfactor)).bind 0 (fun as bs h => local_pure ?_)
    (by omega)
  change Call.mk (place f a) (place f as) = Call.mk (place f b) (place f bs)
  rw [hab, h]

/-- A call takes its name and two parentheses at least, and looks at nothing after it. -/
theorem local_callOf (hfactor : Local f 1 1 n m x y) : Local f 3 0 n m (callOf x) (callOf y) := by
  refine local_name.bind 2 (fun a b hab => ?_) (by omega)
  refine (local_mark _).bind 1 (fun _ _ _ => ?_) (by omega)
  exact (local_argsOf hfactor hab).mono (by omega) (by omega)

end Expressions

/-! ## Factors -/

/-- **Rules that nest under a bound** begin with a token, so that at the end of a feed no bound is
too small. -/
theorem Local.nested {x : Nat → Rule α} {expected : String} {g : Nat → Token → Rule α} {c w : Nat}
    (hzero : x 0 = endOfInput expected) (hsucc : ∀ depth, x (depth + 1) = read expected >>= g depth)
    (hstep : ∀ (N M : Int) (a b : Nat), Local f c w (min N a) (min M b) (x a) (x b) →
      Local f c w (min N (a + 1)) (min M (b + 1)) (x (a + 1)) (x (b + 1))) (i j : Nat) :
    Local f c w i j (x i) (x j) := by
  have hnil (s : Feed) (hs : s.items = []) : (x 0).run s = (x 1).run s := by
    rw [hzero, hsucc, run_read_nil _ _ hs]
  have hend : Local f c w 0 0 (x 0) (x 0) := by
    rw [hzero]
    exact local_endOfInput expected
  have h := Local.within (x := fun i (_ : Unit) => x i) (y := fun j _ => x j) (N := i) (M := j)
    (fun _ => hnil) (fun _ => hnil) (fun _ _ _ => hend)
    (fun a b ih _ _ _ => hstep i j a b (ih () () rfl)) i j () () rfl
  exact h.mono (by omega) (by omega)

/-- **Factors are local**, under bounds on nesting that are at least the numbers of items. -/
theorem local_factorWithin (i j : Nat) : Local f 1 1 i j (factorWithin i) (factorWithin j) := by
  refine Local.nested rfl (fun _ => rfl) (fun N M a b ih => ?_) i j
  refine local_read_bind Nat.two_pos fun l p p' hp => ?_
  cases l with
  | identifier text =>
    have hname : place f (Name.mk text p) = place f (Name.mk text p') := congrArg (Name.mk text) hp
    have hcall : Local f 0 1 (min N (a + 1) - 1 - 1) (min M (b + 1) - 1 - 1)
        (do let c ← argsOf (factorWithin a) ⟨text, p⟩; return Expr.call c.callee c.args)
        (do let c ← argsOf (factorWithin b) ⟨text, p'⟩; return Expr.call c.callee c.args) := by
      refine (local_argsOf (ih.mono (by omega) (by omega)) hname).bind 0
        (fun c c' h => local_pure ?_) (by omega)
      rw [place_call, place_call]
      exact congrArg (fun c : Call => Expr.call c.callee c.args) h
    refine .go (local_accept?_bind Nat.one_pos (fun l q q' hq hclass => ?_)
      (local_pure (congrArg Expr.var hname)))
    obtain rfl := (Lexeme.sameClass_mark l _).mp hclass
    exact .keep hcall (resumes_callOf _ text p q _) (resumes_callOf _ text p' q' _)
  | number v => exact .go (local_pure (congrArg (Expr.number v) hp))
  | bool v => exact .go (local_pure (congrArg (Expr.bool v) hp))
  | mark k =>
    cases k with
    | leftParen =>
      refine .go (((local_comparisonOf ih).mono (by omega) (by omega)).bind 1 (fun a b hab => ?_)
        (by omega))
      exact (local_mark _).bind 0 (fun _ _ _ => local_pure hab) (by omega)
    | plus =>
      refine .go ((ih.mono (by omega) (by omega)).bind 0 (fun a b hab => local_pure ?_) (by omega))
      rw [place_unary, place_unary, hab, hp]
    | minus =>
      refine .go ((ih.mono (by omega) (by omega)).bind 0 (fun a b hab => local_pure ?_) (by omega))
      rw [place_unary, place_unary, hab, hp]
    | _ => exact .reject rfl rfl
  | _ => exact .reject rfl rfl

/-- The bound that a rule asks for is ample. -/
theorem local_factor_remaining (i j : Nat) :
    Local f 1 1 (min n i) (min m j) (factorWithin (i + 1)) (factorWithin (j + 1)) :=
  (local_factorWithin (i + 1) (j + 1)).mono (by omega) (by omega)

theorem local_factor : Local f 1 1 n m factor factor :=
  local_remaining_bind local_factor_remaining

theorem local_product : Local f 1 1 n m product product :=
  local_remaining_bind fun i j => local_chain _ (local_factor_remaining i j)

theorem local_sum : Local f 1 1 n m sum sum :=
  local_remaining_bind fun i j => local_sumOf (local_factor_remaining i j)

/-- **An expression depends on one item after it.** -/
theorem local_comparison : Local f 1 1 n m comparison comparison :=
  local_remaining_bind fun i j => local_comparisonOf (local_factor_remaining i j)

theorem local_call : Local f 3 0 n m call call :=
  local_remaining_bind fun i j => local_callOf (local_factor_remaining i j)

/-! ## Statements -/

theorem local_condition : Local f 3 0 n m condition condition := by
  refine (local_mark _).bind 2 (fun _ _ _ => ?_) (by omega)
  refine local_comparison.bind 1 (fun a b hab => ?_) (by omega)
  exact (local_mark _).bind 0 (fun _ _ _ => local_pure hab) (by omega)

theorem local_params : Local f 1 0 n m params params :=
  local_commaSeparated local_name.widen

/-- A returned expression is followed as far as the expression itself. -/
theorem local_result : Local f 1 1 n m result result := by
  refine (local_require _).bind 1 (fun t t' ht => ?_) (by omega)
  refine local_comparison.bind 0 (fun a b hab => local_pure ?_) (by omega)
  rw [place_result, place_result, hab,
    show f t.position = f t'.position from congrArg Token.position ht]

section Statements

variable {x y : Rule Statement} (hstatement : Local f 1 1 n m x y)

include hstatement

/-- Statements of a block take nothing for sure, and look at the item that ends them. -/
theorem local_statementsWithin : ∀ i j : Nat,
    Local f 0 1 (min n i) (min m j) (statementsWithin x (i + 1)) (statementsWithin y (j + 1)) := by
  intro i
  induction i using Nat.strong_induction_on with
  | _ i ih =>
    intro j
    refine local_read_bind Nat.one_pos fun l p p' hp => ?_
    have hmore : Local f 0 1 (min n i) (min m j)
        (do let first ← x; return first :: (← statementsWithin x i))
        (do let first ← y; return first :: (← statementsWithin y j)) := by
      refine (hstatement.mono (by omega) (by omega)).bind 0 (fun a b hab => ?_) (by omega)
      refine (Local.of_pred ih (by omega) (by omega)).bind 0 (fun as bs h => local_pure ?_)
        (by omega)
      rw [place_cons, place_cons, hab, h]
    cases l with
    | mark k =>
      cases k with
      | rightBrace => exact .back (local_pure rfl)
      | _ => exact .back hmore
    | _ => exact .back hmore

/-- A block has two braces, and looks at nothing after the second. -/
theorem local_blockOf : Local f 2 0 n m (blockOf x) (blockOf y) := by
  refine (local_mark _).bind 1 (fun _ _ _ => local_remaining_bind fun i j => ?_) (by omega)
  refine (local_statementsWithin (hstatement.mono (by omega) (by omega)) i j).bind 1
    (fun a b hab => ?_) (by omega)
  exact (local_mark _).bind 0 (fun _ _ _ => local_pure hab) (by omega)

theorem local_assignedOf {a b : Name} (hab : place f a = place f b) :
    Local f 0 1 n m (assignedOf x a) (assignedOf y b) := by
  refine local_accept?_bind Nat.one_pos (fun l p p' _ _ => .go ?_) ?_
  · refine (local_mark _).bind 0 (fun _ _ _ => ?_) (by omega)
    refine local_params.bind 0 (fun as bs has => ?_) (by omega)
    refine (local_mark _).bind 0 (fun _ _ _ => ?_) (by omega)
    refine ((local_blockOf hstatement).mono (by omega) (by omega)).bind 0
      (fun c d hcd => local_pure ?_) (by omega)
    rw [place_lambda, place_lambda, hab, has, hcd]
  · refine local_comparison.bind 0 (fun c d hcd => local_pure ?_) (by omega)
    rw [place_assign, place_assign, hab, hcd]

end Statements

section Forms

-- The word that a form begins with is taken before its blocks are read.
variable {x y : Rule Statement} (hstatement : Local f 1 1 (n - 1) (m - 1) x y)

include hstatement

theorem local_definitionOf : Local f 1 0 n m (definitionOf x) (definitionOf y) := by
  refine (local_word _).bind 0 (fun _ _ _ => ?_) (by omega)
  refine local_name.bind 0 (fun a b hab => ?_) (by omega)
  refine (local_mark _).bind 0 (fun _ _ _ => ?_) (by omega)
  refine local_params.bind 0 (fun as bs has => ?_) (by omega)
  refine ((local_blockOf hstatement).mono (by omega) (by omega)).bind 0
    (fun c d hcd => local_pure ?_) (by omega)
  rw [place_define, place_define, hab, has, hcd]

theorem local_branchOf : Local f 1 0 n m (branchOf x) (branchOf y) := by
  refine (local_word _).bind 0 (fun _ _ _ => ?_) (by omega)
  refine local_condition.bind 0 (fun a b hab => ?_) (by omega)
  refine ((local_blockOf hstatement).mono (by omega) (by omega)).bind 0 (fun c d hcd => ?_)
    (by omega)
  refine (local_word _).bind 0 (fun _ _ _ => ?_) (by omega)
  refine ((local_blockOf hstatement).mono (by omega) (by omega)).bind 0
    (fun c' d' hcd' => local_pure ?_) (by omega)
  rw [place_branch, place_branch, hab, hcd, hcd']

theorem local_loopOf : Local f 1 0 n m (loopOf x) (loopOf y) := by
  refine (local_word _).bind 0 (fun _ _ _ => ?_) (by omega)
  refine local_condition.bind 0 (fun a b hab => ?_) (by omega)
  refine ((local_blockOf hstatement).mono (by omega) (by omega)).bind 0
    (fun c d hcd => local_pure ?_) (by omega)
  rw [place_loop, place_loop, hab, hcd]

end Forms

/-- A call as a statement, after its name and its parenthesis were read. -/
theorem local_perform {a b : Name} (hab : place f a = place f b) :
    Local f 0 1 n m
      (do let n ← remaining; let c ← argsOf (factorWithin (n + 3)) a
          return Statement.call c.callee c.args)
      (do let n ← remaining; let c ← argsOf (factorWithin (n + 3)) b
          return Statement.call c.callee c.args) := by
  refine local_remaining_bind fun i j => ?_
  refine (local_argsOf ((local_factorWithin (i + 3) (j + 3)).mono (by omega) (by omega)) hab).bind 0
    (fun c c' h => local_pure ?_) (by omega)
  exact congrArg (fun c : Call => Statement.call c.callee c.args) h

/-- **Statements are local**, under bounds on nesting that are at least the numbers of items. -/
theorem local_statementWithin (i j : Nat) :
    Local f 1 1 i j (statementWithin i) (statementWithin j) := by
  refine Local.nested rfl (fun _ => rfl) (fun N M a b ih => ?_) i j
  refine local_read_bind Nat.two_pos fun l p p' hp => ?_
  cases l with
  | identifier text =>
    have hname : place f (Name.mk text p) = place f (Name.mk text p') := congrArg (Name.mk text) hp
    refine .go (local_read_bind Nat.one_pos fun l q q' hq => ?_)
    cases l with
    | mark k =>
      cases k with
      | assign =>
        exact .keep (local_assignedOf (ih.mono (by omega) (by omega)) hname)
          (resumes_assignmentOf _ text p q) (resumes_assignmentOf _ text p' q')
      | leftParen =>
        exact .keep (local_perform hname) (resumes_call text p q _) (resumes_call text p' q' _)
      | _ => exact .reject rfl rfl
    | _ => exact .reject rfl rfl
  | keyword k =>
    cases k with
    | kwDef => exact .back (local_definitionOf (ih.mono (by omega) (by omega))).widen
    | kwIf => exact .back (local_branchOf (ih.mono (by omega) (by omega))).widen
    | kwWhile => exact .back (local_loopOf (ih.mono (by omega) (by omega))).widen
    | kwReturn => exact .back local_result
    | _ => exact .reject rfl rfl
  | _ => exact .reject rfl rfl

/-- **A statement depends on one item after it.** -/
theorem local_statement : Local f 1 1 n m statement statement :=
  local_remaining_bind fun i j => (local_statementWithin (i + 1) (j + 1)).mono (by omega) (by omega)

theorem local_block : Local f 2 0 n m block block :=
  local_remaining_bind fun i j =>
    local_blockOf ((local_statementWithin (i + 1) (j + 1)).mono (by omega) (by omega))

/-- **A program depends on nothing after it.**  It takes four tokens at least. -/
theorem local_program : Local f 4 0 n m program program := by
  refine (local_word _).bind 3 (fun _ _ _ => ?_) (by omega)
  refine local_name.bind 2 (fun a b hab => ?_) (by omega)
  refine local_block.bind 0 (fun c d hcd => local_pure ?_) (by omega)
  change Program.mk (place f a) (place f c) = Program.mk (place f b) (place f d)
  rw [hab, hcd]

/-- **Reading a whole source is local**: whether it is a program, which one, and what is wrong with
it, is known from the tokens up to the first that cannot follow. -/
theorem local_wholeProgram : Local f 4 1 n m wholeProgram wholeProgram := by
  refine local_program.bind 0 (fun a b hab => ?_) (by omega)
  exact local_read?_bind Nat.one_pos (fun l p p' _ => .reject rfl rfl) (local_pure hab)

end BraceScript.Rule
