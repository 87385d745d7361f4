import BraceScript.Proofs.Grammar.Lookahead
import BraceScript.Proofs.Grammar.Sound

/-!
# Proofs/Grammar/Descent — the descent comes to an end

The rules run under bounds, on the nesting and on the turns of each loop.  Here is the same descent
with no bounds at all: each rule is a script in which other rules are called by name, itself among
them, and a loop is a rule that calls itself.  A script yields an outcome if its run is finite
(`Descent.Yields`), and then one only.

**No bound is ever reached** (`Descent.Agrees`).  A bound is asked for when at most as many items
are left, and no rule calls itself and no loop turns around without having taken a token that it
does not put back.  Tokens that are put back and read again by the rule called next count as not yet
taken, so for the rules called on them the argument is by their place in the grammar: calls are read
over factors, statements over expressions.
-/

namespace BraceScript

/-! ## Rules without bounds -/

/-- **The rules that call each other**, by what they give. -/
inductive Goal : Type → Type
  | comparison : Goal Expr
  | sum : Goal Expr
  /-- Extends a sum to the right. -/
  | moreTerms (left : Expr) : Goal Expr
  | product : Goal Expr
  /-- Extends a product to the right. -/
  | moreFactors (left : Expr) : Goal Expr
  | factor : Goal Expr
  | call : Goal Call
  /-- The arguments of a call after the opening parenthesis. -/
  | args : Goal (List Expr)
  /-- An argument and those after it. -/
  | moreArgs : Goal (List Expr)
  /-- The parameters of a function after the opening parenthesis. -/
  | params : Goal (List Name)
  /-- A parameter and those after it. -/
  | moreParams : Goal (List Name)
  | condition : Goal Expr
  | statement : Goal Statement
  | definition : Goal Statement
  | branch : Goal Statement
  | loop : Goal Statement
  | result : Goal Statement
  | assignment : Goal Statement
  | block : Goal Block
  /-- Statements up to a closing brace, which is left unread. -/
  | statements : Goal Block
  | program : Goal Program

/-- **What is left to do in a descent**: nothing, or an action on the feed or a rule, and then what
follows from its result. -/
inductive Descent (α : Type) : Type 1
  | done (a : α)
  | act {β : Type} (x : Rule β) (next : β → Descent α)
  | descend {β : Type} (g : Goal β) (next : β → Descent α)

namespace Descent

/-- One script after the other. -/
protected def bind {α β : Type} : Descent α → (α → Descent β) → Descent β
  | done a, f => f a
  | act x next, f => act x fun b => (next b).bind f
  | descend g next, f => descend g fun b => (next b).bind f

instance : Monad Descent where
  pure := done
  bind := Descent.bind

instance : MonadLift Rule Descent := ⟨fun x => act x done⟩

/-- Calls a rule. -/
def visit {α : Type} (g : Goal α) : Descent α := descend g done

/-- Reads a mark. -/
abbrev mark (k : Mark) : Descent Unit := liftM (discard (Rule.mark k) : Rule Unit)

/-- Reads a reserved word. -/
abbrev word (k : Keyword) : Descent Unit := liftM (discard (Rule.word k) : Rule Unit)

open Rule (accept? operator read unexpected)

/-- Extends an expression to the right as long as operators follow. -/
def extend (accept : BinaryOp → Bool) (operand : Goal Expr) (more : Expr → Goal Expr)
    (left : Expr) : Descent Expr := do
  match ← operator accept with
  | none => return left
  | some (op, p) =>
    let right ← visit operand
    visit (more (.binary op p left right))

/-- Reads a possibly empty list, closed by a parenthesis. -/
def separated {α : Type} (more : Goal (List α)) : Descent (List α) := do
  match ← accept? (.mark .rightParen) with
  | some _ => return []
  | none => visit more

/-- Reads an item, and goes on as long as commas follow. -/
def items {α : Type} (item : Descent α) (more : Goal (List α)) : Descent (List α) := do
  let first ← item
  let t ← read "',' or ')'"
  match t.lexeme with
  | .mark .comma => return first :: (← visit more)
  | .mark .rightParen => return [first]
  | _ => unexpected "',' or ')'" t

end Descent

open Rule (accept? operator read unread unexpected) in
open Descent (visit mark word extend separated items) in
/-- **What each rule does.**  Nothing here is bounded. -/
def Goal.body : {α : Type} → Goal α → Descent α
  | _, comparison => do
    let left ← visit sum
    match ← operator BinaryOp.isComparison with
    | none => return left
    | some (op, p) => return .binary op p left (← visit sum)
  | _, sum => do
    let first ← visit product
    visit (moreTerms first)
  | _, moreTerms left => extend BinaryOp.isAdditive product moreTerms left
  | _, product => do
    let first ← visit factor
    visit (moreFactors first)
  | _, moreFactors left => extend BinaryOp.isMultiplicative factor moreFactors left
  | _, factor => do
    let t ← read "an expression"
    match t.lexeme with
    | .identifier text =>
      match ← accept? (.mark .leftParen) with
      | some paren =>
        unread paren
        unread t
        let c ← visit call
        return .call c.callee c.args
      | none => return .var ⟨text, t.position⟩
    | .number value => return .number value t.position
    | .bool value => return .bool value t.position
    | .mark .leftParen =>
      let inner ← visit comparison
      mark .rightParen
      return inner
    | .mark .plus => return .unary .plus t.position (← visit factor)
    | .mark .minus => return .unary .minus t.position (← visit factor)
    | _ => unexpected "an expression" t
  | _, call => do
    let callee ← Rule.name
    mark .leftParen
    return ⟨callee, ← visit args⟩
  | _, args => separated moreArgs
  | _, moreArgs => items (visit comparison) moreArgs
  | _, params => separated moreParams
  | _, moreParams => items Rule.name moreParams
  | _, condition => do
    mark .leftParen
    let e ← visit comparison
    mark .rightParen
    return e
  | _, statement => do
    let t ← read "a statement"
    match t.lexeme with
    | .keyword .kwDef =>
      unread t
      visit definition
    | .keyword .kwIf =>
      unread t
      visit branch
    | .keyword .kwWhile =>
      unread t
      visit loop
    | .keyword .kwReturn =>
      unread t
      visit result
    | .identifier _ =>
      let u ← read "'=' or '('"
      match u.lexeme with
      | .mark .assign =>
        unread u
        unread t
        visit assignment
      | .mark .leftParen =>
        unread u
        unread t
        let c ← visit call
        return .call c.callee c.args
      | _ => (throw ⟨.invalidStatement u.lexeme, u.position⟩ : Rule Statement)
    | _ => unexpected "a statement" t
  | _, definition => do
    word .kwDef
    let target ← Rule.name
    mark .leftParen
    let formals ← visit params
    return .define target formals (← visit block)
  | _, branch => do
    word .kwIf
    let test ← visit condition
    let yes ← visit block
    word .kwElse
    return .branch test yes (← visit block)
  | _, loop => do
    word .kwWhile
    let test ← visit condition
    return .loop test (← visit block)
  | _, result => do
    let t ← Rule.word .kwReturn
    return .result t.position (← visit comparison)
  | _, assignment => do
    let target ← Rule.name
    mark .assign
    match ← accept? (.keyword .kwLambda) with
    | some _ =>
      mark .leftParen
      let formals ← visit params
      mark .colon
      return .lambda target formals (← visit block)
    | none => return .assign target (← visit comparison)
  | _, block => do
    mark .leftBrace
    let body ← visit statements
    mark .rightBrace
    return body
  | _, statements => do
    let t ← read "'\x7d'"
    unread t
    match t.lexeme with
    | .mark .rightBrace => return []
    | _ =>
      let first ← visit statement
      return first :: (← visit statements)
  | _, program => do
    word .kwProgram
    let title ← Rule.name
    return ⟨title, ← visit block⟩

/-! ## Finite runs -/

namespace Descent

open Rule (accept? operator read unread)

/-- **A script yields an outcome in finitely many steps**: a rule that is called runs to its end
first. -/
inductive Yields : {α : Type} → Descent α → Feed → Except SyntaxError α × Feed → Prop
  | done {α : Type} (a : α) (s : Feed) : Yields (.done a) s (.ok a, s)
  | acted {α β : Type} {x : Rule β} {next : β → Descent α} {s s₁ : Feed} {b : β}
    {out : Except SyntaxError α × Feed} : x.run s = (.ok b, s₁) → Yields (next b) s₁ out →
    Yields (.act x next) s out
  | stopped {α β : Type} {x : Rule β} {next : β → Descent α} {s s₁ : Feed} {e : SyntaxError} :
    x.run s = (.error e, s₁) → Yields (.act x next) s (.error e, s₁)
  | returned {α β : Type} {g : Goal β} {next : β → Descent α} {s s₁ : Feed} {b : β}
    {out : Except SyntaxError α × Feed} : Yields g.body s (.ok b, s₁) → Yields (next b) s₁ out →
    Yields (.descend g next) s out
  | failed {α β : Type} {g : Goal β} {next : β → Descent α} {s s₁ : Feed} {e : SyntaxError} :
    Yields g.body s (.error e, s₁) → Yields (.descend g next) s (.error e, s₁)

variable {α β : Type}

namespace Yields

/-- **A script has one outcome.** -/
theorem unique {p : Descent α} {s : Feed} {out out' : Except SyntaxError α × Feed}
    (h : Yields p s out) (h' : Yields p s out') : out = out' := by
  induction h with
  | done a s =>
    cases h'
    rfl
  | acted hx _ ih =>
    cases h' with
    | acted hx' hnext =>
      cases hx.symm.trans hx'
      exact ih hnext
    | stopped hx' => cases hx.symm.trans hx'
  | stopped hx =>
    cases h' with
    | acted hx' _ => cases hx.symm.trans hx'
    | stopped hx' =>
      cases hx.symm.trans hx'
      rfl
  | returned _ _ ihbody ihnext =>
    cases h' with
    | returned hbody hnext =>
      cases ihbody hbody
      exact ihnext hnext
    | failed hbody => cases ihbody hbody
  | failed _ ihbody =>
    cases h' with
    | returned hbody _ => cases ihbody hbody
    | failed hbody =>
      cases ihbody hbody
      rfl

/-- A script that yields an error does not reach what follows it. -/
theorem bind_of_error {p : Descent α} {s s' : Feed} {e : SyntaxError}
    (h : Yields p s (.error e, s')) (f : α → Descent β) : Yields (p >>= f) s (.error e, s') := by
  induction p generalizing s with
  | done a => cases h
  | act x next ih =>
    cases h with
    | acted hx hnext => exact .acted hx (ih _ hnext)
    | stopped hx => exact .stopped hx
  | descend g next ih =>
    cases h with
    | returned hbody hnext => exact .returned hbody (ih _ hnext)
    | failed hbody => exact .failed hbody

/-- A script goes on with its result, from the feed that it leaves. -/
theorem bind_of_ok {p : Descent α} {s s' : Feed} {a : α} {f : α → Descent β}
    {out : Except SyntaxError β × Feed} (h : Yields p s (.ok a, s')) (hf : Yields (f a) s' out) :
    Yields (p >>= f) s out := by
  induction p generalizing s with
  | done a =>
    cases h
    exact hf
  | act x next ih =>
    cases h with
    | acted hx hnext => exact .acted hx (ih _ hnext)
  | descend g next ih =>
    cases h with
    | returned hbody hnext => exact .returned hbody (ih _ hnext)

end Yields

/-! ## Scripts that agree with rules -/

/-- **On feeds of at most `n` items a script yields what a rule under bounds gives.** -/
def Agrees (n : Int) (x : Descent α) (y : Rule α) : Prop :=
  ∀ s : Feed, s.items.length ≤ n → Yields x s (y.run s)

namespace Agrees

variable {n : Int} {x : Descent α} {y : Rule α} {f : α → Descent β} {g : α → Rule β}

theorem mono {n' : Int} (h : Agrees n x y) (hn : n' ≤ n) : Agrees n' x y :=
  fun s hs => h s (by omega)

/-- There is no feed of less than no items. -/
theorem of_neg (hn : n < 0) : Agrees n x y := fun s hs => by omega

theorem pure (a : α) : Agrees n (pure a) (pure a) := fun s _ => .done a s

/-- An action on the feed is a script of one step. -/
theorem lift (y : Rule α) : Agrees n (liftM y) y := by
  intro s _
  rcases hy : y.run s with ⟨e | a, s'⟩
  · exact .stopped hy
  · exact .acted hy (.done a s')

/-- A rule that is called does what it does. -/
theorem visit {g : Goal α} (h : Agrees n g.body y) : Agrees n (visit g) y := by
  intro s hs
  have hbody := h s hs
  rcases hy : y.run s with ⟨e | a, s'⟩ <;> rw [hy] at hbody
  · exact .failed hbody
  · exact .returned hbody (.done a s')

/-- One after the other: the second is on what the first leaves. -/
theorem bind_of_run (hx : Agrees n x y) (hf : ∀ (s s' : Feed) (a : α), s.items.length ≤ n →
    y.run s = (.ok a, s') → Agrees s'.items.length (f a) (g a)) : Agrees n (x >>= f) (y >>= g) := by
  intro s hs
  have hrun := hx s hs
  rcases hy : y.run s with ⟨e | a, s'⟩ <;> rw [hy] at hrun
  · rw [Action.run_bind_of_error hy]
    exact hrun.bind_of_error f
  · rw [Action.run_bind_of_ok hy]
    exact hrun.bind_of_ok (hf s s' a hs hy s' (Int.le_refl _))

/-- **One after the other**: what the first takes is gone. -/
theorem bind [Placed α] {c w : Nat} (hx : Agrees n x y) (hy : Rule.Local id c w n n y y)
    (hf : ∀ a, Agrees (n - c) (f a) (g a)) : Agrees n (x >>= f) (y >>= g) := by
  refine hx.bind_of_run fun s s' a hs hrun => (hf a).mono ?_
  obtain ⟨us, hstops⟩ := hy.stops s hs
  rw [hrun] at hstops
  obtain ⟨hitems, -, hc⟩ | ⟨⟩ := hstops
  have hlength : us.length + s'.items.length = s.items.length := by simp [hitems]
  omega

/-- Nothing is read after the last. -/
theorem bind_pure (hx : Agrees n x y) (h : α → β) :
    Agrees n (x >>= fun a => Pure.pure (h a)) (y >>= fun a => Pure.pure (h a)) :=
  hx.bind_of_run fun _ _ a _ _ => pure (h a)

/-- **An action that takes tokens leaves fewer items for what follows**, so agreement on shorter
feeds is enough there. -/
theorem lift_bind [Placed α] {c w : Nat} (hy : Rule.Local id c w n n y y)
    (hf : ∀ a, Agrees (n - c) (f a) (g a)) : Agrees n (liftM y >>= f) (y >>= g) :=
  (lift y).bind hy hf

theorem read_bind {expected : String} {f : Token → Descent β} {g : Token → Rule β}
    (hf : ∀ t, Agrees (n - 1) (f t) (g t)) :
    Agrees n (liftM (read expected) >>= f) (read expected >>= g) := by
  refine (lift _).bind_of_run fun s s' t hs hrun => (hf t).mono ?_
  rw [Rule.read_eq_ok hrun, List.length_cons] at hs
  omega

/-- Putting a token back makes the feed one item longer again. -/
theorem unread_bind {t : Token} {f : Unit → Descent β} {g : Unit → Rule β}
    (hf : Agrees (n + 1) (f ()) (g ())) : Agrees n (liftM (unread t) >>= f) (unread t >>= g) := by
  refine (lift _).bind_of_run fun s s' u hs hrun => hf.mono ?_
  obtain rfl : s.putBack t = s' := (Prod.mk.inj hrun).2
  rw [Feed.items_putBack, List.length_cons]
  omega

/-- An optional token is gone if it was there; if not, the feed is as long as before. -/
theorem accept?_bind {lexeme : Lexeme} {f : Option Token → Descent β} {g : Option Token → Rule β}
    (hsome : ∀ t, Agrees (n - 1) (f (some t)) (g (some t))) (hnone : Agrees n (f none) (g none)) :
    Agrees n (liftM (accept? lexeme) >>= f) (accept? lexeme >>= g) := by
  refine (lift _).bind_of_run fun s s' r hs hrun => ?_
  obtain ⟨t, rfl, hitems, -⟩ | ⟨rfl, hitems⟩ := Rule.accept?_eq_ok hrun
  · rw [hitems, List.length_cons] at hs
    exact (hsome t).mono (by omega)
  · exact hnone.mono (hitems ▸ hs)

theorem operator_bind {accept : BinaryOp → Bool} {f : Option (BinaryOp × Position) → Descent β}
    {g : Option (BinaryOp × Position) → Rule β}
    (hsome : ∀ op p, Agrees (n - 1) (f (some (op, p))) (g (some (op, p))))
    (hnone : Agrees n (f none) (g none)) :
    Agrees n (liftM (operator accept) >>= f) (operator accept >>= g) := by
  refine (lift _).bind_of_run fun s s' r hs hrun => ?_
  obtain ⟨op, p, rfl, -, hitems⟩ | ⟨rfl, hitems⟩ := Rule.operator_eq_ok hrun
  · rw [hitems, List.length_cons] at hs
    exact (hsome op p).mono (by omega)
  · exact hnone.mono (hitems ▸ hs)

/-- The bound that a rule asks for is at least the number of items. -/
theorem remaining_bind {g : Nat → Rule α} (hg : ∀ i : Nat, Agrees (min n i) x (g i)) :
    Agrees n x (Rule.remaining >>= g) := by
  intro s hs
  have hsize := s.length_items_le_size
  rw [Rule.run_remaining_bind]
  exact hg s.size s (by omega)

/-! ## Loops -/

section Chain

variable {accept : BinaryOp → Bool} {operand : Goal Expr} {more : Expr → Goal Expr} {y : Rule Expr}
  (hmore : ∀ left, (more left).body = extend accept operand more left)
  (hoperand : Agrees n (Descent.visit operand) y) (hy : Rule.Local id 1 1 n n y y)

include hmore hoperand hy

/-- **A chain turns around only after an operator and an operand.** -/
theorem chainWithin (i : Nat) (left : Expr) :
    Agrees (min n i) (Descent.visit (more left)) (Rule.chainWithin accept y i left) := by
  induction i generalizing left with
  | zero =>
    refine visit ?_
    rw [hmore]
    intro s hs
    have hnil : s.items = [] := List.length_eq_zero_iff.mp (by omega)
    have hread : Rule.read?.run s = (.ok none, s) := Feed.take_of_nil hnil
    have hop : (operator accept).run s = (.ok none, s) := Action.run_bind_of_ok hread _
    exact .acted hop (.done left s)
  | succ i ih =>
    refine visit ?_
    rw [hmore]
    refine operator_bind (fun op p => ?_) (.pure left)
    refine (hoperand.mono (by omega)).bind (hy.mono (by omega) (by omega)) fun right => ?_
    exact (ih _).mono (by omega)

/-- A chain of operands agrees with the rule under a bound on its length: each turn takes an
operator and an operand. -/
theorem chain : Agrees n (Descent.visit operand >>= fun first => Descent.visit (more first))
    (Rule.chain accept y) := by
  refine hoperand.bind hy fun left => remaining_bind fun i => ?_
  exact chainWithin hmore (hoperand.mono (by omega)) (hy.mono (by omega) (by omega)) i left

end Chain

section Lists

variable [Placed α] {item : Descent α} {more : Goal (List α)}
  (hmore : more.body = items item more) (hitem : Agrees n item y) (hy : Rule.Local id 1 1 n n y y)

include hmore hitem hy

/-- **A list turns around only after an item and a comma.** -/
theorem itemsWithin (i : Nat) :
    Agrees (min n i) (Descent.visit more) (Rule.itemsWithin y (i + 1)) := by
  induction i with
  | zero =>
    refine visit ?_
    rw [hmore]
    refine (hitem.mono (by omega)).bind (hy.mono (by omega) (by omega)) fun first => ?_
    exact .of_neg (by omega)
  | succ i ih =>
    refine visit ?_
    rw [hmore]
    refine (hitem.mono (by omega)).bind (hy.mono (by omega) (by omega)) fun first => ?_
    refine read_bind fun t => ?_
    rcases t with ⟨l, p⟩
    cases l with
    | mark k =>
      cases k with
      | comma => exact (ih.mono (by omega)).bind_pure _
      | rightParen => exact .pure _
      | _ => exact .lift _
    | _ => exact .lift _

theorem separated : Agrees n (separated more) (Rule.commaSeparated y) := by
  refine accept?_bind (fun t => .pure []) (remaining_bind fun i => ?_)
  exact itemsWithin hmore hitem hy i

end Lists

end Agrees

/-! ## Expressions -/

section Expressions

variable {n : Int} {y : Rule Expr}

theorem agrees_product (hfactor : Agrees n (visit .factor) y) (hy : Rule.Local id 1 1 n n y y) :
    Agrees n (visit .product) (Rule.productOf y) :=
  .visit (.chain (fun _ => rfl) hfactor hy)

theorem agrees_sum (hfactor : Agrees n (visit .factor) y) (hy : Rule.Local id 1 1 n n y y) :
    Agrees n (visit .sum) (Rule.sumOf y) :=
  .visit (.chain (fun _ => rfl) (agrees_product hfactor hy) (Rule.local_chain _ hy))

/-- Comparisons agree if factors do. -/
theorem agrees_comparison (hfactor : Agrees n (visit .factor) y) (hy : Rule.Local id 1 1 n n y y) :
    Agrees n (visit .comparison) (Rule.comparisonOf y) := by
  have hsum : Agrees n (visit .sum) (Rule.sumOf y) := agrees_sum hfactor hy
  refine .visit ?_
  refine hsum.bind (Rule.local_sumOf hy) fun left => ?_
  refine .operator_bind (fun op p => ?_) (.pure left)
  exact (hsum.mono (by omega)).bind_pure _

/-- A call is read over factors after its name and a parenthesis. -/
theorem agrees_call (hfactor : Agrees (n - 2) (visit .factor) y)
    (hy : Rule.Local id 1 1 (n - 2) (n - 2) y y) : Agrees n (visit .call) (Rule.callOf y) := by
  refine .visit ?_
  refine .lift_bind Rule.local_name fun callee => ?_
  refine .lift_bind (Rule.local_mark _) fun _ => ?_
  have hargs : Agrees (n - 2) (visit .args) (Rule.commaSeparated (Rule.comparisonOf y)) :=
    .visit (.separated rfl (agrees_comparison hfactor hy) (Rule.local_comparisonOf hy))
  exact (hargs.mono (by omega)).bind_pure _

/-- **A factor holds no more factors than there are items.** -/
theorem agrees_factorWithin (depth : Nat) :
    Agrees (depth - 1) (visit .factor) (Rule.factorWithin depth) := by
  induction depth with
  | zero => exact .of_neg (by omega)
  | succ depth ih =>
    have hlocal {n : Int} (hn : n ≤ depth) :
        Rule.Local id 1 1 n n (Rule.factorWithin depth) (Rule.factorWithin depth) :=
      (Rule.local_factorWithin depth depth).mono hn hn
    refine .visit ?_
    refine .read_bind fun t => ?_
    rcases t with ⟨l, p⟩
    cases l with
    | identifier text =>
      refine .accept?_bind (fun paren => ?_) (.pure _)
      refine .unread_bind (.unread_bind ?_)
      refine Agrees.bind_pure ?_ _
      exact agrees_call (ih.mono (by omega)) (hlocal (by omega))
    | number value => exact .pure _
    | bool value => exact .pure _
    | mark k =>
      cases k with
      | leftParen =>
        have hinner := agrees_comparison ih (hlocal (by omega))
        refine (hinner.mono (by omega)).bind
          (Rule.local_comparisonOf (hlocal (by omega))) fun inner => ?_
        exact (Agrees.lift _).bind_pure _
      | plus => exact (ih.mono (by omega)).bind_pure _
      | minus => exact (ih.mono (by omega)).bind_pure _
      | _ => exact .lift _
    | _ => exact .lift _

/-- A bound on nesting one above the number of items is never met. -/
theorem agrees_factor_remaining (i : Nat) :
    Agrees (min n i) (visit .factor) (Rule.factorWithin (i + 1)) :=
  (agrees_factorWithin (i + 1)).mono (by omega)

end Expressions

/-! ## Statements -/

section Statements

variable {n : Int}

/-- **Comparisons agree on every feed**: their rule takes its bound from the feed. -/
theorem agrees_comparison_remaining : Agrees n (visit .comparison) Rule.comparison :=
  .remaining_bind fun i => agrees_comparison (agrees_factor_remaining i)
    (Rule.local_factor_remaining i i)

theorem agrees_call_remaining : Agrees n (visit .call) Rule.call :=
  .remaining_bind fun i => agrees_call ((agrees_factorWithin (i + 1)).mono (by omega))
    ((Rule.local_factorWithin (i + 1) (i + 1)).mono (by omega) (by omega))

theorem agrees_params : Agrees n (visit .params) Rule.params :=
  .visit (.separated rfl (.lift Rule.name) Rule.local_name.widen)

theorem agrees_condition : Agrees n (visit .condition) Rule.condition := by
  refine .visit ?_
  refine .lift_bind (Rule.local_mark _) fun _ => ?_
  refine agrees_comparison_remaining.bind Rule.local_comparison fun e => ?_
  exact (Agrees.lift _).bind_pure _

theorem agrees_result : Agrees n (visit .result) Rule.result := by
  refine .visit ?_
  refine .lift_bind (Rule.local_require _) fun t => ?_
  exact agrees_comparison_remaining.bind_pure _

/-- **A list of statements turns around only after a statement.** -/
theorem agrees_statementsWithin {y : Rule Statement} (hstatement : Agrees n (visit .statement) y)
    (hy : Rule.Local id 1 1 n n y y) (i : Nat) :
    Agrees (min n i) (visit .statements) (Rule.statementsWithin y (i + 1)) := by
  induction i with
  | zero =>
    refine .visit ?_
    exact .read_bind fun t => .of_neg (by omega)
  | succ i ih =>
    refine .visit ?_
    refine .read_bind fun t => .unread_bind ?_
    have hmore : Agrees (min n (i + 1) - 1 + 1)
        (do let first ← visit .statement; return first :: (← visit .statements))
        (do let first ← y; return first :: (← Rule.statementsWithin y (i + 1))) := by
      refine (hstatement.mono (by omega)).bind (hy.mono (by omega) (by omega)) fun first => ?_
      exact (ih.mono (by omega)).bind_pure _
    rcases t with ⟨l, p⟩
    cases l with
    | mark k =>
      cases k with
      | rightBrace => exact .pure []
      | _ => exact hmore
    | _ => exact hmore

/-- Blocks agree if statements do. -/
theorem agrees_block {y : Rule Statement} (hstatement : Agrees n (visit .statement) y)
    (hy : Rule.Local id 1 1 n n y y) : Agrees n (visit .block) (Rule.blockOf y) := by
  refine .visit ?_
  refine .lift_bind (Rule.local_mark _) fun _ => .remaining_bind fun i => ?_
  have hlocal : Rule.Local id 0 1 (min n i) (min n i) _ _ := Rule.local_statementsWithin hy i i
  refine ((agrees_statementsWithin hstatement hy i).mono (by omega)).bind
    (hlocal.mono (by omega) (by omega)) fun body => ?_
  exact (Agrees.lift _).bind_pure _

section Forms

-- The word that a form begins with is taken before its blocks are read.
variable {y : Rule Statement} (hstatement : Agrees (n - 1) (visit .statement) y)
  (hy : Rule.Local id 1 1 (n - 1) (n - 1) y y)

include hstatement hy

theorem agrees_definition : Agrees n (visit .definition) (Rule.definitionOf y) := by
  refine .visit ?_
  refine .lift_bind (Rule.local_word _) fun _ => ?_
  refine .lift_bind Rule.local_name fun target => ?_
  refine .lift_bind (Rule.local_mark _) fun _ => ?_
  refine agrees_params.bind Rule.local_params fun formals => ?_
  exact ((agrees_block hstatement hy).mono (by omega)).bind_pure _

theorem agrees_branch : Agrees n (visit .branch) (Rule.branchOf y) := by
  have hblock := agrees_block hstatement hy
  have hlocal : Rule.Local id 2 0 (n - 1) (n - 1) _ _ := Rule.local_blockOf hy
  refine .visit ?_
  refine .lift_bind (Rule.local_word _) fun _ => ?_
  refine agrees_condition.bind Rule.local_condition fun test => ?_
  refine (hblock.mono (by omega)).bind (hlocal.mono (by omega) (by omega)) fun yes => ?_
  refine .lift_bind (Rule.local_word _) fun _ => ?_
  exact (hblock.mono (by omega)).bind_pure _

theorem agrees_loop : Agrees n (visit .loop) (Rule.loopOf y) := by
  refine .visit ?_
  refine .lift_bind (Rule.local_word _) fun _ => ?_
  refine agrees_condition.bind Rule.local_condition fun test => ?_
  exact ((agrees_block hstatement hy).mono (by omega)).bind_pure _

theorem agrees_assignment : Agrees n (visit .assignment) (Rule.assignmentOf y) := by
  refine .visit ?_
  refine .lift_bind Rule.local_name fun target => ?_
  refine .lift_bind (Rule.local_mark _) fun _ => ?_
  refine .accept?_bind (fun t => ?_) (agrees_comparison_remaining.bind_pure _)
  refine .lift_bind (Rule.local_mark _) fun _ => ?_
  refine agrees_params.bind Rule.local_params fun formals => ?_
  refine .lift_bind (Rule.local_mark _) fun _ => ?_
  exact ((agrees_block hstatement hy).mono (by omega)).bind_pure _

end Forms

/-- **A statement holds no more statements than there are items.** -/
theorem agrees_statementWithin (depth : Nat) :
    Agrees (depth - 1) (visit .statement) (Rule.statementWithin depth) := by
  induction depth with
  | zero => exact .of_neg (by omega)
  | succ depth ih =>
    have hlocal {n : Int} (hn : n ≤ depth) :
        Rule.Local id 1 1 n n (Rule.statementWithin depth) (Rule.statementWithin depth) :=
      (Rule.local_statementWithin depth depth).mono hn hn
    refine .visit ?_
    refine .read_bind fun t => ?_
    rcases t with ⟨l, p⟩
    cases l with
    | identifier text =>
      refine .read_bind fun u => ?_
      rcases u with ⟨l, q⟩
      cases l with
      | mark k =>
        cases k with
        | assign =>
          refine .unread_bind (.unread_bind ?_)
          exact agrees_assignment (ih.mono (by omega)) (hlocal (by omega))
        | leftParen => exact .unread_bind (.unread_bind (agrees_call_remaining.bind_pure _))
        | _ => exact .lift _
      | _ => exact .lift _
    | keyword k =>
      cases k with
      | kwDef => exact .unread_bind (agrees_definition (ih.mono (by omega)) (hlocal (by omega)))
      | kwIf => exact .unread_bind (agrees_branch (ih.mono (by omega)) (hlocal (by omega)))
      | kwWhile => exact .unread_bind (agrees_loop (ih.mono (by omega)) (hlocal (by omega)))
      | kwReturn => exact .unread_bind agrees_result
      | _ => exact .lift _
    | _ => exact .lift _

/-- As with factors, a bound one above the number of items is never met. -/
theorem agrees_statement_remaining (i : Nat) :
    Agrees (min n i) (visit .statement) (Rule.statementWithin (i + 1)) :=
  (agrees_statementWithin (i + 1)).mono (by omega)

theorem agrees_block_remaining : Agrees n (visit .block) Rule.block :=
  .remaining_bind fun i => agrees_block (agrees_statement_remaining i)
    ((Rule.local_statementWithin (i + 1) (i + 1)).mono (by omega) (by omega))

/-- **Programs agree on every feed.** -/
theorem agrees_program : Agrees n (visit .program) Rule.program := by
  refine .visit ?_
  refine .lift_bind (Rule.local_word _) fun _ => ?_
  refine .lift_bind Rule.local_name fun title => ?_
  exact agrees_block_remaining.bind_pure _

end Statements

/-! ## Every rule -/

/-- **A rule on a feed ends and keeps the order of the items.**  Without bounds it yields one
outcome, that of the rule under bounds.  If it succeeds, it has taken tokens off the front, at least
one; if it fails, what is left is still an end of what there was. -/
structure Ends (g : Goal α) (y : Rule α) (s : Feed) : Prop where
  yields : ∀ out, Yields (visit g) s out ↔ out = y.run s
  ok : ∀ a s', y.run s = (.ok a, s') → ∃ ts : List Token, ts ≠ [] ∧ s.items = ts.map .ok ++ s'.items
  error : ∀ e s', y.run s = (.error e, s') → s'.items <:+ s.items

/-- A rule that agrees with its script and takes at least one token ends, and keeps the order. -/
theorem Ends.of_local [Placed α] {g : Goal α} {y : Rule α} {c w : Nat} {s : Feed}
    (hg : Agrees s.items.length (visit g) y)
    (hy : Rule.Local id (c + 1) w s.items.length s.items.length y y) : Ends g y s := by
  have hyields : Yields (visit g) s (y.run s) := hg s (Int.le_refl _)
  obtain ⟨us, hstops⟩ := hy.stops s (Int.le_refl _)
  refine ⟨fun out => ⟨fun h => h.unique hyields, fun h => h ▸ hyields⟩, fun a s' hrun => ?_,
    fun e s' hrun => ?_⟩ <;> rw [hrun] at hstops
  · obtain ⟨hitems, -, hc⟩ | ⟨⟩ := hstops
    exact ⟨us, List.ne_nil_of_length_pos (by omega), hitems⟩
  · exact hstops.items_eq ▸ List.drop_suffix _ _

end Descent

open Descent in
/-- **Reading terminates, and loses and invents no token.**  On every feed, whatever was put back
and whatever is left to be cut, the descent without bounds comes to an end in each of its rules, a
rule that succeeds has taken a front of one token or more off the items, and one that fails leaves
an end of them. -/
theorem descent_ends (s : Feed) :
    Ends .comparison Rule.comparison s ∧ Ends .sum Rule.sum s ∧ Ends .product Rule.product s ∧
    Ends .factor Rule.factor s ∧ Ends .call Rule.call s ∧ Ends .statement Rule.statement s ∧
    Ends .block Rule.block s ∧ Ends .program Rule.program s := by
  refine ⟨.of_local agrees_comparison_remaining Rule.local_comparison, .of_local ?_ Rule.local_sum,
    .of_local ?_ Rule.local_product, .of_local ?_ Rule.local_factor,
    .of_local agrees_call_remaining Rule.local_call, .of_local ?_ Rule.local_statement,
    .of_local agrees_block_remaining Rule.local_block, .of_local agrees_program Rule.local_program⟩
  · exact .remaining_bind fun i =>
      agrees_sum (agrees_factor_remaining i) (Rule.local_factor_remaining i i)
  · exact .remaining_bind fun i =>
      agrees_product (agrees_factor_remaining i) (Rule.local_factor_remaining i i)
  · exact .remaining_bind agrees_factor_remaining
  · exact .remaining_bind agrees_statement_remaining

end BraceScript
