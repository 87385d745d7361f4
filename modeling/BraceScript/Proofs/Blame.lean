import BraceScript.Proofs.Grammar.Anchors
import BraceScript.Proofs.Grammar.Exact
import BraceScript.Proofs.Kinds
import BraceScript.Proofs.Session

/-!
# Proofs/Blame — where errors of a run point to

An error of a run names a place, and at this place stands a token of the source that has to do with
the error: the operator that was given a wrong value, or the name that was looked up or called
(`RuntimeFault.PointsAt`).

The body that fails may have come out of a frame, so the invariant of a run is that its stack is
bound by the vocabulary of the program (`Stack.Bound`).  One induction over the evaluator carries it
together with what is known of results and failures (`Keeps`); which names come to be bound
(`Proofs/Binders`) is read off the same one.  A condition is blamed at the place of its expression,
whatever it is; but only a name or a call can have a value that is no number (`Expr.Yields`).
-/

namespace BraceScript

/-! ## What an error points to -/

/-- The lexeme that a mismatch is blamed on. -/
def Mismatch.PointsAt : Mismatch → Lexeme → Prop
  | binary op _ _, lexeme => lexeme = .mark op.mark
  | unary op _, lexeme => lexeme = .mark op.mark
  | condition _, lexeme | comparison _, lexeme | absolute _, lexeme | summand _, lexeme =>
    ∃ name, lexeme = .identifier name

/-- **The lexeme that a fault is blamed on**: a division sign, the operator of a mismatch, or a
name, which for some faults is the very name that they report. -/
def RuntimeFault.PointsAt : RuntimeFault → Lexeme → Prop
  | divisionByZero, lexeme => lexeme = .mark .slash
  | notCallable name, lexeme | missingValue name, lexeme => lexeme = .identifier name
  | typeMismatch cause, lexeme => cause.PointsAt lexeme
  | unknownName _, lexeme | argumentCount _ _ _, lexeme | builtinArity _ _, lexeme =>
    ∃ name, lexeme = .identifier name

/-- **The failure points to a token of the vocabulary**, if it points to any. -/
def Failure.Blames (V : Vocabulary) : Failure → Prop
  | runtimeError (.located fault p) => ∃ lexeme, V.token ⟨lexeme, p⟩ ∧ fault.PointsAt lexeme
  | _ => True

variable {V : Vocabulary} {α β : Type}

/-! ## Operators and built-in functions -/

namespace Value

/-- Every number has a truth value, so what has none is no number. -/
theorem number?_eq_none_of_truth? {v : Value} (h : v.truth? = none) : v.number? = none := by
  cases v with
  | int _ | float _ | bool _ => cases h
  | _ => rfl

/-- A value that may be missing lies within the vocabulary. -/
def WithinIfAny (V : Vocabulary) (v? : Option Value) : Prop := ∀ v ∈ v?, v.Within V

end Value

namespace BinaryOp

/-- Only one operator has no value on some numbers. -/
theorem eq_div_of_onNumbers? {op : BinaryOp} {a b : Number} (h : op.onNumbers? a b = none) :
    op = .div := by
  cases op with
  | div => rfl
  | _ => cases h

/-- What an operator makes of two numbers is a number or a truth value, which counts as one. -/
theorem number?_of_onNumbers? {op : BinaryOp} {a b : Number} {v : Value}
    (h : op.onNumbers? a b = some v) : ∃ n, v.number? = some n := by
  obtain ⟨u, hu, hkind⟩ | ⟨-, -, -, hnone⟩ := op.onNumbers?_cases a b
  · obtain rfl := Option.some.inj (hu.symm.trans h)
    obtain ⟨n, hn, -⟩ := Value.number?_of_isNumeric (hkind ▸ op.isNumeric_kind a.kind b.kind)
    exact ⟨n, hn⟩
  · cases hnone.symm.trans h

/-- An operator gives a number, or is itself to blame. -/
theorem apply_cases (op : BinaryOp) (v w : Value) (p : Position) :
    (∃ u n, op.apply v w p = .ok u ∧ u.number? = some n) ∨
    ∃ fault : RuntimeFault, op.apply v w p = .error (.located fault p) ∧
      fault.PointsAt (.mark op.mark) := by
  unfold apply
  split
  · next a b _ _ =>
    cases hu : op.onNumbers? a b with
    | some u =>
      obtain ⟨n, hn⟩ := number?_of_onNumbers? hu
      exact .inl ⟨u, n, rfl, hn⟩
    | none =>
      obtain rfl := eq_div_of_onNumbers? hu
      exact .inr ⟨_, rfl, rfl⟩
  · exact .inr ⟨_, rfl, rfl⟩

end BinaryOp

/-- A sign gives a number, or is itself to blame. -/
theorem UnaryOp.apply_cases (op : UnaryOp) (v : Value) (p : Position) :
    (∃ u n, op.apply v p = .ok u ∧ u.number? = some n) ∨
    ∃ fault : RuntimeFault, op.apply v p = .error (.located fault p) ∧
      fault.PointsAt (.mark op.mark) := by
  unfold apply
  cases v.number? with
  | some n => exact .inl ⟨_, _, rfl, Number.number?_toValue _⟩
  | none => exact .inr ⟨_, rfl, rfl⟩

namespace Builtin

/-- **What a built-in function may answer when it is called at a place**: a number or nothing, or an
error that is blamed on the name there. -/
def Answers (p : Position) : Except RuntimeError (Option Value) → Prop
  | .ok v? => ∀ v ∈ v?, ∃ n, v.number? = some n
  | .error (.located fault q) => q = p ∧ ∀ name, fault.PointsAt (.identifier name)
  | .error .output => True

/-- The best so far is an argument that was found to be a number; that is what the loop keeps. -/
theorem answers_extremeFrom (better : Float → Float → Bool) (p : Position) :
    ∀ (args : List Value) (best : Option (Value × Float)),
      (∀ b ∈ best, ∃ n, b.1.number? = some n) → Answers p (extremeFrom better p best args)
  | [], best, hbest => by
    intro v hv
    obtain ⟨b, hb, rfl⟩ := Option.map_eq_some_iff.mp hv
    exact hbest b hb
  | v :: args, best, hbest => by
    unfold extremeFrom
    cases hv : v.number? with
    | none => exact ⟨rfl, fun name => ⟨name, rfl⟩⟩
    | some n =>
      have hfirst (y : Float) : ∀ b ∈ some (v, y), ∃ n, b.1.number? = some n := by
        rintro _ ⟨⟩
        exact ⟨n, hv⟩
      rcases best with _ | ⟨w, y⟩
      · exact answers_extremeFrom better p args _ (hfirst _)
      · dsimp only
        split
        · exact answers_extremeFrom better p args _ (hfirst _)
        · exact answers_extremeFrom better p args _ hbest

theorem answers_totalFrom (p : Position) :
    ∀ (args : List Value) (acc : Number), Answers p (totalFrom p acc args)
  | [], acc => by
    rintro _ ⟨⟩
    exact ⟨acc, Number.number?_toValue acc⟩
  | v :: args, acc => by
    unfold totalFrom
    split
    · exact answers_totalFrom p args _
    · exact answers_totalFrom p args _
    · exact ⟨rfl, fun name => ⟨name, rfl⟩⟩

theorem answers_absolute (args : List Value) (p : Position) : Answers p (absolute args p) := by
  unfold absolute
  split
  · exact ⟨rfl, fun name => ⟨name, rfl⟩⟩
  · split
    · rintro _ ⟨⟩
      exact ⟨_, Number.number?_toValue _⟩
    · exact ⟨rfl, fun name => ⟨name, rfl⟩⟩

/-- **Every built-in function answers so**; only a failing output has no place. -/
theorem answers_apply (b : Builtin) (args : List Value) (p : Position) (sink : Sink) :
    Answers p (b.apply args p sink).1 := by
  cases b with
  | print =>
    simp only [apply, printLine]
    rcases sink.writeLine (line args) with ⟨_ | _, sink⟩
    · trivial
    · exact fun _ h => by cases h
  | min => exact answers_extremeFrom _ p args none fun _ h => by cases h
  | max => exact answers_extremeFrom _ p args none fun _ h => by cases h
  | abs => exact answers_absolute args p
  | sum => exact answers_totalFrom p args _

end Builtin

/-! ## Computations within a vocabulary -/

namespace Eval

/-- The result is as described, or the failure points to a token of the vocabulary. -/
def Outcome (V : Vocabulary) (P : α → Prop) : Except Failure α → Prop
  | .ok a => P a
  | .error e => e.Blames V

/-- **Computations that stay within a vocabulary**: they leave a stack that is bound by it if they
started from one, their results are as described, and their failures point to tokens of it. -/
def Keeps (V : Vocabulary) (P : α → Prop) (x : Eval α) : Prop :=
  ∀ m : Machine, m.stack.Bound V → (x.run m).2.stack.Bound V ∧ Outcome V P (x.run m).1

/-- What a computation that ends with a result leaves behind. -/
theorem Keeps.of_run_ok {P : α → Prop} {x : Eval α} (hx : Keeps V P x) {m m' : Machine} {a : α}
    (hrun : x.run m = (.ok a, m')) (hm : m.stack.Bound V) : m'.stack.Bound V ∧ P a := by
  have h := hx m hm
  rw [hrun] at h
  exact h

theorem keeps_pure {P : α → Prop} {a : α} (h : P a) : Keeps V P (pure a : Eval α) :=
  fun _ hm => ⟨hm, h⟩

theorem keeps_throw {P : α → Prop} {e : Failure} (h : e.Blames V) : Keeps V P (throw e : Eval α) :=
  fun _ hm => ⟨hm, h⟩

/-- **A sequence stays within the vocabulary**, where the second part may rely on the result of the
first. -/
theorem Keeps.bind {P : α → Prop} {Q : β → Prop} {x : Eval α} {f : α → Eval β} (hx : Keeps V P x)
    (hf : ∀ a, P a → Keeps V Q (f a)) : Keeps V Q (x >>= f) := by
  intro m hm
  obtain ⟨hstack, hresult⟩ := hx m hm
  rcases hrun : x.run m with ⟨e | a, m₁⟩ <;> rw [hrun] at hstack hresult
  · rw [Action.run_bind_of_error hrun]
    exact ⟨hstack, hresult⟩
  · rw [Action.run_bind_of_ok hrun]
    exact hf a hresult m₁ hstack

theorem Keeps.imp {P Q : α → Prop} {x : Eval α} (hx : Keeps V P x) (h : ∀ a, P a → Q a) :
    Keeps V Q x := by
  intro m hm
  obtain ⟨hstack, hresult⟩ := hx m hm
  refine ⟨hstack, ?_⟩
  cases hrun : (x.run m).1 with
  | ok a => exact h a (by rwa [hrun] at hresult)
  | error e => rwa [hrun] at hresult

theorem Keeps.discard {P : α → Prop} {x : Eval α} (h : Keeps V P x) :
    Keeps V (fun _ => True) (discard x) :=
  h.bind fun _ _ => keeps_pure trivial

theorem keeps_fail {P : α → Prop} {fault : RuntimeFault} {p : Position} {lexeme : Lexeme}
    (htoken : V.token ⟨lexeme, p⟩) (h : fault.PointsAt lexeme) :
    Keeps V P (fail fault p : Eval α) := keeps_throw ⟨lexeme, htoken, h⟩

theorem keeps_emit (e : Event) : Keeps V (fun _ => True) (emit e) := fun _ hm => ⟨hm, trivial⟩

theorem keeps_bindName {name : String} {v : Value} (hname : V.binder name) (hv : v.Within V) :
    Keeps V (fun _ => True) (bindName name v) := fun _ hm => ⟨hm.bind hname hv, trivial⟩

/-- A name that is found has an allowed value; one that is not is itself to blame. -/
theorem keeps_resolve {x : Name} (hx : V.token x.token) : Keeps V (Value.Within V) (resolve x) := by
  intro m hm
  simp only [resolve, Action.run_bind, Action.run_get]
  cases hv : m.stack.lookup? x.text with
  | none => exact ⟨hm, _, hx, _, rfl⟩
  | some v => exact ⟨hm, (hm.lookup? hv).within⟩

/-- A built-in function leaves the stack alone and blames the name that it is called by. -/
theorem keeps_callBuiltin (b : Builtin) (args : List Value) {name : String} {p : Position}
    (hp : V.token ⟨.identifier name, p⟩) :
    Keeps V (Value.WithinIfAny V) (callBuiltin b args p) := by
  unfold callBuiltin
  split
  · refine (keeps_emit _).bind fun _ _ m hm => ?_
    have hanswer := Builtin.answers_apply b args p m.sink
    simp only [applyBuiltin, Action.run]
    rcases happly : b.apply args p m.sink with ⟨e | v?, sink⟩ <;> rw [happly] at hanswer
    · cases e with
      | located fault q =>
        obtain ⟨rfl, hfault⟩ := hanswer
        exact ⟨hm, _, hp, hfault name⟩
      | output => exact ⟨hm, trivial⟩
    · refine ⟨hm, fun v hv => ?_⟩
      obtain ⟨n, hn⟩ := hanswer v hv
      exact Value.within_of_number hn
  · exact keeps_fail hp ⟨name, rfl⟩

section Bodies

variable {enter : Block → Eval (Option Value)}

/-- Bodies of functions that lie within the vocabulary stay within it. -/
def BodiesKeep (V : Vocabulary) (enter : Block → Eval (Option Value)) : Prop :=
  ∀ b : Block, Block.Within V b → Keeps V (Value.WithinIfAny V) (enter b)

/-- **A call puts the parameters into a frame and takes the frame off again**; the body is one that
was stored. -/
theorem keeps_callRoutine (henter : BodiesKeep V enter) {r : Routine} (hr : r.Within V)
    {args : List Value} (hargs : ∀ v ∈ args, v.Within V) {name : String} {p : Position}
    (hp : V.token ⟨.identifier name, p⟩) :
    Keeps V (Value.WithinIfAny V) (callRoutine enter r args p) := by
  intro m hm
  rw [callRoutine_run]
  cases m.stack.find? r.name.text with
  | none => exact ⟨hm, _, hp, name, rfl⟩
  | some parent =>
    by_cases hlength : r.params.length = args.length
    · simp only [if_pos hlength]
      obtain ⟨hstack, hresult⟩ := henter r.body hr.body (m.enter r args parent)
        (hm.push (hr.bound_calleeFrame hargs m.stack parent))
      rw [Machine.pop_stack]
      exact ⟨hstack.pop, hresult⟩
    · simp only [if_neg hlength]
      exact ⟨hm, _, hp, name, rfl⟩

theorem keeps_call (henter : BodiesKeep V enter) {callee : Name} (hcallee : V.token callee.token)
    {args : Eval (List Value)} (hargs : Keeps V (fun vs => ∀ v ∈ vs, v.Within V) args) :
    Keeps V (Value.WithinIfAny V) (call enter callee args) := by
  refine (keeps_resolve hcallee).bind fun v hv => ?_
  cases v with
  | builtin b => exact hargs.bind fun vs _ => keeps_callBuiltin b vs hcallee
  | function r => exact hargs.bind fun vs hvs => keeps_callRoutine henter (hv r rfl) hvs hcallee
  | lambda r => exact hargs.bind fun vs hvs => keeps_callRoutine henter (hv r rfl) hvs hcallee
  | int _ | float _ | bool _ | program _ => exact keeps_fail hcallee rfl

end Bodies

end Eval

/-! ## Expressions -/

/-- **What an expression yields**: a value within the vocabulary, and a number unless a name stands
at the place of the expression. -/
structure Expr.Yields (V : Vocabulary) (a : Expr) (v : Value) : Prop where
  within : v.Within V
  named : v.number? = none → ∃ name, V.token ⟨.identifier name, a.position⟩

theorem Expr.Yields.of_number {a : Expr} {v : Value} {n : Number} (h : v.number? = some n) :
    a.Yields V v where
  within := Value.within_of_number h
  named hnone := by rw [h] at hnone; cases hnone

namespace Eval

variable {enter : Block → Eval (Option Value)}

/-- An operator that stands at a token of the vocabulary yields a number or points to itself. -/
theorem keeps_operator {a : Expr} {r : Except RuntimeError Value} {mark : Mark} {p : Position}
    (hp : V.token ⟨.mark mark, p⟩)
    (hr : (∃ u n, r = .ok u ∧ u.number? = some n) ∨
      ∃ fault : RuntimeFault, r = .error (.located fault p) ∧ fault.PointsAt (.mark mark)) :
    Keeps V (a.Yields V) (ofExcept r) := by
  obtain ⟨u, n, rfl, hn⟩ | ⟨fault, rfl, hfault⟩ := hr
  · exact keeps_pure (.of_number hn)
  · exact keeps_fail hp hfault

mutual

/-- **Expressions stay within their vocabulary.** -/
theorem keeps_eval (henter : BodiesKeep V enter) :
    ∀ a : Expr, a.Within V → Keeps V (a.Yields V) (a.eval enter)
  | .number n _, _ => by
    unfold Expr.eval
    exact keeps_pure (.of_number (Number.number?_toValue n))
  | .bool b _, _ => by
    unfold Expr.eval
    exact keeps_pure (.of_number rfl)
  | .var x, h => by
    unfold Expr.eval
    have hx := Expr.within_var.mp h
    exact (keeps_resolve hx).imp fun v hv => ⟨hv, fun _ => ⟨x.text, hx⟩⟩
  | .unary op p a, h => by
    unfold Expr.eval
    obtain ⟨hp, ha⟩ := Expr.within_unary.mp h
    exact (keeps_eval henter a ha).bind fun v _ => keeps_operator hp (op.apply_cases v p)
  | .binary op p a b, h => by
    unfold Expr.eval
    obtain ⟨hp, ha, hb⟩ := Expr.within_binary.mp h
    exact (keeps_eval henter a ha).bind fun v _ => (keeps_eval henter b hb).bind fun w _ =>
      keeps_operator hp (op.apply_cases v w p)
  | .call x as, h => by
    unfold Expr.eval
    obtain ⟨hx, has⟩ := Expr.within_call.mp h
    refine (keeps_call henter hx (keeps_evalAll henter as has)).bind fun v? hv => ?_
    cases v? with
    | some v => exact keeps_pure ⟨hv v rfl, fun _ => ⟨x.text, hx⟩⟩
    | none => exact keeps_fail hx rfl

theorem keeps_evalAll (henter : BodiesKeep V enter) :
    ∀ as : List Expr, (∀ a ∈ as, a.Within V) →
      Keeps V (fun vs => ∀ v ∈ vs, v.Within V) (Expr.evalAll enter as)
  | [], _ => by
    unfold Expr.evalAll
    exact keeps_pure fun _ h => by cases h
  | a :: as, h => by
    unfold Expr.evalAll
    obtain ⟨ha, has⟩ := List.forall_mem_cons.mp h
    exact (keeps_eval henter a ha).bind fun v hv => (keeps_evalAll henter as has).bind fun vs hvs =>
      keeps_pure (List.forall_mem_cons.mpr ⟨hv.within, hvs⟩)

end

/-- **A value that is no condition is that of a name or of a call**, so a name is to blame. -/
theorem keeps_test (henter : BodiesKeep V enter) {a : Expr} (ha : a.Within V) :
    Keeps V (fun _ => True) (a.test enter) := by
  refine (keeps_eval henter a ha).bind fun v hv => ?_
  unfold Value.condition
  cases htruth : v.truth? with
  | some b => exact keeps_pure trivial
  | none =>
    obtain ⟨name, hname⟩ := hv.named (Value.number?_eq_none_of_truth? htruth)
    exact keeps_fail hname ⟨name, rfl⟩

/-! ## Statements -/

theorem keeps_repeatWhile {test : Eval Bool} {body : Eval Unit}
    (htest : Keeps V (fun _ => True) test) (hbody : Keeps V (fun _ => True) body) :
    ∀ turns, Keeps V (fun _ => True) (repeatWhile test body turns)
  | 0 => keeps_throw trivial
  | turns + 1 => by
    refine htest.bind fun b _ => ?_
    cases b with
    | true => exact hbody.bind fun _ _ => keeps_repeatWhile htest hbody turns
    | false => exact keeps_pure trivial

theorem withinIfAny_none : Value.WithinIfAny V none := fun _ h => by cases h

/-- A definition stores a function whose parameters and body lie within the vocabulary. -/
theorem keeps_definition {x : Name} {v : Value} (hx : V.binds x) (hv : v.Within V) :
    Keeps V (Value.WithinIfAny V) (do bindName x.text v; return none) :=
  (keeps_bindName hx.2 hv).bind fun _ _ => keeps_pure withinIfAny_none

mutual

/-- **Statements stay within their vocabulary.** -/
theorem keeps_exec (henter : BodiesKeep V enter) (turns : Nat) :
    ∀ s : Statement, s.Within V → Keeps V (Value.WithinIfAny V) (s.exec enter turns)
  | .assign x a, h => by
    unfold Statement.exec
    obtain ⟨hx, ha⟩ := Statement.within_assign.mp h
    exact (keeps_eval henter a ha).bind fun v hv => keeps_definition hx hv.within
  | .lambda x xs b, h => by
    unfold Statement.exec
    obtain ⟨hx, hxs, hb⟩ := Statement.within_lambda.mp h
    exact keeps_definition hx fun _ hr => Option.some.inj hr ▸ ⟨hxs, hb⟩
  | .define x xs b, h => by
    unfold Statement.exec
    obtain ⟨hx, hxs, hb⟩ := Statement.within_define.mp h
    exact keeps_definition hx fun _ hr => Option.some.inj hr ▸ ⟨hxs, hb⟩
  | .call x as, h => by
    unfold Statement.exec
    obtain ⟨hx, has⟩ := Statement.within_call.mp h
    exact keeps_call henter hx (keeps_evalAll henter as has)
  | .branch a yes no, h => by
    unfold Statement.exec
    obtain ⟨ha, hyes, hno⟩ := Statement.within_branch.mp h
    refine (keeps_test henter ha).bind fun b _ => ?_
    cases b with
    | true => exact keeps_execFrom henter turns withinIfAny_none yes hyes
    | false => exact keeps_execFrom henter turns withinIfAny_none no hno
  | .loop a b, h => by
    unfold Statement.exec
    obtain ⟨ha, hb⟩ := Statement.within_loop.mp h
    exact (keeps_repeatWhile (keeps_test henter ha)
      (keeps_execFrom henter turns withinIfAny_none b hb).discard turns).bind fun _ _ =>
        keeps_pure withinIfAny_none
  | .result p a, h => by
    unfold Statement.exec
    obtain ⟨-, ha⟩ := Statement.within_result.mp h
    exact (keeps_eval henter a ha).bind fun v hv =>
      keeps_pure fun _ h => Option.some.inj h ▸ hv.within

theorem keeps_execFrom (henter : BodiesKeep V enter) (turns : Nat) {last : Option Value}
    (hlast : Value.WithinIfAny V last) :
    ∀ b : Block, Block.Within V b →
      Keeps V (Value.WithinIfAny V) (Statement.execFrom enter turns last b)
  | [], _ => by
    unfold Statement.execFrom
    exact keeps_pure hlast
  | s :: b, h => by
    unfold Statement.execFrom
    obtain ⟨hs, hb⟩ := List.forall_mem_cons.mp h
    exact (keeps_exec henter turns s hs).bind fun v? hv => keeps_execFrom henter turns hv b hb

end

/-- **Blocks stay within their vocabulary**, with any fuel. -/
theorem bodiesKeep_run : ∀ fuel, BodiesKeep V (Block.run fuel)
  | 0 => fun _ _ => keeps_throw trivial
  | fuel + 1 => fun b hb => keeps_execFrom (bodiesKeep_run fuel) fuel withinIfAny_none b hb

/-- The name of a program is one of the names that it binds. -/
theorem keeps_programName (p : Program) :
    Keeps p.vocabulary (fun _ => True) (bindName p.name.text (.program p.name.text)) :=
  keeps_bindName List.mem_cons_self fun _ h => by cases h

/-- **A program stays within its vocabulary.** -/
theorem keeps_program (fuel : Nat) (p : Program) :
    Keeps p.vocabulary (fun _ => True) (p.run fuel) :=
  (keeps_programName p).bind fun _ _ =>
    (bodiesKeep_run fuel p.body p.body_within).discard.bind fun _ _ _ hm => ⟨hm, trivial⟩

end Eval

/-! ## Whole sources -/

/-- **A source fails to be read, or is run as the program that its tokens derive.** -/
theorem interpret_cases (fuel : Nat) (source : String) (limit : Option Nat) :
    (∃ e, (Rule.wholeProgram.parse source).1 = .error e ∧
      ((interpret fuel source).run (.fresh limit)).1 = .error (.syntaxError e)) ∨
    ∃ (ts : List Token) (p : Program) (m : Machine), lex source = ts.map .ok ∧
      Grammar.IsProgram ts p ∧ m.stack = .initial ∧
      (interpret fuel source).run (.fresh limit) = (p.run fuel).run m := by
  cases hparse : (Rule.wholeProgram.parse source).1 with
  | error e =>
    obtain ⟨events, hread⟩ := Eval.ofRule_run Rule.wholeProgram source
      ((Machine.fresh limit).emit (.opened source.utf8ByteSize))
    rw [hparse] at hread
    refine .inl ⟨e, rfl, ?_⟩
    rw [interpret, Action.run_bind_of_ok (Eval.run_emit _ _), Action.run_bind_of_error hread]
  | ok p =>
    obtain ⟨ts, hts, hp⟩ := (Rule.run_wholeProgram_iff (.ofSource source) p).mp hparse
    obtain ⟨events, hrun⟩ := Eval.interpret_of_parse hparse fuel limit
    exact .inr ⟨ts, p, _, hts, hp, rfl, hrun⟩

/-- A runtime error of a program points to one of its tokens. -/
theorem Program.exists_anchor_of_run {fuel : Nat} {p : Program} {m : Machine} {fault : RuntimeFault}
    {q : Position} (hm : m.stack = .initial)
    (h : ((p.run fuel).run m).1 = .error (.runtimeError (.located fault q))) :
    ∃ lexeme, ⟨lexeme, q⟩ ∈ p.anchors ∧ fault.PointsAt lexeme := by
  have hstart : m.stack.Bound p.vocabulary := hm ▸ .initial
  have hresult := (Eval.keeps_program fuel p m hstart).2
  rw [h] at hresult
  exact hresult

/-- **Runtime errors point to a token of the right kind.**  When a run fails with an error that has
a place, a token of the source stands there: a division sign for a division by zero; the operator
itself for a wrong operand; the reported name for a value that cannot be called and for a call that
gives no value; and some name for an unknown name, a wrong number of arguments and the other values
of a wrong kind. -/
theorem runtime_error_points_to_token {fuel : Nat} {source : String} {limit : Option Nat}
    {fault : RuntimeFault} {p : Position}
    (h : ((interpret fuel source).run (.fresh limit)).1 =
      .error (.runtimeError (.located fault p))) :
    ∃ t : Token, .ok t ∈ lex source ∧ t.position = p ∧ fault.PointsAt t.lexeme := by
  obtain ⟨e, -, he⟩ | ⟨ts, r, m, hts, hr, hm, hrun⟩ := interpret_cases fuel source limit
  · rw [he] at h
    cases h
  · rw [hrun] at h
    obtain ⟨lexeme, hmem, hpoints⟩ := Program.exists_anchor_of_run hm h
    refine ⟨⟨lexeme, p⟩, ?_, rfl, hpoints⟩
    rw [hts]
    exact List.mem_map_of_mem (hr.anchors_subset hmem)

open Grammar in
/-- An argument that is no condition, in a body that runs in a frame of its own. -/
theorem runtime_error_points_to_token_condition :
    ∃ t : Token, .ok t ∈ lex "PROGRAM p\x7bdef f(x)\x7bif(x)\x7b\x7delse\x7b\x7d\x7df(p)\x7d" ∧
      t.position = ⟨1, 23⟩ ∧
      (RuntimeFault.typeMismatch (.condition .program)).PointsAt t.lexeme := by
  have hname (x : Name) : IsComparison _ (.var x) := .sum (.mk (.mk (.var x) (.stop _)) (.stop _))
  have hbranch := IsStatement.branch (p := ⟨1, 20⟩) (q := ⟨1, 27⟩)
    (.mk (p := ⟨1, 22⟩) (q := ⟨1, 24⟩) (hname ⟨"x", ⟨1, 23⟩⟩))
    (.mk (p := ⟨1, 25⟩) (q := ⟨1, 26⟩) .nil) (.mk (p := ⟨1, 31⟩) (q := ⟨1, 32⟩) .nil)
  have hbody := IsBlock.mk (p := ⟨1, 19⟩) (q := ⟨1, 33⟩) (.cons hbranch .nil)
  have hparams := IsParams.mk (p := ⟨1, 16⟩) (q := ⟨1, 18⟩) (.some (.one (.mk ⟨"x", ⟨1, 17⟩⟩)))
  have hdefine := IsStatement.define (p := ⟨1, 11⟩) (x := ⟨"f", ⟨1, 15⟩⟩) hparams hbody
  have hcall := IsStatement.call (.mk (x := ⟨"f", ⟨1, 34⟩⟩) (p := ⟨1, 35⟩) (q := ⟨1, 37⟩)
    (.some (.one (hname ⟨"p", ⟨1, 36⟩⟩))))
  have hblock := IsBlock.mk (p := ⟨1, 10⟩) (q := ⟨1, 38⟩) (.cons hdefine (.cons hcall .nil))
  have hprogram := IsProgram.mk (p := ⟨1, 1⟩) (x := ⟨"p", ⟨1, 9⟩⟩) hblock
  have hparse : (Rule.wholeProgram.parse
      "PROGRAM p\x7bdef f(x)\x7bif(x)\x7b\x7delse\x7b\x7d\x7df(p)\x7d").1 = .ok _ :=
    (Rule.reads_wholeProgram hprogram).parse_eq rfl
  have h : ((interpret 3 "PROGRAM p\x7bdef f(x)\x7bif(x)\x7b\x7delse\x7b\x7d\x7df(p)\x7d").run
      (.fresh none)).1 =
      .error (.runtimeError (.located (.typeMismatch (.condition .program)) ⟨1, 23⟩)) := by
    obtain ⟨events, hrun⟩ := Eval.interpret_of_parse hparse 3 none
    rw [hrun]
    rfl
  exact runtime_error_points_to_token h

end BraceScript
