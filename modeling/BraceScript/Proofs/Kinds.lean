import BraceScript.Machine.Run

/-!
# Proofs/Kinds — the kind of a value, told from its expression

An expression without calls, whose names all stand for numbers or truth values, can be given a kind
before it is computed (`Expr.kind?`).  Computing it gives a value of just this kind, or fails in one
way: an integer is divided by zero, at a division whose operands are not inferred to be doubles
(`Expr.EndsIn`).

The operators see truth values as integers, so a table of the kinds they give (`BinaryOp.kind`) has
to agree with them on numbers only (`BinaryOp.onNumbers?_cases`).
-/

namespace BraceScript

/-! ## Kinds -/

namespace Kind

/-- Whether values of a kind take part in arithmetic. -/
def isNumeric : Kind → Bool
  | int | float | bool => true
  | _ => false

/-- The kind of number that a value counts as in arithmetic. -/
def promoted : Kind → Kind
  | float => float
  | _ => int

/-- The kind of a result that stays among the integers where it can. -/
def join (k l : Kind) : Kind := if k = float ∨ l = float then float else int

/-- Only a double counts as a double; truth values count as integers. -/
theorem promoted_eq_float_iff {k : Kind} : k.promoted = float ↔ k = float := by
  cases k <;> decide

end Kind

/-- The kind of a number. -/
def Number.kind : Number → Kind
  | int _ => .int
  | float _ => .float

/-- **The kind that an operator gives**, by the kinds of its operands. -/
def BinaryOp.kind : BinaryOp → Kind → Kind → Kind
  | add, k, l | sub, k, l | mul, k, l | div, k, l => k.join l
  | trueDiv, _, _ => .float
  | greater, _, _ | less, _, _ | greaterEqual, _, _ | lessEqual, _, _ => .bool
  | equal, _, _ | notEqual, _, _ => .bool

/-- The table has kinds of numbers only. -/
theorem BinaryOp.isNumeric_kind (op : BinaryOp) (k l : Kind) : (op.kind k l).isNumeric := by
  cases op with
  | add | sub | mul | div =>
    simp only [kind, Kind.join]
    split <;> rfl
  | _ => rfl

/-- The table does not tell truth values from integers. -/
theorem BinaryOp.kind_promoted (op : BinaryOp) (k l : Kind) :
    op.kind k.promoted l.promoted = op.kind k l := by
  cases op with
  | add | sub | mul | div => simp only [kind, Kind.join, Kind.promoted_eq_float_iff]
  | _ => rfl

/-! ## Operators -/

theorem Number.kind_toValue (n : Number) : n.toValue.kind = n.kind := by cases n <;> rfl

theorem Number.number?_toValue (n : Number) : n.toValue.number? = some n := by cases n <;> rfl

/-- A value of a numeric kind has a number, in which a truth value is an integer. -/
theorem Value.number?_of_isNumeric {v : Value} (h : v.kind.isNumeric) :
    ∃ n, v.number? = some n ∧ n.kind = v.kind.promoted := by
  cases v with
  | int _ | float _ | bool _ => exact ⟨_, rfl, rfl⟩
  | _ => cases h

/-- A sign makes an integer of an integer and a double of a double. -/
theorem UnaryOp.kind_onNumber (op : UnaryOp) (n : Number) : (op.onNumber n).kind = n.kind := by
  cases op <;> cases n <;> rfl

theorem UnaryOp.apply_of_number? (op : UnaryOp) {v : Value} {n : Number} (hv : v.number? = some n)
    (p : Position) : op.apply v p = .ok (op.onNumber n).toValue := by
  rw [apply, hv]

/-- **A sign keeps to the table.** -/
theorem UnaryOp.apply_of_isNumeric (op : UnaryOp) {v : Value} (hv : v.kind.isNumeric)
    (p : Position) : ∃ w, op.apply v p = .ok w ∧ w.kind = v.kind.promoted := by
  obtain ⟨n, hn, hkind⟩ := Value.number?_of_isNumeric hv
  refine ⟨(op.onNumber n).toValue, op.apply_of_number? hn p, ?_⟩
  rw [Number.kind_toValue, UnaryOp.kind_onNumber, hkind]

/-- Arithmetic is on integers if both operands are, and on doubles else. -/
theorem Number.kind_arithmetic (onInt : Int64 → Int64 → Int64) (onFloat : Float → Float → Float)
    (a b : Number) : (Number.arithmetic onInt onFloat a b).kind = a.kind.join b.kind := by
  cases a <;> cases b <;> rfl

namespace BinaryOp

section

variable {op : BinaryOp} {v w : Value} {a b : Number} {p : Position}

theorem apply_of_some {u : Value} (hv : v.number? = some a) (hw : w.number? = some b)
    (h : op.onNumbers? a b = some u) : op.apply v w p = .ok u := by
  simp only [apply, hv, hw, h]

/-- The one way for an operator to fail on numbers is a division by zero, at its own place. -/
theorem apply_of_none (hv : v.number? = some a) (hw : w.number? = some b)
    (h : op.onNumbers? a b = none) : op.apply v w p = .error (.located .divisionByZero p) := by
  simp only [apply, hv, hw, h]

end

/-- **On numbers an operator keeps to the table**, or divides an integer by zero. -/
theorem onNumbers?_cases (op : BinaryOp) (a b : Number) :
    (∃ v, op.onNumbers? a b = some v ∧ v.kind = op.kind a.kind b.kind) ∨
    (op = .div ∧ a.kind ≠ .float ∧ b.kind ≠ .float ∧ op.onNumbers? a b = none) := by
  cases op with
  | add | sub | mul => exact .inl ⟨_, rfl, Number.kind_arithmetic _ _ a b⟩
  | div =>
    rcases a with x | x <;> rcases b with y | y
    · by_cases hy : y = 0
      · exact .inr ⟨rfl, nofun, nofun, if_pos hy⟩
      · exact .inl ⟨.int (x / y), if_neg hy, rfl⟩
    all_goals exact .inl ⟨_, rfl, rfl⟩
  | _ => exact .inl ⟨_, rfl, rfl⟩

/-- The same of values that take part in arithmetic. -/
theorem apply_of_isNumeric (op : BinaryOp) {v w : Value} (hv : v.kind.isNumeric)
    (hw : w.kind.isNumeric) (p : Position) :
    (∃ u, op.apply v w p = .ok u ∧ u.kind = op.kind v.kind w.kind) ∨
    (op = .div ∧ v.kind ≠ .float ∧ w.kind ≠ .float ∧
      op.apply v w p = .error (.located .divisionByZero p)) := by
  obtain ⟨a, ha, hka⟩ := Value.number?_of_isNumeric hv
  obtain ⟨b, hb, hkb⟩ := Value.number?_of_isNumeric hw
  obtain ⟨u, hu, hku⟩ | ⟨rfl, hfa, hfb, hnone⟩ := op.onNumbers?_cases a b
  · refine .inl ⟨u, apply_of_some ha hb hu, ?_⟩
    rw [hku, hka, hkb, kind_promoted]
  · rw [hka, Ne, Kind.promoted_eq_float_iff] at hfa
    rw [hkb, Ne, Kind.promoted_eq_float_iff] at hfb
    exact .inr ⟨rfl, hfa, hfb, apply_of_none ha hb hnone⟩

end BinaryOp

/-! ## Expressions -/

namespace Expr

/-- **An expression without calls, whose names all stand for numbers or truth values.** -/
inductive Scalar (s : Stack) : Expr → Prop
  | number (n : Number) (p : Position) : Scalar s (number n p)
  | bool (b : Bool) (p : Position) : Scalar s (bool b p)
  | var {x : Name} {v : Value} : s.lookup? x.text = some v → v.kind.isNumeric → Scalar s (var x)
  | unary {op : UnaryOp} {p : Position} {a : Expr} : Scalar s a → Scalar s (unary op p a)
  | binary {op : BinaryOp} {p : Position} {a b : Expr} :
    Scalar s a → Scalar s b → Scalar s (binary op p a b)

/-- **The kind inferred for an expression**; none for a call, or where a name is not bound. -/
def kind? (s : Stack) : Expr → Option Kind
  | number n _ => some n.kind
  | bool _ _ => some .bool
  | var x => (s.lookup? x.text).map Value.kind
  | unary _ _ a => (a.kind? s).map Kind.promoted
  | binary op _ a b => do return op.kind (← a.kind? s) (← b.kind? s)
  | call _ _ => none

/-- The expression is, or stands in, another one. -/
inductive IsPart (a : Expr) : Expr → Prop
  | self : IsPart a a
  | operand {op : UnaryOp} {p : Position} {b : Expr} : IsPart a b → IsPart a (unary op p b)
  | left {op : BinaryOp} {p : Position} {b c : Expr} : IsPart a b → IsPart a (binary op p b c)
  | right {op : BinaryOp} {p : Position} {b c : Expr} : IsPart a c → IsPart a (binary op p b c)
  | argument {x : Name} {as : List Expr} {b : Expr} : b ∈ as → IsPart a b → IsPart a (call x as)

/-- At this place of the expression stands a division, of operands that are not inferred to be
doubles. -/
def DividesIntegers (s : Stack) (e : Expr) (p : Position) : Prop :=
  ∃ a b k l, IsPart (binary .div p a b) e ∧
    a.kind? s = some k ∧ k ≠ .float ∧ b.kind? s = some l ∧ l ≠ .float

variable {s : Stack} {m : Machine} {fuel : Nat} {op : BinaryOp} {sign : UnaryOp} {a b e : Expr}
  {v w : Value} {p q : Position} {k l : Kind}

/-- A division within a part is a division within the whole. -/
theorem DividesIntegers.imp (h : a.DividesIntegers s q) (himp : ∀ {c}, IsPart c a → IsPart c e) :
    e.DividesIntegers s q := by
  obtain ⟨c, d, k, l, hpart, hkinds⟩ := h
  exact ⟨c, d, k, l, himp hpart, hkinds⟩

/-! ### What an expression computes from its operands, when these leave the machine as it is -/

theorem run_number (n : Number) : ((number n p).run fuel).run m = (.ok n.toValue, m) := by
  rw [Expr.run, eval]
  rfl

theorem run_bool (c : Bool) : ((bool c p).run fuel).run m = (.ok (.bool c), m) := by
  rw [Expr.run, eval]
  rfl

theorem run_var {x : Name} (h : m.stack.lookup? x.text = some v) :
    ((var x).run fuel).run m = (.ok v, m) := by
  simp only [Expr.run, eval, Eval.resolve, Action.run_bind, Action.run_get, h]
  rfl

theorem run_unary (ha : (a.run fuel).run m = (.ok v, m)) :
    ((unary sign p a).run fuel).run m = (Eval.ofExcept (sign.apply v p)).run m := by
  simp only [Expr.run, eval]
  exact Action.run_bind_of_ok ha _

theorem run_unary_of_error {f : Failure} (ha : (a.run fuel).run m = (.error f, m)) :
    ((unary sign p a).run fuel).run m = (.error f, m) := by
  simp only [Expr.run, eval]
  exact Action.run_bind_of_error ha _

/-- Once both operands have their values, the operator decides. -/
theorem run_binary (ha : (a.run fuel).run m = (.ok v, m)) (hb : (b.run fuel).run m = (.ok w, m)) :
    ((binary op p a b).run fuel).run m = (Eval.ofExcept (op.apply v w p)).run m := by
  simp only [Expr.run, eval]
  exact (Action.run_bind_of_ok ha _).trans (Action.run_bind_of_ok hb _)

/-- If the left operand fails, the right one is not computed. -/
theorem run_binary_of_error_left {f : Failure} (ha : (a.run fuel).run m = (.error f, m)) :
    ((binary op p a b).run fuel).run m = (.error f, m) := by
  simp only [Expr.run, eval]
  exact Action.run_bind_of_error ha _

theorem run_binary_of_error_right {f : Failure} (ha : (a.run fuel).run m = (.ok v, m))
    (hb : (b.run fuel).run m = (.error f, m)) :
    ((binary op p a b).run fuel).run m = (.error f, m) := by
  simp only [Expr.run, eval]
  exact (Action.run_bind_of_ok ha _).trans (Action.run_bind_of_error hb _)

/-- **How an expression of an inferred kind may end**: with a value of that kind, or at a
division. -/
def EndsIn (fuel : Nat) (m : Machine) (e : Expr) (k : Kind) : Prop :=
  (∃ v, (e.run fuel).run m = (.ok v, m) ∧ v.kind = k) ∨
  ∃ p, e.DividesIntegers m.stack p ∧
    (e.run fuel).run m = (.error (.runtimeError (.located .divisionByZero p)), m)

/-- What a sign gives has the kind of its operand, with truth values as integers. -/
theorem EndsIn.unary (hk : k.isNumeric) (ha : a.EndsIn fuel m k) :
    (unary sign p a).EndsIn fuel m k.promoted := by
  obtain ⟨v, hv, rfl⟩ | ⟨q, hq, hrun⟩ := ha
  · obtain ⟨w, hw, hkind⟩ := sign.apply_of_isNumeric hk p
    refine .inl ⟨w, ?_, hkind⟩
    rw [run_unary hv, hw]
    rfl
  · exact .inr ⟨q, hq.imp .operand, run_unary_of_error hrun⟩

/-- **What an operator gives has the kind of the table**, unless integers are divided by zero. -/
theorem EndsIn.binary (hak : a.kind? m.stack = some k) (hbl : b.kind? m.stack = some l)
    (hk : k.isNumeric) (hl : l.isNumeric) (ha : a.EndsIn fuel m k) (hb : b.EndsIn fuel m l) :
    (binary op p a b).EndsIn fuel m (op.kind k l) := by
  obtain ⟨v, hv, rfl⟩ | ⟨q, hq, hrun⟩ := ha
  · obtain ⟨w, hw, rfl⟩ | ⟨q, hq, hrun⟩ := hb
    · obtain ⟨u, hu, hkind⟩ | ⟨rfl, hfv, hfw, hzero⟩ := op.apply_of_isNumeric hk hl p
      · refine .inl ⟨u, ?_, hkind⟩
        rw [run_binary hv hw, hu]
        rfl
      · refine .inr ⟨p, ⟨a, b, _, _, .self, hak, hfv, hbl, hfw⟩, ?_⟩
        rw [run_binary hv hw, hzero]
        rfl
    · exact .inr ⟨q, hq.imp .right, run_binary_of_error_right hv hrun⟩
  · exact .inr ⟨q, hq.imp .left, run_binary_of_error_left hrun⟩

/-- **Inference succeeds and tells how the expression ends**, by induction on the expression. -/
theorem Scalar.endsIn (fuel : Nat) (h : e.Scalar m.stack) :
    ∃ k, e.kind? m.stack = some k ∧ k.isNumeric ∧ e.EndsIn fuel m k := by
  induction h with
  | number n p =>
    exact ⟨n.kind, by rw [kind?], by cases n <;> rfl,
      .inl ⟨n.toValue, run_number n, n.kind_toValue⟩⟩
  | bool c p => exact ⟨.bool, by rw [kind?], rfl, .inl ⟨.bool c, run_bool c, rfl⟩⟩
  | @var x v hv hnum => exact ⟨v.kind, by rw [kind?, hv]; rfl, hnum, .inl ⟨v, run_var hv, rfl⟩⟩
  | unary _ ih =>
    obtain ⟨k, hk, hnum, hends⟩ := ih
    exact ⟨k.promoted, by rw [kind?, hk]; rfl, by cases k <;> rfl, hends.unary hnum⟩
  | @binary op p a b _ _ iha ihb =>
    obtain ⟨k, hk, hnumk, hendsk⟩ := iha
    obtain ⟨l, hl, hnuml, hendsl⟩ := ihb
    exact ⟨op.kind k l, by rw [kind?, hk, hl]; rfl, op.isNumeric_kind k l,
      hendsk.binary hk hl hnumk hnuml hendsl⟩

end Expr

/-- **Expressions are kind sound.**  An expression without calls, whose names all stand for numbers
or truth values, has an inferred kind.  Computing it leaves the machine as it is, and gives a value
of exactly that kind, or fails because an integer was divided by zero, at a division both of whose
operands have an inferred kind other than that of doubles. -/
theorem eval_kind_sound (fuel : Nat) {m : Machine} {e : Expr} (he : e.Scalar m.stack) :
    ∃ k, e.kind? m.stack = some k ∧
      ((∃ v, (e.run fuel).run m = (.ok v, m) ∧ v.kind = k) ∨
        ∃ p, e.DividesIntegers m.stack p ∧
          (e.run fuel).run m = (.error (.runtimeError (.located .divisionByZero p)), m)) := by
  obtain ⟨k, hk, -, hends⟩ := he.endsIn fuel
  exact ⟨k, hk, hends⟩

/-- A machine on which `x` is true. -/
def Machine.affirming : Machine := (Machine.fresh none).bind "x" (.bool true)

/-- The expression `1.5 + x / (x - True)`. -/
def Expr.mixed : Expr :=
  .binary .add ⟨1, 5⟩ (.number (.float 1.5) ⟨1, 1⟩)
    (.binary .div ⟨1, 9⟩ (.var ⟨"x", ⟨1, 7⟩⟩)
      (.binary .sub ⟨1, 14⟩ (.var ⟨"x", ⟨1, 12⟩⟩) (.bool true ⟨1, 16⟩)))

/-- The sum is inferred to be a double; but a truth value is divided before it is added, and by
zero. -/
theorem eval_kind_sound_mixed :
    Expr.mixed.kind? Machine.affirming.stack = some .float ∧
    Expr.mixed.DividesIntegers Machine.affirming.stack ⟨1, 9⟩ ∧
    (Expr.mixed.run 0).run .affirming =
      (.error (.runtimeError (.located .divisionByZero ⟨1, 9⟩)), .affirming) := by
  have hx : Machine.affirming.stack.lookup? "x" = some (.bool true) := rfl
  have hscalar : Expr.mixed.Scalar Machine.affirming.stack :=
    .binary (.number _ _) (.binary (.var hx rfl) (.binary (.var hx rfl) (.bool _ _)))
  have hrun : (Expr.mixed.run 0).run .affirming =
      (.error (.runtimeError (.located .divisionByZero ⟨1, 9⟩)), .affirming) := rfl
  obtain ⟨-, -, ⟨v, hv, -⟩ | ⟨p, hp, hfail⟩⟩ := eval_kind_sound 0 hscalar
  · cases hrun.symm.trans hv
  · obtain rfl : (⟨1, 9⟩ : Position) = p := by cases hrun.symm.trans hfail; rfl
    exact ⟨rfl, hp, hrun⟩

end BraceScript
