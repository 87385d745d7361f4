import BraceScript.Proofs.Kinds
import Mathlib.Algebra.Order.Ring.Abs
import Mathlib.Data.Int.ModEq

/-!
# Proofs/Integers — arithmetic modulo `2 ^ 64`

Integers wrap around at 64 bits, at every operator.  Since `Int64.ofInt` is a ring homomorphism, an
expression made of signs, sums, differences and products may as well be computed over all integers
and reduced once, at its end (`Expr.Denotes.computes`).

Division is not of this kind: integers that are congruent need not have congruent quotients.  But
what it leaves over is exact, also in the one case in which the quotient wraps
(`sub_div_mul_eq_mod`).
-/

namespace BraceScript

/-! ## Reduction -/

/-- **`z` is what is left of `n` in 64 bits**: the signed 64-bit integer that is congruent to it. -/
structure Reduces (n z : Int) : Prop where
  le : -2 ^ 63 ≤ z
  lt : z < 2 ^ 63
  modEq : z ≡ n [ZMOD 2 ^ 64]

/-- There is one such integer, and it is what `Int64.ofInt` keeps. -/
theorem reduces_iff {n z : Int} : Reduces n z ↔ z = (Int64.ofInt n).toInt := by
  rw [Int64.toInt_ofInt]
  refine ⟨fun h => ?_, ?_⟩
  · have hz : z.bmod Int64.size = z := Int.bmod_eq_of_le h.le h.lt
    rw [← hz, ← Int.emod_bmod, ← Int.emod_bmod n]
    exact congrArg (Int.bmod · Int64.size) h.modEq
  · rintro rfl
    exact ⟨Int.le_bmod (by decide), Int.bmod_lt (by decide), Int.bmod_emod⟩

/-! ## Integers among the values -/

/-- **The integer that a value stands for**, a truth value for one or zero. -/
def Value.integer? : Value → Option Int
  | int n => some n.toInt
  | bool b => some (if b then 1 else 0)
  | _ => none

theorem Value.integer?_eq_some_iff {v : Value} {x : Int} :
    v.integer? = some x ↔ ∃ n : Int64, v.number? = some (.int n) ∧ n.toInt = x := by
  cases v with
  | int n => simp [integer?, number?]
  | bool b => cases b <;> simp [integer?, number?]
  | _ => simp [integer?, number?]

/-! ## Expressions -/

/-- **The value of an expression over all integers**, where the expression is made of integers,
truth values, names for such values, signs, sums, differences and products. -/
inductive Expr.Denotes (s : Stack) : Expr → Int → Prop
  | int (n : Int64) (p : Position) : Denotes s (.number (.int n) p) n.toInt
  | bool (b : Bool) (p : Position) : Denotes s (.bool b p) (if b then 1 else 0)
  | var {x : Name} {v : Value} {n : Int} :
    s.lookup? x.text = some v → v.integer? = some n → Denotes s (.var x) n
  | plus {a : Expr} {n : Int} {p : Position} : Denotes s a n → Denotes s (.unary .plus p a) n
  | minus {a : Expr} {n : Int} {p : Position} : Denotes s a n → Denotes s (.unary .minus p a) (-n)
  | add {a b : Expr} {n k : Int} {p : Position} :
    Denotes s a n → Denotes s b k → Denotes s (.binary .add p a b) (n + k)
  | sub {a b : Expr} {n k : Int} {p : Position} :
    Denotes s a n → Denotes s b k → Denotes s (.binary .sub p a b) (n - k)
  | mul {a b : Expr} {n k : Int} {p : Position} :
    Denotes s a n → Denotes s b k → Denotes s (.binary .mul p a b) (n * k)

namespace Expr

variable {fuel : Nat} {m : Machine} {a b e : Expr} {n k : Int} {p : Position}

/-- **The expression computes the integer of 64 bits that is left of `n`.** -/
def Computes (fuel : Nat) (m : Machine) (e : Expr) (n : Int) : Prop :=
  ∃ v, (e.run fuel).run m = (.ok v, m) ∧ v.number? = some (.int (.ofInt n))

theorem Computes.unary {op : UnaryOp} (ha : a.Computes fuel m n)
    (hop : op.onNumber (.int (.ofInt n)) = .int (.ofInt k)) : (unary op p a).Computes fuel m k := by
  obtain ⟨v, hv, hnum⟩ := ha
  refine ⟨.int (.ofInt k), ?_, rfl⟩
  rw [run_unary hv, op.apply_of_number? hnum, hop]
  rfl

/-- An operator that commutes with the reduction may be computed over all integers. -/
theorem Computes.binary {op : BinaryOp} {l : Int} (ha : a.Computes fuel m n)
    (hb : b.Computes fuel m k)
    (hop : op.onNumbers? (.int (.ofInt n)) (.int (.ofInt k)) = some (.int (.ofInt l))) :
    (binary op p a b).Computes fuel m l := by
  obtain ⟨v, hv, hnumv⟩ := ha
  obtain ⟨w, hw, hnumw⟩ := hb
  refine ⟨.int (.ofInt l), ?_, rfl⟩
  rw [run_binary hv hw, BinaryOp.apply_of_some hnumv hnumw hop]
  rfl

/-- **Reducing at every operator is reducing once**: each of them is one step of a ring
homomorphism. -/
theorem Denotes.computes (fuel : Nat) (h : e.Denotes m.stack n) : e.Computes fuel m n := by
  induction h with
  | int n p => exact ⟨.int n, run_number _, by rw [Int64.ofInt_toInt]; rfl⟩
  | bool c p => exact ⟨.bool c, run_bool c, by cases c <;> rfl⟩
  | @var x v n hv hn =>
    obtain ⟨k, hk, rfl⟩ := Value.integer?_eq_some_iff.mp hn
    exact ⟨v, run_var hv, by rw [hk, Int64.ofInt_toInt]⟩
  | plus _ ih => exact ih.unary rfl
  | minus _ ih => exact ih.unary (by rw [Int64.ofInt_neg]; rfl)
  | add _ _ iha ihb => exact iha.binary ihb (by rw [Int64.ofInt_add]; rfl)
  | sub _ _ iha ihb => exact iha.binary ihb (by rw [Int64.ofInt_sub]; rfl)
  | mul _ _ iha ihb => exact iha.binary ihb (by rw [Int64.ofInt_mul]; rfl)

end Expr

/-- **Integer arithmetic is exact modulo `2 ^ 64`.**  An expression made of integers, truth values,
names for such values, signs, sums, differences and products can always be computed.  The value
stands for the one integer from `-2 ^ 63` to below `2 ^ 63` that is congruent modulo `2 ^ 64` to the
value of the expression over all integers. -/
theorem eval_reduces (fuel : Nat) {m : Machine} {e : Expr} {n : Int} (he : e.Denotes m.stack n) :
    ∃ v z, (e.run fuel).run m = (.ok v, m) ∧ v.integer? = some z ∧ ∀ w, Reduces n w ↔ w = z := by
  obtain ⟨v, hv, hnum⟩ := he.computes fuel
  have hz : v.integer? = some (Int64.ofInt n).toInt := Value.integer?_eq_some_iff.mpr ⟨_, hnum, rfl⟩
  exact ⟨v, _, hv, hz, fun _ => reduces_iff⟩

/-- The expression `-(-9223372036854775808) * x + x`. -/
def Expr.overflowing : Expr :=
  .binary .add .start
    (.binary .mul .start (.unary .minus .start (.number (.int Int64.minValue) .start))
    (.var ⟨"x", .start⟩)) (.var ⟨"x", .start⟩)

/-- Where `x` is true, the value over all integers is `2 ^ 63 + 1`. -/
theorem eval_reduces_overflowing :
    Expr.overflowing.Denotes Machine.affirming.stack (2 ^ 63 + 1) ∧
    ∃ v, (Expr.overflowing.run 0).run .affirming = (.ok v, .affirming) ∧
      v.integer? = some (-2 ^ 63 + 1) := by
  have hx {p : Position} : Expr.Denotes Machine.affirming.stack (.var ⟨"x", p⟩) 1 :=
    .var (show Machine.affirming.stack.lookup? "x" = some (.bool true) from rfl) rfl
  have hdenotes : Expr.overflowing.Denotes Machine.affirming.stack (2 ^ 63 + 1) :=
    .add (.mul (.minus (.int Int64.minValue .start)) hx) hx
  obtain ⟨v, z, hrun, hz, hunique⟩ := eval_reduces 0 hdenotes
  have hreduces : Reduces (2 ^ 63 + 1) (-2 ^ 63 + 1) := ⟨by decide, by decide, by decide⟩
  exact ⟨hdenotes, v, hrun, hz.trans (congrArg some ((hunique _).mp hreduces).symm)⟩

/-! ## Division -/

/-- **What division leaves over is the remainder**, even where the quotient wraps. -/
theorem sub_div_mul_eq_mod (a b : Int64) : a - a / b * b = a % b := by
  have hdiv : a / b = .ofInt (a.toInt.tdiv b.toInt) := by
    rw [← Int64.toInt_inj, Int64.toInt_div, Int64.toInt_ofInt]
  calc
    a - a / b * b = .ofInt (a.toInt - a.toInt.tdiv b.toInt * b.toInt) := by
      rw [Int64.ofInt_sub, Int64.ofInt_mul, Int64.ofInt_toInt, Int64.ofInt_toInt, hdiv]
    _ = .ofInt (a % b).toInt := by rw [Int64.toInt_mod, Int.tmod_def, mul_comm]
    _ = a % b := Int64.ofInt_toInt _

/-- The remainder of a truncating division is smaller than the divisor, whatever the signs. -/
theorem abs_tmod_lt (x : Int) {y : Int} (hy : y ≠ 0) : |x.tmod y| < |y| := by
  rw [Int.abs_eq_natAbs, Int.abs_eq_natAbs, Int.natAbs_tmod]
  exact_mod_cast Nat.mod_lt _ (Int.natAbs_pos.mpr hy)

theorem tmod_eq_zero_or_sign_eq (x y : Int) : x.tmod y = 0 ∨ (x.tmod y).sign = x.sign := by
  by_cases h : y ∣ x
  · exact .inl (Int.tmod_eq_zero_of_dvd h)
  · exact .inr (by rw [Int.sign_tmod, if_neg h])

theorem tmod_modEq (x y : Int) : x.tmod y ≡ x [ZMOD |y|] := by
  rw [Int.modEq_iff_dvd, abs_dvd, Int.tmod_def, sub_sub_cancel]
  exact dvd_mul_right _ _

/-- **Truncating division has a true remainder.**  Of two values that stand for the integers `x` and
`y`, division fails if `y` is zero.  Otherwise it gives `x / y` rounded toward zero, reduced to 64
bits; and what `a - a / b * b` computes is smaller than `y`, zero or of the sign of `x`, and
congruent to `x` modulo `y`, even if the quotient, the product and the difference wrap. -/
theorem remainder_exact {a b : Value} {x y : Int} (ha : a.integer? = some x)
    (hb : b.integer? = some y) (p p' p'' : Position) :
    (y = 0 → BinaryOp.div.apply a b p = .error (.located .divisionByZero p)) ∧
    (y ≠ 0 → ∃ q t r : Int64, BinaryOp.div.apply a b p = .ok (.int q) ∧
      BinaryOp.mul.apply (.int q) b p' = .ok (.int t) ∧
        BinaryOp.sub.apply a (.int t) p'' = .ok (.int r) ∧
      |r.toInt| < |y| ∧ (r.toInt = 0 ∨ r.toInt.sign = x.sign) ∧ r.toInt ≡ x [ZMOD |y|] ∧
      Reduces (x.tdiv y) q.toInt) := by
  obtain ⟨c, hc, rfl⟩ := Value.integer?_eq_some_iff.mp ha
  obtain ⟨d, hd, rfl⟩ := Value.integer?_eq_some_iff.mp hb
  refine ⟨fun hy => ?_, fun hy => ?_⟩
  · have hzero : d = 0 := Int64.toInt_inj.mp hy
    exact BinaryOp.apply_of_none hc hd (if_pos hzero)
  · have hne : d ≠ 0 := fun h => hy (by rw [h]; rfl)
    refine ⟨c / d, c / d * d, c % d, BinaryOp.apply_of_some hc hd (if_neg hne),
      BinaryOp.apply_of_some rfl hd rfl, ?_, ?_⟩
    · rw [← sub_div_mul_eq_mod]
      exact BinaryOp.apply_of_some hc rfl rfl
    · rw [Int64.toInt_mod, reduces_iff, Int64.toInt_ofInt, Int64.toInt_div]
      exact ⟨abs_tmod_lt _ hy, tmod_eq_zero_or_sign_eq _ _, tmod_modEq _ _, rfl⟩

/-- The least integer divided by minus one: the quotient wraps, and nothing is left over. -/
theorem remainder_exact_wrapping :
    BinaryOp.div.apply (.int Int64.minValue) (.int (-1)) .start = .ok (.int Int64.minValue) ∧
    ∃ t r : Int64, BinaryOp.mul.apply (.int Int64.minValue) (.int (-1)) .start = .ok (.int t) ∧
      BinaryOp.sub.apply (.int Int64.minValue) (.int t) .start = .ok (.int r) ∧ r.toInt = 0 := by
  have hexact :=
    remainder_exact (a := .int Int64.minValue) (b := .int (-1)) rfl rfl .start .start .start
  obtain ⟨q, t, r, hdiv, hmul, hsub, hlt, -⟩ := hexact.2 (by decide)
  have hquotient :
      BinaryOp.div.apply (.int Int64.minValue) (.int (-1)) .start = .ok (.int Int64.minValue) := rfl
  obtain rfl : q = Int64.minValue := by cases hdiv.symm.trans hquotient; rfl
  exact ⟨hquotient, t, r, hmul, hsub, Int.abs_lt_one_iff.mp hlt⟩

end BraceScript
