import BraceScript.Number
import Mathlib.Algebra.Group.Nat.Defs
import Mathlib.Data.Prod.Lex

/-!
# Proofs/Doubles — how doubles compare

A double is opened into a sign, a mantissa and an exponent before it is compared.  Such parts have a
rank in a linear order, and of two doubles that are numbers the one of lower rank is the smaller
(`Double.lt_iff`): what takes part in no order are the doubles that are not a number.

An integer always becomes a double that is a number (`Number.not_isNaN_toFloat_int`): its magnitude
is rounded to at most infinity, and what is not a number has larger bits than that.
-/

namespace BraceScript

open Float.Model (Format UnpackedFloat)
open Float.Model.UnpackedFloat

/-! ## The order -/

/-- **A comparison is a strict weak order on what fulfils `P`**: it goes one way only, and whatever
is put between two that it tells apart is told apart from one of them. -/
structure StrictWeakOn {α : Type} (P : α → Prop) (r : α → α → Prop) : Prop where
  asymm {a b : α} (ha : P a) (hb : P b) (h : r a b) : ¬ r b a
  cotrans {a b c : α} (ha : P a) (hb : P b) (hc : P c) (h : r a b) : r a c ∨ r c b

/-- Turned around, it is one as well. -/
theorem StrictWeakOn.flip {α : Type} {P : α → Prop} {r : α → α → Prop} (h : StrictWeakOn P r) :
    StrictWeakOn P fun a b => r b a where
  asymm ha hb := h.asymm hb ha
  cotrans ha hb hc hr := (h.cotrans hb ha hc hr).symm

namespace Double

/-- **Where a double stands among the others**: the sign goes first, then the exponent, then the
mantissa, both turned around below zero.  The two zeros stand in one place. -/
def rank : UnpackedFloat → ℤ ×ₗ ℤ ×ₗ ℤ
  | .infinity .negative => toLex (-2, toLex (0, 0))
  | .finite .negative m e _ => toLex (-1, toLex (-e, -m))
  | .zero _ | .notANumber => toLex (0, toLex (0, 0))
  | .finite .positive m e _ => toLex (1, toLex (e, m))
  | .infinity .positive => toLex (2, toLex (0, 0))

/-- **The order of unpacked doubles is that of their ranks.** -/
theorem lt_iff_rank_lt {u v : UnpackedFloat} (hu : ¬ u.isNaN) (hv : ¬ v.isNaN) :
    u.lt v ↔ rank u < rank v := by
  have hsign : compare Sign.negative Sign.positive = .lt := rfl
  -- One case for each pair of signs and constructors; the orders are then those of whole numbers.
  rcases u with (_ | _) | _ | _ | ⟨_ | _, m, e, _⟩ <;>
    rcases v with (_ | _) | _ | _ | ⟨_ | _, n, k, _⟩ <;>
    first
    | exact absurd rfl hu
    | exact absurd rfl hv
    | dsimp only [UnpackedFloat.lt, UnpackedFloat.compare, rank]
      simp [hsign, Prod.Lex.toLex_lt_toLex, compare_lt_iff_lt, compare_gt_iff_gt,
        Ordering.then_eq_lt, Ordering.then_eq_gt]

/-- The rank of a double as it is stored. -/
def key (x : Float) : ℤ ×ₗ ℤ ×ₗ ℤ := rank x.toModel.unpack

/-- **Among the doubles that are numbers, the smaller has the lower rank.** -/
theorem lt_iff {x y : Float} (hx : ¬ x.isNaN) (hy : ¬ y.isNaN) : x < y ↔ key x < key y :=
  decide_eq_true_iff.trans (lt_iff_rank_lt hx hy)

/-- **The doubles that are numbers are weakly ordered.** -/
theorem strictWeakOn_lt : StrictWeakOn (fun x : Float => ¬ x.isNaN) (· < ·) where
  asymm hx hy h := by
    rw [lt_iff hx hy] at h
    rw [lt_iff hy hx]
    exact h.asymm
  cotrans hx hy hz h := by
    rw [lt_iff hx hy] at h
    rw [lt_iff hx hz, lt_iff hz hy]
    exact (LT.lt.lt_or_gt h _).symm

/-! ## Bits that stand for a number -/

/-- What is not a number has the largest exponent field and a mantissa field that is not zero. -/
theorem isNaN_unpack_iff {S : Format} (b : BitVec S.numBits) :
    (unpack S b).isNaN ↔ unpackExponent b = -1#_ ∧ unpackMantissa b ≠ 0#_ := by
  unfold unpack
  dsimp only
  by_cases he : unpackExponent b = -1#_
  · rw [if_pos he]
    by_cases hm : unpackMantissa b = 0#_
    · rw [if_pos hm]
      exact iff_of_false Bool.false_ne_true fun h => h.2 hm
    · rw [if_neg hm]
      exact iff_of_true rfl ⟨he, hm⟩
  · rw [if_neg he]
    refine iff_of_false ?_ fun h => he h.1
    by_cases hzero : unpackExponent b = 0#_
    · rw [if_pos hzero]
      by_cases hm : unpackMantissa b = 0#_
      · rw [dif_pos hm]
        exact Bool.false_ne_true
      · rw [dif_neg hm]
        exact Bool.false_ne_true
    · rw [if_neg hzero]
      exact Bool.false_ne_true

/-- Packing keeps a number a number. -/
theorem isNaN_of_isNaN_pack {S : Format} {u : UnpackedFloat} (h : (unpack S (pack S u)).isNaN) :
    u.isNaN := by
  obtain ⟨he, hm⟩ := (isNaN_unpack_iff _).mp h
  revert he hm
  fun_cases pack S u with
  | case1 => exact fun _ _ => rfl
  | case2 s => exact fun _ hm => absurd (by simp [packedInfinity]) hm
  | case3 s => exact fun he => absurd he (by simp [packedZero, S.he.ne'])
  | case4 => exact fun _ hm => absurd (by simp [packedInfinity]) hm
  | case5 s m e _ _ biased hfits hnormal =>
    -- The exponent field of what fits is below the one of the infinities.
    intro he
    rw [unpackExponent_packComponents] at he
    have hfield := congrArg BitVec.toNat he
    rw [BitVec.neg_one_eq_allOnes, BitVec.toNat_allOnes, BitVec.toNat_ofNat,
      Nat.mod_eq_of_lt (by omega)] at hfield
    omega
  | case6 s m e _ _ biased hfits hnormal => exact fun he => absurd he (by simp [S.he.ne'])

theorem toNat_unpackExponent (b : UInt64) :
    (@unpackExponent .binary64 b.toBitVec).toNat = b.toNat / 2 ^ 52 % 2 ^ 11 := by
  simp [unpackExponent, BitVec.extractLsb, Nat.shiftRight_eq_div_pow]

theorem toNat_unpackMantissa (b : UInt64) :
    (@unpackMantissa .binary64 b.toBitVec).toNat = b.toNat % 2 ^ 52 := by
  simp [unpackMantissa, BitVec.extractLsb]

theorem isNaN_ofBits {b : UInt64} (h : (Float.ofBits b).isNaN) :
    b.toNat / 2 ^ 52 % 2 ^ 11 = 2 ^ 11 - 1 ∧ b.toNat % 2 ^ 52 ≠ 0 := by
  obtain ⟨he, hm⟩ := (isNaN_unpack_iff (S := .binary64) b.toBitVec).mp (isNaN_of_isNaN_pack h)
  refine ⟨(toNat_unpackExponent b).symm.trans (congrArg BitVec.toNat he), fun hzero => hm ?_⟩
  exact BitVec.eq_of_toNat_eq ((toNat_unpackMantissa b).trans hzero)

end Double

/-! ## Integers as doubles -/

namespace Decimal.Binary64

theorem nearest_le_infinityBits (num den : Nat) : nearest num den ≤ infinityBits := by
  unfold nearest
  split
  · exact Nat.zero_le _
  · exact Nat.min_le_left _ _

/-- **A magnitude up to infinity makes a number**, with either sign. -/
theorem not_isNaN_toFloat {magnitude : Nat} (h : magnitude ≤ infinityBits) (negative : Bool) :
    ¬ (toFloat negative magnitude).isNaN := by
  have hinfinity : infinityBits = 2047 * 2 ^ 52 := rfl
  have hsign : signBit = 2 ^ 63 := rfl
  have hsize : UInt64.size = 2 ^ 64 := rfl
  intro hnan
  obtain ⟨hexponent, hmantissa⟩ := Double.isNaN_ofBits hnan
  cases negative with
  | false =>
    rw [if_neg Bool.false_ne_true, UInt64.toNat_ofNat_of_lt' (by omega)] at hexponent hmantissa
    omega
  | true =>
    rw [if_pos rfl, UInt64.toNat_ofNat_of_lt' (by omega)] at hexponent hmantissa
    omega

end Decimal.Binary64

theorem Number.not_isNaN_toFloat_int (n : Int64) : ¬ (Number.int n).toFloat.isNaN :=
  Decimal.Binary64.not_isNaN_toFloat (Decimal.Binary64.nearest_le_infinityBits _ _) _

end BraceScript
