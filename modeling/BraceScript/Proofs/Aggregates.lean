import BraceScript.Proofs.Doubles
import BraceScript.Proofs.Integers
import Mathlib.Algebra.BigOperators.Group.List.Basic

/-!
# Proofs/Aggregates — what is made of all arguments at once

Adding the arguments up and finding the best of them are loops that go on as long as the arguments
are numbers; at the first that is none they stop (`TakesNumbers.eq_error_iff`).

Adding up is what the operator `+` does, one argument after another
(`Builtin.totalFrom_of_isNumeric`, `Builtin.foldlM_add_of_isNumeric`).  Reducing to 64 bits respects
sums, so neither the order of integers nor the places where they wrap can be seen in the total
(`Builtin.totalFrom_of_integers`).

The loop for the best argument keeps the first of those that no argument seen so far beats
(`FirstBest.replace`, `FirstBest.keep`).  Doubles that are numbers are weakly ordered, so this one
is also strictly better than all that came before it.
-/

namespace BraceScript

/-! ## Arguments that are no numbers -/

/-- The kinds that count as numbers are those whose values have one. -/
theorem Value.isNumeric_eq (v : Value) : v.kind.isNumeric = v.number?.isSome := by cases v <;> rfl

/-- The first argument that is no number. -/
def firstMisfit? (args : List Value) : Option Value := args.find? fun v => !v.kind.isNumeric

/-- There is a first misfit as soon as there is any argument of another kind. -/
theorem exists_firstMisfit?_iff {args : List Value} :
    (∃ v, firstMisfit? args = some v) ↔ ∃ w ∈ args, ¬ w.kind.isNumeric := by
  rw [← Option.isSome_iff_exists, firstMisfit?, List.find?_isSome]
  simp only [Bool.not_eq_eq_eq_not, Bool.not_true, Bool.not_eq_true]

/-- **A loop that takes numbers**: it goes on from number to number, and stops at anything else. -/
structure TakesNumbers {σ : Type} (run : σ → List Value → Except RuntimeError (Option Value))
    (fault : Kind → RuntimeError) : Prop where
  ends (s : σ) : ∃ r, run s [] = .ok r
  goesOn (s : σ) {v : Value} {n : Number} (args : List Value) (hv : v.number? = some n) :
    ∃ t, run s (v :: args) = run t args
  stops (s : σ) {v : Value} (args : List Value) (hv : v.number? = none) :
    run s (v :: args) = .error (fault v.kind)

/-- **Such a loop fails exactly at the first argument that is no number**, naming its kind. -/
theorem TakesNumbers.eq_error_iff {σ : Type}
    {run : σ → List Value → Except RuntimeError (Option Value)}
    {fault : Kind → RuntimeError} (h : TakesNumbers run fault) (s : σ) (args : List Value)
    (e : RuntimeError) :
    run s args = .error e ↔ ∃ v, firstMisfit? args = some v ∧ e = fault v.kind := by
  induction args generalizing s with
  | nil =>
    obtain ⟨r, hr⟩ := h.ends s
    simp [hr, firstMisfit?]
  | cons v args ih =>
    cases hv : v.number? with
    | none =>
      have hfirst : firstMisfit? (v :: args) = some v := by
        simp [firstMisfit?, Value.isNumeric_eq, hv]
      rw [h.stops s args hv, hfirst]
      simp [eq_comm]
    | some n =>
      have hlater : firstMisfit? (v :: args) = firstMisfit? args := by
        simp [firstMisfit?, Value.isNumeric_eq, hv]
      obtain ⟨t, ht⟩ := h.goesOn s args hv
      rw [ht, hlater, ih]

/-! ## Adding up -/

theorem Value.integer?_of_kind {v : Value} (h : v.kind = .int ∨ v.kind = .bool) :
    ∃ x, v.integer? = some x := by
  cases v with
  | int _ | bool _ => exact ⟨_, rfl⟩
  | _ => rcases h with h | h <;> cases h

/-- Arguments that are numbers count as integers, except for the doubles. -/
theorem Value.forall_number?_kind_iff {args : List Value} (h : ∀ v ∈ args, v.kind.isNumeric) :
    (∀ n ∈ args.filterMap Value.number?, n.kind = .int) ↔ ∀ w ∈ args, w.kind ≠ .float := by
  have hkind {w : Value} (hw : w ∈ args) :
      ∃ n, w.number? = some n ∧ (n.kind = .int ↔ w.kind ≠ .float) := by
    obtain ⟨n, hn, hpromoted⟩ := Value.number?_of_isNumeric (h w hw)
    refine ⟨n, hn, ?_⟩
    rw [hpromoted]
    cases w.kind <;> decide
  simp only [List.mem_filterMap]
  refine ⟨fun hall w hw => ?_, ?_⟩
  · obtain ⟨n, hn, hiff⟩ := hkind hw
    exact hiff.mp (hall n ⟨w, hw, hn⟩)
  · rintro hall n ⟨w, hw, hn⟩
    obtain ⟨m, hm, hiff⟩ := hkind hw
    obtain rfl : m = n := Option.some.inj (hm.symm.trans hn)
    exact hiff.mpr (hall w hw)

/-- The sum of two numbers, an integer if both are. -/
def Number.plus (a b : Number) : Number :=
  Number.combine (fun x y => .int (x + y)) (fun x y => .float (x + y)) a b

theorem Number.onNumbers?_add (a b : Number) :
    BinaryOp.add.onNumbers? a b = some (a.plus b).toValue := by
  cases a <;> cases b <;> rfl

/-- A sum is an integer if all its parts are. -/
theorem Number.kind_foldl_plus (ns : List Number) (acc : Number) :
    (ns.foldl Number.plus acc).kind = .int ↔ acc.kind = .int ∧ ∀ n ∈ ns, n.kind = .int := by
  induction ns generalizing acc with
  | nil => simp
  | cons n ns ih =>
    have hstep : (acc.plus n).kind = .int ↔ acc.kind = .int ∧ n.kind = .int := by
      cases acc <;> cases n <;> simp [plus, combine, kind]
    rw [List.foldl_cons, ih, hstep, List.forall_mem_cons, and_assoc]

namespace Builtin

variable {v : Value} {n : Number} {args : List Value} {p : Position}

theorem totalFrom_cons (acc : Number) (hv : v.number? = some n) :
    totalFrom p acc (v :: args) = totalFrom p (acc.plus n) args := by
  cases acc <;> cases n <;> simp only [totalFrom, hv] <;> rfl

theorem takesNumbers_totalFrom (p : Position) :
    TakesNumbers (totalFrom p) fun k => .located (.typeMismatch (.summand k)) p where
  ends _ := ⟨_, rfl⟩
  goesOn acc _ n _ hv := ⟨acc.plus n, totalFrom_cons acc hv⟩
  stops acc v args hv := by cases acc <;> simp only [totalFrom, hv]

/-- **The loop computes the sum of the numbers**, from left to right. -/
theorem totalFrom_of_isNumeric (h : ∀ v ∈ args, v.kind.isNumeric) (acc : Number) :
    totalFrom p acc args =
      .ok (some ((args.filterMap Value.number?).foldl Number.plus acc).toValue) := by
  induction args generalizing acc with
  | nil => rfl
  | cons v args ih =>
    obtain ⟨n, hn, -⟩ := Value.number?_of_isNumeric (h v List.mem_cons_self)
    rw [totalFrom_cons acc hn, List.filterMap_cons_some hn, List.foldl_cons]
    exact ih (fun w hw => h w (List.mem_cons_of_mem v hw)) _

/-- **So does the operator**, one argument after another. -/
theorem foldlM_add_of_isNumeric (h : ∀ v ∈ args, v.kind.isNumeric) (acc : Number) (q : Position) :
    args.foldlM (fun u w => BinaryOp.add.apply u w q) acc.toValue =
      .ok ((args.filterMap Value.number?).foldl Number.plus acc).toValue := by
  induction args generalizing acc with
  | nil => rfl
  | cons v args ih =>
    obtain ⟨n, hn, -⟩ := Value.number?_of_isNumeric (h v List.mem_cons_self)
    have hadd : BinaryOp.add.apply acc.toValue v q = .ok (acc.plus n).toValue :=
      BinaryOp.apply_of_some (Number.number?_toValue acc) hn (Number.onNumbers?_add acc n)
    rw [List.foldlM_cons, hadd, List.filterMap_cons_some hn, List.foldl_cons]
    exact ih (fun w hw => h w (List.mem_cons_of_mem v hw)) _

/-- **Among integers the loop adds without loss**: wrapping at every step is wrapping once. -/
theorem totalFrom_of_integers (h : ∀ v ∈ args, v.kind = .int ∨ v.kind = .bool) (x : Int) :
    totalFrom p (.int (.ofInt x)) args =
      .ok (some (.int (.ofInt (x + (args.filterMap Value.integer?).sum)))) := by
  induction args generalizing x with
  | nil => simp [totalFrom, Number.toValue]
  | cons v args ih =>
    obtain ⟨y, hy⟩ := Value.integer?_of_kind (h v List.mem_cons_self)
    obtain ⟨n, hn, rfl⟩ := Value.integer?_eq_some_iff.mp hy
    have hplus : (Number.int (.ofInt x)).plus (.int n) = .int (.ofInt (x + n.toInt)) := by
      rw [Int64.ofInt_add, Int64.ofInt_toInt]
      rfl
    rw [totalFrom_cons _ hn, hplus, ih fun w hw => h w (List.mem_cons_of_mem v hw),
      List.filterMap_cons_some hy, List.sum_cons, add_assoc]

end Builtin

/-- **Adding up is repeated addition.**  If all arguments are numbers or truth values, their total
is the value that the operator `+` gives, applied to zero and then to one argument after another; it
is an integer if no argument is a double.  If all are integers or truth values, the total is the sum
over all integers, reduced to 64 bits, in whatever order they are given.  And if some argument is no
number, adding up fails, naming the kind of the first such argument. -/
theorem sum_eq_repeated_add (args : List Value) (p q : Position) (sink : Sink) :
    ((∀ v ∈ args, v.kind.isNumeric) →
      ∃ v, Builtin.sum.apply args p sink = (.ok (some v), sink) ∧
        args.foldlM (fun u w => BinaryOp.add.apply u w q) (.int 0) = .ok v ∧
        (v.kind = .int ↔ ∀ w ∈ args, w.kind ≠ .float)) ∧
    ((∀ v ∈ args, v.kind = .int ∨ v.kind = .bool) →
      ∃ n : Int64, Reduces (args.filterMap Value.integer?).sum n.toInt ∧
        ∀ args', args'.Perm args → Builtin.sum.apply args' p sink = (.ok (some (.int n)), sink)) ∧
    ((∃ v ∈ args, ¬ v.kind.isNumeric) →
      ∃ v, firstMisfit? args = some v ∧
        Builtin.sum.apply args p sink =
          (.error (.located (.typeMismatch (.summand v.kind)) p), sink)) := by
  refine ⟨fun h => ?_, fun h => ?_, fun h => ?_⟩
  · refine ⟨_, Prod.ext (Builtin.totalFrom_of_isNumeric h _) rfl,
      Builtin.foldlM_add_of_isNumeric h (.int 0) q, ?_⟩
    have hzero : (Number.int 0).kind = .int := rfl
    rw [Number.kind_toValue, Number.kind_foldl_plus, and_iff_right hzero]
    exact Value.forall_number?_kind_iff h
  · refine ⟨.ofInt (args.filterMap Value.integer?).sum, reduces_iff.mpr rfl, fun args' hperm => ?_⟩
    have htotal := Builtin.totalFrom_of_integers (p := p) (fun v hv => h v (hperm.mem_iff.mp hv)) 0
    rw [zero_add, (hperm.filterMap Value.integer?).sum_eq] at htotal
    exact Prod.ext htotal rfl
  · obtain ⟨v, hv⟩ := exists_firstMisfit?_iff.mpr h
    exact ⟨v, hv,
      Prod.ext (((Builtin.takesNumbers_totalFrom p).eq_error_iff _ _ _).mpr ⟨v, hv, rfl⟩) rfl⟩

/-- The greatest integer and a truth value. -/
def Value.overflowing : List Value := [.int Int64.maxValue, .bool true]

/-- A truth value, a built-in function and a program. -/
def Value.misfitting : List Value := [.bool true, .builtin .print, .program "p"]

/-- The greatest integer and a truth value add up to the least integer, in either order; a built-in
function is named before a program that comes later. -/
theorem sum_eq_repeated_add_overflowing :
    (∀ args, args.Perm Value.overflowing →
      Builtin.sum.apply args .start (.empty none) =
        (.ok (some (.int Int64.minValue)), .empty none)) ∧
    Value.overflowing.foldlM (fun u w => BinaryOp.add.apply u w .start) (.int 0) =
      .ok (.int Int64.minValue) ∧
    Builtin.sum.apply Value.misfitting .start (.empty none) =
      (.error (.located (.typeMismatch (.summand .builtin)) .start), .empty none) := by
  have hsum := sum_eq_repeated_add Value.overflowing .start .start (.empty none)
  have hmisfit := sum_eq_repeated_add Value.misfitting .start .start (.empty none)
  obtain ⟨v, hv, hfold, -⟩ := hsum.1 (by decide)
  obtain ⟨n, hn, hperm⟩ := hsum.2.1 (by decide)
  obtain ⟨w, hw, herror⟩ := hmisfit.2.2 ⟨.builtin .print, .tail _ (.head _), by decide⟩
  obtain rfl : n = Int64.minValue := Int64.toInt_inj.mp (reduces_iff.mp hn)
  obtain rfl : v = .int Int64.minValue := by
    cases hv.symm.trans (hperm _ (.refl _))
    rfl
  obtain rfl : w = .builtin .print := by
    cases hw
    rfl
  exact ⟨hperm, hfold, herror⟩

/-! ## The first of the best -/

/-- **The first of the best**: nothing in the list beats it, and it beats all that stands before
it. -/
def FirstBest {α : Type} (r : α → α → Prop) (l : List α) (a : α) : Prop :=
  ∃ before after, l = before ++ a :: after ∧ (∀ b ∈ l, ¬ r b a) ∧ ∀ b ∈ before, r a b

namespace FirstBest

variable {α : Type} {P : α → Prop} {r : α → α → Prop} {l : List α} {a b : α}

theorem singleton (hr : StrictWeakOn P r) (ha : P a) : FirstBest r [a] a := by
  refine ⟨[], [], rfl, ?_, nofun⟩
  rintro b hb h
  obtain rfl := List.mem_singleton.mp hb
  exact hr.asymm ha ha h h

theorem mem (h : FirstBest r l a) : a ∈ l := by
  obtain ⟨before, after, rfl, -, -⟩ := h
  exact List.mem_append_right before List.mem_cons_self

theorem unbeaten (h : FirstBest r l a) (hb : b ∈ l) : ¬ r b a := by
  obtain ⟨before, after, -, hbest, -⟩ := h
  exact hbest b hb

/-- What does not beat the best so far leaves it in place. -/
theorem keep (h : FirstBest r l a) (hb : ¬ r b a) : FirstBest r (l ++ [b]) a := by
  obtain ⟨before, after, hl, hbest, hfirst⟩ := h
  refine ⟨before, after ++ [b], by rw [hl, List.append_assoc, List.cons_append], ?_, hfirst⟩
  intro c hc
  rcases List.mem_append.mp hc with hc | hc
  · exact hbest c hc
  · rwa [List.mem_singleton.mp hc]

/-- **What beats the best so far beats all before it**: none of them beats the old best, so by the
weak order the new one comes before each of them. -/
theorem replace (hr : StrictWeakOn P r) (hl : ∀ c ∈ l, P c) (hb : P b) (h : FirstBest r l a)
    (hba : r b a) : FirstBest r (l ++ [b]) b := by
  have hbeats (c : α) (hc : c ∈ l) : r b c :=
    (hr.cotrans hb (hl a h.mem) (hl c hc) hba).resolve_right (h.unbeaten hc)
  refine ⟨l, [], rfl, ?_, hbeats⟩
  intro c hc
  rcases List.mem_append.mp hc with hc | hc
  · exact hr.asymm hb (hl c hc) (hbeats c hc)
  · rw [List.mem_singleton.mp hc]
    exact fun h => hr.asymm hb hb h h

end FirstBest

/-! ## The smallest and the largest argument -/

namespace Value

/-- The double that a value counts as in a comparison of all arguments. -/
def double? (v : Value) : Option Float := v.number?.map Number.toFloat

/-- **One value beats another** if its double does. -/
def Beats (r : Float → Float → Prop) (v w : Value) : Prop :=
  ∃ x y, v.double? = some x ∧ w.double? = some y ∧ r x y

/-- The value counts as a double that is a number. -/
def IsComparable (v : Value) : Prop := ∃ x, v.double? = some x ∧ ¬ x.isNaN

theorem beats_iff {r : Float → Float → Prop} {v w : Value} {x y : Float} (hv : v.double? = some x)
    (hw : w.double? = some y) : v.Beats r w ↔ r x y := by
  simp [Beats, hv, hw]

/-- Values are ordered as their doubles are. -/
theorem strictWeakOn_beats {r : Float → Float → Prop}
    (hr : StrictWeakOn (fun x : Float => ¬ x.isNaN) r) :
    StrictWeakOn IsComparable (Beats r) where
  asymm := by
    rintro v w ⟨x, hv, hx⟩ ⟨y, hw, hy⟩ h
    rw [beats_iff hv hw] at h
    rw [beats_iff hw hv]
    exact hr.asymm hx hy h
  cotrans := by
    rintro v w u ⟨x, hv, hx⟩ ⟨y, hw, hy⟩ ⟨z, hu, hz⟩ h
    rw [beats_iff hv hw] at h
    rw [beats_iff hv hu, beats_iff hu hw]
    exact hr.cotrans hx hy hz h

theorem isComparable_of_isNumeric {v : Value} (h : v.kind.isNumeric)
    (hnan : ∀ x, v = .float x → ¬ x.isNaN) : v.IsComparable := by
  cases v with
  | float x => exact ⟨x, rfl, hnan x rfl⟩
  | int n => exact ⟨_, rfl, Number.not_isNaN_toFloat_int n⟩
  | bool b => exact ⟨_, rfl, Number.not_isNaN_toFloat_int _⟩
  | _ => cases h

end Value

namespace Builtin

variable {r : Float → Float → Prop} [DecidableRel r] {v w : Value} {x y : Float} {args : List Value}
  {p : Position}

theorem extremeFrom_first (better : Float → Float → Bool) (hw : w.double? = some y) :
    extremeFrom better p none (w :: args) = extremeFrom better p (some (w, y)) args := by
  obtain ⟨n, hn, rfl⟩ := Option.map_eq_some_iff.mp hw
  simp only [extremeFrom, hn]

/-- The best so far is replaced only by what is strictly better, so the first of equals stays. -/
theorem extremeFrom_next (better : Float → Float → Bool) (hw : w.double? = some y) :
    extremeFrom better p (some (v, x)) (w :: args) =
      extremeFrom better p (if better y x then some (w, y) else some (v, x)) args := by
  obtain ⟨n, hn, rfl⟩ := Option.map_eq_some_iff.mp hw
  simp only [extremeFrom, hn]
  split <;> rfl

theorem takesNumbers_extremeFrom (better : Float → Float → Bool) (p : Position) :
    TakesNumbers (extremeFrom better p) fun k => .located (.typeMismatch (.comparison k)) p where
  ends _ := ⟨_, rfl⟩
  goesOn best v n args hv := by
    have hdouble : v.double? = some n.toFloat := by rw [Value.double?, hv, Option.map_some]
    rcases best with _ | ⟨w, y⟩
    · exact ⟨_, extremeFrom_first better hdouble⟩
    · exact ⟨_, extremeFrom_next better hdouble⟩
  stops best v args hv := by simp only [extremeFrom, hv]

/-- **The loop ends with the first of the best** of what it has seen and what is still to come. -/
theorem extremeFrom_firstBest (hr : StrictWeakOn (fun x : Float => ¬ x.isNaN) r)
    (seen : List Value) (hall : ∀ w ∈ seen ++ args, w.IsComparable) (hv : v.double? = some x)
    (hbest : FirstBest (Value.Beats r) seen v) :
    ∃ u, extremeFrom (fun x y => r x y) p (some (v, x)) args = .ok (some u) ∧
      FirstBest (Value.Beats r) (seen ++ args) u := by
  induction args generalizing seen v x with
  | nil => exact ⟨v, rfl, by rwa [List.append_nil]⟩
  | cons w args ih =>
    have hw : w.IsComparable := hall w (List.mem_append_right seen List.mem_cons_self)
    have ⟨y, hy, _⟩ := hw
    rw [List.append_cons] at hall ⊢
    rw [extremeFrom_next _ hy]
    by_cases hbeats : r y x
    · rw [if_pos (decide_eq_true hbeats)]
      have hseen (c : Value) (hc : c ∈ seen) : c.IsComparable :=
        hall c (List.mem_append_left args (List.mem_append_left [w] hc))
      exact ih _ hall hy
        (hbest.replace (Value.strictWeakOn_beats hr) hseen hw ((Value.beats_iff hy hv).mpr hbeats))
    · rw [if_neg (by simpa using hbeats)]
      exact ih _ hall hv (hbest.keep fun h => hbeats ((Value.beats_iff hy hv).mp h))

theorem extremeFrom_none_firstBest (hr : StrictWeakOn (fun x : Float => ¬ x.isNaN) r)
    (hne : args ≠ []) (hall : ∀ w ∈ args, w.IsComparable) :
    ∃ u, extremeFrom (fun x y => r x y) p none args = .ok (some u) ∧
      FirstBest (Value.Beats r) args u := by
  obtain ⟨v, args, rfl⟩ := List.exists_cons_of_ne_nil hne
  have hv : v.IsComparable := hall v List.mem_cons_self
  have ⟨x, hx, _⟩ := hv
  rw [extremeFrom_first _ hx]
  exact extremeFrom_firstBest hr [v] hall hx (.singleton (Value.strictWeakOn_beats hr) hv)

end Builtin

/-- **The smallest and the largest argument are the first of their kind, unchanged.**  Of arguments
that are numbers or truth values, at least one and none of them a double that is not a number, the
smallest one found is an argument whose double no argument's double is less than, and less than the
doubles of all arguments before it; the largest likewise, the other way around.  Whatever the
arguments are, both fail exactly if one of them is no number, naming the kind of the first such
argument. -/
theorem extremes_first_best (args : List Value) (p : Position) (sink : Sink) :
    (args ≠ [] → (∀ v ∈ args, v.kind.isNumeric) → (∀ x, .float x ∈ args → ¬ x.isNaN) →
      (∃ v, Builtin.min.apply args p sink = (.ok (some v), sink) ∧
        FirstBest (Value.Beats (· < ·)) args v) ∧
      ∃ v, Builtin.max.apply args p sink = (.ok (some v), sink) ∧
        FirstBest (Value.Beats (· > ·)) args v) ∧
    ∀ b ∈ [Builtin.min, Builtin.max],
      ((∃ e, b.apply args p sink = (.error e, sink)) ↔ ∃ v ∈ args, ¬ v.kind.isNumeric) ∧
      ∀ v, firstMisfit? args = some v →
        b.apply args p sink = (.error (.located (.typeMismatch (.comparison v.kind)) p), sink) := by
  refine ⟨fun hne hnumeric hnan => ?_, fun b hb => ?_⟩
  · have hall (v : Value) (hv : v ∈ args) : v.IsComparable := by
      refine Value.isComparable_of_isNumeric (hnumeric v hv) ?_
      rintro x rfl
      exact hnan x hv
    obtain ⟨v, hmin, hv⟩ :=
      Builtin.extremeFrom_none_firstBest (p := p) Double.strictWeakOn_lt hne hall
    obtain ⟨w, hmax, hw⟩ :=
      Builtin.extremeFrom_none_firstBest (p := p) Double.strictWeakOn_lt.flip hne hall
    exact ⟨⟨v, Prod.ext hmin rfl, hv⟩, w, Prod.ext hmax rfl, hw⟩
  · obtain ⟨better, happly⟩ : ∃ better, ∀ s,
        b.apply args p s = (Builtin.extremeFrom better p none args, s) := by
      rcases List.mem_pair.mp hb with rfl | rfl
      · exact ⟨_, fun _ => rfl⟩
      · exact ⟨_, fun _ => rfl⟩
    have herror := (Builtin.takesNumbers_extremeFrom better p).eq_error_iff none args
    simp only [happly, Prod.mk.injEq, and_true, herror]
    refine ⟨?_, fun v hv => ⟨v, hv, rfl⟩⟩
    rw [exists_comm, ← exists_firstMisfit?_iff]
    simp

/-- Two integers that are one double, and a truth value and a double that are one. -/
def Value.tied : List Value :=
  [.int 9007199254740992, .int 9007199254740993, .bool true, .float (.ofBits 0x3FF0000000000000)]

/-- Of arguments that are equal as doubles, the first is found. -/
theorem extremes_first_best_tied :
    Builtin.min.apply Value.tied .start (.empty none) = (.ok (some (.bool true)), .empty none) ∧
    FirstBest (Value.Beats (· < ·)) Value.tied (.bool true) ∧
    Builtin.max.apply Value.tied .start (.empty none) =
      (.ok (some (.int 9007199254740992)), .empty none) ∧
    FirstBest (Value.Beats (· > ·)) Value.tied (.int 9007199254740992) ∧
    Builtin.max.apply Value.misfitting .start (.empty none) =
      (.error (.located (.typeMismatch (.comparison .builtin)) .start), .empty none) := by
  have hnan (x : Float) (hx : .float x ∈ Value.tied) : ¬ x.isNaN := by
    obtain rfl : x = .ofBits 0x3FF0000000000000 := by simpa [Value.tied] using hx
    decide
  obtain ⟨⟨v, hmin, hv⟩, w, hmax, hw⟩ :=
    (extremes_first_best Value.tied .start (.empty none)).1 (by simp [Value.tied]) (by decide) hnan
  have hmisfit := (extremes_first_best Value.misfitting .start (.empty none)).2 .max (by decide)
  obtain rfl : v = .bool true := by
    cases hmin
    rfl
  obtain rfl : w = .int 9007199254740992 := by
    cases hmax
    rfl
  exact ⟨hmin, hv, hmax, hw, hmisfit.2 (.builtin .print) rfl⟩

end BraceScript
