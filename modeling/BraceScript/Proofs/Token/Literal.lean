import BraceScript.Proofs.Token.Munch
import Mathlib.Data.Nat.Digits.Defs

/-!
# Proofs/Token/Literal — numeric literals by their grammar

A numeric literal is the longest run of digits, points and minus signs, and what it stands for is
told from the run alone:

    integer     an optional minus sign, then digits, at least one
    decimal     an optional minus sign, then digits with at most one point, at least one digit

An integer that fits into 64 bits is one, any other decimal is a double, and any other run is wrong
as a whole.  The two readers are compared with this grammar after the sign is split off
(`isInteger_iff`, `isDecimal_iff`); the value of an integer is that of `Nat.ofDigits`.
-/

namespace BraceScript

/-! ## Runs -/

/-- **The longest front of a text that stays in a class of characters.** -/
structure LongestRun (p : Char → Bool) (run text : List Char) : Prop where
  front : run <+: text
  within : ∀ c ∈ run, p c
  longest : ∀ w, w <+: text → (∀ c ∈ w, p c) → w.length ≤ run.length

theorem longestRun_takeWhile (p : Char → Bool) (text : List Char) :
    LongestRun p (text.takeWhile p) text where
  front := List.takeWhile_prefix p
  within := fun _ => List.mem_takeWhile_imp
  longest w hfront hall := by
    rcases Piece.length_lt_or_eq_takeWhile hall hfront with hlt | rfl
    · exact hlt.le
    · exact le_rfl

/-- There is one longest run. -/
theorem LongestRun.eq_takeWhile {p : Char → Bool} {run text : List Char}
    (h : LongestRun p run text) : run = text.takeWhile p := by
  have hlongest := longestRun_takeWhile p text
  have hle := hlongest.longest run h.front h.within
  refine (List.prefix_of_prefix_length_le h.front hlongest.front hle).eq_of_length ?_
  exact le_antisymm hle (h.longest _ hlongest.front hlongest.within)

/-! ## The grammar -/

namespace Numeral

/-- **A numeric literal begins here**: with a digit, a point, or a minus sign before a digit. -/
inductive Begins : List Char → Prop
  | digit {c : Char} {rest : List Char} : c.isDigit → Begins (c :: rest)
  | point {rest : List Char} : Begins ('.' :: rest)
  | minus {d : Char} {rest : List Char} : d.isDigit → Begins ('-' :: d :: rest)

/-- The number that digits stand for, the highest digit first. -/
def value (digits : List Char) : Nat :=
  Nat.ofDigits 10 (digits.reverse.map fun c => c.toNat - '0'.toNat)

/-- **An integer**: a minus sign or none, then digits alone; and the number that it stands for. -/
inductive IsInteger : List Char → Int → Prop
  | plain {digits : List Char} : digits ≠ [] → (∀ c ∈ digits, c.isDigit) →
    IsInteger digits (value digits)
  | minus {digits : List Char} : digits ≠ [] → (∀ c ∈ digits, c.isDigit) →
    IsInteger ('-' :: digits) (-value digits)

/-- An integer that fits into 64 bits. -/
def IsInt64 (run : List Char) (z : Int) : Prop := IsInteger run z ∧ -2 ^ 63 ≤ z ∧ z < 2 ^ 63

/-- Digits with at most one point among them, at least one digit in all. -/
structure IsPointed (body : List Char) : Prop where
  within : ∀ c ∈ body, c.isDigit ∨ c = '.'
  points : body.count '.' ≤ 1
  digits : ∃ c ∈ body, c.isDigit

/-- **A decimal**: a minus sign or none, then digits with at most one point. -/
inductive IsDecimal : List Char → Prop
  | plain {body : List Char} : IsPointed body → IsDecimal body
  | minus {body : List Char} : IsPointed body → IsDecimal ('-' :: body)

/-! ## The sign -/

/-- A minus sign is split off if it comes first. -/
theorem splitMinus_cases (run : List Char) :
    (∃ body, run = '-' :: body ∧ Decimal.splitMinus run = (true, body)) ∨
      run.head? ≠ some '-' ∧ Decimal.splitMinus run = (false, run) := by
  unfold Decimal.splitMinus
  split
  · next body => exact .inl ⟨body, rfl, rfl⟩
  · next hne =>
    refine .inr ⟨fun hhead => ?_, rfl⟩
    obtain ⟨body, rfl⟩ := List.head?_eq_some_iff.mp hhead
    exact hne body rfl

section

variable {run body : List Char} {negative : Bool}

/-- An integer, by what is left after its sign. -/
theorem isInteger_iff (h : Decimal.splitMinus run = (negative, body)) {z : Int} :
    IsInteger run z ↔ body ≠ [] ∧ (∀ c ∈ body, c.isDigit) ∧
      z = if negative then -(value body : Int) else value body := by
  constructor
  · rintro (⟨hne, hall⟩ | ⟨hne, hall⟩)
    · rcases splitMinus_cases run with ⟨_, rfl, -⟩ | ⟨-, hsplit⟩
      · exact absurd (hall '-' List.mem_cons_self) (by decide)
      · cases hsplit.symm.trans h
        exact ⟨hne, hall, rfl⟩
    · cases h
      exact ⟨hne, hall, rfl⟩
  · rintro ⟨hne, hall, rfl⟩
    rcases splitMinus_cases run with ⟨_, rfl, -⟩ | ⟨-, hsplit⟩
    · cases h
      exact .minus hne hall
    · cases hsplit.symm.trans h
      exact .plain hne hall

/-- A decimal, by what is left after its sign. -/
theorem isDecimal_iff (h : Decimal.splitMinus run = (negative, body)) :
    IsDecimal run ↔ IsPointed body := by
  constructor
  · rintro (hbody | hbody)
    · rcases splitMinus_cases run with ⟨_, rfl, -⟩ | ⟨-, hsplit⟩
      · exact absurd (hbody.within '-' List.mem_cons_self) (by decide)
      · cases hsplit.symm.trans h
        exact hbody
    · cases h
      exact hbody
  · intro hbody
    rcases splitMinus_cases run with ⟨_, rfl, -⟩ | ⟨-, hsplit⟩
    · cases h
      exact .minus hbody
    · cases hsplit.symm.trans h
      exact .plain hbody

end

/-! ## Integers -/

/-- The reader adds digit after digit from the left; the value counts powers of ten from the
right. -/
theorem digitsValue_eq (digits : List Char) : Decimal.digitsValue digits = value digits := by
  induction digits using List.reverseRecOn with
  | nil => rfl
  | append_singleton digits c ih =>
    rw [Decimal.digitsValue, List.foldl_append, List.foldl_cons, List.foldl_nil]
    rw [value, List.reverse_append, List.reverse_singleton, List.singleton_append, List.map_cons,
      Nat.ofDigits_cons, ← value, ← ih, Nat.add_comm]
    rfl

theorem fits_iff {z : Int} : Number.fits z ↔ -2 ^ 63 ≤ z ∧ z < 2 ^ 63 := by
  rw [Number.fits, Bool.and_eq_true, decide_eq_true_iff, decide_eq_true_iff, Int64.toInt_minValue,
    Int64.toInt_maxValue]
  omega

/-- **Integers that fit are read as what they stand for, and nothing else is.** -/
theorem integer?_eq_some_iff {run : List Char} {n : Int64} :
    Number.integer? run = some n ↔ IsInteger run n.toInt := by
  rcases hsplit : Decimal.splitMinus run with ⟨negative, digits⟩
  have hvalid : ¬ (digits.isEmpty || !digits.all Char.isDigit) ↔
      digits ≠ [] ∧ ∀ c ∈ digits, c.isDigit := by simp
  rw [isInteger_iff hsplit, Number.integer?, hsplit, ← and_assoc, ← hvalid]
  dsimp only
  rw [digitsValue_eq]
  generalize (if negative then -(value digits : Int) else value digits) = z
  split
  · next hbad => simp [hbad]
  · next hgood =>
    rw [and_iff_right hgood]
    split
    · next hfits =>
      rw [fits_iff] at hfits
      rw [Option.some.injEq, ← Int64.toInt_inj, Int64.toInt_ofInt_of_le hfits.1 hfits.2, eq_comm]
    · next hfits =>
      refine iff_of_false nofun ?_
      rintro rfl
      exact hfits (fits_iff.mpr ⟨n.le_toInt, n.toInt_lt⟩)

theorem isInt64_iff {run : List Char} {z : Int} :
    IsInt64 run z ↔ ∃ n : Int64, Number.integer? run = some n ∧ n.toInt = z := by
  constructor
  · rintro ⟨hrun, hle, hlt⟩
    have hz : (Int64.ofInt z).toInt = z := Int64.toInt_ofInt_of_le hle hlt
    exact ⟨.ofInt z, integer?_eq_some_iff.mpr (hz.symm ▸ hrun), hz⟩
  · rintro ⟨n, hn, rfl⟩
    exact ⟨integer?_eq_some_iff.mp hn, n.le_toInt, n.toInt_lt⟩

theorem forall_not_isInt64_iff {run : List Char} :
    (∀ z, ¬ IsInt64 run z) ↔ Number.integer? run = none := by
  simp only [isInt64_iff, not_exists, not_and]
  cases Number.integer? run with
  | none => simp
  | some n => simp

/-! ## Decimals -/

section

variable {whole : List Char} (hwhole : ∀ c ∈ whole, c.isDigit)
include hwhole

theorem count_point_eq_zero : whole.count '.' = 0 :=
  List.count_eq_zero.mpr fun hmem => absurd (hwhole '.' hmem) (by decide)

theorem isPointed_digits_iff : IsPointed whole ↔ whole ≠ [] := by
  constructor
  · rintro h rfl
    obtain ⟨c, hc, -⟩ := h.digits
    cases hc
  · intro hne
    obtain ⟨c, rest, rfl⟩ := List.exists_cons_of_ne_nil hne
    exact ⟨fun c hc => .inl (hwhole c hc), by rw [count_point_eq_zero hwhole]; exact Nat.zero_le 1,
      c, List.mem_cons_self, hwhole c List.mem_cons_self⟩

/-- With a point, digits are needed on one of its sides only. -/
theorem isPointed_point_iff {fraction : List Char} :
    IsPointed (whole ++ '.' :: fraction) ↔
      (∀ c ∈ fraction, c.isDigit) ∧ (whole ≠ [] ∨ fraction ≠ []) := by
  have hcount : (whole ++ '.' :: fraction).count '.' = fraction.count '.' + 1 := by
    rw [List.count_append, count_point_eq_zero hwhole, List.count_cons_self, Nat.zero_add]
  constructor
  · intro h
    have hfree : '.' ∉ fraction := by
      have hpoints := h.points
      rw [← List.count_eq_zero]
      omega
    refine ⟨fun c hc => ?_, ?_⟩
    · refine (h.within c (by simp [hc])).resolve_right ?_
      rintro rfl
      exact hfree hc
    · obtain ⟨c, hc, hdigit⟩ := h.digits
      rcases List.mem_append.mp hc with hc | hc
      · exact .inl (List.ne_nil_of_mem hc)
      · refine .inr (List.ne_nil_of_mem ((List.mem_cons.mp hc).resolve_left ?_))
        rintro rfl
        exact absurd hdigit (by decide)
  · rintro ⟨hfraction, hne⟩
    refine ⟨?_, by rw [hcount, count_point_eq_zero hfraction], ?_⟩
    · rw [List.forall_mem_append, List.forall_mem_cons]
      exact ⟨fun c hc => .inl (hwhole c hc), .inr rfl, fun c hc => .inl (hfraction c hc)⟩
    · rcases hne with hne | hne
      · obtain ⟨c, rest, rfl⟩ := List.exists_cons_of_ne_nil hne
        exact ⟨c, by simp, hwhole c List.mem_cons_self⟩
      · obtain ⟨c, rest, rfl⟩ := List.exists_cons_of_ne_nil hne
        exact ⟨c, by simp, hfraction c List.mem_cons_self⟩

end

/-- Digits with at most one point are read, and nothing else is. -/
theorem isSome_pointed?_iff (body : List Char) :
    (Decimal.pointed? body).isSome ↔ IsPointed body := by
  have hwhole : ∀ c ∈ body.takeWhile Char.isDigit, c.isDigit := fun _ => List.mem_takeWhile_imp
  have hsplit := List.takeWhile_append_dropWhile (p := Char.isDigit) (l := body)
  rw [Decimal.pointed?]
  split
  · next hrest =>
    rw [hrest, List.append_nil] at hsplit
    rw [hsplit] at hwhole ⊢
    rw [isPointed_digits_iff hwhole]
    cases body <;> simp
  · next fraction hrest =>
    rw [hrest] at hsplit
    rw [← hsplit, isPointed_point_iff hwhole, hsplit]
    have hall : fraction.all Char.isDigit ↔ ∀ c ∈ fraction, c.isDigit := List.all_eq_true
    rw [← hall]
    split
    · next h => simpa [imp_iff_not_or] using h
    · next h => simpa [imp_iff_not_or] using h
  · next hnil hpoint =>
    -- What follows the digits is neither a digit nor a point.
    obtain ⟨c, rest, hrest⟩ := List.exists_cons_of_ne_nil hnil
    have hc : c.isDigit = false := by
      have hhead := List.head_dropWhile_not Char.isDigit hnil
      simpa only [hrest, List.head_cons] using hhead
    refine iff_of_false Bool.false_ne_true fun h => ?_
    have hmem : c ∈ body := by rw [← hsplit, hrest]; simp
    rcases h.within c hmem with hdigit | rfl
    · exact Bool.false_ne_true (hc.symm.trans hdigit)
    · exact absurd hrest (hpoint rest)

/-- **Decimals are read, and nothing else is.** -/
theorem isSome_plain?_iff {run : List Char} : (Decimal.plain? run).isSome ↔ IsDecimal run := by
  rcases hsplit : Decimal.splitMinus run with ⟨negative, body⟩
  rw [isDecimal_iff hsplit, ← isSome_pointed?_iff, Decimal.plain?, hsplit, Option.isSome_map]

/-! ## What a literal yields -/

/-- What a literal yields, by the two readers that are tried on it. -/
theorem numeral_eq_iff {run : List Char} :
    (∀ n, numeral run = .ok (.number (.int n)) ↔ Number.integer? run = some n) ∧
    (∀ x, numeral run = .ok (.number (.float x)) ↔
      Number.integer? run = none ∧ Decimal.float? run = some x) ∧
    (numeral run = .error (.invalidNumeric (String.ofList run)) ↔
      Number.integer? run = none ∧ Decimal.float? run = none) := by
  unfold numeral
  cases Number.integer? run with
  | some n => simp
  | none => cases Decimal.float? run <;> simp

theorem Begins.exists_cons {text : List Char} (h : Begins text) :
    ∃ c rest, text = c :: rest ∧ Piece.startsNumber c rest := by
  cases h with
  | @digit c rest hc => exact ⟨c, rest, rfl, Piece.startsNumber_iff.mpr (.inl (by simp [hc]))⟩
  | @point rest => exact ⟨'.', rest, rfl, Piece.startsNumber_iff.mpr (.inl rfl)⟩
  | @minus d rest hd =>
    exact ⟨'-', d :: rest, rfl, Piece.startsNumber_iff.mpr (.inr ⟨rfl, d, hd, rfl⟩)⟩

end Numeral

open Numeral

/-- **Numeric literals are classified exactly.**  Where a numeric literal begins, the lexer takes
the longest run of digits, points and minus signs, and no more.  It yields an integer exactly if the
run is an integer of 64 bits, and this integer; it yields a double exactly if the run is not, but is
a decimal; otherwise the whole run is wrong. -/
theorem numeral_classified {l : Lexer} {run : List Char} (hbegins : Numeral.Begins l.rest)
    (hrun : LongestRun Pattern.numberChar run l.rest) :
    ∃ r : Except SyntaxFault Lexeme,
      l.next? = some (.placed l.position r, l.advance run.length) ∧
      run ++ (l.advance run.length).rest = l.rest ∧
      (∀ z, (∃ n : Int64, r = .ok (.number (.int n)) ∧ n.toInt = z) ↔ IsInt64 run z) ∧
      ((∃ x, r = .ok (.number (.float x))) ↔ (∀ z, ¬ IsInt64 run z) ∧ IsDecimal run) ∧
      (r = .error (.invalidNumeric (String.ofList run)) ↔
        (∀ z, ¬ IsInt64 run z) ∧ ¬ IsDecimal run) := by
  obtain ⟨c, rest, hl, hstarts⟩ := hbegins.exists_cons
  have heq : run = c :: rest.takeWhile Piece.isNumeric := by
    rw [hrun.eq_takeWhile, hl]
    exact List.takeWhile_cons_of_pos (Piece.isNumeric_of_startsNumber hstarts)
  have hscan : Piece.scan c rest =
      (Piece.ofLiteral run, (rest.takeWhile Piece.isNumeric).length) := by
    rw [Piece.scan_of_startsNumber hstarts, heq]
  have hnext := Lexer.next?_of_reading hl (by rw [hscan]; exact Piece.reading_ofLiteral hrun.within)
  have hlength : (Piece.scan c rest).2 + 1 = run.length := by rw [hscan, heq, List.length_cons]
  rw [hlength] at hnext
  obtain ⟨hint, hfloat, herror⟩ := @numeral_eq_iff run
  rw [Piece.float?_of_isNumeric hrun.within] at hfloat herror
  refine ⟨numeral run, hnext, List.prefix_iff_eq_append.mp hrun.front, fun z => ?_, ?_, ?_⟩
  · simp only [hint, isInt64_iff]
  · simp only [hfloat, exists_and_left, forall_not_isInt64_iff, ← isSome_plain?_iff,
      Option.isSome_iff_exists]
  · rw [herror, forall_not_isInt64_iff, ← isSome_plain?_iff, Option.not_isSome_iff_eq_none]

/-- A lexer that stands before the literal `-9223372036854775809`. -/
def Lexer.belowLeast : Lexer := .ofSource "-9223372036854775809)"

/-- One less than the least integer is a double. -/
theorem numeral_classified_belowLeast :
    Numeral.Begins Lexer.belowLeast.rest ∧
    LongestRun Pattern.numberChar "-9223372036854775809".toList Lexer.belowLeast.rest ∧
    ∃ x, Lexer.belowLeast.next? =
      some (.ok ⟨.number (.float x), .start⟩, Lexer.belowLeast.advance 20) := by
  have hbegins : Numeral.Begins Lexer.belowLeast.rest := .minus (d := '9') rfl
  have hrun : LongestRun Pattern.numberChar "-9223372036854775809".toList Lexer.belowLeast.rest :=
    longestRun_takeWhile Pattern.numberChar Lexer.belowLeast.rest
  have hsplit : Decimal.splitMinus "-9223372036854775809".toList =
      (true, "9223372036854775809".toList) := rfl
  have hdigits : ∀ c ∈ "9223372036854775809".toList, c.isDigit := List.all_eq_true.mp rfl
  have hdecimal : IsDecimal "-9223372036854775809".toList :=
    (isDecimal_iff hsplit).mpr ((isPointed_digits_iff hdigits).mpr (by decide))
  have hlarge (z : Int) : ¬ IsInt64 "-9223372036854775809".toList z := by
    rintro ⟨hz, hle, -⟩
    obtain ⟨-, -, rfl⟩ := (isInteger_iff hsplit).mp hz
    exact absurd hle (by decide)
  obtain ⟨r, hnext, -, -, hfloat, -⟩ := numeral_classified hbegins hrun
  obtain ⟨x, rfl⟩ := hfloat.mpr ⟨hlarge, hdecimal⟩
  exact ⟨hbegins, hrun, x, hnext⟩

end BraceScript
