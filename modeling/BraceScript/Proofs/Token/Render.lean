import BraceScript.Proofs.Token.Spacing

/-!
# Proofs/Token/Render — lexemes that are written out are cut out again

The text of a lexeme and the lexer are written apart: one is a table of spellings and a printer of
integers, the other scans characters.  On one lexeme they undo each other (`Piece.scan_text`), for
integers because their digits are read back (`Number.integer?_integerText`).  A blank ends every
token (`scan_append`), so with blanks between them any number of lexemes can be written out.

Doubles are left out: their text may have an exponent, which the lexer does not take for part of a
number.
-/

namespace BraceScript

/-! ## Integers -/

namespace Number

theorem digitsValue_digitChars (n : Nat) : Decimal.digitsValue (Decimal.digitChars n) = n :=
  Nat.ofDigitChars_ten_toDigits

theorem isDigit_of_mem_digitChars {n : Nat} {c : Char} (h : c ∈ Decimal.digitChars n) : c.isDigit :=
  Nat.isDigit_of_mem_toDigits (by decide) (by decide) h

theorem digitChars_ne_nil (n : Nat) : Decimal.digitChars n ≠ [] := Nat.toDigits_ne_nil

/-- The text of an integer is a minus sign, if it is negative, and digits. -/
theorem splitMinus_integerText (n : Int) :
    Decimal.splitMinus (Decimal.integerText n).toList =
      (decide (n < 0), Decimal.digitChars n.natAbs) := by
  rw [Decimal.integerText]
  split
  · next hn => rw [String.toList_ofList, Decimal.splitMinus, decide_eq_true hn]
  · next hn =>
    rw [String.toList_ofList, decide_eq_false hn]
    -- The first character is a digit, so no sign is split off.
    obtain ⟨c, tail, heq⟩ := List.exists_cons_of_ne_nil (digitChars_ne_nil n.natAbs)
    have hc : c.isDigit := isDigit_of_mem_digitChars (heq ▸ List.mem_cons_self)
    rw [heq]
    unfold Decimal.splitMinus
    split
    · next heq' =>
      obtain rfl := (List.cons.inj heq').1
      exact absurd hc (by decide)
    · rfl

/-- **The text of an integer is read as this integer.** -/
theorem integer?_integerText (n : Int64) :
    integer? (Decimal.integerText n.toInt).toList = some n := by
  have hdigits : ¬ ((Decimal.digitChars n.toInt.natAbs).isEmpty ||
      !(Decimal.digitChars n.toInt.natAbs).all Char.isDigit) := by
    have hall : (Decimal.digitChars n.toInt.natAbs).all Char.isDigit :=
      List.all_eq_true.mpr fun c hc => isDigit_of_mem_digitChars hc
    simp [hall, digitChars_ne_nil]
  have hvalue : (if decide (n.toInt < 0) then -((n.toInt.natAbs : Nat) : Int)
      else (n.toInt.natAbs : Nat)) = n.toInt := by
    simp only [decide_eq_true_eq]
    split <;> omega
  have hfits : fits n.toInt :=
    Bool.and_eq_true_iff.mpr ⟨decide_eq_true n.minValue_le_toInt, decide_eq_true n.toInt_le⟩
  simp only [integer?, splitMinus_integerText, if_neg hdigits, digitsValue_digitChars, hvalue]
  rw [if_pos hfits, Int64.ofInt_toInt]

end Number

/-! ## One lexeme -/

namespace Lexeme

/-- **A lexeme that some source has.** -/
def Occurs (l : Lexeme) : Prop := ∃ (source : String) (t : Token), .ok t ∈ lex source ∧ t.lexeme = l

/-- Whether a lexeme is a double. -/
def isFloat : Lexeme → Bool
  | number (.float _) => true
  | _ => false

/-- **The lexemes whose text is their own**: reserved words, truth values, integers, names that are
not reserved, and marks. -/
def Exact : Lexeme → Prop
  | keyword _ | bool _ | number (.int _) | mark _ => True
  | identifier name => name.toList ∈ Form.identifier.pattern.language ∧
    ∀ f : Form, f.isReserved → name.toList ∉ f.pattern.language
  | number (.float _) | trivia _ => False

theorem Exact.not_isFloat {l : Lexeme} (h : l.Exact) : ¬ l.isFloat := by
  cases l with
  | number n =>
    cases n with
    | int n => exact Bool.false_ne_true
    | float x => exact h.elim
  | _ => exact Bool.false_ne_true

/-- The text of lexemes, with a blank between each two. -/
def line (ls : List Lexeme) : String := " ".intercalate (ls.map text)

end Lexeme

namespace Piece

/-- A name that is not reserved, by its characters. -/
theorem exact_identifier_iff {name : String} :
    (Lexeme.identifier name).Exact ↔ ∃ c tail, name.toList = c :: tail ∧ isWordStart c ∧
      (∀ x ∈ tail, isWordChar x) ∧ Lexeme.ofWord name = .identifier name := by
  constructor
  · rintro ⟨hname, hfree⟩
    obtain ⟨c, tail, heq, hc, htail⟩ := Form.identifier.mem_pattern_iff.mp hname
    refine ⟨c, tail, heq, hc, htail, ?_⟩
    rcases ofWord_cases c tail with ⟨f, hf, hspells⟩ | ⟨-, hword⟩
    · exact absurd (f.mem_pattern_iff.mpr ⟨c, tail, heq, hspells⟩) (hfree f hf)
    · rwa [← heq, String.ofList_toList] at hword
  · rintro ⟨c, tail, heq, hc, htail, hword⟩
    refine ⟨Form.identifier.mem_pattern_iff.mpr ⟨c, tail, heq, hc, htail⟩, fun f hf hmem => ?_⟩
    obtain ⟨c', tail', heq', hspells⟩ := f.mem_pattern_iff.mp hmem
    have hreading := reading_of_reserved hf hspells
    rw [← heq', String.ofList_toList, hword] at hreading
    cases f with
    | keyword k => cases hreading
    | bool b => cases hreading
    | _ => cases hf

/-- Text that a number starts, and that is numeric to its end. -/
theorem scan_literal {c : Char} {tail : List Char} (hc : startsNumber c tail)
    (htail : ∀ x ∈ tail, isNumeric x) : scan c tail = (ofLiteral (c :: tail), tail.length) := by
  rw [scan_of_startsNumber hc, List.takeWhile_eq_self_iff.mpr htail]

theorem scan_integerText (n : Int64) :
    ∃ c tail, (Decimal.integerText n.toInt).toList = c :: tail ∧
      scan c tail = (token (.number (.int n)), tail.length) ∧ ¬ isBlank c := by
  have hliteral : ofLiteral (Decimal.integerText n.toInt).toList = token (.number (.int n)) := by
    simp only [ofLiteral, Number.ofLiteral?, Number.integer?_integerText]
  obtain ⟨d, digits, hdigits⟩ :=
    List.exists_cons_of_ne_nil (Number.digitChars_ne_nil n.toInt.natAbs)
  have hall : ∀ x ∈ d :: digits, x.isDigit := fun x hx =>
    Number.isDigit_of_mem_digitChars (hdigits ▸ hx)
  have hnumeric : ∀ x ∈ d :: digits, isNumeric x := fun x hx => by simp [isNumeric, hall x hx]
  have hd : d.isDigit := hall d List.mem_cons_self
  by_cases hneg : n.toInt < 0
  · have htext : (Decimal.integerText n.toInt).toList = '-' :: d :: digits := by
      rw [Decimal.integerText, if_pos hneg, String.toList_ofList, hdigits]
    refine ⟨'-', d :: digits, htext, ?_, by decide⟩
    rw [scan_literal (startsNumber_iff.mpr (.inr ⟨rfl, d, hd, rfl⟩)) hnumeric, ← htext, hliteral]
  · have htext : (Decimal.integerText n.toInt).toList = d :: digits := by
      rw [Decimal.integerText, if_neg hneg, String.toList_ofList, hdigits]
    refine ⟨d, digits, htext, ?_, fun hblank => ?_⟩
    · rw [scan_literal (startsNumber_iff.mpr (.inl (by simp [hd])))
        (fun x hx => hnumeric x (List.mem_cons_of_mem _ hx)), ← htext, hliteral]
    · have hspace := not_isNumeric_of_isSpace d (by simp [isSpace, hblank])
      simp [hnumeric d List.mem_cons_self] at hspace

/-- **The text of a lexeme is cut out as this lexeme.** -/
theorem scan_text {l : Lexeme} (h : l.Exact) :
    ∃ c tail, l.text.toList = c :: tail ∧ scan c tail = (token l, tail.length) ∧ ¬ isBlank c := by
  cases l with
  | keyword k => cases k <;> exact ⟨_, _, rfl, rfl, by decide⟩
  | bool b => cases b <;> exact ⟨_, _, rfl, rfl, by decide⟩
  | mark m => cases m <;> exact ⟨_, _, rfl, rfl, by decide⟩
  | number n =>
    cases n with
    | int n => exact scan_integerText n
    | float x => exact h.elim
  | identifier name =>
    obtain ⟨c, tail, heq, hc, htail, hword⟩ := exact_identifier_iff.mp h
    have hrun : tail.takeWhile isWordChar = tail := List.takeWhile_eq_self_iff.mpr htail
    refine ⟨c, tail, heq, ?_, fun hblank => ?_⟩
    · simp only [scan, if_pos hc, hrun]
      rw [← heq, String.ofList_toList, hword]
    · rcases isSpace_cases (by simp [isSpace, hblank] : isSpace c) with rfl | rfl | rfl | rfl <;>
        exact absurd hc (by decide)
  | trivia form => exact h.elim

/-- What is cut out as a token is a double or a lexeme whose text is its own. -/
theorem exact_of_scan {c : Char} {rest : List Char} {l : Lexeme} (h : (scan c rest).1 = token l) :
    l.isFloat ∨ l.Exact := by
  revert h
  fun_cases scan c rest with
  | case1 hc tail =>
    rintro ⟨⟩
    refine .inr ?_
    rcases ofWord_cases c tail with ⟨f, hf, hspells⟩ | ⟨hfree, hword⟩
    · have hreading := reading_of_reserved hf hspells
      cases f with
      | keyword k => rw [← Except.ok.inj (Option.some.inj hreading)]; trivial
      | bool b => rw [← Except.ok.inj (Option.some.inj hreading)]; trivial
      | _ => cases hf
    · rw [hword]
      exact exact_identifier_iff.mpr
        ⟨c, tail, String.toList_ofList, hc, fun _ => List.mem_takeWhile_imp, hword⟩
  | case2 _ _ tail =>
    unfold ofLiteral
    split
    · next n _ =>
      rintro ⟨⟩
      cases n with
      | int n => exact .inr trivial
      | float x => exact .inl rfl
    · rintro ⟨⟩
  | case3 => rintro ⟨⟩
  | case4 => rintro ⟨⟩
  | case5 =>
    unfold ofComment
    split <;> rintro ⟨⟩
  | case6 =>
    obtain ⟨m, d, -, -, heq⟩ | ⟨-, ⟨m, -, heq⟩ | ⟨-, heq⟩⟩ := ofMark_cases c rest <;> rw [heq] <;>
      rintro ⟨⟩
    · exact .inr trivial
    · exact .inr trivial

/-! ## Lexemes in a line -/

/-- A lexeme that is written out is read again if the text ends with it, or goes on with a blank. -/
theorem readings_text_append {l : Lexeme} (h : l.Exact) {rest : List Char}
    (hends : EndsAlike [] rest) : readings (l.text.toList ++ rest) = .ok l :: readings rest := by
  obtain ⟨c, tail, htext, hscan, hblank⟩ := scan_text h
  have halone : scan c (tail ++ []) = (token l, tail.length) := by rw [List.append_nil, hscan]
  have hscan' := scan_append halone hends hblank (by rintro ⟨⟩)
  rw [htext, List.cons_append, readings_of_scan hscan']
  rfl

/-- **Lexemes in a line are read one after the other.** -/
theorem readings_line {ls : List Lexeme} (h : ∀ l ∈ ls, l.Exact) :
    readings (Lexeme.line ls).toList = ls.map .ok := by
  rw [Lexeme.line, String.toList_intercalate, List.map_map]
  induction ls with
  | nil => rw [List.map_nil, List.intercalate_nil, readings, cut]; rfl
  | cons l ls ih =>
    obtain ⟨hl, hls⟩ := List.forall_mem_cons.mp h
    cases ls with
    | nil =>
      rw [List.map_singleton, List.intercalate_singleton]
      have hlast : readings (l.text.toList ++ []) = .ok l :: readings [] :=
        readings_text_append hl (.inl rfl)
      rw [List.append_nil] at hlast
      rw [Function.comp_apply, hlast, readings, cut]
      rfl
    | cons l' ls =>
      rw [List.map_cons, List.intercalate_cons_of_ne_nil (by simp), List.append_assoc,
        Function.comp_apply, readings_text_append hl (.inr ⟨' ', rfl, rfl⟩)]
      have hblank (more : List Char) : readings (" ".toList ++ more) = readings more :=
        readings_cons_of_isBlank rfl more
      rw [hblank, ih hls]
      rfl

end Piece

/-- The lexemes that sources have, doubles apart, are those whose text is their own. -/
theorem Lexeme.occurs_iff_exact (l : Lexeme) : l.Occurs ∧ ¬ l.isFloat ↔ l.Exact := by
  constructor
  · rintro ⟨⟨source, t, ht, rfl⟩, hfloat⟩
    obtain ⟨_, word, after, -, ⟨rest, hcut⟩, -⟩ := Piece.exists_seams_of_mem_lex ht
    obtain ⟨c, tail, rest', -, -, hscan, -⟩ := Piece.cut_eq_cons hcut
    exact (Piece.exact_of_scan (congrArg Prod.fst hscan)).resolve_left hfloat
  · intro h
    have hlex : (lex l.text).map Item.reading = [l].map .ok := by
      have hline : Piece.readings (line [l]).toList = [l].map .ok :=
        Piece.readings_line (by simpa using h)
      rwa [line, List.map_singleton, String.intercalate_singleton, ← Piece.map_reading_lex] at hline
    obtain ⟨ts, hts, hl⟩ := exists_tokens_of_map_reading hlex
    obtain ⟨t, rfl, rfl⟩ := List.map_eq_singleton_iff.mp hl
    exact ⟨⟨_, t, by rw [hts]; exact List.mem_cons_self, rfl⟩, h.not_isFloat⟩

/-- **Writing lexemes out and cutting them again gives them back.**  The lexemes that sources have,
doubles apart, are the reserved words, the truth values, all integers, the names that are not
reserved, and the marks; and a line of any such lexemes, with a blank between each two, is cut
without an error into tokens of these lexemes. -/
theorem lex_line :
    (∀ l : Lexeme, l.Occurs ∧ ¬ l.isFloat ↔ l.Exact) ∧
    ∀ ls : List Lexeme, (∀ l ∈ ls, l.Occurs ∧ ¬ l.isFloat) →
      ∃ ts : List Token, lex (Lexeme.line ls) = ts.map .ok ∧ ts.map Token.lexeme = ls := by
  refine ⟨Lexeme.occurs_iff_exact, fun ls h => exists_tokens_of_map_reading ?_⟩
  rw [Piece.map_reading_lex]
  exact Piece.readings_line fun l hl => l.occurs_iff_exact.mp (h l hl)

/-- The least integer, a minus sign before a negative integer, a name that begins like a reserved
word, and marks that would be one, or open a comment, without the blank between them. -/
def Lexeme.touchy : List Lexeme :=
  [.number (.int Int64.minValue), .mark .minus, .number (.int (-1)), .identifier "iff",
    .keyword .kwIf, .mark .slash, .mark .slash, .mark .star]

/-- With blanks these lexemes stay apart. -/
theorem lex_line_touchy :
    Lexeme.line Lexeme.touchy = "-9223372036854775808 - -1 iff if / / *" ∧
    ∃ ts : List Token, lex (Lexeme.line Lexeme.touchy) = ts.map .ok ∧
      ts.map Token.lexeme = Lexeme.touchy := by
  have hname : (Lexeme.identifier "iff").Exact :=
    Piece.exact_identifier_iff.mpr ⟨'i', ['f', 'f'], rfl, rfl, List.all_eq_true.mp rfl, rfl⟩
  have hexact : ∀ l ∈ Lexeme.touchy, l.Exact := by
    simp only [Lexeme.touchy, List.forall_mem_cons]
    exact ⟨trivial, trivial, trivial, hname, trivial, trivial, trivial, trivial,
      fun _ h => by cases h⟩
  exact ⟨rfl, lex_line.2 _ fun l hl => (lex_line.1 l).mpr (hexact l hl)⟩

end BraceScript
