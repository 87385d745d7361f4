import BraceScript.Proofs.Token.Pattern

/-!
# Proofs/Token/Row — the rows of the table by their first character

`Form.Spells` says what a row asks of the first character of a text and of the others, in the words
of the lexer.  A first character starts only texts of one kind (`Start.ofChar`), so most rows are
out at a look at it (`Form.start_eq_of_spells`).
-/

namespace BraceScript

/-! ## Rows by their first character -/

namespace Form

/-- What a row asks of the first character of a text and of the others. -/
def Spells (c : Char) (tail : List Char) : Form → Prop
  | keyword k => k.text.toList = c :: tail
  | bool b => (Lexeme.boolText b).toList = c :: tail
  | number => (c.isDigit || c == '.') ∧ ∀ x ∈ tail, Piece.isNumeric x
  | negative => c = '-' ∧ (∃ d, d.isDigit ∧ tail.head? = some d) ∧ ∀ x ∈ tail, Piece.isNumeric x
  | identifier => Piece.isWordStart c ∧ ∀ x ∈ tail, Piece.isWordChar x
  | mark m => m.text.toList = c :: tail
  | comment => c = '/' ∧ ∃ body, tail = '*' :: body ∧ Piece.closer? body = some body.length
  | opener => c = '/' ∧ tail = ['*']
  | newline => c = '\n' ∧ tail = []
  | blank => Piece.isBlank c ∧ ∀ x ∈ tail, Piece.isBlank x

theorem keyword_ne_nil (k : Keyword) : k.text.toList ≠ [] := by cases k <;> decide

theorem bool_ne_nil (b : Bool) : (Lexeme.boolText b).toList ≠ [] := by cases b <;> decide

theorem mark_ne_nil (m : Mark) : m.text.toList ≠ [] := by cases m <;> decide

/-- A text that is not empty, by its first character and the others. -/
theorem mem_text_iff {s : String} (hs : s.toList ≠ []) {w : List Char} :
    w ∈ (Pattern.text s).language ↔ ∃ c tail, w = c :: tail ∧ s.toList = c :: tail := by
  obtain ⟨c, tail, hs⟩ := List.exists_cons_of_ne_nil hs
  rw [Pattern.mem_text, hs]
  simp

/-- The pattern of negative numbers by its first character, which is the sign. -/
theorem mem_negative_iff {w : List Char} : w ∈ negative.pattern.language ↔
    ∃ c tail, w = c :: tail ∧ negative.Spells c tail := by
  rw [pattern, Pattern.mem_text_seq]
  constructor
  · rintro ⟨u, hu, rfl⟩
    obtain ⟨d, t, rfl, hd, ht⟩ := Pattern.mem_run.mp hu
    have hnumeric : Piece.isNumeric d := by simp [Piece.isNumeric, show d.isDigit = true from hd]
    exact ⟨'-', d :: t, rfl, rfl, ⟨d, hd, rfl⟩, List.forall_mem_cons.mpr ⟨hnumeric, ht⟩⟩
  · rintro ⟨_, tail, rfl, rfl, ⟨d, hd, htail⟩, hall⟩
    obtain ⟨t, rfl⟩ := List.head?_eq_some_iff.mp htail
    exact ⟨d :: t, Pattern.mem_run.mpr ⟨d, t, rfl, hd, (List.forall_mem_cons.mp hall).2⟩, rfl⟩

/-- The pattern of comments by its first character, the slash. -/
theorem mem_comment_iff {w : List Char} : w ∈ comment.pattern.language ↔
    ∃ c tail, w = c :: tail ∧ comment.Spells c tail := by
  rw [pattern, Pattern.mem_text_seq]
  constructor
  · rintro ⟨body, hbody, rfl⟩
    exact ⟨'/', '*' :: body, rfl, rfl, body, rfl, Piece.mem_closed_iff.mp hbody⟩
  · rintro ⟨_, _, rfl, rfl, body, rfl, hbody⟩
    exact ⟨body, Piece.mem_closed_iff.mpr hbody, rfl⟩

/-- **A text of a row is not empty, and is what the row asks.** -/
theorem mem_pattern_iff (f : Form) {w : List Char} :
    w ∈ f.pattern.language ↔ ∃ c tail, w = c :: tail ∧ f.Spells c tail := by
  cases f with
  | keyword k => exact mem_text_iff (keyword_ne_nil k)
  | bool b => exact mem_text_iff (bool_ne_nil b)
  | mark m => exact mem_text_iff (mark_ne_nil m)
  | number => exact Pattern.mem_run
  | negative => exact mem_negative_iff
  | identifier =>
    rw [pattern, Pattern.mem_run]
    simp only [Pattern.wordStart_eq, Pattern.wordChar_eq]
    rfl
  | comment => exact mem_comment_iff
  | opener => simp [pattern, Pattern.mem_text, Spells]
  | newline => simp [pattern, Pattern.mem_text, Spells]
  | blank => exact Pattern.mem_run

end Form

/-! ## Marks -/

namespace Mark

theorem single?_eq_some_iff {c : Char} {m : Mark} : single? c = some m ↔ m.text.toList = [c] := by
  constructor
  · intro h
    unfold single? at h
    split at h <;> first | (cases h; rfl) | cases h
  · intro h
    cases m <;> first | (obtain rfl := (List.cons.inj h).1; rfl) | cases (List.cons.inj h).2

/-- The marks of two characters are found by their texts. -/
theorem double?_eq_some_iff {c d : Char} {m : Mark} :
    double? c d = some m ↔ m.text.toList = [c, d] := by
  constructor
  · intro h
    unfold double? at h
    split at h <;> first | (cases h; rfl) | cases h
  · intro h
    cases m <;> simp [text] at h <;> (obtain ⟨rfl, rfl⟩ := h; rfl)

/-- A mark has one or two characters. -/
theorem text_cases {m : Mark} {c : Char} {tail : List Char} (h : m.text.toList = c :: tail) :
    tail = [] ∧ single? c = some m ∨ ∃ d, tail = [d] ∧ double? c d = some m := by
  have hlength : m.text.toList.length ≤ 2 := by cases m <;> decide
  rw [h] at hlength
  match tail, hlength with
  | [], _ => exact .inl ⟨rfl, single?_eq_some_iff.mpr h⟩
  | [d], _ => exact .inr ⟨d, rfl, double?_eq_some_iff.mpr h⟩
  | _ :: _ :: _, hlength => simp at hlength

/-- The characters that a mark starts with. -/
def starts : List Char :=
  ['+', '-', '*', '/', '=', '>', '<', '!', '(', ')', ',', '\x7b', '\x7d', ':']

/-- Every mark begins with one of the characters listed. -/
theorem mem_starts {m : Mark} {c : Char} {tail : List Char} (h : m.text.toList = c :: tail) :
    c ∈ starts := by
  have hstarts : m.text.toList.head? ∈ starts.map some := by cases m <;> decide
  rw [h] at hstarts
  simpa using hstarts

end Mark

/-! ## Rows that start alike -/

namespace Piece

theorem toNat_lt_of_isNumeric {c : Char} (h : isNumeric c) : c.toNat < 65 := by
  rw [isNumeric, Bool.or_eq_true, Bool.or_eq_true, beq_iff_eq, beq_iff_eq] at h
  rcases h with (hdigit | rfl) | rfl
  · have hle : c.toNat ≤ 57 := (Bool.and_eq_true_iff.mp hdigit).2 |> of_decide_eq_true
    omega
  · decide
  · decide

/-- Words and numbers begin with different characters. -/
theorem not_isWordStart_of_isNumeric {c : Char} (h : isNumeric c) : isWordStart c = false := by
  have hlt := toNat_lt_of_isNumeric h
  have hupper : c.isUpper = false := decide_eq_false fun hc =>
    absurd (show 65 ≤ c.toNat from hc.1) (by omega)
  have hlower : c.isLower = false := Bool.and_eq_false_imp.mpr fun hc =>
    absurd (show 97 ≤ c.toNat from of_decide_eq_true hc) (by omega)
  have hscore : c ≠ '_' := by
    rintro rfl
    exact absurd h (by decide)
  have halpha : c.isAlpha = false := Bool.or_eq_false_iff.mpr ⟨hupper, hlower⟩
  exact Bool.or_eq_false_iff.mpr ⟨halpha, beq_eq_false_iff_ne.mpr hscore⟩

end Piece

/-- What a first character tells about a text. -/
inductive Start
  | word
  | number
  | newline
  | blank
  | mark
deriving DecidableEq

def Start.ofChar (c : Char) : Start :=
  if Piece.isWordStart c then word
  else if c.isDigit || c == '.' then number
  else if c = '\n' then newline
  else if Piece.isBlank c then blank
  else mark

namespace Form

/-- What the texts of a row start with; a minus sign and a slash are marks first. -/
def start : Form → Start
  | keyword _ | bool _ | identifier => .word
  | number => .number
  | newline => .newline
  | blank => .blank
  | negative | mark _ | comment | opener => .mark

/-- Reserved words are spelled with the characters of names. -/
theorem wordChars_of_isReserved {f : Form} (hf : f.isReserved) {c : Char} {tail : List Char}
    (h : f.Spells c tail) : Piece.isWordStart c ∧ ∀ x ∈ tail, Piece.isWordChar x := by
  have hkeyword (k : Keyword) : k.text.toList.head?.all Piece.isWordStart ∧
      k.text.toList.tail.all Piece.isWordChar := by cases k <;> decide
  have hbool (b : Bool) : (Lexeme.boolText b).toList.head?.all Piece.isWordStart ∧
      (Lexeme.boolText b).toList.tail.all Piece.isWordChar := by cases b <;> decide
  cases f with
  | keyword k => simpa [show k.text.toList = c :: tail from h] using hkeyword k
  | bool b => simpa [show (Lexeme.boolText b).toList = c :: tail from h] using hbool b
  | _ => cases hf

/-- **The first character tells the rows apart.** -/
theorem ofChar_of_spells {f : Form} {c : Char} {tail : List Char} (h : f.Spells c tail) :
    Start.ofChar c = f.start := by
  have hall : Mark.starts.all fun c => Start.ofChar c = .mark := by decide
  have hmark (c : Char) (hc : c ∈ Mark.starts) : Start.ofChar c = .mark :=
    of_decide_eq_true (List.all_eq_true.mp hall c hc)
  cases f with
  | keyword k => exact if_pos (wordChars_of_isReserved (f := .keyword k) rfl h).1
  | bool b => exact if_pos (wordChars_of_isReserved (f := .bool b) rfl h).1
  | identifier => exact if_pos h.1
  | number =>
    have hnumeric : Piece.isNumeric c := by simp [Piece.isNumeric, h.1]
    rw [Start.ofChar, Piece.not_isWordStart_of_isNumeric hnumeric]
    exact if_pos h.1
  | newline =>
    obtain ⟨rfl, -⟩ := h
    rfl
  | blank =>
    have hblank : (c = ' ' ∨ c = '\t') ∨ c = '\r' := by simpa [Piece.isBlank] using h.1
    rcases hblank with (rfl | rfl) | rfl <;> rfl
  | mark m => exact hmark c (Mark.mem_starts h)
  | negative => exact h.1 ▸ rfl
  | comment => exact h.1 ▸ rfl
  | opener => exact h.1 ▸ rfl

/-- Rows that share a first character are of one kind, so only such rows compete. -/
theorem start_eq_of_spells {f g : Form} {c : Char} {tail tail' : List Char} (h : f.Spells c tail)
    (h' : g.Spells c tail') : g.start = f.start :=
  (ofChar_of_spells h').symm.trans (ofChar_of_spells h)

end Form

end BraceScript
