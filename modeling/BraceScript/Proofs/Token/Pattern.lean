import BraceScript.Token.Lexer
import Mathlib.Computability.Language

/-!
# Proofs/Token/Pattern — the forms of text as a table of patterns

    keyword     PROGRAM while def if else elif for return lambda
    bool        True False
    number      [0-9.][0-9.\-]*
    negative    -[0-9][0-9.\-]*
    identifier  [A-Za-z_][A-Za-z0-9_]*
    mark        + - * / // = > < >= <= == != ( ) , { } :
    comment     /\*([^*]|\*+[^*/])*\*+/
    opener      /\*
    newline     \n
    blank       [ \t\r]+

A `Form` is a row of the table; its pattern denotes a language.  The languages are said here once
more in the words of the lexer: a run of characters of a class (`mem_run`), and for comments, whose
pattern shuts out every closer but the last, a text that its first closer ends (`mem_closed_iff`).
-/

namespace BraceScript

/-- A pattern of text. -/
inductive Pattern
  /-- These characters. -/
  | text (s : String)
  /-- One character of a class. -/
  | among (p : Char → Bool)
  /-- One pattern after the other. -/
  | seq (a b : Pattern)
  /-- One pattern or the other. -/
  | alt (a b : Pattern)
  /-- A pattern any number of times. -/
  | many (a : Pattern)

namespace Pattern

/-- The texts of a pattern. -/
def language : Pattern → Language Char
  | text s => {s.toList}
  | among p => {w | ∃ c, p c ∧ w = [c]}
  | seq a b => a.language * b.language
  | alt a b => a.language + b.language
  | many a => KStar.kstar a.language

/-- A pattern at least once. -/
def some (a : Pattern) : Pattern := seq a (many a)

/-! ## Character classes -/

/-- The characters from one to another. -/
def range (low high c : Char) : Bool := low ≤ c && c ≤ high

/-- `[0-9]` -/
def digit (c : Char) : Bool := range '0' '9' c

/-- `[0-9.]` -/
def numberStart (c : Char) : Bool := digit c || c == '.'

/-- `[0-9.\-]` -/
def numberChar (c : Char) : Bool := digit c || c == '.' || c == '-'

/-- `[A-Za-z_]` -/
def wordStart (c : Char) : Bool := range 'A' 'Z' c || range 'a' 'z' c || c == '_'

/-- `[A-Za-z0-9_]` -/
def wordChar (c : Char) : Bool := range 'A' 'Z' c || range 'a' 'z' c || digit c || c == '_'

/-- `[ \t\r]` -/
def blank (c : Char) : Bool := c == ' ' || c == '\t' || c == '\r'

theorem upper_eq (c : Char) : range 'A' 'Z' c = c.isUpper := (Bool.decide_and _ _).symm

/-- The class of the pattern is the test of the lexer. -/
theorem wordStart_eq (c : Char) : wordStart c = Piece.isWordStart c := by
  rw [wordStart, upper_eq]
  rfl

theorem wordChar_eq (c : Char) : wordChar c = Piece.isWordChar c := by
  rw [wordChar, upper_eq]
  rfl

/-! ## Languages -/

/-- A text matches itself only. -/
theorem mem_text {s : String} {w : List Char} : w ∈ (text s).language ↔ w = s.toList := Iff.rfl

theorem mem_among {p : Char → Bool} {w : List Char} :
    w ∈ (among p).language ↔ ∃ c, p c ∧ w = [c] := Iff.rfl

/-- A sequence matches what can be divided so that each part matches. -/
theorem mem_seq {a b : Pattern} {w : List Char} :
    w ∈ (seq a b).language ↔ ∃ u ∈ a.language, ∃ v ∈ b.language, u ++ v = w := Language.mem_mul

theorem mem_alt {a b : Pattern} {w : List Char} :
    w ∈ (alt a b).language ↔ w ∈ a.language ∨ w ∈ b.language := Language.mem_add _ _ _

/-- A repetition matches what can be divided into matches, of any number. -/
theorem mem_many {a : Pattern} {w : List Char} :
    w ∈ (many a).language ↔ ∃ L : List (List Char), w = L.flatten ∧ ∀ u ∈ L, u ∈ a.language :=
  Language.mem_kstar

/-- A repetition of a class of characters matches the texts made of them. -/
theorem mem_many_among {p : Char → Bool} {w : List Char} :
    w ∈ (many (among p)).language ↔ ∀ c ∈ w, p c := by
  rw [mem_many]
  constructor
  · rintro ⟨L, rfl, hL⟩ c hc
    obtain ⟨u, hu, hcu⟩ := List.mem_flatten.mp hc
    obtain ⟨d, hd, rfl⟩ := mem_among.mp (hL u hu)
    exact List.mem_singleton.mp hcu ▸ hd
  · intro h
    refine ⟨w.map ([·]), ?_, fun u hu => ?_⟩
    · rw [← List.flatMap_def, List.flatMap_singleton']
    · obtain ⟨c, hc, rfl⟩ := List.mem_map.mp hu
      exact ⟨c, h c hc, rfl⟩

/-- **A run**: a character of one class, then characters of another. -/
theorem mem_run {p q : Char → Bool} {w : List Char} :
    w ∈ (seq (among p) (many (among q))).language ↔ ∃ c t, w = c :: t ∧ p c ∧ ∀ x ∈ t, q x := by
  rw [mem_seq]
  constructor
  · rintro ⟨_, ⟨c, hc, rfl⟩, t, ht, rfl⟩
    exact ⟨c, t, rfl, hc, mem_many_among.mp ht⟩
  · rintro ⟨c, t, rfl, hc, ht⟩
    exact ⟨[c], ⟨c, hc, rfl⟩, t, mem_many_among.mpr ht, rfl⟩

theorem mem_text_seq {s : String} {a : Pattern} {w : List Char} :
    w ∈ (seq (text s) a).language ↔ ∃ u ∈ a.language, s.toList ++ u = w := by
  rw [mem_seq]
  constructor
  · rintro ⟨_, rfl, u, hu, rfl⟩
    exact ⟨u, hu, rfl⟩
  · rintro ⟨u, hu, rfl⟩
    exact ⟨_, rfl, u, hu, rfl⟩

/-! ## Comments -/

/-- `\*+` -/
def stars : Pattern := some (text "*")

/-- `[^*]|\*+[^*/]` -/
def harmless : Pattern := alt (among (· ≠ '*')) (seq stars (among fun c => c ≠ '*' ∧ c ≠ '/'))

/-- `([^*]|\*+[^*/])*\*+/` -/
def closed : Pattern := seq (many harmless) (seq stars (text "/"))

/-- One star at least. -/
theorem mem_stars {w : List Char} : w ∈ stars.language ↔ ∃ n, w = '*' :: List.replicate n '*' := by
  rw [stars, some, mem_text_seq]
  constructor
  · rintro ⟨u, hu, rfl⟩
    obtain ⟨L, rfl, hL⟩ := mem_many.mp hu
    refine ⟨L.flatten.length, congrArg ('*' :: ·) (List.eq_replicate_of_mem fun c hc => ?_)⟩
    obtain ⟨u, hu, hcu⟩ := List.mem_flatten.mp hc
    rw [mem_text.mp (hL u hu)] at hcu
    exact List.mem_singleton.mp hcu
  · rintro ⟨n, rfl⟩
    refine ⟨_, mem_many.mpr ⟨List.replicate n ['*'], ?_, fun u hu => ?_⟩, rfl⟩
    · rw [List.flatten_replicate_singleton]
    · exact List.eq_of_mem_replicate hu

/-- What closes a comment: harmless stretches, then stars and the slash. -/
theorem mem_closed {w : List Char} : w ∈ closed.language ↔
    ∃ (L : List (List Char)) (n : Nat), (∀ u ∈ L, u ∈ harmless.language) ∧
      w = L.flatten ++ '*' :: (List.replicate n '*' ++ ['/']) := by
  rw [closed, mem_seq]
  constructor
  · rintro ⟨_, hu, _, hv, rfl⟩
    obtain ⟨L, rfl, hL⟩ := mem_many.mp hu
    obtain ⟨_, hstars, _, hslash, rfl⟩ := mem_seq.mp hv
    obtain ⟨n, rfl⟩ := mem_stars.mp hstars
    exact ⟨L, n, hL, by rw [mem_text.mp hslash]; rfl⟩
  · rintro ⟨L, n, hL, rfl⟩
    exact ⟨_, mem_many.mpr ⟨L, rfl, hL⟩, _,
      mem_seq.mpr ⟨_, mem_stars.mpr ⟨n, rfl⟩, _, mem_text.mpr rfl, rfl⟩, rfl⟩

end Pattern

namespace Piece

/-- A character that starts no closer is passed over. -/
theorem closer?_cons {c : Char} {rest : List Char} (h : c = '*' → rest.head? ≠ some '/') :
    closer? (c :: rest) = (closer? rest).map (· + 1) := by
  rw [closer?]
  rintro rest' rfl rfl
  exact h rfl rfl

/-- Before anything but a star the search goes on with the next character. -/
theorem closer?_cons_of_ne {c : Char} (h : c ≠ '*') (rest : List Char) :
    closer? (c :: rest) = (closer? rest).map (· + 1) :=
  closer?_cons fun hc => absurd hc h

theorem closer?_star_of_ne {c : Char} (h : c ≠ '/') (rest : List Char) :
    closer? ('*' :: c :: rest) = (closer? (c :: rest)).map (· + 1) :=
  closer?_cons fun _ hc => h (Option.some.inj hc)

/-- Stars that no slash follows are passed over with what follows them. -/
theorem closer?_stars_cons {c : Char} (hstar : c ≠ '*') (hslash : c ≠ '/') (rest : List Char) :
    ∀ n, closer? ('*' :: (List.replicate n '*' ++ c :: rest)) = (closer? rest).map (· + (n + 2))
  | 0 => by
    rw [List.replicate_zero, List.nil_append, closer?_star_of_ne hslash, closer?_cons_of_ne hstar,
      Option.map_map]
    rfl
  | n + 1 => by
    rw [List.replicate_succ, List.cons_append, closer?_star_of_ne (by decide),
      closer?_stars_cons hstar hslash rest n, Option.map_map]
    rfl

theorem closer?_stars_slash : ∀ n, closer? ('*' :: (List.replicate n '*' ++ ['/'])) = some (n + 2)
  | 0 => rfl
  | n + 1 => by
    rw [List.replicate_succ, List.cons_append, closer?_star_of_ne (by decide),
      closer?_stars_slash n]
    rfl

/-- A harmless stretch has no closer in it, and none that begins there. -/
theorem closer?_harmless_append {u : List Char} (hu : u ∈ Pattern.harmless.language)
    (rest : List Char) : closer? (u ++ rest) = (closer? rest).map (· + u.length) := by
  rcases Pattern.mem_alt.mp hu with ⟨c, hc, rfl⟩ | hu
  · exact closer?_cons_of_ne (of_decide_eq_true hc) rest
  · obtain ⟨_, hstars, _, ⟨c, hc, rfl⟩, rfl⟩ := Pattern.mem_seq.mp hu
    obtain ⟨n, rfl⟩ := Pattern.mem_stars.mp hstars
    obtain ⟨hstar, hslash⟩ := of_decide_eq_true hc
    have hlength : ('*' :: List.replicate n '*' ++ [c]).length = n + 2 := by simp
    rw [hlength, ← closer?_stars_cons hstar hslash rest n]
    simp

/-- Nothing in a closed text closes it but its end. -/
theorem closer?_of_mem_closed {w : List Char} (hw : w ∈ Pattern.closed.language) :
    closer? w = some w.length := by
  obtain ⟨L, n, hL, rfl⟩ := Pattern.mem_closed.mp hw
  clear hw
  induction L with
  | nil =>
    rw [List.flatten_nil, List.nil_append, closer?_stars_slash]
    simp
  | cons u L ih =>
    obtain ⟨hu, hL⟩ := List.forall_mem_cons.mp hL
    rw [List.flatten_cons, List.append_assoc, closer?_harmless_append hu, ih hL, Option.map_some,
      Nat.add_comm]
    exact congrArg some List.length_append.symm

/-- A character before a closed text leaves it closed, unless the two begin with a closer. -/
theorem cons_mem_closed {c : Char} {w : List Char} (hw : w ∈ Pattern.closed.language)
    (h : c = '*' → w.head? ≠ some '/') : c :: w ∈ Pattern.closed.language := by
  obtain ⟨L, n, hL, rfl⟩ := Pattern.mem_closed.mp hw
  rw [Pattern.mem_closed]
  have hcons {u : List Char} (L' : List (List Char)) (hL' : ∀ u ∈ L', u ∈ Pattern.harmless.language)
      (hu : u ∈ Pattern.harmless.language) : ∀ v ∈ u :: L', v ∈ Pattern.harmless.language :=
    List.forall_mem_cons.mpr ⟨hu, hL'⟩
  by_cases hc : c = '*'
  · subst hc
    cases L with
    | nil => exact ⟨[], n + 1, hL, by simp [List.replicate_succ]⟩
    | cons u L =>
      -- The star joins the stars that follow it, or the one harmless character that does.
      obtain ⟨hu, hL⟩ := List.forall_mem_cons.mp hL
      refine ⟨('*' :: u) :: L, n, hcons L hL (Pattern.mem_alt.mpr (.inr ?_)), by simp⟩
      rw [Pattern.mem_seq]
      rcases Pattern.mem_alt.mp hu with ⟨d, hd, rfl⟩ | hu
      · have hslash : d ≠ '/' := fun heq => h rfl (by simp [heq])
        exact ⟨['*'], Pattern.mem_stars.mpr ⟨0, rfl⟩, [d],
          ⟨d, decide_eq_true ⟨of_decide_eq_true hd, hslash⟩, rfl⟩, rfl⟩
      · obtain ⟨_, hstars, v, hv, rfl⟩ := Pattern.mem_seq.mp hu
        obtain ⟨k, rfl⟩ := Pattern.mem_stars.mp hstars
        exact ⟨_, Pattern.mem_stars.mpr ⟨k + 1, rfl⟩, v, hv, rfl⟩
  · exact ⟨[c] :: L, n, hcons L hL
      (Pattern.mem_alt.mpr (.inl ⟨c, decide_eq_true hc, rfl⟩)), by simp⟩

/-- **A text is closed exactly if its first closer ends it.** -/
theorem mem_closed_iff {w : List Char} :
    w ∈ Pattern.closed.language ↔ closer? w = some w.length := by
  refine ⟨closer?_of_mem_closed, fun h => ?_⟩
  fun_induction closer? w with
  | case1 rest =>
    simp only [List.length_cons, Option.some.injEq] at h
    obtain rfl : rest = [] := List.length_eq_zero_iff.mp (by omega)
    exact Pattern.mem_closed.mpr ⟨[], 0, by simp, rfl⟩
  | case2 c rest hne ih =>
    obtain ⟨m, hm, hlength⟩ := Option.map_eq_some_iff.mp h
    rw [List.length_cons] at hlength
    obtain rfl : m = rest.length := by omega
    refine cons_mem_closed (ih hm) fun hc hhead => ?_
    obtain ⟨rest', rfl⟩ := List.head?_eq_some_iff.mp hhead
    exact hne rest' hc rfl
  | case3 => cases h

end Piece

/-! ## The table -/

/-- A row of the table. -/
inductive Form
  | keyword (k : Keyword)
  | bool (b : Bool)
  | number
  | negative
  | identifier
  | mark (m : Mark)
  | comment
  | opener
  | newline
  | blank

namespace Form

/-- The pattern of a row. -/
def pattern : Form → Pattern
  | keyword k => .text k.text
  | bool b => .text (Lexeme.boolText b)
  | number => .seq (.among Pattern.numberStart) (.many (.among Pattern.numberChar))
  | negative => .seq (.text "-") (.seq (.among Pattern.digit) (.many (.among Pattern.numberChar)))
  | identifier => .seq (.among Pattern.wordStart) (.many (.among Pattern.wordChar))
  | mark m => .text m.text
  | comment => .seq (.text "/*") .closed
  | opener => .text "/*"
  | newline => .text "\n"
  | blank => .some (.among Pattern.blank)

/-- The rows that win over a name of the same length. -/
def isReserved : Form → Bool
  | keyword _ | bool _ => true
  | _ => false

end Form

end BraceScript
