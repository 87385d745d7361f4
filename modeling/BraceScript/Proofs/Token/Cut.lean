import BraceScript.Proofs.Feed
import Mathlib.Data.List.TakeWhile

/-!
# Proofs/Token/Cut — the pieces of a source, and where they stand

A source is cut into pieces that follow one another without gaps (`Piece.cut`).  The lexer goes from
piece to piece and counts bytes and lines on the way: bytes at every piece, lines only where text
between tokens is skipped.  What carries the count is that a piece which is skipped over without
counting lines holds no line feed (`lineFeed_not_mem_of_scan`).

* `Lexer.After before l` — the counts of `l` are those of the text `before`, kept by every piece.
* `lex_positions_exact` — so every item stands where the bytes before it say.
-/

namespace BraceScript

/-! ## Bytes -/

/-- The bytes of a text. -/
def utf8 (text : List Char) : List UInt8 := text.flatMap String.utf8EncodeChar

theorem utf8_cons (c : Char) (text : List Char) :
    utf8 (c :: text) = String.utf8EncodeChar c ++ utf8 text :=
  List.flatMap_cons

@[simp] theorem utf8_append (a b : List Char) : utf8 (a ++ b) = utf8 a ++ utf8 b :=
  List.flatMap_append

theorem length_utf8 : ∀ text : List Char, (utf8 text).length = byteLength text
  | [] => rfl
  | c :: text => by
    rw [utf8_cons, List.length_append, String.length_utf8EncodeChar, length_utf8 text]
    rfl

@[simp] theorem byteLength_append (a b : List Char) :
    byteLength (a ++ b) = byteLength a + byteLength b := by
  rw [← length_utf8, ← length_utf8, ← length_utf8, utf8_append, List.length_append]

@[simp] theorem byteLength_reverse : ∀ text : List Char, byteLength text.reverse = byteLength text
  | [] => rfl
  | c :: text => by
    rw [List.reverse_cons, byteLength_append, byteLength_reverse text, Nat.add_comm]
    rfl

/-- The byte of a line feed is part of no other character. -/
theorem lineFeed_not_mem_utf8EncodeChar {c : Char} (hc : c ≠ '\n') :
    (10 : UInt8) ∉ String.utf8EncodeChar c := by
  have hne : c.val.toNat ≠ 10 := fun h => hc (Char.ext (UInt32.toNat_inj.mp h))
  fun_cases String.utf8EncodeChar c <;>
    simp only [List.mem_cons, List.not_mem_nil, or_false, ← UInt8.toNat_inj, UInt8.toNat_ofNat,
      UInt8.toNat_ofNat'] <;> omega

/-- The byte of a line feed occurs in the encoding of no other character. -/
theorem count_utf8 : ∀ text : List Char, (utf8 text).count 10 = text.count '\n'
  | [] => rfl
  | c :: text => by
    rw [utf8_cons, List.count_append, count_utf8 text, List.count_cons]
    by_cases hc : c = '\n'
    · subst hc
      rw [show String.utf8EncodeChar '\n' = [10] from rfl]
      simp [Nat.add_comm]
    · rw [List.count_eq_zero.mpr (lineFeed_not_mem_utf8EncodeChar hc)]
      simp [hc]

/-- The bytes after the last line feed are those of the characters after it; the text is given from
its end. -/
theorem length_takeWhile_utf8 : ∀ text : List Char,
    ((utf8 text.reverse).reverse.takeWhile (· ≠ 10)).length = byteLength (text.takeWhile (· ≠ '\n'))
  | [] => rfl
  | c :: text => by
    have hbytes : (utf8 (c :: text).reverse).reverse =
        (String.utf8EncodeChar c).reverse ++ (utf8 text.reverse).reverse := by
      rw [List.reverse_cons, utf8_append, List.reverse_append]
      simp [utf8]
    rw [hbytes]
    by_cases hc : c = '\n'
    · subst hc
      rw [show String.utf8EncodeChar '\n' = [10] from rfl]
      rfl
    · have hall : ∀ b ∈ (String.utf8EncodeChar c).reverse, decide (b ≠ 10) = true := fun b hb =>
        decide_eq_true fun heq =>
          lineFeed_not_mem_utf8EncodeChar hc (heq ▸ List.mem_reverse.mp hb)
      rw [List.takeWhile_append_of_pos hall, List.takeWhile_cons_of_pos (by simpa using hc),
        List.length_append, length_takeWhile_utf8 text]
      simp [byteLength]

/-! ## Positions -/

namespace Position

/-- **The place that follows some bytes**: its line is one more than the line feeds among them, its
column one more than the bytes after the last one. -/
def ofBytes (before : List UInt8) : Position :=
  ⟨1 + before.count 10, 1 + (before.reverse.takeWhile (· ≠ 10)).length⟩

/-- **Lines and columns from the characters**: the line counts line feeds, the column the bytes
after the last one. -/
theorem ofBytes_utf8 (before : List Char) :
    ofBytes (utf8 before) =
      ⟨1 + before.count '\n', 1 + byteLength (before.reverse.takeWhile (· ≠ '\n'))⟩ := by
  have hcolumn := length_takeWhile_utf8 before.reverse
  rw [List.reverse_reverse] at hcolumn
  rw [ofBytes, count_utf8, hcolumn]

/-- A place that comes before another: on an earlier line, or on the same one in an earlier
column. -/
def Before (p q : Position) : Prop := p.line < q.line ∨ p.line = q.line ∧ p.column < q.column

/-- Every byte leads to a later place. -/
theorem ofBytes_before (a : List UInt8) {b : List UInt8} (hb : b ≠ []) :
    (ofBytes a).Before (ofBytes (a ++ b)) := by
  by_cases hfeed : 10 ∈ b
  · have hcount := List.count_pos_iff.mpr hfeed
    refine .inl ?_
    simp only [ofBytes, List.count_append]
    omega
  · have hlength := List.length_pos_iff.mpr hb
    have hall : ∀ x ∈ b.reverse, decide (x ≠ 10) = true := fun x hx =>
      decide_eq_true fun heq => hfeed (heq ▸ List.mem_reverse.mp hx)
    refine .inr ⟨?_, ?_⟩
    · simp [ofBytes, List.count_eq_zero.mpr hfeed]
    · simp only [ofBytes, List.reverse_append, List.takeWhile_append_of_pos hall,
        List.length_append, List.length_reverse]
      omega

end Position

/-! ## Pieces -/

namespace Piece

theorem take_length_takeWhile (p : Char → Bool) (text : List Char) :
    text.take (text.takeWhile p).length = text.takeWhile p :=
  (List.prefix_iff_eq_take.mp (List.takeWhile_prefix p)).symm

theorem lineFeed_not_mem_run {p : Char → Bool} (hp : p '\n' = false) {c : Char} (hc : c ≠ '\n')
    (text : List Char) : '\n' ∉ c :: text.take (text.takeWhile p).length := by
  rw [take_length_takeWhile, List.mem_cons, not_or]
  exact ⟨hc.symm, fun h => Bool.false_ne_true (hp.symm.trans (List.mem_takeWhile_imp h))⟩

/-- A mark is of two characters, or else of one, and a character that is no mark is wrong. -/
theorem ofMark_cases (c : Char) (rest : List Char) :
    (∃ m d, rest.head? = some d ∧ Mark.double? c d = some m ∧
      ofMark c rest = (token (.mark m), 1)) ∨
    (∀ d, rest.head? = some d → Mark.double? c d = none) ∧
      ((∃ m, Mark.single? c = some m ∧ ofMark c rest = (token (.mark m), 0)) ∨
        Mark.single? c = none ∧ ofMark c rest = (fault (.invalidCharacter c), 0)) := by
  fun_cases ofMark c rest with
  | case1 m hdouble =>
    obtain ⟨d, hd, hm⟩ := Option.bind_eq_some_iff.mp hdouble
    exact .inl ⟨m, d, hd, hm, rfl⟩
  | case2 hdouble m hsingle =>
    exact .inr ⟨Option.bind_eq_none_iff.mp hdouble, .inl ⟨m, hsingle, rfl⟩⟩
  | case3 hdouble hsingle => exact .inr ⟨Option.bind_eq_none_iff.mp hdouble, .inr ⟨hsingle, rfl⟩⟩

theorem ne_lineFeed_of_double? {c d : Char} {m : Mark} (h : Mark.double? c d = some m) :
    d ≠ '\n' := by
  rintro rfl
  unfold Mark.double? at h
  split at h <;> simp_all

/-- **Only text between tokens holds line feeds.** -/
theorem lineFeed_not_mem_of_scan {c : Char} {rest : List Char}
    (h : ∀ form, (scan c rest).1 ≠ .gap form) : '\n' ∉ c :: rest.take (scan c rest).2 := by
  revert h
  fun_cases scan c rest with
  | case1 hword tail =>
    intro _
    exact lineFeed_not_mem_run rfl (by rintro rfl; exact absurd hword (by decide)) rest
  | case2 _ hnumber tail =>
    intro _
    exact lineFeed_not_mem_run rfl
      (by rintro rfl; exact absurd hnumber (by simp [startsNumber])) rest
  | case3 => exact fun h => absurd rfl (h .newline)
  | case4 => exact fun h => absurd rfl (h .blank)
  | case5 _ _ _ _ hopen =>
    obtain ⟨rfl, hstar⟩ := hopen
    obtain ⟨rest, rfl⟩ := List.head?_eq_some_iff.mp hstar
    fun_cases ofComment rest with
    | case1 n _ => exact fun h => absurd rfl (h .comment)
    | case2 _ => simp
  | case6 _ _ hc _ _ =>
    intro _
    obtain ⟨m, d, hd, hm, heq⟩ | ⟨-, ⟨m, -, heq⟩ | ⟨-, heq⟩⟩ := ofMark_cases c rest
    · obtain ⟨rest, rfl⟩ := List.head?_eq_some_iff.mp hd
      simpa [heq] using ⟨Ne.symm hc, (ne_lineFeed_of_double? hm).symm⟩
    · simpa [heq] using Ne.symm hc
    · simpa [heq] using Ne.symm hc

/-- What a piece yields at a place: an item, or nothing. -/
def items (p : Position) : Piece → List Item
  | token lexeme => [.ok ⟨lexeme, p⟩]
  | gap _ => []
  | fault cause => [.error ⟨cause, p⟩]

/-- **The pieces that a text is cut into**, each with its own text. -/
def cut : List Char → List (Piece × List Char)
  | [] => []
  | c :: rest =>
    ((scan c rest).1, c :: rest.take (scan c rest).2) :: cut (rest.drop (scan c rest).2)
termination_by text => text.length
decreasing_by simp only [List.length_drop, List.length_cons]; omega

/-- The pieces make up the text. -/
theorem flatMap_cut (text : List Char) : (cut text).flatMap Prod.snd = text := by
  fun_induction cut text with
  | case1 => rfl
  | case2 c rest ih =>
    rw [List.flatMap_cons, ih, List.cons_append, List.take_append_drop]

/-- The items of pieces that follow a text, each at the place where its piece starts. -/
def itemsAfter : List Char → List (Piece × List Char) → List Item
  | _, [] => []
  | before, (piece, text) :: rest =>
    piece.items (.ofBytes (utf8 before)) ++ itemsAfter (before ++ text) rest

end Piece

namespace Lexer

/-! ## The lexer between two pieces -/

/-- A lexer passes from piece to piece. -/
inductive Reaches (l : Lexer) : Lexer → Prop
  | refl : Reaches l l
  | piece {l' : Lexer} {c : Char} {rest : List Char} : Reaches l l' → l'.rest = c :: rest →
    Reaches l (l'.pass (Piece.scan c rest).1 ((Piece.scan c rest).2 + 1))

/-- **The counts of a lexer are those of the text before it.** -/
structure After (before : List Char) (l : Lexer) : Prop where
  offset : l.offset = byteLength before
  line : l.line = 1 + before.count '\n'
  lineStart : l.lineStart = byteLength (before.reverse.dropWhile (· ≠ '\n'))

namespace After

variable {before : List Char} {l : Lexer}

theorem ofSource (source : String) : After [] (ofSource source) := ⟨rfl, rfl, rfl⟩

/-- The line starts as many bytes before as there are after the last line feed. -/
theorem offset_eq (h : After before l) :
    l.offset = byteLength (before.reverse.takeWhile (· ≠ '\n')) + l.lineStart := by
  rw [h.offset, h.lineStart, ← byteLength_append, List.takeWhile_append_dropWhile,
    byteLength_reverse]

theorem position (h : After before l) : l.position = .ofBytes (utf8 before) := by
  have hoffset := h.offset_eq
  rw [Position.ofBytes_utf8, Lexer.position, h.line]
  congr 1
  omega

theorem advance (h : After before l) {count : Nat} (hfeed : '\n' ∉ l.rest.take count) :
    After (before ++ l.rest.take count) (l.advance count) := by
  have hall : ∀ c ∈ (l.rest.take count).reverse, decide (c ≠ '\n') = true := fun c hc =>
    decide_eq_true fun heq => hfeed (heq ▸ List.mem_reverse.mp hc)
  refine ⟨?_, ?_, ?_⟩
  · rw [byteLength_append, ← h.offset]
    rfl
  · rw [List.count_append, List.count_eq_zero.mpr hfeed]
    exact h.line
  · rw [List.reverse_append, List.dropWhile_append_of_pos hall]
    exact h.lineStart

/-- The line starts after the last line feed of what is skipped. -/
theorem skip (h : After before l) (count : Nat) :
    After (before ++ l.rest.take count) (l.skip count) := by
  unfold Lexer.skip
  split
  · next hfeed =>
    have hstop : (l.rest.take count).reverse.dropWhile (· ≠ '\n') ≠ [] := fun hnil =>
      of_decide_eq_true (List.dropWhile_eq_nil_iff.mp hnil '\n' (List.mem_reverse.mpr hfeed)) rfl
    refine ⟨?_, ?_, ?_⟩
    · rw [byteLength_append, ← h.offset]
      rfl
    · rw [List.count_append, ← Nat.add_assoc, ← h.line]
    · rw [List.reverse_append, List.dropWhile_append, if_neg (by simpa using hstop),
        byteLength_append, byteLength_reverse, ← h.offset]
      exact Nat.add_comm _ _
  · next hfeed => exact h.advance hfeed

/-- **Every piece is counted right**, also where the lines in it are not counted. -/
theorem pass (h : After before l) {c : Char} {rest : List Char} (hl : l.rest = c :: rest) :
    After (before ++ c :: rest.take (Piece.scan c rest).2)
      (l.pass (Piece.scan c rest).1 ((Piece.scan c rest).2 + 1)) := by
  have htake : l.rest.take ((Piece.scan c rest).2 + 1) = c :: rest.take (Piece.scan c rest).2 := by
    rw [hl, List.take_succ_cons]
  rw [← htake]
  cases hpiece : (Piece.scan c rest).1 with
  | gap form => exact h.skip _
  | token lexeme => exact h.advance (htake ▸ Piece.lineFeed_not_mem_of_scan (by simp [hpiece]))
  | fault cause => exact h.advance (htake ▸ Piece.lineFeed_not_mem_of_scan (by simp [hpiece]))

end After

/-- A lexer reached from a source stands after some part of it. -/
theorem Reaches.after {source : String} {l : Lexer} (h : (ofSource source).Reaches l) :
    ∃ before, source.toList = before ++ l.rest ∧ After before l := by
  induction h with
  | refl => exact ⟨[], rfl, .ofSource source⟩
  | @piece l' c rest _ hl ih =>
    obtain ⟨before, hsource, hafter⟩ := ih
    refine ⟨_, ?_, hafter.pass hl⟩
    rw [rest_pass, hsource, hl, List.drop_succ_cons]
    simp

/-! ## From pieces to items -/

/-- The bound on the number of pieces is ample as soon as it is the length of the text. -/
theorem nextWithin_eq : ∀ {n k : Nat} {l : Lexer}, l.rest.length ≤ n → l.rest.length ≤ k →
    nextWithin n l = nextWithin k l
  | 0, 0, _, _, _ => rfl
  | 0, k + 1, l, hn, _ => by
    rw [nextWithin, nextWithin, List.length_eq_zero_iff.mp (Nat.le_zero.mp hn)]
  | n + 1, 0, l, _, hk => by
    rw [nextWithin, nextWithin, List.length_eq_zero_iff.mp (Nat.le_zero.mp hk)]
  | n + 1, k + 1, l, hn, hk => by
    rw [nextWithin, nextWithin]
    cases hl : l.rest with
    | nil => rfl
    | cons c rest =>
      have hlt := length_pass_lt hl (Piece.scan c rest).1 (Piece.scan c rest).2
      simp only
      rw [nextWithin_eq (n := n) (k := k) (by omega) (by omega)]

theorem items_nil {l : Lexer} (hl : l.rest = []) : l.items = [] := by
  rw [items, hl, List.length_nil, itemsWithin]

/-- **The items are what the first piece yields, then the items after it.** -/
theorem items_cons {l : Lexer} {c : Char} {rest : List Char} (hl : l.rest = c :: rest) :
    l.items = (Piece.scan c rest).1.items l.position ++
      (l.pass (Piece.scan c rest).1 ((Piece.scan c rest).2 + 1)).items := by
  have hlt := length_pass_lt hl (Piece.scan c rest).1 (Piece.scan c rest).2
  have hnext : l.next? = nextWithin (rest.length + 1) l := by
    rw [next?, hl, List.length_cons]
  rw [hl, List.length_cons] at hlt
  rw [items_eq l, hnext, nextWithin, hl]
  cases hpiece : (Piece.scan c rest).1 with
  | token lexeme => simp only [hpiece, Piece.items, List.cons_append, List.nil_append]
  | fault cause => simp only [hpiece, Piece.items, List.cons_append, List.nil_append]
  | gap form =>
    rw [hpiece] at hlt
    simp only [hpiece, Piece.items, List.nil_append]
    rw [nextWithin_eq (Nat.le_of_lt_succ hlt) (Nat.le_refl _)]
    exact (items_eq _).symm

/-- What a lexer yields is what the pieces of its rest yield. -/
theorem items_eq_itemsAfter (text : List Char) : ∀ {before : List Char} {l : Lexer},
    l.rest = text → After before l → l.items = Piece.itemsAfter before (Piece.cut text) := by
  fun_induction Piece.cut text with
  | case1 => exact fun hl _ => items_nil hl
  | case2 c rest ih =>
    intro before l hl h
    rw [items_cons hl, Piece.itemsAfter, h.position]
    refine congrArg (_ ++ ·) (ih ?_ (h.pass hl))
    rw [rest_pass, hl, List.drop_succ_cons]

end Lexer

/-! ## Exact positions -/

/-- The place of an item. -/
def Item.position : Item → Position
  | .ok t => t.position
  | .error e => e.position

/-- Every item of pieces that follow a text is what one of them yields where it starts. -/
theorem Piece.exists_piece_of_mem_itemsAfter : ∀ {before : List Char}
    {pieces : List (Piece × List Char)} {item : Item}, item ∈ itemsAfter before pieces →
      ∃ pre piece text post, pieces = pre ++ (piece, text) :: post ∧
        item ∈ piece.items (.ofBytes (utf8 (before ++ pre.flatMap Prod.snd)))
  | _, [], _, h => by cases h
  | before, (piece, text) :: rest, item, h => by
    rcases List.mem_append.mp h with h | h
    · exact ⟨[], piece, text, rest, rfl, by rwa [List.flatMap_nil, List.append_nil]⟩
    · obtain ⟨pre, piece', text', post, rfl, hitem⟩ := exists_piece_of_mem_itemsAfter h
      refine ⟨(piece, text) :: pre, piece', text', post, rfl, ?_⟩
      rwa [List.flatMap_cons, ← List.append_assoc]

/-- **Every item of a source is what one of its pieces yields where it starts.** -/
theorem Piece.exists_piece_of_mem_lex {source : String} {item : Item} (h : item ∈ lex source) :
    ∃ pre piece text post, cut source.toList = pre ++ (piece, text) :: post ∧
      item ∈ piece.items (.ofBytes (utf8 (pre.flatMap Prod.snd))) := by
  rw [show lex source = itemsAfter [] (cut source.toList) from
    Lexer.items_eq_itemsAfter _ rfl (.ofSource source)] at h
  exact exists_piece_of_mem_itemsAfter h

/-- Every item of pieces that follow a text stands after some of their text. -/
theorem Piece.exists_position_of_mem_itemsAfter : ∀ {before : List Char}
    {pieces : List (Piece × List Char)} {item : Item}, item ∈ itemsAfter before pieces →
      ∃ more, item.position = .ofBytes (utf8 before ++ more)
  | _, [], _, h => by cases h
  | before, (piece, text) :: rest, item, h => by
    rcases List.mem_append.mp h with h | h
    · refine ⟨[], ?_⟩
      rw [List.append_nil]
      cases piece with
      | token lexeme => rw [List.mem_singleton.mp h]; rfl
      | gap form => cases h
      | fault cause => rw [List.mem_singleton.mp h]; rfl
    · obtain ⟨more, hmore⟩ := exists_position_of_mem_itemsAfter h
      exact ⟨utf8 text ++ more, by rw [hmore, utf8_append, List.append_assoc]⟩

theorem utf8_ne_nil {text : List Char} (h : text ≠ []) : utf8 text ≠ [] := by
  obtain ⟨c, rest, rfl⟩ := List.exists_cons_of_ne_nil h
  simp [utf8]

/-- Items follow one another, since their pieces do. -/
theorem Piece.pairwise_itemsAfter : ∀ (before : List Char) (pieces : List (Piece × List Char)),
    (∀ p ∈ pieces, p.2 ≠ []) →
      ((itemsAfter before pieces).map Item.position).Pairwise Position.Before
  | _, [], _ => List.Pairwise.nil
  | before, (piece, text) :: rest, h => by
    obtain ⟨htext, hrest⟩ := List.forall_mem_cons.mp h
    have ih := pairwise_itemsAfter (before ++ text) rest hrest
    -- A later item stands after the whole text of this piece.
    have hlater : ∀ q ∈ (itemsAfter (before ++ text) rest).map Item.position,
        (Position.ofBytes (utf8 before)).Before q := by
      intro q hq
      obtain ⟨item, hitem, rfl⟩ := List.mem_map.mp hq
      obtain ⟨more, hmore⟩ := exists_position_of_mem_itemsAfter hitem
      rw [hmore, utf8_append, List.append_assoc]
      exact Position.ofBytes_before _ (List.append_ne_nil_of_left_ne_nil (utf8_ne_nil htext) _)
    cases piece with
    | gap form => exact ih
    | token lexeme => exact List.pairwise_cons.mpr ⟨hlater, ih⟩
    | fault cause => exact List.pairwise_cons.mpr ⟨hlater, ih⟩

theorem Piece.text_ne_nil_of_mem_cut (text : List Char) : ∀ p ∈ cut text, p.2 ≠ [] := by
  fun_induction cut text with
  | case1 => exact fun _ h => by cases h
  | case2 c rest ih => exact List.forall_mem_cons.mpr ⟨List.cons_ne_nil _ _, ih⟩

/-- **Every position is exact.**  The pieces of a source make up the source, and the items are those
of the pieces, each at the place that the bytes before its piece lead to.  Between any two pieces
the line that the lexer counts bytes from starts no later than the piece does, so the column is a
true difference; and the items of a source stand at later and later places. -/
theorem lex_positions_exact (source : String) :
    (Piece.cut source.toList).flatMap Prod.snd = source.toList ∧
    lex source = Piece.itemsAfter [] (Piece.cut source.toList) ∧
    (∀ l : Lexer, (Lexer.ofSource source).Reaches l → ∃ before, source.toList = before ++ l.rest ∧
      l.offset = (utf8 before).length ∧ l.lineStart ≤ l.offset ∧
      l.position = .ofBytes (utf8 before)) ∧
    ((lex source).map Item.position).Pairwise Position.Before := by
  have hitems : lex source = Piece.itemsAfter [] (Piece.cut source.toList) :=
    Lexer.items_eq_itemsAfter _ rfl (.ofSource source)
  refine ⟨Piece.flatMap_cut _, hitems, fun l hl => ?_, ?_⟩
  · obtain ⟨before, hsource, hafter⟩ := hl.after
    have hoffset := hafter.offset_eq
    refine ⟨before, hsource, ?_, by omega, hafter.position⟩
    rw [length_utf8, hafter.offset]
  · rw [hitems]
    exact Piece.pairwise_itemsAfter _ _ (Piece.text_ne_nil_of_mem_cut _)

/-- A comment of two lines, then a character of two bytes that starts no token. -/
example : (lex "/* a\nb */ é x").map Item.position = [⟨2, 6⟩, ⟨2, 9⟩] := rfl

end BraceScript
