import BraceScript.Excerpt
import BraceScript.Proofs.Blame
import BraceScript.Proofs.Grammar.Leftmost
import BraceScript.Proofs.Token.Spacing
import Mathlib.Data.List.DropRight

/-!
# Proofs/Excerpt — the caret stands under the first character of a token

The lexer counts lines and bytes as it goes from piece to piece; the excerpt finds its line by
cutting the source at line feeds, takes carriage returns off the end of it, and finds its column by
counting bytes again.  The two agree at the start of every item:

* `getElem?_lines` — the line that a place stands on is found by the line feeds before it.
* `leading?_append` — as many bytes as a text has lead back to the text.
* `trim_append_cons` — no item begins with a carriage return, so none is cut off before its first
  character.

What fails at a place of the source fails at an item (`exists_concerned`), so its excerpt shows that
item.
-/

namespace BraceScript

namespace Excerpt

/-! ## Lines -/

theorem lines_eq_cons : ∀ {text : List Char}, text ≠ [] →
    lines text = text.takeWhile (· ≠ '\n') :: lines ((text.dropWhile (· ≠ '\n')).drop 1)
  | c :: rest, _ => by
    rw [lines]
    by_cases hc : c = '\n'
    · rw [if_pos hc, List.takeWhile_cons_of_neg (by simp [hc]),
        List.dropWhile_cons_of_neg (by simp [hc])]
      rfl
    · rw [if_neg hc, List.takeWhile_cons_of_pos (by simp [hc]),
        List.dropWhile_cons_of_pos (by simp [hc])]
      cases rest with
      | nil => rfl
      | cons d rest => rw [lines_eq_cons (List.cons_ne_nil d rest)]

/-- After a line feed the lines go on as if the text began there. -/
theorem getElem?_lines_lineFeed (text : List Char) (i : Nat) : ∀ before : List Char,
    (lines (before ++ '\n' :: text))[before.count '\n' + 1 + i]? = (lines text)[i]?
  | [] => by
    rw [List.nil_append, lines, if_pos rfl, List.count_nil, Nat.zero_add, Nat.add_comm,
      List.getElem?_cons_succ]
  | c :: before => by
    have ih := getElem?_lines_lineFeed text i before
    have hindex : before.count '\n' + 1 + i = before.count '\n' + i + 1 := by omega
    rw [List.cons_append, lines]
    by_cases hc : c = '\n'
    · have hcount : (c :: before).count '\n' + 1 + i = before.count '\n' + 1 + i + 1 := by
        rw [hc, List.count_cons_self]
        omega
      rw [if_pos hc, hcount, List.getElem?_cons_succ, ih]
    · rw [if_neg hc, List.count_cons_of_ne hc, ← ih, hindex,
        lines_eq_cons (by simp : before ++ '\n' :: text ≠ [])]
      rfl

/-- The part of its line that lies before a place. -/
def lineStart (before : List Char) : List Char := before.rtakeWhile (· ≠ '\n')

theorem lineFeed_not_mem_lineStart (before : List Char) : '\n' ∉ lineStart before := fun h => by
  simpa using List.mem_rtakeWhile_imp h

/-- What lies before a place is its own part of the line, and before that nothing or a line feed. -/
theorem lineStart_cases (before : List Char) :
    before = lineStart before ∨ ∃ above, before = above ++ '\n' :: lineStart before := by
  have happend : before.rdropWhile (· ≠ '\n') ++ lineStart before = before :=
    List.rdropWhile_append_rtakeWhile
  have hlast (hne : before.rdropWhile (· ≠ '\n') ≠ []) :
      (before.rdropWhile (· ≠ '\n')).getLast hne = '\n' := by
    simpa using List.rdropWhile_last_not _ _ hne
  generalize before.rdropWhile (· ≠ '\n') = above at happend hlast
  rcases List.eq_nil_or_concat' above with rfl | ⟨above, c, rfl⟩
  · exact .inl happend.symm
  · obtain rfl : c = '\n' := by simpa using hlast (by simp)
    exact .inr ⟨above, by simpa using happend.symm⟩

/-- **The line that a place stands on** is the one with as many line feeds before it. -/
theorem getElem?_lines {before after : List Char} (h : after ≠ []) :
    (lines (before ++ after))[before.count '\n']? =
      some (lineStart before ++ after.takeWhile (· ≠ '\n')) := by
  have hstart : ∀ c ∈ lineStart before, decide (c ≠ '\n') = true := fun c hc =>
    decide_eq_true fun heq => lineFeed_not_mem_lineStart before (heq ▸ hc)
  have hfirst : (lines (lineStart before ++ after))[0]? =
      some (lineStart before ++ after.takeWhile (· ≠ '\n')) := by
    rw [lines_eq_cons (List.append_ne_nil_of_right_ne_nil _ h), List.takeWhile_append_of_pos hstart]
    rfl
  have hcount : (lineStart before).count '\n' = 0 :=
    List.count_eq_zero.mpr (lineFeed_not_mem_lineStart before)
  rcases lineStart_cases before with heq | ⟨above, heq⟩
  · rw [← heq] at hcount
    rw [hcount]
    rwa [← heq] at hfirst ⊢
  · have hindex : before.count '\n' = above.count '\n' + 1 + 0 := by
      rw [heq, List.count_append, List.count_cons_self, hcount]
    rw [hindex, ← hfirst, ← getElem?_lines_lineFeed _ 0 above]
    congr 2
    rw [← List.cons_append, ← List.append_assoc, ← heq]

/-! ## Columns -/

/-- **As many bytes as a text has lead back to the text.** -/
theorem leading?_append : ∀ a b : List Char, leading? (byteLength a) (a ++ b) = some a
  | [], b => by
    rw [show byteLength [] = 0 from rfl, leading?]
  | c :: a, b => by
    have hpos := c.utf8Size_pos
    obtain ⟨n, hn⟩ := Nat.exists_eq_add_one.mpr (show 0 < c.utf8Size + byteLength a by omega)
    rw [show byteLength (c :: a) = c.utf8Size + byteLength a from rfl, hn, List.cons_append,
      leading?, ← hn, if_pos (Nat.le_add_right _ _), Nat.add_sub_cancel_left, leading?_append a b]
    rfl

theorem trim_eq_rdropWhile (line : List Char) : trim line = line.rdropWhile (· = '\r') := by
  rw [trim, List.rdropWhile]
  congr 2

/-- Carriage returns at the end of a line do not reach back to a character that is none. -/
theorem trim_append_cons {c : Char} (hc : c ≠ '\r') (a b : List Char) :
    trim (a ++ c :: b) = a ++ c :: trim b := by
  have hstop : (a ++ [c]).reverse.dropWhile (· == '\r') = (a ++ [c]).reverse := by
    rw [List.reverse_append, List.reverse_singleton, List.singleton_append,
      List.dropWhile_cons_of_neg (by simpa using hc)]
  rw [show a ++ c :: b = (a ++ [c]) ++ b by simp, trim, List.reverse_append, List.dropWhile_append]
  split
  · next hempty =>
    rw [hstop, List.reverse_reverse, trim, List.isEmpty_iff.mp hempty]
    simp
  · simp [trim]

theorem marked_append (a b : List Char) :
    marked (a ++ b) (1 + byteLength a) =
      "  " ++ String.ofList (a ++ b) ++ "\n  " ++ String.ofList (padding a) ++ "^" := by
  rw [marked, Nat.add_sub_cancel_left, leading?_append]
  rfl

/-! ## The excerpt of a place -/

/-- The line that a place stands on, without its line feed and without the carriage returns at its
end. -/
def lineAt (before after : List Char) : List Char :=
  (lineStart before ++ after.takeWhile (· ≠ '\n')).rdropWhile (· = '\r')

/-- **A text with a caret under a place of the source**: a heading with the number of the line, the
line, and a caret.  The caret is set in by one character for each character of the line before the
place, and stands under the character that follows it. -/
structure CaretUnder (shown : String) (number : Nat) (before after : List Char) : Prop where
  text_eq : shown = "Error occurred at line " ++ toString number ++
    "\n  " ++ String.ofList (lineAt before after) ++
    "\n  " ++ String.ofList ((lineStart before).map fun c => if c = '\t' then '\t' else ' ') ++ "^"
  under : ∃ c rest, after.head? = some c ∧ lineAt before after = lineStart before ++ c :: rest

theorem heading_eq (p : Position) : heading p = "Error occurred at line " ++ toString p.line := by
  unfold heading
  simp only [toString]

theorem text_of_line {source : String} {p : Position} {line : List Char}
    (h : (lines source.toList)[p.line - 1]? = some line) :
    text source p = heading p ++ "\n" ++ marked (trim line) p.column := by
  rw [text, h]

/-- The place after a text is in the column that follows its part of the line. -/
theorem ofBytes_utf8_lineStart (before : List Char) :
    Position.ofBytes (utf8 before) =
      ⟨1 + before.count '\n', 1 + byteLength (lineStart before)⟩ := by
  rw [Position.ofBytes_utf8, lineStart, List.rtakeWhile, byteLength_reverse]

/-- **The caret stands under every place** at which a character follows that ends no line. -/
theorem caretUnder_text {source : String} {before after : List Char} {c : Char}
    (hsource : before ++ c :: after = source.toList) (hfeed : c ≠ '\n') (hreturn : c ≠ '\r') :
    CaretUnder (text source (.ofBytes (utf8 before))) (Position.ofBytes (utf8 before)).line before
      (c :: after) := by
  have htake : (c :: after).takeWhile (· ≠ '\n') = c :: after.takeWhile (· ≠ '\n') :=
    List.takeWhile_cons_of_pos (by simpa using hfeed)
  have hline : lineAt before (c :: after) =
      lineStart before ++ c :: trim (after.takeWhile (· ≠ '\n')) := by
    rw [← trim_append_cons hreturn, lineAt, htake, trim_eq_rdropWhile]
  have hlines : (lines source.toList)[1 + before.count '\n' - 1]? =
      some (lineStart before ++ c :: after.takeWhile (· ≠ '\n')) := by
    rw [Nat.add_sub_cancel_left, ← hsource, getElem?_lines (List.cons_ne_nil c after), htake]
  refine ⟨?_, c, _, rfl, hline⟩
  rw [ofBytes_utf8_lineStart, text_of_line hlines, trim_append_cons hreturn, marked_append, ← hline]
  have hindent : "\n  " = "\n" ++ "  " := by decide
  simp only [heading_eq, padding, hindent, String.append_assoc]

end Excerpt

/-! ## Items -/

/-- **Where an item stands in its source**: after some pieces, and before the text that it was cut
from. -/
inductive Item.StandsBetween (source : String) (item : Item) : List Char → List Char → Prop
  | mk {piece : Piece} {text : List Char} {pre post : List (Piece × List Char)} :
    Piece.cut source.toList = pre ++ (piece, text) :: post →
      item ∈ piece.items (.ofBytes (utf8 (pre.flatMap Prod.snd))) →
      StandsBetween source item (pre.flatMap Prod.snd) (text ++ post.flatMap Prod.snd)

/-- What yields an item begins with a character that belongs to a line. -/
theorem Piece.ne_of_mem_items {c : Char} {rest : List Char} {item : Item} {p : Position}
    (h : item ∈ (scan c rest).1.items p) : c ≠ '\n' ∧ c ≠ '\r' := by
  constructor
  · rintro rfl
    cases h
  · rintro rfl
    rw [scan_of_isBlank rfl] at h
    cases h

namespace Item.StandsBetween

variable {source : String} {item : Item} {before after : List Char}

theorem append_eq (h : item.StandsBetween source before after) :
    before ++ after = source.toList := by
  obtain ⟨hcut, -⟩ := h
  rw [← Piece.flatMap_cut source.toList, hcut, List.flatMap_append, List.flatMap_cons]

theorem position_eq (h : item.StandsBetween source before after) :
    item.position = .ofBytes (utf8 before) := by
  obtain @⟨piece, _, _, _, _, hitem⟩ := h
  cases piece with
  | gap form => cases hitem
  | token lexeme => rw [List.mem_singleton.mp hitem]; rfl
  | fault cause => rw [List.mem_singleton.mp hitem]; rfl

theorem exists_cons (h : item.StandsBetween source before after) :
    ∃ c rest, after = c :: rest ∧ c ≠ '\n' ∧ c ≠ '\r' := by
  obtain ⟨hcut, hitem⟩ := h
  obtain ⟨c, t, rest, htext, -, hscan, -⟩ := Piece.cut_eq_cons (Piece.eq_cut_of_append hcut).symm
  exact ⟨c, t ++ rest, htext, Piece.ne_of_mem_items (by rwa [hscan])⟩

/-- **The excerpt of an item has its caret under the item.** -/
theorem caretUnder (h : item.StandsBetween source before after) :
    Excerpt.CaretUnder (Excerpt.text source item.position) item.position.line before after := by
  obtain ⟨c, rest, rfl, hfeed, hreturn⟩ := h.exists_cons
  rw [h.position_eq]
  exact Excerpt.caretUnder_text h.append_eq hfeed hreturn

end Item.StandsBetween

/-- **Every item of a source stands between two parts of it.** -/
theorem exists_standsBetween {source : String} {item : Item} (h : item ∈ lex source) :
    ∃ before after, item.StandsBetween source before after := by
  obtain ⟨pre, piece, text, post, hcut, hitem⟩ := Piece.exists_piece_of_mem_lex h
  exact ⟨_, _, .mk hcut hitem⟩

/-! ## Failures -/

/-- **The item of a source that a failure is about**: the token that was not expected, what is no
token, the last item of a source that ends too soon, or the token that a fault of the run is blamed
on. -/
inductive Failure.Concerns (source : String) : Failure → Item → Prop
  | token {e : SyntaxError} {found : Lexeme} : e.fault.found? = some found →
    Concerns source (.syntaxError e) (.ok ⟨found, e.position⟩)
  | lexical {e : SyntaxError} : e.fault.isLexical → Concerns source (.syntaxError e) (.error e)
  | ending {expected : String} {item : Item} : (lex source).getLast? = some item →
    Concerns source (.syntaxError ⟨.unexpectedEnd expected, item.position⟩) item
  | running {fault : RuntimeFault} {t : Token} : fault.PointsAt t.lexeme →
    Concerns source (.runtimeError (.located fault t.position)) (.ok t)

theorem Failure.Concerns.position? {source : String} {e : Failure} {item : Item}
    (h : e.Concerns source item) : e.position? = some item.position := by
  cases h <;> rfl

/-- A source that cannot be read is rejected at one of its items, unless it has none. -/
theorem exists_concerned_of_parse {source : String} {e : SyntaxError}
    (h : (Rule.wholeProgram.parse source).1 = .error e) :
    (∃ item ∈ lex source, (Failure.syntaxError e).Concerns source item) ∨
    lex source = [] ∧ ∃ expected, e = ⟨.unexpectedEnd expected, .start⟩ := by
  obtain ⟨us, next, hrejected⟩ := Rule.exists_rejected h
  have hfound {found : Lexeme} (hfault : e.fault.found? = some found) :
      ∃ item ∈ lex source, (Failure.syntaxError e).Concerns source item := by
    obtain ⟨us, t, rest, hlex, rfl, -, -⟩ := hrejected.token hfault
    exact ⟨_, by rw [hlex]; simp, .token hfault⟩
  have hlexical (hfault : e.fault.isLexical) :
      ∃ item ∈ lex source, (Failure.syntaxError e).Concerns source item := by
    obtain ⟨us, rest, hlex, -⟩ := hrejected.lexical hfault
    exact ⟨_, by rw [hlex]; simp, .lexical hfault⟩
  cases hfault : e.fault with
  | unexpectedToken | invalidStatement | trailingToken => exact .inl (hfound (by rw [hfault]; rfl))
  | invalidCharacter | invalidNumeric | unterminatedComment =>
    exact .inl (hlexical (by rw [hfault]; rfl))
  | unexpectedEnd expected =>
    obtain ⟨us, hlex, -, hposition⟩ := hrejected.ending hfault
    obtain ⟨fault, p⟩ := e
    obtain rfl : fault = .unexpectedEnd expected := hfault
    cases hlast : us.getLast? with
    | none =>
      rw [hlast] at hposition
      rw [List.getLast?_eq_none_iff.mp hlast] at hlex
      exact .inr ⟨hlex, expected, congrArg (SyntaxError.mk _) hposition⟩
    | some t =>
      rw [hlast] at hposition
      obtain rfl : p = t.position := hposition
      have hitem : (lex source).getLast? = some (.ok t) := by
        rw [hlex, List.getLast?_map, hlast]
        rfl
      exact .inl ⟨.ok t, List.mem_of_getLast? hitem, .ending hitem⟩

/-- **What fails at a place fails at an item of the source**, unless a source without items ends too
soon. -/
theorem exists_concerned {fuel : Nat} {source : String} {limit : Option Nat} {e : Failure}
    {p : Position}
    (h : ((interpret fuel source).run (.fresh limit)).1 = .error e) (hp : e.position? = some p) :
    (∃ item ∈ lex source, e.Concerns source item) ∨
    lex source = [] ∧ ∃ expected, e = .syntaxError ⟨.unexpectedEnd expected, .start⟩ := by
  obtain ⟨e', hparse, he'⟩ | ⟨ts, r, m, hts, hr, hm, hrun⟩ := interpret_cases fuel source limit
  · obtain rfl : e = .syntaxError e' := Except.error.inj (h.symm.trans he')
    refine (exists_concerned_of_parse hparse).imp_right fun ⟨hlex, expected, heq⟩ => ?_
    exact ⟨hlex, expected, congrArg _ heq⟩
  · rw [hrun] at h
    cases e with
    | syntaxError e => exact absurd h (Eval.afterReading_run fuel r m e)
    | outOfFuel => cases hp
    | runtimeError e =>
      cases e with
      | output => cases hp
      | located fault q =>
        obtain ⟨lexeme, hmem, hpoints⟩ := Program.exists_anchor_of_run hm h
        refine .inl ⟨.ok ⟨lexeme, q⟩, ?_, .running (t := ⟨lexeme, q⟩) hpoints⟩
        rw [hts]
        exact List.mem_map_of_mem (hr.anchors_subset hmem)

/-- **The caret lands under the offending character.**  For every item of a source, the excerpt at
its place is a heading with the number of its line, the line that it stands on, and a caret under
its first character.  And whenever running a source fails at a place, the excerpt shows in this way
the item that the failure is about; the only exception is a source without items, which ends too
soon at its start. -/
theorem excerpt_caret_under_item (source : String) :
    (∀ item ∈ lex source, ∃ before after, item.StandsBetween source before after ∧
      source.toList = before ++ after ∧
      Excerpt.CaretUnder (Excerpt.text source item.position) item.position.line before after) ∧
    ∀ (fuel : Nat) (limit : Option Nat) (e : Failure) (p : Position),
      ((interpret fuel source).run (.fresh limit)).1 = .error e → e.position? = some p →
      (∃ item ∈ lex source, e.Concerns source item ∧
        ∃ before after, item.StandsBetween source before after ∧
          Excerpt.CaretUnder (Excerpt.text source p) p.line before after) ∨
      lex source = [] ∧ ∃ expected, e = .syntaxError ⟨.unexpectedEnd expected, .start⟩ := by
  constructor
  · intro item hitem
    obtain ⟨before, after, hstands⟩ := exists_standsBetween hitem
    exact ⟨before, after, hstands, hstands.append_eq.symm, hstands.caretUnder⟩
  · intro fuel limit e p he hp
    refine (exists_concerned he hp).imp_left fun ⟨item, hitem, hconcerns⟩ => ?_
    obtain rfl : item.position = p := Option.some.inj (hconcerns.position?.symm.trans hp)
    obtain ⟨before, after, hstands⟩ := exists_standsBetween hitem
    exact ⟨item, hitem, hconcerns, before, after, hstands, hstands.caretUnder⟩

end BraceScript
