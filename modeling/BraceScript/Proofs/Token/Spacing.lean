import BraceScript.Proofs.Token.Munch

/-!
# Proofs/Token/Spacing — what stands between tokens may grow

Blanks, line feeds and comments can be put in wherever a token begins or ends, and the tokens stay
what they are.  Two facts carry this:

* `scan_append` — a piece depends on its own text and on the first character after it, and a blank
  or a line feed there ends every piece; so no piece before the new text is read otherwise.
* `readings_gap_append` — text that yields nothing yields nothing in front of other text either,
  though its last blanks may become one piece with blanks that follow.
-/

namespace BraceScript

/-- An item apart from its place. -/
def Item.reading : Item → Except SyntaxFault Lexeme
  | .ok t => .ok t.lexeme
  | .error e => .error e.fault

/-- Items that read as lexemes are tokens of these lexemes. -/
theorem exists_tokens_of_map_reading : ∀ {items : List Item} {lexemes : List Lexeme},
    items.map Item.reading = lexemes.map .ok →
      ∃ ts : List Token, items = ts.map .ok ∧ ts.map Token.lexeme = lexemes
  | [], [], _ => ⟨[], rfl, rfl⟩
  | .error e :: _, lexeme :: _, h => by cases (List.cons.inj h).1
  | .ok t :: items, lexeme :: lexemes, h => by
    obtain ⟨hhead, htail⟩ := List.cons.inj h
    obtain ⟨ts, rfl, rfl⟩ := exists_tokens_of_map_reading htail
    exact ⟨t :: ts, rfl, congrArg (· :: _) (Except.ok.inj hhead)⟩

namespace Piece

/-! ## What a text yields -/

/-- **What the pieces of a text yield**, apart from their places. -/
def readings (text : List Char) : List (Except SyntaxFault Lexeme) :=
  (cut text).filterMap fun p => p.1.reading

theorem readings_cons (c : Char) (rest : List Char) :
    readings (c :: rest) =
      (scan c rest).1.reading.toList ++ readings (rest.drop (scan c rest).2) := by
  rw [readings, cut, List.filterMap_cons, readings]
  cases (scan c rest).1.reading <;> rfl

theorem map_reading_itemsAfter : ∀ (before : List Char) (pieces : List (Piece × List Char)),
    (itemsAfter before pieces).map Item.reading = pieces.filterMap fun p => p.1.reading
  | _, [] => rfl
  | before, (piece, text) :: rest => by
    rw [itemsAfter, List.map_append, map_reading_itemsAfter _ rest, List.filterMap_cons]
    cases piece <;> rfl

/-- What a source reads as, places apart, depends on its characters only. -/
theorem map_reading_lex (source : String) :
    (lex source).map Item.reading = readings source.toList := by
  have hlex : lex source = itemsAfter [] (cut source.toList) :=
    Lexer.items_eq_itemsAfter _ rfl (.ofSource source)
  rw [hlex, map_reading_itemsAfter, readings]

/-! ## Text that yields nothing -/

theorem drop_length_takeWhile (p : Char → Bool) (text : List Char) :
    text.drop (text.takeWhile p).length = text.dropWhile p := by
  have h := List.take_append_drop (text.takeWhile p).length text
  rw [take_length_takeWhile] at h
  exact List.append_cancel_left (h.trans List.takeWhile_append_dropWhile.symm)

theorem scan_of_isBlank {c : Char} (hc : isBlank c) (rest : List Char) :
    scan c rest = (gap .blank, (rest.takeWhile isBlank).length) := by
  have hcases : (c = ' ' ∨ c = '\t') ∨ c = '\r' := by simpa [isBlank] using hc
  rcases hcases with (rfl | rfl) | rfl <;> rfl

/-- Blanks yield nothing, one by one. -/
theorem readings_cons_of_isBlank {c : Char} (hc : isBlank c) (rest : List Char) :
    readings (c :: rest) = readings rest := by
  have hskip {d : Char} (hd : isBlank d) (text : List Char) :
      readings (d :: text) = readings (text.dropWhile isBlank) := by
    rw [readings_cons, scan_of_isBlank hd, drop_length_takeWhile]
    rfl
  rw [hskip hc]
  cases rest with
  | nil => rfl
  | cons d rest =>
    by_cases hd : isBlank d = true
    · rw [List.dropWhile_cons_of_pos hd, hskip hd]
    · rw [List.dropWhile_cons_of_neg hd]

theorem readings_append_of_isBlank {text : List Char} (h : ∀ c ∈ text, isBlank c)
    (rest : List Char) : readings (text ++ rest) = readings rest := by
  induction text with
  | nil => rfl
  | cons c text ih =>
    obtain ⟨hc, htext⟩ := List.forall_mem_cons.mp h
    rw [List.cons_append, readings_cons_of_isBlank hc, ih htext]

theorem readings_cons_lineFeed (rest : List Char) : readings ('\n' :: rest) = readings rest :=
  readings_cons '\n' rest

theorem readings_comment {body : List Char} {n : Nat} (h : closer? body = some n) :
    readings ('/' :: '*' :: body) = readings (body.drop n) := by
  rw [readings_cons, scan_comment h, List.drop_succ_cons]
  rfl

theorem closer?_le {body : List Char} {n : Nat} (h : closer? body = some n) : n ≤ body.length := by
  obtain ⟨-, heq, -⟩ := closer?_take h
  rw [List.length_take] at heq
  omega

/-- What yields nothing is a line feed, a blank, or a comment. -/
theorem scan_gap_cases {c : Char} {rest : List Char} (h : (scan c rest).1.reading = none) :
    c = '\n' ∨ isBlank c ∨ ∃ body n, c = '/' ∧ rest = '*' :: body ∧ closer? body = some n := by
  revert h
  fun_cases scan c rest with
  | case1 => exact fun h => by cases h
  | case2 _ _ tail =>
    intro h
    unfold ofLiteral at h
    split at h <;> cases h
  | case3 _ _ hc => exact fun _ => .inl hc
  | case4 _ _ _ hc => exact fun _ => .inr (.inl hc)
  | case5 _ _ _ _ hopen =>
    obtain ⟨rfl, hstar⟩ := hopen
    obtain ⟨body, rfl⟩ := List.head?_eq_some_iff.mp hstar
    fun_cases ofComment body with
    | case1 n hcloser => exact fun _ => .inr (.inr ⟨body, n, rfl, rfl, hcloser⟩)
    | case2 => exact fun h => by cases h
  | case6 =>
    intro h
    obtain ⟨m, d, -, -, heq⟩ | ⟨-, ⟨m, -, heq⟩ | ⟨-, heq⟩⟩ := ofMark_cases c rest <;>
      rw [heq] at h <;> cases h

/-- **Text that yields nothing yields nothing in front of other text.** -/
theorem readings_gap_append {text : List Char} (h : readings text = []) (rest : List Char) :
    readings (text ++ rest) = readings rest := by
  -- By length: what follows the first piece is shorter.
  induction hlength : text.length using Nat.strong_induction_on generalizing text with
  | _ length ih =>
    subst hlength
    cases text with
    | nil => rfl
    | cons c text =>
      have hscan : (scan c text).1.reading = none := by
        rw [readings_cons, List.append_eq_nil_iff] at h
        simpa using h.1
      rcases scan_gap_cases hscan with rfl | hc | ⟨body, n, rfl, rfl, hcloser⟩
      · rw [readings_cons_lineFeed] at h
        rw [List.cons_append, readings_cons_lineFeed, ih _ (by simp) h rfl]
      · rw [readings_cons_of_isBlank hc] at h
        rw [List.cons_append, readings_cons_of_isBlank hc, ih _ (by simp) h rfl]
      · rw [readings_comment hcloser] at h
        have hdrop : (body ++ rest).drop n = body.drop n ++ rest :=
          List.drop_append_of_le_length (closer?_le hcloser)
        have hshorter : (body.drop n).length < ('/' :: '*' :: body).length := by
          simp only [List.length_drop, List.length_cons]
          omega
        rw [List.cons_append, List.cons_append, readings_comment (closer?_append hcloser rest),
          hdrop, ih _ hshorter h rfl]

/-! ## Where a piece ends -/

/-- Blanks and line feeds, with which no token goes on. -/
def isSpace (c : Char) : Bool := isBlank c || c == '\n'

/-- **What ends where one text follows ends where another does**: both begin alike, or the other
begins with a blank or a line feed. -/
def EndsAlike (u v : List Char) : Prop :=
  v.head? = u.head? ∨ ∃ x, v.head? = some x ∧ isSpace x

theorem isSpace_cases {c : Char} (h : isSpace c) : c = ' ' ∨ c = '\t' ∨ c = '\r' ∨ c = '\n' := by
  simpa [isSpace, isBlank, or_assoc] using h

theorem not_isWordChar_of_isSpace (c : Char) (h : isSpace c) : isWordChar c = false := by
  rcases isSpace_cases h with rfl | rfl | rfl | rfl <;> rfl

theorem not_isNumeric_of_isSpace (c : Char) (h : isSpace c) : isNumeric c = false := by
  rcases isSpace_cases h with rfl | rfl | rfl | rfl <;> rfl

theorem takeWhile_eq_nil_iff_head? {p : Char → Bool} {text : List Char} :
    text.takeWhile p = [] ↔ ∀ x, text.head? = some x → p x = false := by
  cases text with
  | nil => simp
  | cons c text =>
    cases hc : p c <;> simp [hc]

/-- A run of a class ends where it ended before. -/
theorem EndsAlike.takeWhile_eq {u v t : List Char} (h : EndsAlike u v) {p : Char → Bool}
    (hp : ∀ x, isSpace x → p x = false) (ht : (t ++ u).takeWhile p = t) :
    (t ++ v).takeWhile p = t := by
  have hall : ∀ x ∈ t, p x := fun x hx => List.mem_takeWhile_imp (ht ▸ hx)
  rw [List.takeWhile_append_of_pos hall] at ht ⊢
  have hu := takeWhile_eq_nil_iff_head?.mp (List.append_right_eq_self.mp ht)
  rw [List.append_right_eq_self, takeWhile_eq_nil_iff_head?]
  intro x hx
  rcases h with hsame | ⟨y, hy, hspace⟩
  · exact hu x (hsame ▸ hx)
  · obtain rfl := Option.some.inj (hx.symm.trans hy)
    exact hp x hspace

/-- A run that is as long as a front of the text is that front. -/
theorem takeWhile_eq_of_length {p : Char → Bool} {t u : List Char}
    (h : ((t ++ u).takeWhile p).length = t.length) : (t ++ u).takeWhile p = t := by
  have htake := take_length_takeWhile p (t ++ u)
  rw [h, List.take_left] at htake
  exact htake.symm

theorem startsNumber_congr {c : Char} {rest rest' : List Char} (h : rest'.head? = rest.head?) :
    startsNumber c rest' ↔ startsNumber c rest := by
  rw [startsNumber_iff, startsNumber_iff, h]

/-- A number that a blank or a line feed follows is one by its first character. -/
theorem startsNumber_of_isSpace {c x : Char} {rest : List Char} (hx : isSpace x)
    (hrest : rest.head? = some x) (h : startsNumber c rest) (rest' : List Char) :
    startsNumber c rest' := by
  refine startsNumber_iff.mpr (.inl ((startsNumber_iff.mp h).resolve_right ?_))
  rintro ⟨-, d, hd, hd'⟩
  obtain rfl := Option.some.inj (hrest.symm.trans hd')
  have hnumeric := not_isNumeric_of_isSpace x hx
  simp [isNumeric, hd] at hnumeric

theorem ofMark_congr (c : Char) {rest rest' : List Char} (h : rest'.head? = rest.head?) :
    ofMark c rest' = ofMark c rest := by
  rw [ofMark, ofMark, h]

theorem double?_of_isSpace (c : Char) {x : Char} (hx : isSpace x) : Mark.double? c x = none := by
  rcases isSpace_cases hx with rfl | rfl | rfl | rfl <;> (unfold Mark.double?; split <;> simp_all)

/-- Where no text of another form starts, a mark or nothing does. -/
theorem scan_eq_ofMark {c : Char} {rest : List Char} (hword : ¬ isWordStart c)
    (hnumber : ¬ startsNumber c rest) (hfeed : c ≠ '\n') (hblank : ¬ isBlank c)
    (hopen : ¬ (c = '/' ∧ rest.head? = some '*')) : scan c rest = ofMark c rest := by
  rw [scan, if_neg hword, if_neg hnumber, if_neg hfeed, if_neg hblank, if_neg hopen]

/-- A mark of one character stays one in front of a blank or a line feed. -/
theorem ofMark_of_isSpace {c x : Char} {rest rest' : List Char} {piece : Piece}
    (h : ofMark c rest = (piece, 0)) (hx : isSpace x) (hrest : rest'.head? = some x) :
    ofMark c rest' = (piece, 0) := by
  have hnone : rest'.head?.bind (Mark.double? c) = none := by
    rw [hrest, Option.bind_some, double?_of_isSpace c hx]
  rw [← h]
  obtain ⟨m, d, -, -, heq⟩ | ⟨-, ⟨m, hm, heq⟩ | ⟨hm, heq⟩⟩ := ofMark_cases c rest
  · cases heq.symm.trans h
  · rw [heq, ofMark, hnone, hm]
  · rw [heq, ofMark, hnone, hm]

/-- A comment is closed by its own text. -/
theorem scan_comment_append {t u v : List Char} {n : Nat} (hstar : (t ++ u).head? = some '*')
    (hcloser : closer? (t ++ u).tail = some n) (hlength : n + 1 = t.length) :
    scan '/' (t ++ v) = (gap .comment, t.length) := by
  cases t with
  | nil => cases hlength
  | cons d body =>
    obtain rfl : d = '*' := Option.some.inj hstar
    obtain rfl : n = body.length := Nat.succ.inj hlength
    have hbody : closer? body = some body.length := by
      have htake := (closer?_take hcloser).1
      rwa [List.cons_append, List.tail_cons, List.take_left] at htake
    exact scan_comment (closer?_append hbody v)

/-- **A piece depends on its text and on the first character after it**, and a blank or a line feed
ends it; only an opener that nothing closes looks further, and a run of blanks goes on with more
blanks. -/
theorem scan_append {c : Char} {t u v : List Char} {piece : Piece}
    (h : scan c (t ++ u) = (piece, t.length)) (hends : EndsAlike u v) (hblank : ¬ isBlank c)
    (hopened : piece ≠ fault .unterminatedComment) : scan c (t ++ v) = (piece, t.length) := by
  have hhead : (t ++ v).head? = (t ++ u).head? ∨ t = [] ∧ ∃ x, v.head? = some x ∧ isSpace x := by
    cases t with
    | nil => exact hends.imp_right fun hspace => ⟨rfl, hspace⟩
    | cons d t => exact .inl rfl
  revert h
  fun_cases scan c (t ++ u) with
  | case1 hword tail =>
    intro h
    obtain ⟨hpiece, hlength⟩ := Prod.mk.inj h
    have ht := takeWhile_eq_of_length hlength
    have ht' := hends.takeWhile_eq not_isWordChar_of_isSpace ht
    rw [scan, if_pos hword, ht', ← hpiece]
    simp only [tail, ht]
  | case2 hword hnumber tail =>
    intro h
    obtain ⟨hpiece, hlength⟩ := Prod.mk.inj h
    have ht := takeWhile_eq_of_length hlength
    have ht' := hends.takeWhile_eq not_isNumeric_of_isSpace ht
    have hnumber' : startsNumber c (t ++ v) := by
      rcases hhead with hsame | ⟨rfl, -⟩
      · exact (startsNumber_congr hsame).mpr hnumber
      · refine startsNumber_iff.mpr ((startsNumber_iff.mp hnumber).imp_right ?_)
        -- A minus sign alone is no number: the digit after it belongs to the run.
        rintro ⟨-, d, hd, hu⟩
        exact absurd (takeWhile_eq_nil_iff_head?.mp ht d hu) (by simp [isNumeric, hd])
    rw [scan, if_neg hword, if_pos hnumber', ht', ← hpiece]
    simp only [tail, ht]
  | case3 hword hnumber hfeed =>
    intro h
    obtain ⟨rfl, hlength⟩ := Prod.mk.inj h
    obtain rfl := List.length_eq_zero_iff.mp hlength.symm
    subst hfeed
    rfl
  | case4 _ _ _ hc => exact absurd hc hblank
  | case5 _ _ _ _ hopen =>
    obtain ⟨rfl, hstar⟩ := hopen
    fun_cases ofComment (t ++ u).tail with
    | case1 n hcloser =>
      intro h
      obtain ⟨rfl, hlength⟩ := Prod.mk.inj h
      exact scan_comment_append hstar hcloser hlength
    | case2 => exact fun h => absurd (Prod.mk.inj h).1.symm hopened
  | case6 hword hnumber hfeed _ hopen =>
    intro h
    rcases hhead with hsame | ⟨rfl, x, hx, hspace⟩
    · rw [scan_eq_ofMark hword (fun hn => hnumber ((startsNumber_congr hsame).mp hn)) hfeed hblank
        (by rwa [hsame]), ofMark_congr c hsame, h]
    · have hopen' : ¬ (c = '/' ∧ ([] ++ v).head? = some '*') := fun hopen => by
        obtain rfl := Option.some.inj (hx.symm.trans hopen.2)
        cases hspace
      rw [List.nil_append,
        scan_eq_ofMark hword (fun hn => hnumber (startsNumber_of_isSpace hspace hx hn _)) hfeed
          hblank hopen']
      exact ofMark_of_isSpace h hspace hx

/-- A piece lies within the text. -/
theorem scan_le (c : Char) (rest : List Char) : (scan c rest).2 ≤ rest.length := by
  fun_cases scan c rest with
  | case1 _ tail => exact (List.takeWhile_prefix _).length_le
  | case2 _ _ tail => exact (List.takeWhile_prefix _).length_le
  | case3 => exact Nat.zero_le _
  | case4 => exact (List.takeWhile_prefix _).length_le
  | case5 _ _ _ _ hopen =>
    obtain ⟨body, rfl⟩ := List.head?_eq_some_iff.mp hopen.2
    fun_cases ofComment body with
    | case1 n hcloser => exact Nat.succ_le_succ (closer?_le hcloser)
    | case2 => exact Nat.succ_le_succ (Nat.zero_le _)
  | case6 =>
    obtain ⟨m, d, hd, -, heq⟩ | ⟨-, ⟨m, -, heq⟩ | ⟨-, heq⟩⟩ := ofMark_cases c rest <;> rw [heq]
    · obtain ⟨rest, rfl⟩ := List.head?_eq_some_iff.mp hd
      exact Nat.succ_le_succ (Nat.zero_le _)
    · exact Nat.zero_le _
    · exact Nat.zero_le _

/-! ## Between two pieces -/

/-- The first piece of a text, and the pieces after it. -/
theorem cut_eq_cons {text word : List Char} {piece : Piece} {pieces : List (Piece × List Char)}
    (h : cut text = (piece, word) :: pieces) :
    ∃ c t rest, text = c :: (t ++ rest) ∧ word = c :: t ∧ scan c (t ++ rest) = (piece, t.length) ∧
      cut rest = pieces := by
  cases text with
  | nil => rw [cut] at h; cases h
  | cons c text =>
    rw [cut] at h
    obtain ⟨hfirst, hrest⟩ := List.cons.inj h
    obtain ⟨rfl, rfl⟩ := Prod.mk.inj hfirst
    refine ⟨c, _, _, ?_, rfl, ?_, hrest⟩
    · rw [List.take_append_drop]
    · rw [List.take_append_drop, List.length_take_of_le (scan_le c text)]

/-- The last pieces of a text are the pieces of its end. -/
theorem eq_cut_of_append {pre post : List (Piece × List Char)} {text : List Char}
    (h : cut text = pre ++ post) : post = cut (post.flatMap Prod.snd) := by
  induction pre generalizing text with
  | nil => rw [← h.trans (List.nil_append _), flatMap_cut]
  | cons p pre ih =>
    obtain ⟨_, _, _, -, -, -, hrest⟩ := cut_eq_cons h
    exact ih hrest

theorem readings_of_scan {c : Char} {t rest : List Char} {piece : Piece}
    (h : scan c (t ++ rest) = (piece, t.length)) :
    readings (c :: (t ++ rest)) = piece.reading.toList ++ readings rest := by
  rw [readings_cons, h, List.drop_left]

/-- A piece of blanks yields nothing, whatever follows. -/
theorem readings_blanks {c : Char} (hc : isBlank c) {t rest : List Char} {piece : Piece}
    (h : scan c (t ++ rest) = (piece, t.length)) (more : List Char) :
    readings (c :: (t ++ more)) = readings more := by
  rw [scan_of_isBlank hc] at h
  have ht := takeWhile_eq_of_length (Prod.mk.inj h).2
  refine readings_append_of_isBlank (List.forall_mem_cons.mpr ⟨hc, fun x hx => ?_⟩) more
  exact List.mem_takeWhile_imp (ht ▸ hx)

/-- **Text may grow between two pieces** by what yields nothing and begins with a blank or a line
feed. -/
theorem readings_insert {between : List Char} (hnothing : readings between = []) {x : Char}
    (hx : between.head? = some x) (hspace : isSpace x) (b : List Char) :
    ∀ {pre : List (Piece × List Char)} {a : List Char}, cut (a ++ b) = pre ++ cut b →
      .error .unterminatedComment ∉ readings (a ++ b) →
      readings (a ++ (between ++ b)) = readings (a ++ b)
  | [], a, h, _ => by
    have ha : a ++ b = b := by rw [← flatMap_cut (a ++ b), h, List.nil_append, flatMap_cut]
    rw [List.append_left_eq_self.mp ha]
    exact readings_gap_append hnothing b
  | (piece, word) :: pre, a, h, hopened => by
    obtain ⟨c, t, rest, htext, -, hscan, hcut⟩ := cut_eq_cons (h.trans (List.cons_append ..))
    -- What follows the first piece is the rest of `a`, and `b`.
    obtain rfl : pre.flatMap Prod.snd ++ b = rest := by
      rw [← flatMap_cut rest, hcut, List.flatMap_append, flatMap_cut]
    obtain rfl : a = c :: (t ++ pre.flatMap Prod.snd) :=
      List.append_cancel_right (htext.trans (by simp))
    have hmore (more : List Char) : c :: (t ++ pre.flatMap Prod.snd) ++ more =
        c :: (t ++ (pre.flatMap Prod.snd ++ more)) := by simp
    rw [hmore, hmore]
    rw [hmore] at hopened
    by_cases hblank : isBlank c = true
    · rw [readings_blanks hblank hscan] at hopened
      rw [readings_blanks hblank hscan, readings_blanks hblank hscan]
      exact readings_insert hnothing hx hspace b hcut hopened
    · have hends : EndsAlike (pre.flatMap Prod.snd ++ b)
          (pre.flatMap Prod.snd ++ (between ++ b)) := by
        cases pre.flatMap Prod.snd with
        | nil => exact .inr ⟨x, by rw [List.nil_append, List.head?_append, hx]; rfl, hspace⟩
        | cons d ds => exact .inl rfl
      rw [readings_of_scan hscan, List.mem_append, not_or] at hopened
      have hpiece : piece ≠ fault .unterminatedComment := by
        rintro rfl
        exact hopened.1 List.mem_cons_self
      rw [readings_of_scan hscan, readings_of_scan (scan_append hscan hends hblank hpiece),
        readings_insert hnothing hx hspace b hcut hopened.2]

/-- **A place beside a token**: the start or the end of a text, or the start or the end of a token
in it.  The text is given as what lies before the place and what lies after it. -/
inductive Seam (text : List Char) : List Char → List Char → Prop
  | start : Seam text [] text
  | finish : Seam text text []
  | before {lexeme : Lexeme} {word : List Char} {pre post : List (Piece × List Char)} :
    cut text = pre ++ (token lexeme, word) :: post →
      Seam text (pre.flatMap Prod.snd) (word ++ post.flatMap Prod.snd)
  | after {lexeme : Lexeme} {word : List Char} {pre post : List (Piece × List Char)} :
    cut text = pre ++ (token lexeme, word) :: post →
      Seam text (pre.flatMap Prod.snd ++ word) (post.flatMap Prod.snd)

/-- Beside a token one piece ends and another starts. -/
theorem Seam.exists_cut {text a b : List Char} (h : Seam text a b) :
    a ++ b = text ∧ ∃ pre, cut text = pre ++ cut b := by
  have happend {pre post : List (Piece × List Char)} (hcut : cut text = pre ++ post) :
      pre.flatMap Prod.snd ++ post.flatMap Prod.snd = text := by
    rw [← List.flatMap_append, ← hcut, flatMap_cut]
  cases h with
  | start => exact ⟨rfl, [], rfl⟩
  | finish => exact ⟨List.append_nil _, cut text, by rw [cut, List.append_nil]⟩
  | @before lexeme word pre post hcut =>
    exact ⟨happend hcut, pre, hcut.trans (congrArg (pre ++ ·) (eq_cut_of_append hcut))⟩
  | @after lexeme word pre post hcut =>
    have hcut' : cut text = (pre ++ [(token lexeme, word)]) ++ post := by rw [hcut]; simp
    refine ⟨?_, pre ++ [(token lexeme, word)],
      hcut'.trans (congrArg (_ ++ ·) (eq_cut_of_append hcut'))⟩
    rw [← happend hcut']
    simp

/-- Every token has its two places. -/
theorem exists_seams_of_mem_lex {source : String} {t : Token} (h : .ok t ∈ lex source) :
    ∃ before word after, t.position = .ofBytes (utf8 before) ∧
      (∃ rest, cut (word ++ after) = (token t.lexeme, word) :: rest) ∧
      Seam source.toList before (word ++ after) ∧ Seam source.toList (before ++ word) after := by
  obtain ⟨pre, piece, word, post, hcut, hitem⟩ := exists_piece_of_mem_lex h
  cases piece with
  | gap form => cases hitem
  | fault cause => cases List.mem_singleton.mp hitem
  | token lexeme =>
    cases List.mem_singleton.mp hitem
    exact ⟨_, word, _, rfl, ⟨post, (eq_cut_of_append hcut).symm⟩, .before hcut, .after hcut⟩

end Piece

/-- **Blanks, line feeds and comments do not matter.**  Let a source be cut into tokens without an
error, and take text that yields no item and begins with a blank or a line feed.  Put this text in
at the start or the end of the source, or at the start or the end of a token: the new source is cut
without an error into tokens of the same lexemes. -/
theorem lex_insert_spacing {source between : String} {ts : List Token}
    (hsource : lex source = ts.map .ok) (hbetween : lex between = [])
    (hspace : ∃ x ∈ [' ', '\t', '\r', '\n'], between.toList.head? = some x) :
    (∀ t ∈ ts, ∃ before word after, t.position = .ofBytes (utf8 before) ∧
      (∃ rest, Piece.cut (word ++ after) = (.token t.lexeme, word) :: rest) ∧
      Piece.Seam source.toList before (word ++ after) ∧
      Piece.Seam source.toList (before ++ word) after) ∧
    ∀ a b, Piece.Seam source.toList a b →
      source.toList = a ++ b ∧
      ∃ ts' : List Token, lex (.ofList (a ++ between.toList ++ b)) = ts'.map .ok ∧
        ts'.map Token.lexeme = ts.map Token.lexeme := by
  obtain ⟨x, hx, hhead⟩ := hspace
  have hnothing : Piece.readings between.toList = [] := by
    rw [← Piece.map_reading_lex, hbetween, List.map_nil]
  refine ⟨fun t ht => Piece.exists_seams_of_mem_lex (hsource ▸ List.mem_map_of_mem ht), ?_⟩
  intro a b hseam
  obtain ⟨happend, pre, hcut⟩ := hseam.exists_cut
  have hreadings : Piece.readings (a ++ b) = (ts.map Token.lexeme).map .ok := by
    rw [happend, ← Piece.map_reading_lex, hsource]
    simp [Item.reading]
  have hopened : .error .unterminatedComment ∉ Piece.readings (a ++ b) := by
    rw [hreadings]
    simp
  refine ⟨happend.symm, exists_tokens_of_map_reading ?_⟩
  rw [Piece.map_reading_lex, String.toList_ofList, List.append_assoc,
    Piece.readings_insert hnothing hhead
      (by simpa [Piece.isSpace, Piece.isBlank, or_assoc] using hx) b
      (happend.symm ▸ hcut) hopened, hreadings]

/-- A comment after a division sign, with a blank that keeps the two apart. -/
theorem lex_insert_spacing_afterSlash : ∃ ts' : List Token, lex "a/ /* b */b" = ts'.map .ok ∧
    ts'.map Token.lexeme = [.identifier "a", .mark .slash, .identifier "b"] := by
  have hb : Piece.cut ['b'] = [(.token (.identifier "b"), ['b'])] := by
    rw [Piece.cut]
    exact congrArg _ Piece.cut.eq_1
  have hslash : Piece.cut ['/', 'b'] = (.token (.mark .slash), ['/']) :: Piece.cut ['b'] := by
    rw [Piece.cut]
    rfl
  have hcut : Piece.cut "a/b".toList = [(.token (.identifier "a"), ['a'])] ++
      (.token (.mark .slash), ['/']) :: [(.token (.identifier "b"), ['b'])] := by
    change Piece.cut ['a', '/', 'b'] = _
    rw [Piece.cut, ← hb, ← hslash]
    rfl
  have hsource : lex "a/b" = [⟨.identifier "a", ⟨1, 1⟩⟩, ⟨.mark .slash, ⟨1, 2⟩⟩,
      ⟨.identifier "b", ⟨1, 3⟩⟩].map .ok := rfl
  have hbetween : lex " /* b */" = [] := rfl
  exact ((lex_insert_spacing hsource hbetween ⟨' ', by decide, by decide⟩).2 _ _ (.after hcut)).2

/-- Without the blank the two slashes are one mark, and the comment is none. -/
example : (lex "a//* b */b").map Item.reading = [.ok (.identifier "a"), .ok (.mark .doubleSlash),
    .ok (.mark .star), .ok (.identifier "b"), .ok (.mark .star), .ok (.mark .slash),
    .ok (.identifier "b")] := rfl

end BraceScript
