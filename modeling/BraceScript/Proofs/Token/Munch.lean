import BraceScript.Proofs.Token.Cut
import BraceScript.Proofs.Token.Row

/-!
# Proofs/Token/Munch — the lexer takes the longest text of the table, again and again

The rule of the table: of all rows and all texts of theirs at the front of what is left, the longest
text wins, and a reserved word wins over the name that is spelled like it (`Wins`).  `Munch` repeats
the rule to the end of a source and collects what the rows yield.

The scanner decides with a look at one or two characters.  In each of its branches most rows are out
at the first character, and the others have no longer text at the front (`Chosen`, `scan_chosen`).
-/

namespace BraceScript

/-! ## The rule -/

/-- What the text of a numeric row stands for: an integer, else a double, else nothing. -/
def numeral (word : List Char) : Except SyntaxFault Lexeme :=
  match Number.integer? word, Decimal.float? word with
  | some n, _ => .ok (.number (.int n))
  | none, some x => .ok (.number (.float x))
  | none, none => .error (.invalidNumeric (String.ofList word))

/-- What a row yields for a text: a lexeme, a fault, or nothing. -/
def Form.reading (word : List Char) : Form → Option (Except SyntaxFault Lexeme)
  | keyword k => some (.ok (.keyword k))
  | bool b => some (.ok (.bool b))
  | number | negative => some (numeral word)
  | identifier => some (.ok (.identifier (String.ofList word)))
  | mark m => some (.ok (.mark m))
  | opener => some (.error .unterminatedComment)
  | comment | newline | blank => none

/-- A lexeme or a fault at a place. -/
def Item.placed (p : Position) : Except SyntaxFault Lexeme → Item
  | .ok lexeme => .ok ⟨lexeme, p⟩
  | .error fault => .error ⟨fault, p⟩

/-- **A row wins with a word**: it has the word, no row has a longer text at the front, and no
reserved word is spelled like it unless the row is one. -/
structure Wins (f : Form) (word rest : List Char) : Prop where
  nonempty : word ≠ []
  hit : word ∈ f.pattern.language
  longest : ∀ (g : Form) (w : List Char), w ∈ g.pattern.language → w <+: word ++ rest →
    w.length ≤ word.length
  reserved : ∀ g : Form, word ∈ g.pattern.language → g.isReserved → f.isReserved

/-- **The longest text, again and again**: the items of a text that follows another.  The text that
wins is taken off and its row yields what it yields; where no row has a text, one character is
wrong. -/
inductive Munch : List Char → List Char → List Item → Prop
  | done {before : List Char} : Munch before [] []
  | row {before word rest : List Char} {items : List Item} {f : Form} : Wins f word rest →
    Munch (before ++ word) rest items →
    Munch before (word ++ rest)
      ((f.reading word).toList.map (.placed (.ofBytes (utf8 before))) ++ items)
  | invalid {before rest : List Char} {c : Char} {items : List Item} :
    (∀ (g : Form) (w : List Char), w ∈ g.pattern.language → w <+: c :: rest → w = []) →
    Munch (before ++ [c]) rest items →
    Munch before (c :: rest)
      (.error ⟨.invalidCharacter c, .ofBytes (utf8 before)⟩ :: items)

/-! ## What the scanner chooses -/

/-- **All that stands at the front of a text**: a row, with a word of which every other text at the
front is a part, and that no other row has, the row of names apart if the row is a reserved word. -/
structure Chosen (f : Form) (word rest : List Char) : Prop where
  hit : word ∈ f.pattern.language
  rivals : ∀ (g : Form) (w : List Char), w ∈ g.pattern.language → w <+: word ++ rest →
    w.length < word.length ∨ w = word ∧ (g = f ∨ f.isReserved ∧ g = .identifier)

namespace Chosen

variable {f g : Form} {word rest w r : List Char}

theorem wins (h : Chosen f word rest) : Wins f word rest where
  nonempty := by
    obtain ⟨c, tail, rfl, -⟩ := f.mem_pattern_iff.mp h.hit
    exact List.cons_ne_nil c tail
  hit := h.hit
  longest g w hw hfront := by
    rcases h.rivals g w hw hfront with hlt | ⟨rfl, -⟩
    · exact hlt.le
    · exact le_refl _
  reserved g hg hreserved := by
    rcases h.rivals g word hg (List.prefix_append _ _) with hlt | ⟨-, rfl | ⟨hf, -⟩⟩
    · exact absurd hlt (lt_irrefl _)
    · exact hreserved
    · exact hf

/-- **Nothing else wins.** -/
theorem eq_of_wins (h : Chosen f word rest) (hwins : Wins g w r) (heq : w ++ r = word ++ rest) :
    g = f ∧ w = word ∧ r = rest := by
  have hlength : word.length ≤ w.length :=
    hwins.longest f word h.hit (heq ▸ List.prefix_append _ _)
  rcases h.rivals g w hwins.hit (heq ▸ List.prefix_append _ _) with hlt | ⟨rfl, hg⟩
  · exact absurd hlength (not_le.mpr hlt)
  · refine ⟨?_, rfl, List.append_cancel_left heq⟩
    rcases hg with rfl | ⟨hf, rfl⟩
    · rfl
    -- A name gives way to the reserved word.
    · exact absurd (hwins.reserved f h.hit hf) (by decide)

/-- What is chosen from the rows that ask for the first character. -/
theorem of_spells {c : Char} {n : Nat} (hit : f.Spells c (rest.take n))
    (rivals : ∀ (g : Form) (tail : List Char), g.Spells c tail → tail <+: rest →
      tail.length < (rest.take n).length ∨
        tail = rest.take n ∧ (g = f ∨ f.isReserved ∧ g = .identifier)) :
    Chosen f (c :: rest.take n) (rest.drop n) where
  hit := f.mem_pattern_iff.mpr ⟨c, _, rfl, hit⟩
  rivals g w hw hfront := by
    obtain ⟨c', tail, rfl, hspells⟩ := g.mem_pattern_iff.mp hw
    rw [List.cons_append, List.take_append_drop, List.cons_prefix_cons] at hfront
    obtain ⟨rfl, hfront⟩ := hfront
    rcases rivals g tail hspells hfront with hlt | ⟨rfl, hg⟩
    · exact .inl (by simpa using hlt)
    · exact .inr ⟨rfl, hg⟩

end Chosen

namespace Piece

/-- What a piece yields. -/
def reading : Piece → Option (Except SyntaxFault Lexeme)
  | token lexeme => some (.ok lexeme)
  | gap _ => none
  | fault cause => some (.error cause)

theorem items_eq_reading (p : Position) (piece : Piece) :
    piece.items p = piece.reading.toList.map (.placed p) := by
  cases piece <;> rfl

/-- A front that stays in a class is part of the longest run of the class. -/
theorem length_lt_or_eq_takeWhile {p : Char → Bool} {tail rest : List Char} (hall : ∀ x ∈ tail, p x)
    (hfront : tail <+: rest) :
    tail.length < (rest.takeWhile p).length ∨ tail = rest.takeWhile p := by
  obtain ⟨more, rfl⟩ := hfront
  rw [List.takeWhile_append_of_pos hall]
  cases more.takeWhile p with
  | nil => simp
  | cons x xs => simp

/-! ### Words -/

theorem reading_of_reserved {f : Form} (hf : f.isReserved) {c : Char} {tail : List Char}
    (h : f.Spells c tail) :
    f.reading (c :: tail) = some (.ok (.ofWord (String.ofList (c :: tail)))) := by
  have hkeyword (k : Keyword) : Lexeme.ofWord k.text = .keyword k := by cases k <;> rfl
  have hbool (b : Bool) : Lexeme.ofWord (Lexeme.boolText b) = .bool b := by cases b <;> rfl
  cases f with
  | keyword k =>
    rw [← show k.text.toList = c :: tail from h, String.ofList_toList, hkeyword]
    rfl
  | bool b =>
    rw [← show (Lexeme.boolText b).toList = c :: tail from h, String.ofList_toList, hbool]
    rfl
  | _ => cases hf

/-- Two reserved words are not spelled alike. -/
theorem eq_of_isReserved {f g : Form} (hf : f.isReserved) (hg : g.isReserved) {c : Char}
    {tail : List Char} (h : f.Spells c tail) (h' : g.Spells c tail) : f = g := by
  have heq := (reading_of_reserved hf h).trans (reading_of_reserved hg h').symm
  cases f with
  | keyword k =>
    cases g with
    | keyword k' => cases heq; rfl
    | bool b => cases heq
    | _ => cases hg
  | bool b =>
    cases g with
    | bool b' => cases heq; rfl
    | keyword k' => cases heq
    | _ => cases hg
  | _ => cases hf

/-- A word is a reserved word, or a name if none is spelled like it. -/
theorem ofWord_cases (c : Char) (tail : List Char) :
    (∃ f : Form, f.isReserved ∧ f.Spells c tail) ∨
      (∀ f : Form, f.isReserved → ¬ f.Spells c tail) ∧
        Lexeme.ofWord (String.ofList (c :: tail)) = .identifier (String.ofList (c :: tail)) := by
  by_cases h : ∃ f : Form, f.isReserved ∧ f.Spells c tail
  · exact .inl h
  · have hnone : ∀ f : Form, f.isReserved → ¬ f.Spells c tail := fun f hf hs => h ⟨f, hf, hs⟩
    refine .inr ⟨hnone, ?_⟩
    have hspelled {s : String} (hs : s = String.ofList (c :: tail)) : s.toList = c :: tail := by
      rw [hs, String.toList_ofList]
    have hkeyword : Keyword.all.find? (fun k => k.text = String.ofList (c :: tail)) = none :=
      List.find?_eq_none.mpr fun k _ hk =>
        hnone (.keyword k) rfl (hspelled (of_decide_eq_true hk))
    have hbool (b : Bool) : String.ofList (c :: tail) ≠ Lexeme.boolText b := fun hb =>
      hnone (.bool b) rfl (hspelled hb.symm)
    rw [Lexeme.ofWord, hkeyword]
    simp only [if_neg (hbool true), if_neg (hbool false)]

/-- The rows that a word is spelled by. -/
theorem isReserved_or_identifier {f : Form} (hf : f.start = .word) :
    f.isReserved ∨ f = .identifier := by
  cases f with
  | identifier => exact .inr rfl
  | keyword k => exact .inl rfl
  | bool b => exact .inl rfl
  | _ => cases hf

theorem wordChars_of_start {f : Form} (hf : f.start = .word) {c : Char} {tail : List Char}
    (h : f.Spells c tail) : ∀ x ∈ tail, isWordChar x := by
  rcases isReserved_or_identifier hf with hreserved | rfl
  · exact (Form.wordChars_of_isReserved hreserved h).2
  · exact h.2

/-- A run of a class is chosen if the rows that start alike stay in the class. -/
theorem chosen_of_run {p : Char → Bool} {f : Form} {c : Char} {rest : List Char}
    (hit : f.Spells c (rest.takeWhile p))
    (rivals : ∀ (g : Form) (tail : List Char), g.Spells c tail → tail <+: rest →
      (∀ x ∈ tail, p x) ∧ (tail = rest.takeWhile p → g = f ∨ f.isReserved ∧ g = .identifier)) :
    Chosen f (c :: rest.take (rest.takeWhile p).length) (rest.drop (rest.takeWhile p).length) := by
  refine .of_spells (by rwa [take_length_takeWhile]) fun g tail hg hfront => ?_
  rw [take_length_takeWhile]
  obtain ⟨hall, hbest⟩ := rivals g tail hg hfront
  exact (length_lt_or_eq_takeWhile hall hfront).imp_right fun heq => ⟨heq, hbest heq⟩

/-- Where a word starts, the longest word is chosen. -/
theorem chosen_word {c : Char} (hc : isWordStart c) (rest : List Char) :
    ∃ f, Chosen f (c :: rest.take (rest.takeWhile isWordChar).length)
        (rest.drop (rest.takeWhile isWordChar).length) ∧
      some (.ok (.ofWord (String.ofList (c :: rest.takeWhile isWordChar)))) =
        f.reading (c :: rest.takeWhile isWordChar) := by
  have hname : Form.identifier.Spells c (rest.takeWhile isWordChar) :=
    ⟨hc, fun _ => List.mem_takeWhile_imp⟩
  rcases ofWord_cases c (rest.takeWhile isWordChar) with ⟨f, hf, hspells⟩ | ⟨hnone, hword⟩
  · refine ⟨f, chosen_of_run hspells fun g tail hg hfront => ?_,
      (reading_of_reserved hf hspells).symm⟩
    have hstart := Form.start_eq_of_spells hname hg
    refine ⟨wordChars_of_start hstart hg, fun heq => ?_⟩
    exact (isReserved_or_identifier hstart).imp
      (fun hreserved => eq_of_isReserved hreserved hf (heq ▸ hg) hspells) fun hg => ⟨hf, hg⟩
  · refine ⟨.identifier, chosen_of_run hname fun g tail hg hfront => ?_, by rw [hword]; rfl⟩
    have hstart := Form.start_eq_of_spells hname hg
    refine ⟨wordChars_of_start hstart hg, fun heq => .inl ?_⟩
    exact (isReserved_or_identifier hstart).resolve_left fun hreserved =>
      hnone g hreserved (heq ▸ hg)

/-! ### Numbers -/

theorem toLower_of_isNumeric {c : Char} (h : isNumeric c) : c.toLower = c :=
  dif_neg fun hc => absurd (show 65 ≤ c.toNat from hc.1) (by have := toNat_lt_of_isNumeric h; omega)

/-- A numeric run is no word. -/
theorem ofList_map_toLower_ne {word : List Char} (h : ∀ x ∈ word, isNumeric x) {s : String}
    {c : Char} {tail : List Char} (hs : s.toList = c :: tail) (hc : isNumeric c = false) :
    String.ofList (word.map Char.toLower) ≠ s := by
  rintro rfl
  rw [String.toList_ofList, List.map_eq_cons_iff] at hs
  obtain ⟨x, _, rfl, rfl, -⟩ := hs
  have hx := h x List.mem_cons_self
  rw [toLower_of_isNumeric hx, hx] at hc
  cases hc

theorem magnitude?_of_isNumeric {word : List Char} (h : ∀ x ∈ word, isNumeric x) :
    Decimal.magnitude? word =
      (Decimal.pointed? word).map fun (digits, places) => Decimal.scaled digits (-places) := by
  have hfront : word.takeWhile (fun c => c != 'e' && c != 'E') = word :=
    List.takeWhile_eq_self_iff.mpr fun x hx => by
      have hx := toNat_lt_of_isNumeric (h x hx)
      have he : x ≠ 'e' := by rintro rfl; exact absurd hx (by decide)
      have hE : x ≠ 'E' := by rintro rfl; exact absurd hx (by decide)
      simp [he, hE]
  have hinf := ofList_map_toLower_ne h (s := "inf") rfl rfl
  have hinfinity := ofList_map_toLower_ne h (s := "infinity") rfl rfl
  have hnan := ofList_map_toLower_ne h (s := "nan") rfl rfl
  simp only [Decimal.magnitude?, hinf, hinfinity, hnan, decide_false, Bool.or_self, if_false,
    Bool.false_eq_true, hfront, List.drop_length]
  cases Decimal.pointed? word <;> rfl

/-- A run of digits, points and minus signs has no plus sign, no exponent and no name in it. -/
theorem float?_of_isNumeric {word : List Char} (h : ∀ x ∈ word, isNumeric x) :
    Decimal.float? word = Decimal.plain? word := by
  unfold Decimal.float?
  split
  next negative body hbody =>
  split at hbody
  · next rest => exact absurd (h '+' List.mem_cons_self) (by decide)
  · have hall : ∀ x ∈ body, isNumeric x := by
      unfold Decimal.splitMinus at hbody
      split at hbody <;> cases hbody
      · exact (List.forall_mem_cons.mp h).2
      · exact h
    rw [magnitude?_of_isNumeric hall, Decimal.plain?, hbody, Option.map_map]
    rfl

theorem reading_ofLiteral {word : List Char} (h : ∀ x ∈ word, isNumeric x) :
    (ofLiteral word).reading = some (numeral word) := by
  rw [ofLiteral, Number.ofLiteral?, numeral, float?_of_isNumeric h]
  cases Number.integer? word with
  | some n => rfl
  | none => cases Decimal.plain? word <;> rfl

theorem startsNumber_iff {c : Char} {rest : List Char} : startsNumber c rest ↔
    (c.isDigit || c == '.') ∨ c = '-' ∧ ∃ d, d.isDigit ∧ rest.head? = some d := by
  unfold startsNumber
  split
  · next d rest => simp
  · next hne =>
    refine ⟨.inl, fun h => h.resolve_right ?_⟩
    rintro ⟨hdash, d, -, hrest⟩
    obtain ⟨rest', hrest⟩ := List.head?_eq_some_iff.mp hrest
    exact hne d rest' hdash hrest

theorem isNumeric_of_startsNumber {c : Char} {rest : List Char} (h : startsNumber c rest) :
    isNumeric c := by
  rcases startsNumber_iff.mp h with hc | ⟨rfl, -⟩
  · simp [isNumeric, hc]
  · rfl

/-- Where a number starts, the whole run is one piece. -/
theorem scan_of_startsNumber {c : Char} {rest : List Char} (h : startsNumber c rest) :
    scan c rest =
      (ofLiteral (c :: rest.takeWhile isNumeric), (rest.takeWhile isNumeric).length) := by
  have hword : ¬ isWordStart c := by
    simp [not_isWordStart_of_isNumeric (isNumeric_of_startsNumber h)]
  rw [scan, if_neg hword, if_pos h]

/-- Where a number starts, the longest run is chosen. -/
theorem chosen_number {c : Char} {rest : List Char} (h : startsNumber c rest) :
    ∃ f, Chosen f (c :: rest.take (rest.takeWhile isNumeric).length)
        (rest.drop (rest.takeWhile isNumeric).length) ∧
      (ofLiteral (c :: rest.takeWhile isNumeric)).reading =
        f.reading (c :: rest.takeWhile isNumeric) := by
  rcases startsNumber_iff.mp h with hc | ⟨rfl, d, hd, hrest⟩
  · have hspells : Form.number.Spells c (rest.takeWhile isNumeric) :=
      ⟨hc, fun _ => List.mem_takeWhile_imp⟩
    have hnumeric : isNumeric c := by simp [isNumeric, hc]
    refine ⟨.number, chosen_of_run hspells fun g tail hg hfront => ?_,
      reading_ofLiteral (List.forall_mem_cons.mpr ⟨hnumeric, fun _ => List.mem_takeWhile_imp⟩)⟩
    have hstart := Form.start_eq_of_spells hspells hg
    cases g with
    | number => exact ⟨hg.2, fun _ => .inl rfl⟩
    | _ => cases hstart
  · obtain ⟨rest, rfl⟩ := List.head?_eq_some_iff.mp hrest
    have hnumeric : isNumeric d := by simp [isNumeric, hd]
    have hrun : (d :: rest).takeWhile isNumeric = d :: rest.takeWhile isNumeric :=
      List.takeWhile_cons_of_pos hnumeric
    have hspells : Form.negative.Spells '-' ((d :: rest).takeWhile isNumeric) :=
      ⟨rfl, ⟨d, hd, by rw [hrun]; rfl⟩, fun _ => List.mem_takeWhile_imp⟩
    refine ⟨.negative, chosen_of_run hspells fun g tail hg hfront => ?_,
      reading_ofLiteral (List.forall_mem_cons.mpr ⟨rfl, fun _ => List.mem_takeWhile_imp⟩)⟩
    have hstart := Form.start_eq_of_spells hspells hg
    cases g with
    | negative => exact ⟨hg.2.2, fun _ => .inl rfl⟩
    | mark m =>
      -- No mark but the minus sign itself starts with a minus sign, and the run is longer.
      obtain ⟨rfl, -⟩ | ⟨d', -, hdouble⟩ := Mark.text_cases hg
      · exact ⟨by simp, fun heq => absurd heq (by simp [hrun])⟩
      · cases hdouble
    | comment => cases hg.1
    | opener => cases hg.1
    | _ => cases hstart

/-! ### Line feeds, blanks and comments -/

theorem chosen_newline (rest : List Char) :
    Chosen .newline ('\n' :: rest.take 0) (rest.drop 0) := by
  have hspells : Form.newline.Spells '\n' (rest.take 0) := ⟨rfl, rfl⟩
  refine .of_spells hspells fun g tail hg hfront => .inr ?_
  have hstart := Form.start_eq_of_spells hspells hg
  cases g with
  | newline => exact ⟨hg.2, .inl rfl⟩
  | _ => cases hstart

theorem chosen_blank {c : Char} (hc : isBlank c) (rest : List Char) :
    Chosen .blank (c :: rest.take (rest.takeWhile isBlank).length)
      (rest.drop (rest.takeWhile isBlank).length) := by
  have hspells : Form.blank.Spells c (rest.takeWhile isBlank) :=
    ⟨hc, fun _ => List.mem_takeWhile_imp⟩
  refine chosen_of_run hspells fun g tail hg hfront => ?_
  have hstart := Form.start_eq_of_spells hspells hg
  cases g with
  | blank => exact ⟨hg.2, fun _ => .inl rfl⟩
  | _ => cases hstart

theorem closer?_append {body : List Char} {n : Nat} (h : closer? body = some n) (more : List Char) :
    closer? (body ++ more) = some n := by
  fun_induction closer? body generalizing n with
  | case1 rest => exact h
  | case2 c rest hne ih =>
    obtain ⟨m, hm, rfl⟩ := Option.map_eq_some_iff.mp h
    cases rest with
    | nil => cases hm
    | cons d rest =>
      rw [List.cons_append, closer?_cons, ih hm, Option.map_some]
      rintro rfl hd
      exact hne rest rfl (congrArg (· :: rest) (Option.some.inj hd))
  | case3 => cases h

/-- The text up to the first closer is closed. -/
theorem closer?_take {body : List Char} {n : Nat} (h : closer? body = some n) :
    closer? (body.take n) = some n ∧ (body.take n).length = n ∧ 0 < n := by
  fun_induction closer? body generalizing n with
  | case1 rest =>
    cases h
    exact ⟨rfl, rfl, Nat.two_pos⟩
  | case2 c rest hne ih =>
    obtain ⟨m, hm, rfl⟩ := Option.map_eq_some_iff.mp h
    obtain ⟨htake, hlength, hpos⟩ := ih hm
    refine ⟨?_, by rw [List.take_succ_cons, List.length_cons, hlength], Nat.succ_pos m⟩
    rw [List.take_succ_cons, closer?_cons, htake, Option.map_some]
    rintro rfl hhead
    rw [List.head?_take, if_neg hpos.ne'] at hhead
    obtain ⟨rest', rfl⟩ := List.head?_eq_some_iff.mp hhead
    exact hne rest' rfl rfl
  | case3 => cases h

theorem scan_comment {body : List Char} {n : Nat} (h : closer? body = some n) :
    scan '/' ('*' :: body) = (gap .comment, n + 1) := by
  change ofComment body = _
  rw [ofComment, h]

theorem scan_opener {body : List Char} (h : closer? body = none) :
    scan '/' ('*' :: body) = (fault .unterminatedComment, 1) := by
  change ofComment body = _
  rw [ofComment, h]

/-- What starts with a slash and a star is a comment, an opener, or a slash. -/
theorem spells_slash {g : Form} {tail body : List Char} (hg : g.Spells '/' tail)
    (hfront : tail <+: '*' :: body) :
    (g = .comment ∧ ∃ inner, tail = '*' :: inner ∧ inner <+: body ∧
      closer? inner = some inner.length) ∨
      g = .opener ∧ tail = ['*'] ∨ tail = [] := by
  have hspells : Form.opener.Spells '/' ['*'] := ⟨rfl, rfl⟩
  have hstart := Form.start_eq_of_spells hspells hg
  cases g with
  | comment =>
    obtain ⟨-, inner, rfl, hinner⟩ := hg
    exact .inl ⟨rfl, inner, rfl, (List.cons_prefix_cons.mp hfront).2, hinner⟩
  | opener => exact .inr (.inl ⟨rfl, hg.2⟩)
  | negative => cases hg.1
  | mark m =>
    obtain ⟨rfl, -⟩ | ⟨d, rfl, hdouble⟩ := Mark.text_cases hg
    · exact .inr (.inr rfl)
    · obtain ⟨rfl, -⟩ := List.cons_prefix_cons.mp hfront
      cases hdouble
  | _ => cases hstart

theorem chosen_comment {body : List Char} {n : Nat} (h : closer? body = some n) :
    Chosen .comment ('/' :: ('*' :: body).take (n + 1)) (('*' :: body).drop (n + 1)) := by
  obtain ⟨htake, hlength, hpos⟩ := closer?_take h
  have hword : ('*' :: body).take (n + 1) = '*' :: body.take n := List.take_succ_cons
  refine .of_spells ⟨rfl, body.take n, hword, by rw [htake, hlength]⟩ fun g tail hg hfront => ?_
  rw [hword, List.length_cons, hlength]
  rcases spells_slash hg hfront with ⟨rfl, inner, rfl, ⟨more, rfl⟩, hinner⟩ | ⟨rfl, rfl⟩ | rfl
  · -- The first closer is the only one that a comment ends with.
    obtain rfl : inner.length = n := Option.some.inj ((closer?_append hinner more).symm.trans h)
    exact .inr ⟨by simp, .inl rfl⟩
  · exact .inl (by simpa using hpos)
  · exact .inl (by simp)

theorem chosen_opener {body : List Char} (h : closer? body = none) :
    Chosen .opener ('/' :: ('*' :: body).take 1) (('*' :: body).drop 1) := by
  refine .of_spells ⟨rfl, rfl⟩ fun g tail hg hfront => ?_
  rcases spells_slash hg hfront with ⟨rfl, inner, rfl, ⟨more, rfl⟩, hinner⟩ | ⟨rfl, rfl⟩ | rfl
  · rw [closer?_append hinner more] at h
    cases h
  · exact .inr ⟨rfl, .inl rfl⟩
  · exact .inl (by simp)

/-! ### Marks -/

/-- Where nothing else starts, only a mark can. -/
theorem spells_mark {c : Char} {rest : List Char} (hword : ¬ isWordStart c)
    (hnumber : ¬ startsNumber c rest) (hfeed : c ≠ '\n') (hblank : ¬ isBlank c)
    (hopen : ¬ (c = '/' ∧ rest.head? = some '*')) {g : Form} {tail : List Char}
    (hg : g.Spells c tail) (hfront : tail <+: rest) :
    tail = [] ∧ (∃ m, g = .mark m ∧ Mark.single? c = some m) ∨
      ∃ d m, tail = [d] ∧ rest.head? = some d ∧ g = .mark m ∧ Mark.double? c d = some m := by
  obtain ⟨more, rfl⟩ := hfront
  cases g with
  | keyword k => exact absurd (Form.wordChars_of_isReserved (f := .keyword k) rfl hg).1 hword
  | bool b => exact absurd (Form.wordChars_of_isReserved (f := .bool b) rfl hg).1 hword
  | identifier => exact absurd hg.1 hword
  | number => exact absurd (startsNumber_iff.mpr (.inl hg.1)) hnumber
  | negative =>
    obtain ⟨rfl, ⟨d, hd, htail⟩, -⟩ := hg
    obtain ⟨tail, rfl⟩ := List.head?_eq_some_iff.mp htail
    exact absurd (startsNumber_iff.mpr (.inr ⟨rfl, d, hd, rfl⟩)) hnumber
  | newline => exact absurd hg.1 hfeed
  | blank => exact absurd hg.1 hblank
  | comment => obtain ⟨rfl, inner, rfl, -⟩ := hg; exact absurd ⟨rfl, rfl⟩ hopen
  | opener => obtain ⟨rfl, rfl⟩ := hg; exact absurd ⟨rfl, rfl⟩ hopen
  | mark m =>
    obtain ⟨rfl, hsingle⟩ | ⟨d, rfl, hdouble⟩ := Mark.text_cases hg
    · exact .inl ⟨rfl, m, rfl, hsingle⟩
    · exact .inr ⟨d, m, rfl, rfl, rfl, hdouble⟩

/-- **What the scanner finds is chosen**, and where it finds nothing no row has a text. -/
theorem scan_chosen (c : Char) (rest : List Char) :
    (∃ f, Chosen f (c :: rest.take (scan c rest).2) (rest.drop (scan c rest).2) ∧
      (scan c rest).1.reading = f.reading (c :: rest.take (scan c rest).2)) ∨
    scan c rest = (fault (.invalidCharacter c), 0) ∧
      ∀ (g : Form) (w : List Char), w ∈ g.pattern.language → ¬ w <+: c :: rest := by
  fun_cases scan c rest with
  | case1 hword tail =>
    obtain ⟨f, hf, hreading⟩ := chosen_word hword rest
    exact .inl ⟨f, hf, by rw [take_length_takeWhile]; exact hreading⟩
  | case2 _ hnumber tail =>
    obtain ⟨f, hf, hreading⟩ := chosen_number hnumber
    exact .inl ⟨f, hf, by rw [take_length_takeWhile]; exact hreading⟩
  | case3 _ _ hfeed => exact .inl ⟨.newline, hfeed ▸ chosen_newline rest, rfl⟩
  | case4 _ _ _ hblank => exact .inl ⟨.blank, chosen_blank hblank rest, rfl⟩
  | case5 _ _ _ _ hopen =>
    obtain ⟨rfl, hstar⟩ := hopen
    obtain ⟨body, rfl⟩ := List.head?_eq_some_iff.mp hstar
    fun_cases ofComment body with
    | case1 n hcloser => exact .inl ⟨.comment, chosen_comment hcloser, rfl⟩
    | case2 hcloser => exact .inl ⟨.opener, chosen_opener hcloser, rfl⟩
  | case6 hword hnumber hfeed hblank hopen =>
    have hrivals := @spells_mark c rest hword hnumber hfeed hblank hopen
    obtain ⟨m, d, hd, hm, heq⟩ | ⟨hdouble, ⟨m, hm, heq⟩ | ⟨hsingle, heq⟩⟩ := ofMark_cases c rest
    · rw [heq]
      obtain ⟨rest, rfl⟩ := List.head?_eq_some_iff.mp hd
      refine .inl ⟨.mark m,
        .of_spells (Mark.double?_eq_some_iff.mp hm) fun g tail hg hfront => ?_, rfl⟩
      rcases hrivals hg hfront with ⟨rfl, -⟩ | ⟨d', m', rfl, hd', rfl, hm'⟩
      · exact .inl Nat.one_pos
      · cases hd'
        cases hm.symm.trans hm'
        exact .inr ⟨rfl, .inl rfl⟩
    · rw [heq]
      refine .inl ⟨.mark m,
        .of_spells (Mark.single?_eq_some_iff.mp hm) fun g tail hg hfront => ?_, rfl⟩
      rcases hrivals hg hfront with ⟨rfl, m', rfl, hm'⟩ | ⟨d, m', rfl, hd, rfl, hm'⟩
      · cases hm.symm.trans hm'
        exact .inr ⟨rfl, .inl rfl⟩
      · cases (hdouble d hd).symm.trans hm'
    · refine .inr ⟨heq, fun g w hw hfront => ?_⟩
      obtain ⟨c', tail, rfl, hg⟩ := g.mem_pattern_iff.mp hw
      obtain ⟨rfl, hfront'⟩ := List.cons_prefix_cons.mp hfront
      rcases hrivals hg hfront' with ⟨rfl, m', rfl, hm'⟩ | ⟨d, m', rfl, hd, rfl, hm'⟩
      · cases hsingle.symm.trans hm'
      · cases (hdouble d hd).symm.trans hm'

end Piece

/-! ## The lexer follows the rule -/

namespace Lexer

variable {l : Lexer} {c : Char} {rest : List Char}

/-- A piece that yields something is the next item. -/
theorem next?_of_reading (hl : l.rest = c :: rest) {r : Except SyntaxFault Lexeme}
    (h : (Piece.scan c rest).1.reading = some r) :
    l.next? = some (.placed l.position r, l.advance ((Piece.scan c rest).2 + 1)) := by
  rw [next?, hl, List.length_cons, nextWithin, hl]
  cases hpiece : (Piece.scan c rest).1 with
  | token lexeme =>
    cases hpiece ▸ h
    simp only [hpiece]
    rfl
  | gap form => cases hpiece ▸ h
  | fault cause =>
    cases hpiece ▸ h
    simp only [hpiece]
    rfl

/-- A piece that yields nothing is skipped. -/
theorem next?_of_gap (hl : l.rest = c :: rest) (h : (Piece.scan c rest).1.reading = none) :
    l.next? = (l.skip ((Piece.scan c rest).2 + 1)).next? := by
  have hlt := length_pass_lt hl (Piece.scan c rest).1 (Piece.scan c rest).2
  cases hpiece : (Piece.scan c rest).1 with
  | token lexeme => cases hpiece ▸ h
  | fault cause => cases hpiece ▸ h
  | gap form =>
    rw [hpiece, hl, List.length_cons] at hlt
    rw [next?, hl, List.length_cons, nextWithin, hl]
    simp only [hpiece]
    exact nextWithin_eq (Nat.le_of_lt_succ hlt) le_rfl

end Lexer

open Piece

/-- **The pieces that a text is cut into are chosen one after another**, each by the longest
match. -/
theorem munch_cut (text : List Char) : ∀ before : List Char,
    Munch before text (itemsAfter before (cut text)) := by
  fun_induction cut text with
  | case1 => exact fun before => .done
  | case2 c rest ih =>
    intro before
    rw [itemsAfter, items_eq_reading]
    rcases scan_chosen c rest with ⟨f, hf, hreading⟩ | ⟨hscan, hnone⟩
    · have hmunch := Munch.row hf.wins (ih (before ++ c :: rest.take (scan c rest).2))
      rw [List.cons_append, List.take_append_drop] at hmunch
      rwa [hreading]
    · rw [hscan] at ih ⊢
      exact .invalid (fun g w hw hfront => absurd hfront (hnone g w hw)) (ih (before ++ [c]))

/-- The rule leaves no choice. -/
theorem Munch.items_eq {before text : List Char} {items : List Item} (h : Munch before text items) :
    items = itemsAfter before (cut text) := by
  induction h with
  | done => rw [cut, itemsAfter]
  | @row before word rest items f hwins _ ih =>
    obtain ⟨c, tail, rfl⟩ := List.exists_cons_of_ne_nil hwins.nonempty
    rw [List.cons_append, cut, itemsAfter, items_eq_reading]
    rcases scan_chosen c (tail ++ rest) with ⟨f', hf', hreading⟩ | ⟨-, hnone⟩
    · have heq : c :: tail ++ rest = c :: (tail ++ rest).take (scan c (tail ++ rest)).2 ++
          (tail ++ rest).drop (scan c (tail ++ rest)).2 := by
        rw [List.cons_append, List.cons_append, List.take_append_drop]
      obtain ⟨rfl, hword, hrest⟩ := hf'.eq_of_wins hwins heq
      rw [hreading, ← hword, ← hrest, ih]
    · exact absurd (List.prefix_append _ _) (hnone f _ hwins.hit)
  | @invalid before rest c items hnone _ ih =>
    rw [cut, itemsAfter]
    rcases scan_chosen c rest with ⟨f, hf, -⟩ | ⟨hscan, -⟩
    · have hfront : c :: rest.take (scan c rest).2 <+: c :: rest :=
        List.cons_prefix_cons.mpr ⟨rfl, List.take_prefix _ _⟩
      cases hnone f _ hf.hit hfront
    · rw [hscan, ih]
      rfl

/-- **Cutting is maximal munch over the table.**  The items of a source are those, and only those,
that come of taking the longest text of the table off the front again and again. -/
theorem lex_eq_iff_munch (source : String) (items : List Item) :
    lex source = items ↔ Munch [] source.toList items := by
  have hlex : lex source = itemsAfter [] (cut source.toList) :=
    Lexer.items_eq_itemsAfter _ rfl (.ofSource source)
  constructor
  · rintro rfl
    rw [hlex]
    exact munch_cut source.toList []
  · exact fun h => hlex.trans h.items_eq.symm

/-- A minus sign before a name is a mark, before a digit part of the literal, which takes in all
that could belong to a number; a slash and a star that nothing closes are skipped. -/
example : (lex "--x-1.-2 /*ify!=if").map
      (fun item => (item.map Token.lexeme).mapError SyntaxError.fault) =
    [.ok (.mark .minus), .ok (.mark .minus), .ok (.identifier "x"),
      .error (.invalidNumeric "-1.-2"), .error .unterminatedComment, .ok (.identifier "ify"),
      .ok (.mark .bangEqual), .ok (.keyword .kwIf)] := rfl

end BraceScript
