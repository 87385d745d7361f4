import BraceScript.Proofs.Token.Munch

/-!
# Proofs/Token/Comment — a comment ends at the first closer

The pattern of comments, `/\*([^*]|\*+[^*/])*\*+/`, is made so that no closer but the last is part
of a comment.  So at one opener it has at most one text (`mem_comment_iff_of_front`): the text up to
the first closer behind the opener, however stars and slashes are arranged, or none if there is no
such closer.  The lexer skips this text, or yields an error for the opener and goes on directly
after it.
-/

namespace BraceScript

/-- The offsets at which a closer stands in a text. -/
def closers (text : List Char) : Set Nat := {i | ['*', '/'] <+: text.drop i}

namespace Piece

/-- **The search for a closer stops at the first one.** -/
theorem closer?_cases (body : List Char) :
    (∃ i, closer? body = some (i + 2) ∧ IsLeast (closers body) i) ∨
      closer? body = none ∧ closers body = ∅ := by
  fun_induction closer? body with
  | case1 rest =>
    exact .inl ⟨0, rfl, List.prefix_append ['*', '/'] rest, fun i _ => Nat.zero_le i⟩
  | case2 c rest hne ih =>
    have hzero : 0 ∉ closers (c :: rest) := by
      rintro ⟨more, heq⟩
      obtain ⟨rfl, hrest⟩ := List.cons.inj heq
      exact hne more rfl hrest.symm
    rcases ih with ⟨i, hi, hmem, hleast⟩ | ⟨hnone, hempty⟩
    · refine .inl ⟨i + 1, by rw [hi, Option.map_some], hmem, fun j hj => ?_⟩
      cases j with
      | zero => exact absurd hj hzero
      | succ j => exact Nat.succ_le_succ (hleast hj)
    · refine .inr ⟨by rw [hnone, Option.map_none],
        Set.eq_empty_iff_forall_notMem.mpr fun j hj => ?_⟩
      cases j with
      | zero => exact hzero hj
      | succ j => exact (hempty ▸ hj : j ∈ (∅ : Set Nat))
  | case3 =>
    exact .inr ⟨rfl, Set.eq_empty_iff_forall_notMem.mpr fun j hj => by simp [closers] at hj⟩

/-- **A comment at the front of a text is the text up to the first closer.** -/
theorem mem_comment_iff_of_front {body word : List Char} (hfront : word <+: '/' :: '*' :: body) :
    word ∈ Form.comment.pattern.language ↔
      ∃ n, closer? body = some n ∧ word = ('/' :: '*' :: body).take (n + 2) := by
  rw [Form.mem_comment_iff]
  constructor
  · rintro ⟨_, _, rfl, rfl, inner, rfl, hinner⟩
    obtain ⟨more, rfl⟩ : inner <+: body :=
      (List.cons_prefix_cons.mp (List.cons_prefix_cons.mp hfront).2).2
    exact ⟨inner.length, closer?_append hinner more, by simp⟩
  · rintro ⟨n, hn, rfl⟩
    obtain ⟨htake, hlength, -⟩ := closer?_take hn
    exact ⟨'/', '*' :: body.take n, rfl, rfl, body.take n, rfl, by rw [htake, hlength]⟩

end Piece

/-- **A comment ends at the first closer.**  Where an opener stands, the pattern of comments has at
most one text.  If there are closers at an offset of two or more, it is the text up to the end of
the first of them; the lexer skips exactly this text and yields nothing for it.  If there is none,
no text is a comment; the lexer yields an error at the place of the opener and goes on directly
after it. -/
theorem comment_ends_at_first_closer {l : Lexer} (hopen : ['/', '*'] <+: l.rest) :
    ((∃ i ∈ closers l.rest, 2 ≤ i) → ∃ i, IsLeast {i ∈ closers l.rest | 2 ≤ i} i ∧
      (∀ word, word <+: l.rest →
        (word ∈ Form.comment.pattern.language ↔ word = l.rest.take (i + 2))) ∧
      (l.skip (i + 2)).rest = l.rest.drop (i + 2) ∧ l.next? = (l.skip (i + 2)).next?) ∧
    ((¬ ∃ i ∈ closers l.rest, 2 ≤ i) →
      (∀ word, word <+: l.rest → word ∉ Form.comment.pattern.language) ∧
      (l.advance 2).rest = l.rest.drop 2 ∧
      l.next? = some (.error ⟨.unterminatedComment, l.position⟩, l.advance 2)) := by
  obtain ⟨body, hbody⟩ := hopen
  have hl : l.rest = '/' :: '*' :: body := hbody.symm
  -- Behind the opener, offsets are two less.
  have hshift (i : Nat) : i + 2 ∈ closers l.rest ↔ i ∈ closers body := by rw [hl]; rfl
  rcases Piece.closer?_cases body with ⟨i, hi, hmem, hleast⟩ | ⟨hnone, hempty⟩
  · have hclosed : i + 2 ∈ closers l.rest ∧ 2 ≤ i + 2 := ⟨(hshift i).mpr hmem, by omega⟩
    refine ⟨fun _ => ⟨i + 2, ⟨hclosed, fun j hj => ?_⟩, fun word hword => ?_, ?_, ?_⟩,
      fun hopened => absurd ⟨i + 2, hclosed⟩ hopened⟩
    · obtain ⟨k, rfl⟩ := Nat.exists_eq_add_of_le' hj.2
      have hle := hleast ((hshift k).mp hj.1)
      omega
    · rw [hl] at hword ⊢
      rw [Piece.mem_comment_iff_of_front hword, hi]
      simp
    · exact l.rest_pass (.gap .comment) _
    · have hscan := Piece.scan_comment hi
      have hgap := Lexer.next?_of_gap hl (by rw [hscan]; rfl)
      rwa [hscan] at hgap
  · have hopened : ¬ ∃ i ∈ closers l.rest, 2 ≤ i := by
      rintro ⟨j, hj, hle⟩
      obtain ⟨k, rfl⟩ := Nat.exists_eq_add_of_le' hle
      exact (hempty ▸ (hshift k).mp hj : k ∈ (∅ : Set Nat))
    refine ⟨fun hclosed => absurd hclosed hopened, fun _ => ⟨fun word hword hmem => ?_, rfl, ?_⟩⟩
    · rw [hl] at hword
      obtain ⟨n, hn, -⟩ := (Piece.mem_comment_iff_of_front hword).mp hmem
      cases hnone.symm.trans hn
    · have hscan := Piece.scan_opener hnone
      have hfault := Lexer.next?_of_reading hl (by rw [hscan]; rfl)
      rwa [hscan] at hfault

/-- The source `/*/ **x*/ */`, in which the slash after the opener closes nothing. -/
def Lexer.starry : Lexer := .ofSource "/*/ **x*/ */"

/-- The comment ends at offset seven, and what follows it is not part of it. -/
theorem comment_ends_at_first_closer_starry :
    ['/', '*'] <+: Lexer.starry.rest ∧ (∃ i ∈ closers Lexer.starry.rest, 2 ≤ i) ∧
    Lexer.starry.next? = (Lexer.starry.skip 9).next? ∧
    (Lexer.starry.skip 9).rest = [' ', '*', '/'] := by
  have hopen : ['/', '*'] <+: Lexer.starry.rest := by decide
  have hmem (i : Nat) : i ∈ closers Lexer.starry.rest ↔ ['*', '/'] <+: Lexer.starry.rest.drop i :=
    Iff.rfl
  have hclosed : ∃ i ∈ closers Lexer.starry.rest, 2 ≤ i := ⟨7, (hmem 7).mpr (by decide), by decide⟩
  have hfirst : IsLeast {i ∈ closers Lexer.starry.rest | 2 ≤ i} 7 := by
    refine ⟨⟨(hmem 7).mpr (by decide), by decide⟩, fun j hj => ?_⟩
    by_contra hlt
    have hnone : ∀ j < 7, 2 ≤ j → ¬ ['*', '/'] <+: Lexer.starry.rest.drop j := by decide
    exact hnone j (by omega) hj.2 ((hmem j).mp hj.1)
  obtain ⟨i, hi, -, hrest, hnext⟩ := (comment_ends_at_first_closer hopen).1 hclosed
  obtain rfl := hi.unique hfirst
  exact ⟨hopen, hclosed, hnext, hrest⟩

end BraceScript
