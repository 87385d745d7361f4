import BraceScript.Feed
import BraceScript.Proofs.Action

/-!
# Proofs/Feed — reading as a walk along the items

`Feed.items` forgets how a feed is divided into tokens put back and text not yet cut.  Taking a
token takes the first item (`items_take`) and putting one back puts it in front (`items_putBack`),
so what the primitives do is said on items alone:

* `..._eq_ok` — from what a primitive returned, what the feed held;
* `Reads u a v` — on a feed that holds the tokens `u`, a rule gives `a` and leaves `v`.
-/

namespace BraceScript

namespace Lexer

/-! ## The items of a lexer -/

@[simp] theorem rest_pass (l : Lexer) (piece : Piece) (count : Nat) :
    (l.pass piece count).rest = l.rest.drop count := by
  cases piece with
  | gap form =>
    simp only [pass, skip]
    split <;> rfl
  | token lexeme => rfl
  | fault cause => rfl

/-- Passing a piece makes the rest shorter, since a piece has at least one character. -/
theorem length_pass_lt {l : Lexer} {c : Char} {rest : List Char} (h : l.rest = c :: rest)
    (piece : Piece) (extent : Nat) : (l.pass piece (extent + 1)).rest.length < l.rest.length := by
  rw [rest_pass, h, List.drop_succ_cons, List.length_drop, List.length_cons]
  omega

/-- Every item takes some of the text. -/
theorem length_nextWithin_lt : ∀ {count : Nat} {l l' : Lexer} {item : Item},
    nextWithin count l = some (item, l') → l'.rest.length < l.rest.length
  | 0, _, _, _, h => by simp [nextWithin] at h
  | count + 1, l, l', item, h => by
    rw [nextWithin] at h
    cases hl : l.rest with
    | nil => simp [hl] at h
    | cons c rest =>
      have hlt := length_pass_lt hl (Piece.scan c rest).1 (Piece.scan c rest).2
      simp only [hl] at h
      rcases hpiece : (Piece.scan c rest).1 with lexeme | form | cause <;> rw [hpiece] at hlt
      · simp only [hpiece, Option.some.injEq, Prod.mk.injEq] at h
        rw [← hl, ← h.2]
        exact hlt
      · simp only [hpiece] at h
        rw [← hl]
        exact Nat.lt_trans (length_nextWithin_lt h) hlt
      · simp only [hpiece, Option.some.injEq, Prod.mk.injEq] at h
        rw [← hl, ← h.2]
        exact hlt

/-- Cutting off an item makes the rest shorter. -/
theorem length_next?_lt {l l' : Lexer} {item : Item} (h : l.next? = some (item, l')) :
    l'.rest.length < l.rest.length := length_nextWithin_lt h

/-- The bound on the number of items is ample as soon as it is the length of the text. -/
theorem itemsWithin_eq : ∀ {n k : Nat} {l : Lexer}, l.rest.length ≤ n → l.rest.length ≤ k →
    itemsWithin n l = itemsWithin k l
  | 0, 0, _, _, _ => rfl
  | 0, k + 1, l, hn, _ => by
    have hnone : l.next? = none := by
      rw [next?, Nat.le_zero.mp hn, nextWithin]
    simp only [itemsWithin, hnone]
  | n + 1, 0, l, _, hk => by
    have hnone : l.next? = none := by
      rw [next?, Nat.le_zero.mp hk, nextWithin]
    simp only [itemsWithin, hnone]
  | n + 1, k + 1, l, hn, hk => by
    rcases hnext : l.next? with _ | ⟨item, l'⟩
    · simp only [itemsWithin, hnext]
    · have hlt := length_next?_lt hnext
      simp only [itemsWithin, hnext,
        itemsWithin_eq (n := n) (k := k) (l := l') (by omega) (by omega)]

/-- **The items are the next one, then the items after it.** -/
theorem items_eq (l : Lexer) :
    l.items = match l.next? with
      | none => []
      | some (item, l') => item :: l'.items := by
  rcases hnext : l.next? with _ | ⟨item, l'⟩
  · rw [items, itemsWithin_eq (Nat.le_refl _) (Nat.le_succ _), itemsWithin, hnext]
  · have hlt := length_next?_lt hnext
    rw [items, itemsWithin_eq (Nat.le_refl _) (Nat.le_succ _), itemsWithin, hnext]
    simp only [items, itemsWithin_eq (l := l') (Nat.le_of_lt hlt) (Nat.le_refl _)]

/-- There are at most as many items as characters. -/
theorem length_items_le : ∀ {n : Nat} (l : Lexer), (itemsWithin n l).length ≤ l.rest.length
  | 0, _ => Nat.zero_le _
  | n + 1, l => by
    rcases hnext : l.next? with _ | ⟨item, l'⟩
    · simp [itemsWithin, hnext]
    · have hlt := length_next?_lt hnext
      have hle := length_items_le (n := n) l'
      simp only [itemsWithin, hnext, List.length_cons]
      omega

end Lexer

namespace Feed

/-! ## The items of a feed -/

@[simp] theorem items_ofSource (source : String) : (ofSource source).items = lex source := rfl

/-- A token that is put back is the next item. -/
@[simp] theorem items_putBack (s : Feed) (t : Token) : (s.putBack t).items = .ok t :: s.items := rfl

/-- The bound that rules take from a feed is no smaller than the number of its items. -/
theorem length_items_le_size (s : Feed) : s.items.length ≤ s.size := by
  simp only [items, size, List.length_append, List.length_map]
  exact Nat.add_le_add_left (Lexer.length_items_le s.lexer) _

/-- **Taking a token takes the first item.** -/
theorem items_take (s : Feed) :
    s.items = match s.take with
      | (.ok none, _) => []
      | (.ok (some t), s') => .ok t :: s'.items
      | (.error e, s') => .error e :: s'.items := by
  rcases s with ⟨pending, lexer, lastRead, history⟩
  cases pending with
  | cons t rest => rfl
  | nil =>
    simp only [items, take, List.map_nil, List.nil_append]
    rw [Lexer.items_eq]
    rcases lexer.next? with _ | ⟨e | t, rest⟩ <;> rfl

/-- At the end of the source nothing changes. -/
theorem take_none {s s' : Feed} (h : s.take = (.ok none, s')) : s' = s := by
  rcases s with ⟨pending, lexer, lastRead, history⟩
  cases pending with
  | cons t rest => simp [take] at h
  | nil =>
    simp only [take] at h
    rcases hnext : lexer.next? with _ | ⟨e | t, rest⟩ <;> simp [hnext] at h
    exact h.symm

end Feed

namespace Lexeme

/-- Only the mark itself is of the class of a mark. -/
@[simp] theorem sameClass_mark (l : Lexeme) (m : Mark) : l.sameClass (.mark m) ↔ l = .mark m := by
  cases l <;> simp [sameClass]

@[simp] theorem sameClass_keyword (l : Lexeme) (k : Keyword) :
    l.sameClass (.keyword k) ↔ l = .keyword k := by
  cases l <;> simp [sameClass]

end Lexeme

namespace Rule

variable {α β : Type}

/-! ## What the primitives returned -/

/-- A token that was read was the first item. -/
theorem read?_eq_some {s s' : Feed} {t : Token} (h : read?.run s = (.ok (some t), s')) :
    s.items = .ok t :: s'.items := by
  have htake : s.take = (.ok (some t), s') := h
  rw [s.items_take, htake]

/-- Nothing is read only at the end. -/
theorem read?_eq_none {s s' : Feed} (h : read?.run s = (.ok none, s')) :
    s.items = [] ∧ s'.items = [] := by
  have htake : s.take = (.ok none, s') := h
  have hnil : s.items = [] := by rw [s.items_take, htake]
  exact ⟨hnil, (Feed.take_none htake).symm ▸ hnil⟩

theorem read_eq_ok {expected : String} {s s' : Feed} {t : Token}
    (h : (read expected).run s = (.ok t, s')) : s.items = .ok t :: s'.items := by
  obtain ⟨r, s₁, hread, h⟩ := Action.run_bind_eq_ok h
  cases r with
  | none => cases h
  | some t' =>
    cases h
    exact read?_eq_some hread

/-- What was required and read was the first item, and is of the class asked for. -/
theorem require_eq_ok {lexeme : Lexeme} {s s' : Feed} {t : Token}
    (h : (require lexeme).run s = (.ok t, s')) :
    s.items = .ok t :: s'.items ∧ t.lexeme.sameClass lexeme := by
  obtain ⟨t', s₁, hread, h⟩ := Action.run_bind_eq_ok h
  by_cases hclass : t'.lexeme.sameClass lexeme = true
  · rw [if_pos hclass] at h
    cases h
    exact ⟨read_eq_ok hread, hclass⟩
  · rw [if_neg hclass] at h
    cases h

/-- What was accepted was the first item; if nothing was, all items are still there. -/
theorem accept?_eq_ok {lexeme : Lexeme} {s s' : Feed} {r : Option Token}
    (h : (accept? lexeme).run s = (.ok r, s')) :
    (∃ t, r = some t ∧ s.items = .ok t :: s'.items ∧ t.lexeme.sameClass lexeme) ∨
      (r = none ∧ s'.items = s.items) := by
  obtain ⟨r', s₁, hread, h⟩ := Action.run_bind_eq_ok h
  cases r' with
  | none =>
    cases h
    obtain ⟨hs, hs'⟩ := read?_eq_none hread
    exact .inr ⟨rfl, hs'.trans hs.symm⟩
  | some t =>
    have hitems := read?_eq_some hread
    by_cases hclass : t.lexeme.sameClass lexeme = true
    · simp only [if_pos hclass] at h
      cases h
      exact .inl ⟨t, rfl, hitems, hclass⟩
    · simp only [if_neg hclass] at h
      cases h
      exact .inr ⟨rfl, hitems.symm⟩

theorem mark_eq_ok {m : Mark} {s s' : Feed} {t : Token} (h : (mark m).run s = (.ok t, s')) :
    s.items = .ok ⟨.mark m, t.position⟩ :: s'.items := by
  obtain ⟨hitems, hclass⟩ := require_eq_ok h
  rw [hitems, ← (Lexeme.sameClass_mark _ _).mp hclass]

theorem word_eq_ok {k : Keyword} {s s' : Feed} {t : Token} (h : (word k).run s = (.ok t, s')) :
    s.items = .ok ⟨.keyword k, t.position⟩ :: s'.items := by
  obtain ⟨hitems, hclass⟩ := require_eq_ok h
  rw [hitems, ← (Lexeme.sameClass_keyword _ _).mp hclass]

/-- After a mark was read over, it was the first item; where it stood is not kept. -/
theorem discard_mark_eq_ok {m : Mark} {s s' : Feed} {u : Unit}
    (h : (discard (mark m)).run s = (.ok u, s')) :
    ∃ p, s.items = .ok ⟨.mark m, p⟩ :: s'.items := by
  obtain ⟨t, s₁, hmark, h⟩ := Action.run_bind_eq_ok h
  cases h
  exact ⟨t.position, mark_eq_ok hmark⟩

theorem discard_word_eq_ok {k : Keyword} {s s' : Feed} {u : Unit}
    (h : (discard (word k)).run s = (.ok u, s')) :
    ∃ p, s.items = .ok ⟨.keyword k, p⟩ :: s'.items := by
  obtain ⟨t, s₁, hword, h⟩ := Action.run_bind_eq_ok h
  cases h
  exact ⟨t.position, word_eq_ok hword⟩

/-- Asking for the bound reads nothing. -/
theorem run_remaining_bind (f : Nat → Rule α) (s : Feed) :
    (remaining >>= f).run s = (f s.size).run s := rfl

theorem run_unread_bind (t : Token) (f : Unit → Rule α) (s : Feed) :
    (unread t >>= f).run s = (f ()).run (s.putBack t) := rfl

/-! ## What the primitives do with tokens -/

/-- **On a feed that holds the tokens `u`, the rule gives `a` and leaves `v`.** -/
def Reads (x : Rule α) (u : List Token) (a : α) (v : List Token) : Prop :=
  ∀ s : Feed, s.items = u.map .ok → ∃ s', x.run s = (.ok a, s') ∧ s'.items = v.map .ok

namespace Reads

variable {u v w : List Token} {a : α} {b : β}

theorem pure (a : α) (u : List Token) : Reads (pure a : Rule α) u a u := fun s h => ⟨s, rfl, h⟩

/-- The second rule starts on the tokens that the first one leaves. -/
theorem bind {x : Rule α} {f : α → Rule β} (hx : Reads x u a v) (hf : Reads (f a) v b w) :
    Reads (x >>= f) u b w := by
  intro s hs
  obtain ⟨s₁, hrun, hs₁⟩ := hx s hs
  obtain ⟨s₂, hrun', hs₂⟩ := hf s₁ hs₁
  exact ⟨s₂, (Action.run_bind_of_ok hrun f).trans hrun', hs₂⟩

theorem discard {x : Rule α} (hx : Reads x u a v) : Reads (discard x) u () v :=
  hx.bind (pure () v)

/-- A source is read as the tokens that it is cut into. -/
theorem parse_eq {x : Rule α} (hx : Reads x u a v) {source : String}
    (h : lex source = u.map .ok) : (x.parse source).1 = .ok a := by
  obtain ⟨s', hrun, -⟩ := hx (.ofSource source) h
  exact congrArg Prod.fst hrun

/-- The bound that a rule asks for is at least the number of tokens. -/
theorem remaining {f : Nat → Rule β} (hf : ∀ n, u.length ≤ n → Reads (f n) u b v) :
    Reads (do let n ← remaining; f n) u b v := by
  intro s hs
  have hsize : u.length ≤ s.size := by
    have hlen := s.length_items_le_size
    rwa [hs, List.length_map] at hlen
  exact hf s.size hsize s hs

end Reads

/-- The next token is read and is gone. -/
theorem reads_read? (t : Token) (v : List Token) : Reads read? (t :: v) (some t) v := by
  intro s hs
  have htake := s.items_take
  rw [hs] at htake
  rcases hrun : s.take with ⟨_ | (_ | t'), s'⟩ <;> rw [hrun] at htake
  · exact absurd (List.cons.inj htake).1 (by simp)
  · exact absurd htake (by simp)
  · obtain ⟨ht, hrest⟩ := List.cons.inj htake
    exact ⟨s', (Except.ok.inj ht).symm ▸ hrun, hrest.symm⟩

theorem reads_read?_nil : Reads read? [] none [] := by
  intro s hs
  have htake := s.items_take
  rw [hs] at htake
  rcases hrun : s.take with ⟨_ | (_ | t), s'⟩ <;> rw [hrun] at htake
  · exact absurd htake (by simp)
  · exact ⟨s', hrun, (Feed.take_none hrun).symm ▸ hs⟩
  · exact absurd htake (by simp)

/-- Putting a token back undoes reading it. -/
theorem reads_unread (t : Token) (v : List Token) : Reads (unread t) v () (t :: v) := by
  intro s hs
  exact ⟨s.putBack t, rfl, by rw [Feed.items_putBack, hs, List.map_cons]⟩

theorem reads_read (expected : String) (t : Token) (v : List Token) :
    Reads (read expected) (t :: v) t v :=
  (reads_read? t v).bind (.pure t v)

/-- A token of the right class is read where it is required. -/
theorem reads_require {lexeme : Lexeme} {t : Token} (h : t.lexeme.sameClass lexeme)
    (v : List Token) : Reads (require lexeme) (t :: v) t v := by
  refine (reads_read _ t v).bind ?_
  rw [if_pos h]
  exact .pure t v

theorem reads_mark (m : Mark) (p : Position) (v : List Token) :
    Reads (mark m) (⟨.mark m, p⟩ :: v) ⟨.mark m, p⟩ v :=
  reads_require ((Lexeme.sameClass_mark _ _).mpr rfl) v

theorem reads_word (k : Keyword) (p : Position) (v : List Token) :
    Reads (word k) (⟨.keyword k, p⟩ :: v) ⟨.keyword k, p⟩ v :=
  reads_require ((Lexeme.sameClass_keyword _ _).mpr rfl) v

/-- A token of the right class is taken where it is optional. -/
theorem reads_accept? {lexeme : Lexeme} {t : Token} (h : t.lexeme.sameClass lexeme)
    (v : List Token) : Reads (accept? lexeme) (t :: v) (some t) v := by
  refine (reads_read? t v).bind ?_
  simp only [if_pos h]
  exact .pure (some t) v

/-- **The tokens do not begin with one that a test accepts.** -/
def Halts (p : Lexeme → Bool) (ts : List Token) : Prop := ∀ t ∈ ts.head?, p t.lexeme = false

theorem halts_cons {p : Lexeme → Bool} {t : Token} {ts : List Token} :
    Halts p (t :: ts) ↔ p t.lexeme = false := by simp [Halts]

theorem Halts.imp {p q : Lexeme → Bool} (hpq : ∀ l, q l = true → p l = true) {ts : List Token}
    (h : Halts p ts) : Halts q ts := by
  intro t ht
  have hp := h t ht
  cases hq : q t.lexeme with
  | false => rfl
  | true => exact absurd (hpq _ hq) (by simp [hp])

/-- What is not accepted is put back. -/
theorem reads_accept?_none {lexeme : Lexeme} {ts : List Token}
    (h : Halts (fun l => l.sameClass lexeme) ts) : Reads (accept? lexeme) ts none ts := by
  cases ts with
  | nil => exact reads_read?_nil.bind (.pure none [])
  | cons t v =>
    refine (reads_read? t v).bind ?_
    simp only [halts_cons.mp h, Bool.false_eq_true, if_false]
    exact (reads_unread t v).bind (.pure none (t :: v))

end Rule

end BraceScript
