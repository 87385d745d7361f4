import BraceScript.Proofs.Feed
import Mathlib.Data.List.Nodup
import Mathlib.Data.Nat.Basic
import Mathlib.Order.Basic

/-!
# Proofs/Reread — counting how often a token is read

A rule that looks ahead puts back what it read, and the next rule reads it again.  `Feed.Tally` says
how often the tokens that stand next were read before; `Rereads held ks x js` says that a rule, on a
feed whose next tokens were read at most `ks` times, reads none more often than seven times, and how
often those that it leaves were read if it succeeds.  The tokens `held` are in the hands of the
rule: read last, and not put back so far.

Beside the counts the tally keeps the order.  What the lexer has given so far are the tokens gone,
those in hand and those put back, in this order, and each was read before the next was cut; so the
tokens, each at its first reading, follow one another as in the source.
-/

namespace BraceScript

deriving instance DecidableEq for Number, Lexeme, Token

/-- One more at the end is a first occurrence or changes nothing. -/
theorem eraseDups_append_singleton {α : Type} [DecidableEq α] (as : List α) (a : α) :
    (as ++ [a]).eraseDups = if a ∈ as then as.eraseDups else as.eraseDups ++ [a] := by
  have hone : [a].eraseDups = [a] := by
    rw [List.eraseDups_cons, List.filter_nil, List.eraseDups_nil]
  rw [List.eraseDups_append, List.removeAll, List.filter_singleton]
  by_cases ha : a ∈ as <;> simp [ha, hone]

namespace Feed

/-- All tokens read so far, the earliest first. -/
def reads (s : Feed) : List Token := s.history.reverse

/-- **No token was read more than seven times**, and in the order in which they were read first the
tokens are the first items of a list. -/
structure Sparing (L : List Item) (s : Feed) : Prop where
  firsts : s.reads.eraseDups.map .ok <+: L
  total : ∀ t, s.reads.count t ≤ 7

/-- **The tally of a feed over the items `L`.**  The tokens in hand were read at most as often as
noted with them, the items ahead at most as often as the numbers say, and not at all where the
numbers end. -/
structure Tally (L : List Item) (held : List (Token × Nat)) (ks : List Nat) (s : Feed) : Prop where
  distinct : L.Nodup
  /-- What was read, and what was not cut so far. -/
  cut : s.reads.eraseDups.map .ok ++ s.lexer.items = L
  /-- What was read is gone, in hand, or put back. -/
  order : ∃ gone, s.reads.eraseDups = gone ++ (held.map Prod.fst).reverse ++ s.pending
  total : ∀ t, s.reads.count t ≤ 7
  inHand : ∀ e ∈ held, s.reads.count e.1 ≤ e.2
  ahead : ∀ i t, s.items[i]? = some (.ok t) → s.reads.count t ≤ ks.getD i 0

/-- A new feed. -/
theorem tally_ofSource {source : String} (h : (lex source).Nodup) :
    (ofSource source).Tally (lex source) [] [] where
  distinct := h
  cut := rfl
  order := ⟨[], rfl⟩
  total _ := Nat.zero_le _
  inHand _ h := by cases h
  ahead _ _ _ := Nat.zero_le _

theorem reads_take_of_error {s s' : Feed} {e : SyntaxError} (h : s.take = (.error e, s')) :
    s'.reads = s.reads := by
  rcases s with ⟨pending, lexer, lastRead, history⟩
  cases pending with
  | cons t rest => cases h
  | nil =>
    simp only [take] at h
    rcases hnext : lexer.next? with _ | ⟨e | t, rest⟩ <;> simp only [hnext, Prod.mk.injEq] at h
    · cases h.1
    · rw [← h.2]
      rfl
    · cases h.1

namespace Tally

variable {L : List Item} {held : List (Token × Nat)} {ks js : List Nat} {s s' : Feed}
  {t : Token} {k : Nat}

theorem sparing (h : s.Tally L held ks) : s.Sparing L := ⟨⟨s.lexer.items, h.cut⟩, h.total⟩

theorem mono (h : s.Tally L held ks) (hks : ∀ i, ks.getD i 0 ≤ js.getD i 0) : s.Tally L held js :=
  { h with ahead := fun i t ht => (h.ahead i t ht).trans (hks i) }

/-- Tokens in hand that are not put back are gone. -/
theorem forget (h : s.Tally L held ks) : s.Tally L [] ks := by
  obtain ⟨gone, horder⟩ := h.order
  exact { h with
    order := ⟨gone ++ (held.map Prod.fst).reverse, by simpa using horder⟩
    inHand := fun _ he => by cases he }

/-- Where no items are left, none was read too often. -/
theorem of_nil (h : s.Tally L held ks) (hs : s.items = []) (js : List Nat) : s.Tally L held js :=
  { h with ahead := fun i t ht => by simp [hs] at ht }

/-- A token in hand that is put back is ahead again, read as often as it was. -/
theorem putBack (h : s.Tally L ((t, k) :: held) ks) : (s.putBack t).Tally L held (k :: ks) where
  distinct := h.distinct
  cut := h.cut
  order := by
    obtain ⟨gone, horder⟩ := h.order
    exact ⟨gone, horder.trans (by simp [Feed.putBack])⟩
  total := h.total
  inHand e he := h.inHand e (List.mem_cons_of_mem _ he)
  ahead i u hu := by
    rw [items_putBack] at hu
    cases i with
    | zero =>
      obtain rfl : t = u := Except.ok.inj (Option.some.inj hu)
      exact h.inHand _ List.mem_cons_self
    | succ i => exact h.ahead i u hu

/-- What is gone, in hand and ahead makes up all items. -/
theorem items_eq (h : s.Tally L held ks) :
    ∃ gone : List Token, L = (gone ++ (held.map Prod.fst).reverse).map .ok ++ s.items := by
  obtain ⟨gone, horder⟩ := h.order
  refine ⟨gone, ?_⟩
  rw [← h.cut, horder, List.map_append, List.append_assoc, Feed.items]

/-- **A token that is taken is none of those in hand or further ahead.** -/
theorem ne_of_items (h : s.Tally L held ks) (hitems : s.items = .ok t :: s'.items) :
    (∀ e ∈ held, e.1 ≠ t) ∧ .ok t ∉ s'.items := by
  obtain ⟨gone, hL⟩ := h.items_eq
  have hnodup := h.distinct
  rw [hL, hitems, List.nodup_middle, List.nodup_cons, List.mem_append] at hnodup
  refine ⟨fun e he heq => hnodup.1 (.inl ?_), fun hmem => hnodup.1 (.inr hmem)⟩
  refine List.mem_map_of_mem (List.mem_append_right _ ?_)
  exact List.mem_reverse.mpr (heq ▸ List.mem_map_of_mem he)

/-- **A token put back was read before; one that is cut now was not.** -/
theorem eraseDups_take (h : s.Tally L held ks) (htake : s.take = (.ok (some t), s')) :
    s'.reads = s.reads ++ [t] ∧ s'.reads.eraseDups.map .ok ++ s'.lexer.items = L ∧
      ∀ front, s.reads.eraseDups = front ++ s.pending →
        s'.reads.eraseDups = front ++ t :: s'.pending := by
  rcases s with ⟨pending, lexer, lastRead, history⟩
  cases pending with
  | cons u pending =>
    obtain ⟨ht, rfl⟩ := Prod.mk.inj htake
    obtain rfl : u = t := Option.some.inj (Except.ok.inj ht)
    have hreads : (u :: history).reverse = history.reverse ++ [u] := List.reverse_cons
    -- A token that was put back is among those read, and stays in its place.
    have hmem : u ∈ history.reverse := by
      obtain ⟨gone, horder⟩ := h.order
      rw [← List.mem_eraseDups]
      exact horder ▸ List.mem_append_right _ List.mem_cons_self
    have hsame : (u :: history).reverse.eraseDups = history.reverse.eraseDups := by
      rw [hreads, eraseDups_append_singleton, if_pos hmem]
    exact ⟨hreads, (congrArg (fun ts => ts.map .ok ++ lexer.items) hsame).trans h.cut,
      fun front hfront => hsame.trans hfront⟩
  | nil =>
    simp only [Feed.take] at htake
    rcases hnext : lexer.next? with _ | ⟨e | u, rest⟩ <;> simp only [hnext, Prod.mk.injEq] at htake
    · cases htake.1
    · cases htake.1
    · obtain ⟨ht, rfl⟩ := htake
      obtain rfl : u = t := Option.some.inj (Except.ok.inj ht)
      have hreads : (u :: history).reverse = history.reverse ++ [u] := List.reverse_cons
      have hitems : lexer.items = .ok u :: rest.items := by rw [lexer.items_eq, hnext]
      have hcut : history.reverse.eraseDups.map .ok ++ .ok u :: rest.items = L := hitems ▸ h.cut
      -- The lexer gives no item twice, and all that was read it gave before.
      have hnew : u ∉ history.reverse := by
        have hnodup := h.distinct
        rw [← hcut, List.nodup_middle, List.nodup_cons, List.mem_append] at hnodup
        exact fun hmem => hnodup.1 (.inl (List.mem_map_of_mem (List.mem_eraseDups.mpr hmem)))
      have hfirst : (u :: history).reverse.eraseDups = history.reverse.eraseDups ++ [u] := by
        rw [hreads, eraseDups_append_singleton, if_neg hnew]
      refine ⟨hreads, ?_, fun front hfront => ?_⟩
      · change (u :: history).reverse.eraseDups.map .ok ++ rest.items = L
        rw [hfirst, List.map_append, List.append_assoc]
        exact hcut
      · rw [List.append_nil] at hfront
        rw [← hfront]
        exact hfirst

/-- **Taking a token counts it once more**, and no other. -/
theorem take (h : s.Tally L held ks) (hk : ks.headD 0 < 7) (htake : s.take = (.ok (some t), s')) :
    s'.Tally L ((t, ks.headD 0 + 1) :: held) ks.tail := by
  have hitems : s.items = .ok t :: s'.items := Rule.read?_eq_some htake
  obtain ⟨hheld, hahead⟩ := h.ne_of_items hitems
  obtain ⟨hreads, hcut, horder⟩ := h.eraseDups_take htake
  have hcount : s'.reads.count t ≤ ks.headD 0 + 1 := by
    have hfirst := h.ahead 0 t (by rw [hitems]; rfl)
    rw [hreads, List.count_append, List.count_singleton_self]
    cases ks <;> exact Nat.add_le_add_right hfirst 1
  have hother (u : Token) (hu : u ≠ t) : s'.reads.count u = s.reads.count u := by
    rw [hreads, List.count_append, List.count_singleton, if_neg (by simpa using hu.symm),
      Nat.add_zero]
  refine ⟨h.distinct, hcut, ?_, fun u => ?_, fun e he => ?_, fun i u hu => ?_⟩
  · obtain ⟨gone, hgone⟩ := h.order
    exact ⟨gone, (horder _ hgone).trans (by simp)⟩
  · by_cases hu : u = t
    · exact hu ▸ hcount.trans hk
    · exact (hother u hu).trans_le (h.total u)
  · obtain rfl | he := List.mem_cons.mp he
    · exact hcount
    · exact (hother _ (hheld e he)).trans_le (h.inHand e he)
  · have hne : u ≠ t := by
      rintro rfl
      exact hahead (List.mem_of_getElem? hu)
    rw [hother u hne]
    have hnext := h.ahead (i + 1) u (by rw [hitems]; exact hu)
    cases ks <;> exact hnext

end Tally

end Feed

namespace Rule

variable {α β : Type}

/-! ## Rules that count -/

/-- **What is known after a run**: the tally if it succeeded, and that no token was read too often
if it failed. -/
def Counted (L : List Item) (js : List Nat) : Except SyntaxError α × Feed → Prop
  | (.ok _, s) => s.Tally L [] js
  | (.error _, s) => s.Sparing L

/-- **A rule that holds the tokens `held`, on a feed whose next tokens were read at most `ks` times,
leaves one whose next tokens were read at most `js` times.** -/
def Rereads (held : List (Token × Nat)) (ks : List Nat) (x : Rule α) (js : List Nat) : Prop :=
  ∀ ⦃L : List Item⦄ ⦃s : Feed⦄, s.Tally L held ks → Counted L js (x.run s)

namespace Rereads

variable {held : List (Token × Nat)} {ks js is : List Nat} {x : Rule α} {t : Token} {k : Nat}

theorem mono {js' : List Nat} (h : Rereads held ks x js) (hjs : ∀ i, js.getD i 0 ≤ js'.getD i 0) :
    Rereads held ks x js' := by
  intro L s hs
  have hrun := h hs
  rcases hx : x.run s with ⟨e | a, s'⟩ <;> rw [hx] at hrun
  · exact hrun
  · exact Feed.Tally.mono hrun hjs

/-- Tokens not read so far may be said to be read no more than zero times. -/
theorem fresh (h : Rereads held [0] x js) : Rereads held [] x js :=
  fun _ _ hs => h (hs.mono fun _ => Nat.zero_le _)

/-- A rule that puts nothing back forgets what it holds. -/
theorem forget (h : Rereads [] ks x js) : Rereads held ks x js := fun _ _ hs => h hs.forget

theorem pure (a : α) : Rereads held ks (pure a) ks := fun _ _ hs => hs.forget

theorem throw (e : SyntaxError) : Rereads held ks (throw e : Rule α) js := fun _ _ hs => hs.sparing

theorem endOfInput (expected : String) : Rereads held ks (endOfInput expected : Rule α) js :=
  fun _ _ hs => hs.sparing

/-- **One rule after the other.** -/
theorem bind {f : α → Rule β} (hx : Rereads held ks x js) (hf : ∀ a, Rereads [] js (f a) is) :
    Rereads held ks (x >>= f) is := by
  intro L s hs
  have hrun := hx hs
  rcases hxs : x.run s with ⟨e | a, s'⟩ <;> rw [hxs] at hrun
  · rw [Action.run_bind_of_error hxs]
    exact hrun
  · rw [Action.run_bind_of_ok hxs]
    exact hf a hrun

/-- Nothing is read after the last. -/
theorem bind_pure (hx : Rereads held ks x js) (f : α → β) :
    Rereads held ks (x >>= fun a => Pure.pure (f a)) js :=
  hx.bind fun a => pure (f a)

theorem remaining_bind {f : Nat → Rule α} (hf : ∀ n, Rereads held ks (f n) js) :
    Rereads held ks (remaining >>= f) js :=
  fun _ s hs => hf s.size hs

/-- A token that is put back stands ahead again. -/
theorem unread_bind {f : Unit → Rule α} (hf : Rereads held (k :: ks) (f ()) js) :
    Rereads ((t, k) :: held) ks (unread t >>= f) js :=
  fun _ _ hs => hf hs.putBack

/-- **Reading a token, then deciding on it.** -/
theorem read?_bind {f : Option Token → Rule α} (hk : ks.headD 0 < 7)
    (hsome : ∀ t, Rereads ((t, ks.headD 0 + 1) :: held) ks.tail (f (some t)) js)
    (hnone : Rereads held [] (f none) js) : Rereads held ks (read? >>= f) js := by
  intro L s hs
  rcases htake : s.take with ⟨e | (_ | t), s'⟩
  · have hread : read?.run s = (.error e, s') := htake
    rw [Action.run_bind_of_error hread]
    have hsame := Feed.reads_take_of_error htake
    exact ⟨hsame ▸ hs.sparing.firsts, hsame ▸ hs.total⟩
  · have hread : read?.run s = (.ok none, s') := htake
    rw [Action.run_bind_of_ok hread, Feed.take_none htake]
    exact hnone (hs.of_nil (read?_eq_none hread).1 [])
  · have hread : read?.run s = (.ok (some t), s') := htake
    rw [Action.run_bind_of_ok hread]
    exact hsome t (hs.take hk htake)

theorem read_bind {expected : String} {f : Token → Rule α} (hk : ks.headD 0 < 7)
    (hf : ∀ t, Rereads ((t, ks.headD 0 + 1) :: held) ks.tail (f t) js) :
    Rereads held ks (read expected >>= f) js := by
  rw [read, bind_assoc]
  exact read?_bind hk hf (endOfInput expected)

/-- A token that is not accepted was read once more. -/
theorem accept?_bind {lexeme : Lexeme} {f : Option Token → Rule α} (hk : ks.headD 0 < 7)
    (hsome : ∀ t, Rereads ((t, ks.headD 0 + 1) :: held) ks.tail (f (some t)) js)
    (hnone : Rereads held ((ks.headD 0 + 1) :: ks.tail) (f none) js) :
    Rereads held ks (accept? lexeme >>= f) js := by
  rw [accept?, bind_assoc]
  refine read?_bind hk (fun t => ?_) fun _ _ hs => hnone (hs.mono fun _ => Nat.zero_le _)
  by_cases hclass : t.lexeme.sameClass lexeme = true
  · simp only [if_pos hclass]
    exact hsome t
  · simp only [if_neg hclass]
    exact unread_bind (f := fun _ => f none) hnone

theorem require_bind {lexeme : Lexeme} {f : Token → Rule α} (hk : ks.headD 0 < 7)
    (hf : ∀ t, Rereads [] ks.tail (f t) js) : Rereads held ks (require lexeme >>= f) js := by
  rw [require, bind_assoc]
  refine read_bind hk fun t => ?_
  split
  · exact (hf t).forget
  · exact throw _

theorem mark_bind {m : Mark} {f : Unit → Rule α} (hk : ks.headD 0 < 7)
    (hf : Rereads [] ks.tail (f ()) js) : Rereads held ks (discard (mark m) >>= f) js := by
  have hmark : Rereads held ks (discard (mark m)) ks.tail := require_bind hk fun _ => pure ()
  exact hmark.bind fun _ => hf

theorem word_bind {w : Keyword} {f : Unit → Rule α} (hk : ks.headD 0 < 7)
    (hf : Rereads [] ks.tail (f ()) js) : Rereads held ks (discard (word w) >>= f) js := by
  have hword : Rereads held ks (discard (word w)) ks.tail := require_bind hk fun _ => pure ()
  exact hword.bind fun _ => hf

end Rereads

end Rule

end BraceScript
