import BraceScript.Proofs.Grammar.Lookahead

/-!
# Proofs/Grammar/Pushback — a feed is no more than its items

A feed divides what it holds into tokens put back and text not yet cut.  Nothing that reads can tell
how: of two feeds with the same items and the same token read last, every primitive and every rule
makes the same, and leaves two such feeds again.

For the primitives this is a property of single runs, closed under sequences
(`Action.Respects.bind`).  A rule asks for a bound, which depends on how much text is left to be
cut; that the bound does not matter is known from the rule being local (`Local.oblivious`).
-/

namespace BraceScript

/-- **Two feeds hold the same**, however it is divided, and the same token was read last. -/
structure Feed.Holds (s t : Feed) : Prop where
  items : s.items = t.items
  lastRead : s.lastRead = t.lastRead

namespace Rule

variable {α : Type}

/-- **A rule cannot tell how a feed is divided**: on feeds that hold the same it has the same
result, and leaves feeds that hold the same. -/
abbrev Oblivious (x : Rule α) : Prop := Action.Respects Feed.Holds x

/-! ## Primitives -/

/-- Reading sees the first item, whether it was put back or is still to be cut. -/
theorem oblivious_read? : Oblivious read? := by
  intro s t h
  rcases hitems : s.items with _ | ⟨e | tok, rest⟩
  · have hs : read?.run s = (.ok none, s) := Feed.take_of_nil hitems
    have ht : read?.run t = (.ok none, t) := Feed.take_of_nil (h.items ▸ hitems)
    rw [hs, ht]
    exact ⟨rfl, h⟩
  · obtain ⟨s', hs, hsitems, hsread, -⟩ := Feed.take_of_error hitems
    obtain ⟨t', ht, htitems, htread, -⟩ := Feed.take_of_error (h.items ▸ hitems)
    rw [show read?.run s = _ from hs, show read?.run t = _ from ht]
    exact ⟨rfl, hsitems.trans htitems.symm, by rw [hsread, htread, h.lastRead]⟩
  · obtain ⟨s', hs, hsitems, hsread⟩ := Feed.take_of_ok hitems
    obtain ⟨t', ht, htitems, htread⟩ := Feed.take_of_ok (h.items ▸ hitems)
    rw [show read?.run s = _ from hs, show read?.run t = _ from ht]
    exact ⟨rfl, hsitems.trans htitems.symm, hsread.trans htread.symm⟩

/-- A token that is put back is in front of what was there, however that is divided. -/
theorem oblivious_unread (t : Token) : Oblivious (unread t) := by
  intro s s' h
  refine ⟨rfl, ?_, h.lastRead⟩
  change (s.putBack t).items = (s'.putBack t).items
  rw [Feed.items_putBack, Feed.items_putBack, h.items]

/-- The place of the last token is one of the things that feeds holding the same share. -/
theorem oblivious_endOfInput (expected : String) :
    Oblivious (endOfInput expected : Rule α) := by
  intro s t h
  refine ⟨?_, h⟩
  change Except.error _ = Except.error _
  rw [h.lastRead]

theorem oblivious_read (expected : String) : Oblivious (read expected) := by
  refine oblivious_read?.bind fun r => ?_
  cases r with
  | some t => exact Action.respects_pure _ t
  | none => exact oblivious_endOfInput expected

theorem oblivious_require (lexeme : Lexeme) : Oblivious (require lexeme) := by
  refine (oblivious_read _).bind fun t => ?_
  split
  · exact Action.respects_pure _ t
  · exact Action.respects_throw _ _

theorem oblivious_accept? (lexeme : Lexeme) : Oblivious (accept? lexeme) := by
  refine oblivious_read?.bind fun r => ?_
  cases r with
  | none => exact Action.respects_pure _ none
  | some t =>
    dsimp only
    split
    · exact Action.respects_pure _ (some t)
    · exact (oblivious_unread t).bind fun _ => Action.respects_pure _ none

/-! ## Rules -/

/-- **A local rule sees the items only.**  The two runs are under different bounds, and both bounds
are ample. -/
theorem Local.oblivious [Placed α] [LawfulPlaced α] {c w : Nat} {x : Rule α}
    (h : ∀ n m : Int, Local id c w n m x x) : Oblivious x := by
  intro s t hst
  obtain ⟨us, hstops, hfollows⟩ :=
    (h s.items.length t.items.length).follows s t (Int.le_refl _) (Int.le_refl _)
  have halike : Alike id (us.length + reach w (x.run s).1) s t :=
    ⟨.of_place_eq (congrArg (place id) hst.items) _, hst.lastRead⟩
  obtain ⟨us', hus, hstops', hresult, hread⟩ := hfollows halike
  rw [place_id, place_id] at hresult hus
  refine ⟨hresult, ?_, hread⟩
  rw [hstops.items_eq, hstops'.items_eq, hst.items, hresult, hus]

/-! ## Putting back what was read -/

/-- **The tokens that were read, one after the other**, by whichever primitive. -/
inductive Takes : Feed → List Token → Feed → Prop
  | nil (s : Feed) : Takes s [] s
  | read? {s s₁ s' : Feed} {t : Token} {ts : List Token} : read?.run s = (.ok (some t), s₁) →
    Takes s₁ ts s' → Takes s (t :: ts) s'
  | read {s s₁ s' : Feed} {t : Token} {ts : List Token} {expected : String} :
    (read expected).run s = (.ok t, s₁) → Takes s₁ ts s' → Takes s (t :: ts) s'
  | require {s s₁ s' : Feed} {t : Token} {ts : List Token} {lexeme : Lexeme} :
    (require lexeme).run s = (.ok t, s₁) → Takes s₁ ts s' → Takes s (t :: ts) s'
  | accept? {s s₁ s' : Feed} {t : Token} {ts : List Token} {lexeme : Lexeme} :
    (accept? lexeme).run s = (.ok (some t), s₁) → Takes s₁ ts s' → Takes s (t :: ts) s'

/-- Tokens that were taken were the first items, in that order. -/
theorem Takes.items_eq {s s' : Feed} {ts : List Token} (h : Takes s ts s') :
    s.items = ts.map .ok ++ s'.items := by
  induction h with
  | nil s => rfl
  | read? hread _ ih => rw [read?_eq_some hread, ih]; rfl
  | read hread _ ih => rw [read_eq_ok hread, ih]; rfl
  | require hread _ ih => rw [(require_eq_ok hread).1, ih]; rfl
  | accept? hread _ ih =>
    obtain ⟨t, ht, hitems, -⟩ | ⟨hnone, -⟩ := accept?_eq_ok hread
    · cases ht
      rw [hitems, ih]
      rfl
    · cases hnone

/-- Puts tokens back, one after the other. -/
def unreadAll : List Token → Rule Unit
  | [] => return ()
  | t :: ts => do
    unread t
    unreadAll ts

/-- What is put back last comes first. -/
theorem items_unreadAll (ts : List Token) (s : Feed) :
    ((unreadAll ts).run s).2.items = ts.reverse.map .ok ++ s.items := by
  induction ts generalizing s with
  | nil => rfl
  | cons t ts ih =>
    rw [unreadAll, run_unread_bind, ih, Feed.items_putBack]
    simp

end Rule

open Rule in
/-- **A feed with tokens put back is as good as a list of items.**  On two feeds with the same items
and the same token read last, however the items are divided between tokens put back and text not yet
cut, every primitive and every rule has the same result, a value or an error, and leaves two feeds
that again hold the same.  And if the tokens that were read are put back, the last one first, the
items are what they were. -/
theorem feed_refines_items :
    Oblivious read? ∧ (∀ expected, Oblivious (read expected)) ∧
      (∀ lexeme, Oblivious (require lexeme)) ∧
    (∀ lexeme, Oblivious (accept? lexeme)) ∧ (∀ t, Oblivious (unread t)) ∧
    Oblivious comparison ∧ Oblivious sum ∧ Oblivious product ∧ Oblivious factor ∧ Oblivious call ∧
    Oblivious statement ∧ Oblivious block ∧ Oblivious program ∧
    ∀ (s s' : Feed) (ts : List Token), Takes s ts s' →
      ((unreadAll ts.reverse).run s').2.items = s.items := by
  refine ⟨oblivious_read?, oblivious_read, oblivious_require, oblivious_accept?, oblivious_unread,
    Local.oblivious fun _ _ => local_comparison, Local.oblivious fun _ _ => local_sum,
    Local.oblivious fun _ _ => local_product, Local.oblivious fun _ _ => local_factor,
    Local.oblivious fun _ _ => local_call, Local.oblivious fun _ _ => local_statement,
    Local.oblivious fun _ _ => local_block, Local.oblivious fun _ _ => local_program,
    fun s s' ts h => ?_⟩
  rw [items_unreadAll, List.reverse_reverse, h.items_eq]

/-- The first two tokens of a call. -/
def Token.opening : List Token := [⟨.identifier "f", ⟨1, 1⟩⟩, ⟨.mark .leftParen, ⟨1, 2⟩⟩]

open Rule in
/-- A call of which two tokens were read and put back is read like one that was never touched. -/
theorem feed_refines_items_opening :
    ∃ s t : Feed, Takes (.ofSource "f(x) y") Token.opening s ∧
      ((unreadAll Token.opening.reverse).run s).2 = t ∧ t.items = lex "f(x) y" ∧
      (call.run { t with lastRead := .start }).1 = (call.run (.ofSource "f(x) y")).1 := by
  obtain ⟨-, -, -, -, -, -, -, -, -, hcall, -, -, -, hback⟩ := feed_refines_items
  have hname : read?.run (.ofSource "f(x) y") =
      (.ok (some ⟨.identifier "f", ⟨1, 1⟩⟩), (read?.run (.ofSource "f(x) y")).2) :=
    Prod.ext rfl rfl
  obtain ⟨s, hs⟩ : ∃ s, (require (.mark .leftParen)).run (read?.run (.ofSource "f(x) y")).2 =
      (.ok ⟨.mark .leftParen, ⟨1, 2⟩⟩, s) := ⟨_, Prod.ext rfl rfl⟩
  have htakes : Takes (.ofSource "f(x) y") Token.opening s := .read? hname (.require hs (.nil s))
  have hitems := hback _ _ _ htakes
  refine ⟨s, _, htakes, rfl, hitems.trans (Feed.items_ofSource _), ?_⟩
  have hholds : Feed.Holds { ((unreadAll Token.opening.reverse).run s).2 with lastRead := .start }
      (.ofSource "f(x) y") := ⟨hitems, rfl⟩
  exact (hcall _ _ hholds).1

end BraceScript
