import BraceScript.Proofs.Placed
import BraceScript.Proofs.Token.Cut

/-!
# Proofs/Lookahead — how much of a feed a rule takes, and how much more it looks at

A rule takes tokens off a feed.  To know where it has to stop it may look at the item after them,
and an error is about that item or about the end of the feed; further ahead it never looks, and
tokens that it reads twice are read the same both times.

* `Stops c s us out` — a run on `s` took the tokens `us`, at least `c` of them if it succeeded, and
  stopped with the outcome `out`.
* `Local f c w n m x y` — on feeds of at most `n` and `m` items, `x` and `y` stop; and if the feeds
  agree, up to the positions moved by `f`, on the tokens taken and on `w` items after them, the two
  outcomes agree up to `f` too.  The two rules are one and the same in the end, but under different
  bounds on nesting and on loops: each feed brings its own.
-/

namespace BraceScript

/-! ## Errors by what they are about -/

namespace SyntaxFault

/-- The token that a fault is about, if it is about one. -/
def found? : SyntaxFault → Option Lexeme
  | unexpectedToken _ found | invalidStatement found | trailingToken found => some found
  | _ => none

/-- Whether a fault is found while the text is cut into tokens. -/
def isLexical : SyntaxFault → Bool
  | invalidCharacter _ | invalidNumeric _ | unterminatedComment => true
  | _ => false

end SyntaxFault

/-- Every fault that the lexer finds is a lexical one. -/
theorem Piece.isLexical_of_scan {c : Char} {rest : List Char} {cause : SyntaxFault}
    (h : (scan c rest).1 = .fault cause) : cause.isLexical := by
  revert h
  fun_cases scan c rest with
  | case1 => exact fun h => by cases h
  | case2 _ _ tail =>
    unfold ofLiteral
    split
    · exact fun h => by cases h
    · rintro ⟨⟩
      rfl
  | case3 => exact fun h => by cases h
  | case4 => exact fun h => by cases h
  | case5 =>
    unfold ofComment
    split
    · exact fun h => by cases h
    · rintro ⟨⟩
      rfl
  | case6 =>
    obtain ⟨m, d, -, -, heq⟩ | ⟨-, ⟨m, -, heq⟩ | ⟨-, heq⟩⟩ := ofMark_cases c rest
    · rw [heq]
      exact fun h => by cases h
    · rw [heq]
      exact fun h => by cases h
    · rw [heq]
      rintro ⟨⟩
      rfl

/-- What the lexer finds wrong is wrong with the text. -/
theorem Lexer.isLexical_of_nextWithin : ∀ {count : Nat} {l l' : Lexer} {e : SyntaxError},
    nextWithin count l = some (.error e, l') → e.fault.isLexical
  | 0, _, _, _, h => by cases h
  | count + 1, l, l', e, h => by
    rw [nextWithin] at h
    cases hl : l.rest with
    | nil => simp [hl] at h
    | cons c rest =>
      simp only [hl] at h
      cases hpiece : (Piece.scan c rest).1 with
      | token lexeme => simp [hpiece] at h
      | gap form =>
        simp only [hpiece] at h
        exact isLexical_of_nextWithin h
      | fault cause =>
        simp only [hpiece, Option.some.injEq, Prod.mk.injEq, Except.error.injEq] at h
        rw [← h.1]
        exact Piece.isLexical_of_scan hpiece

namespace Feed

/-- The place of the last item of a feed, or of the token read last if no item is left.  Reading
does not change it. -/
def last (s : Feed) : Position := s.items.foldl (fun _ item => item.position) s.lastRead

theorem last_of_cons {s : Feed} {item : Item} {rest : List Item} (h : s.items = item :: rest) :
    s.last = rest.foldl (fun _ item => item.position) item.position := by
  rw [last, h, List.foldl_cons]

theorem take_of_nil {s : Feed} (h : s.items = []) : s.take = (.ok none, s) := by
  have hitems := s.items_take
  rcases htake : s.take with ⟨_ | (_ | t), s'⟩ <;> rw [htake, h] at hitems
  · cases hitems
  · rw [take_none htake]
  · cases hitems

/-- A token that comes first is taken, whether it was put back or not yet cut. -/
theorem take_of_ok {s : Feed} {t : Token} {rest : List Item} (h : s.items = .ok t :: rest) :
    ∃ s', s.take = (.ok (some t), s') ∧ s'.items = rest ∧ s'.lastRead = t.position := by
  have hitems := s.items_take
  rcases s with ⟨pending, lexer, lastRead, history⟩
  cases pending with
  | cons t' pending =>
    obtain ⟨ht, hrest⟩ := List.cons.inj (hitems.symm.trans h)
    cases ht
    exact ⟨_, rfl, hrest, rfl⟩
  | nil =>
    rw [h] at hitems
    rcases hnext : lexer.next? with _ | ⟨e | t', rest'⟩ <;> simp only [take, hnext] at hitems
    · cases hitems
    · cases (List.cons.inj hitems).1
    · obtain ⟨ht, hrest⟩ := List.cons.inj hitems
      cases ht
      exact ⟨_, by simp only [take, hnext], hrest.symm, rfl⟩

/-- An error of the lexer is passed on; no token was read with it. -/
theorem take_of_error {s : Feed} {e : SyntaxError} {rest : List Item}
    (h : s.items = .error e :: rest) :
    ∃ s', s.take = (.error e, s') ∧ s'.items = rest ∧ s'.lastRead = s.lastRead ∧
      e.fault.isLexical := by
  have hitems := s.items_take
  rcases s with ⟨pending, lexer, lastRead, history⟩
  cases pending with
  | cons t' pending => cases (List.cons.inj (hitems.symm.trans h)).1
  | nil =>
    rw [h] at hitems
    rcases hnext : lexer.next? with _ | ⟨e' | t', rest'⟩ <;> simp only [take, hnext] at hitems
    · cases hitems
    · obtain ⟨he, hrest⟩ := List.cons.inj hitems
      cases he
      exact ⟨_, by simp only [take, hnext], hrest.symm, rfl, Lexer.isLexical_of_nextWithin hnext⟩
    · cases (List.cons.inj hitems).1

end Feed

namespace Rule

variable {α β : Type}

/-! ## Where a run stops -/

/-- **What an error is about**: the token that comes next, what the lexer has in its place, or the
end.  Of the items that come next, the first one is gone. -/
inductive Blocked : SyntaxError → List Item → List Item → Prop
  | token {e : SyntaxError} {t : Token} {rest : List Item} : e.fault.found? = some t.lexeme →
    e.position = t.position → Blocked e (.ok t :: rest) rest
  | lexical {e : SyntaxError} {rest : List Item} : e.fault.isLexical →
    Blocked e (.error e :: rest) rest
  | ending {expected : String} {p : Position} : Blocked ⟨.unexpectedEnd expected, p⟩ [] []

/-- Where a run is blocked, the item that blocks it is gone. -/
theorem Blocked.rest_eq {e : SyntaxError} {next rest : List Item} (h : Blocked e next rest) :
    rest = next.tail := by
  cases h <;> rfl

/-- **A run took some tokens and stopped**: it left the items after them, or was blocked there. -/
inductive Stops (c : Nat) (s : Feed) (us : List Token) : Except SyntaxError α × Feed → Prop
  | done {a : α} {s' : Feed} : s.items = us.map .ok ++ s'.items → s'.last = s.last →
    c ≤ us.length → Stops c s us (.ok a, s')
  | stuck {next : List Item} {e : SyntaxError} {s' : Feed} : s.items = us.map .ok ++ next →
    Blocked e next s'.items → (next = [] → e.position = s.last) → Stops c s us (.error e, s')

namespace Stops

variable {c c' : Nat} {s s₁ : Feed} {us vs : List Token}

theorem mono {out : Except SyntaxError α × Feed} (h : Stops c s us out) (hc : c' ≤ c) :
    Stops c' s us out := by
  cases h with
  | done hitems hlast hlength => exact .done hitems hlast (hc.trans hlength)
  | stuck hitems hblocked hlast => exact .stuck hitems hblocked hlast

/-- An error is one whatever the result would have been. -/
theorem error {e : SyntaxError} {s' : Feed} (h : Stops (α := α) c s us (.error e, s')) :
    Stops (α := β) c' s us (.error e, s') := by
  cases h with
  | stuck hitems hblocked hlast => exact .stuck hitems hblocked hlast

/-- Only the items of a feed and its last place matter. -/
theorem congr {out : Except SyntaxError α × Feed} (h : Stops c s₁ us out)
    (hitems : s₁.items = s.items) (hlast : s₁.last = s.last) : Stops c s us out := by
  cases h with
  | done h hlast' hlength => exact .done (hitems ▸ h) (hlast'.trans hlast) hlength
  | stuck h hblocked hend => exact .stuck (hitems ▸ h) hblocked fun hnil => (hend hnil).trans hlast

/-- What is taken in two runs, one after the other. -/
theorem append {out : Except SyntaxError α × Feed} (h : Stops c' s₁ vs out)
    (hitems : s.items = us.map .ok ++ s₁.items) (hlast : s₁.last = s.last) (hc : c ≤ us.length) :
    Stops (c + c') s (us ++ vs) out := by
  cases h with
  | done h hlast' hlength =>
    refine .done ?_ (hlast'.trans hlast) ?_
    · rw [hitems, h, List.map_append, List.append_assoc]
    · rw [List.length_append]
      exact Nat.add_le_add hc hlength
  | stuck h hblocked hend =>
    refine .stuck ?_ hblocked fun hnil => (hend hnil).trans hlast
    rw [hitems, h, List.map_append, List.append_assoc]

end Stops

theorem last_of_read {s s₁ : Feed} {tok : Token} (hitems : s.items = .ok tok :: s₁.items)
    (hread : s₁.lastRead = tok.position) : s₁.last = s.last := by
  rw [Feed.last_of_cons hitems, Feed.last, hread]
  rfl

theorem last_of_putBack {s s₁ : Feed} {tok : Token} (hitems : s.items = .ok tok :: s₁.items) :
    (s₁.putBack tok).last = s.last := by
  rw [Feed.last_of_cons hitems, Feed.last_of_cons (Feed.items_putBack s₁ tok)]

/-- The token that a run goes on after is the first that it takes. -/
theorem Stops.cons {c : Nat} {s s₁ s' : Feed} {tok : Token} {us : List Token}
    {out : Except SyntaxError α × Feed} (h : Stops (c - 1) s' us out)
    (hitems : s.items = .ok tok :: s₁.items) (hread : s₁.lastRead = tok.position)
    (hitems' : s'.items = s₁.items) (hread' : s'.lastRead = s₁.lastRead) :
    Stops c s (tok :: us) out := by
  have hlast : s'.last = s₁.last := by rw [Feed.last, Feed.last, hitems', hread']
  have happend : Stops (1 + (c - 1)) s ([tok] ++ us) out :=
    (h.congr hitems' hlast).append hitems (last_of_read hitems hread) (Nat.le_refl 1)
  exact happend.mono (by omega)

/-! ## Feeds that agree -/

/-- Two lists of items agree on so many of them. -/
def Agree (f : Position → Position) (k : Nat) (as bs : List Item) : Prop :=
  place f (as.take k) = place f (bs.take k)

namespace Agree

variable {f : Position → Position} {k k' : Nat} {as bs : List Item}

theorem mono (h : Agree f k as bs) (hk : k' ≤ k) : Agree f k' as bs := by
  have htake (l : List Item) : place f (l.take k') = (place f (l.take k)).take k' := by
    change (l.take k').map (place f) = ((l.take k).map (place f)).take k'
    rw [← List.map_take, List.take_take, Nat.min_eq_left hk]
  rw [Agree, htake, htake, h]

theorem of_place_eq (h : place f as = place f bs) (k : Nat) : Agree f k as bs :=
  List.map_take.trans ((congrArg (List.take k) h).trans List.map_take.symm)

theorem of_nil (h : Agree f k [] bs) (hk : 0 < k) : bs = [] := by
  obtain ⟨k, rfl⟩ := Nat.exists_eq_add_one.mpr hk
  cases bs with
  | nil => rfl
  | cons b bs => cases h

/-- Lists that agree on an item both have one. -/
theorem of_cons {a : Item} (h : Agree f k (a :: as) bs) (hk : 0 < k) :
    ∃ b bs', bs = b :: bs' ∧ place f a = place f b := by
  obtain ⟨k, rfl⟩ := Nat.exists_eq_add_one.mpr hk
  cases bs with
  | nil => cases h
  | cons b bs => exact ⟨b, bs, rfl, (List.cons.inj h).1⟩

/-- After the same number of tokens, lists agree on what is left of the items looked at. -/
theorem drop {us us' : List Token}
    (h : Agree f (us.length + k) (us.map .ok ++ as) (us'.map .ok ++ bs))
    (hlength : us'.length = us.length) : Agree f k as bs := by
  have htake {us : List Token} {k : Nat} (l : List Item) :
      ((us.map .ok : List Item) ++ l).take (us.length + k) = us.map .ok ++ l.take k := by
    have h : ((us.map .ok : List Item) ++ l).take ((us.map (.ok : Token → Item)).length + k) =
        us.map .ok ++ l.take k := List.take_length_add_append k
    rwa [List.length_map] at h
  rw [Agree, htake, ← hlength, htake, place_append, place_append] at h
  exact (List.append_inj h (by simp [hlength])).2

end Agree

/-- Two feeds agree on so many items and on the token read last. -/
structure Alike (f : Position → Position) (k : Nat) (s t : Feed) : Prop where
  items : Agree f k s.items t.items
  lastRead : f s.lastRead = f t.lastRead

/-- How many items after the tokens taken an outcome may depend on: an error depends on one. -/
def reach (w : Nat) : Except SyntaxError α → Nat
  | .ok _ => w
  | .error _ => 1

/-- A run that takes a token or looks at an item looks at the first one. -/
theorem reach_pos {c w : Nat} {s : Feed} {us : List Token} {out : Except SyntaxError α × Feed}
    (h : Stops c s us out) (hcw : 0 < c + w) : 0 < us.length + reach w out.1 := by
  cases h with
  | done _ _ hc => exact hcw.trans_le (Nat.add_le_add_right hc w)
  | stuck => exact Nat.succ_pos _

/-- **What a run leaves are the last items**: those after the tokens it took, and of these not the
first if it failed there. -/
theorem Stops.items_eq {c : Nat} {s : Feed} {us : List Token} {out : Except SyntaxError α × Feed}
    (h : Stops c s us out) : out.2.items = s.items.drop (us.length + reach 0 out.1) := by
  have hdrop (rest : List Item) : ((us.map .ok : List Item) ++ rest).drop us.length = rest :=
    List.drop_left' (List.length_map _)
  cases h with
  | done hitems _ _ => rw [hitems, reach, Nat.add_zero, hdrop]
  | stuck hitems hblocked _ =>
    rw [hitems, reach, ← List.drop_drop, hdrop, List.drop_one, hblocked.rest_eq]

/-- On a feed where a token was read last, one rule does what another does; the record of what was
read may differ. -/
def Resumes (t : Token) (x z : Rule α) : Prop :=
  ∀ s : Feed, s.lastRead = t.position →
    ∃ s' : Feed, s'.items = s.items ∧ s'.lastRead = s.lastRead ∧ x.run s = z.run s'

theorem Resumes.refl (t : Token) (x : Rule α) : Resumes t x x := fun s _ => ⟨s, rfl, rfl, rfl⟩

variable [Placed α] [Placed β]

/-- Two outcomes agree. -/
structure Same (f : Position → Position) (out out' : Except SyntaxError α × Feed) : Prop where
  result : place f out.1 = place f out'.1
  lastRead : f out.2.lastRead = f out'.2.lastRead

/-- One run stops, and on a feed that agrees as far as the first one looks the other does the
same. -/
def Follows (f : Position → Position) (c w : Nat) (s t : Feed)
    (out out' : Except SyntaxError α × Feed) : Prop :=
  ∃ us, Stops c s us out ∧ (Alike f (us.length + reach w out.1) s t →
    ∃ us', place f us' = place f us ∧ Stops c t us' out' ∧ Same f out out')

/-- **A rule takes at least `c` tokens and looks at `w` items after them**, on feeds of at most `n`
and `m` items, each under its own bounds. -/
structure Local (f : Position → Position) (c w : Nat) (n m : Int) (x y : Rule α) : Prop where
  stops : ∀ s : Feed, s.items.length ≤ n → ∃ us, Stops c s us (x.run s)
  follows : ∀ s t : Feed, s.items.length ≤ n → t.items.length ≤ m →
    Follows f c w s t (x.run s) (y.run t)

variable {f : Position → Position} {c w c₁ w₁ : Nat} {n m : Int}

namespace Local

theorem mono {x y : Rule α} {n' m' : Int} (h : Local f c w n m x y) (hn : n' ≤ n) (hm : m' ≤ m) :
    Local f c w n' m' x y :=
  ⟨fun s hs => h.stops s (by omega), fun s t hs ht => h.follows s t (by omega) (by omega)⟩

/-- A rule may be said to take less and to look further. -/
theorem weaken {x y : Rule α} {c' w' : Nat} (h : Local f c w n m x y) (hc : c' ≤ c) (hw : w ≤ w') :
    Local f c' w' n m x y := by
  refine ⟨fun s hs => ?_, fun s t hs ht => ?_⟩
  · obtain ⟨us, hstops⟩ := h.stops s hs
    exact ⟨us, hstops.mono hc⟩
  · obtain ⟨us, hstops, hfollows⟩ := h.follows s t hs ht
    refine ⟨us, hstops.mono hc, fun halike => ?_⟩
    have hreach : reach w (x.run s).1 ≤ reach w' (x.run s).1 := by
      cases (x.run s).1 with
      | ok a => exact hw
      | error e => exact le_refl _
    obtain ⟨us', hus', hstops', hsame⟩ := hfollows ⟨halike.items.mono (by omega), halike.lastRead⟩
    exact ⟨us', hus', hstops'.mono hc, hsame⟩

/-- A rule that looks at nothing after its tokens may be said to look at one item. -/
theorem widen {x y : Rule α} (h : Local f c 0 n m x y) : Local f c 1 n m x y :=
  h.weaken (Nat.le_refl c) (Nat.zero_le 1)

/-- There is no feed of less than no items. -/
theorem of_neg {x y : Rule α} (hn : n < 0) : Local f c w n m x y :=
  ⟨fun s hs => by omega, fun s t hs _ => by omega⟩

/-- There are no feeds of less than no items, so nothing is said about the other rule there. -/
theorem of_neg_right {x y y' : Rule α} {m' : Int} (h : Local f c w n m x y) (hm : m' < 0) :
    Local f c w n m' x y' :=
  ⟨h.stops, fun s t _ ht => by omega⟩

end Local

theorem local_pure {a b : α} (h : place f a = place f b) :
    Local f 0 w n m (pure a : Rule α) (pure b) where
  stops s _ := ⟨[], .done rfl rfl (Nat.le_refl 0)⟩
  follows s t _ _ := by
    refine ⟨[], .done rfl rfl (Nat.le_refl 0),
      fun halike => ⟨[], rfl, .done rfl rfl (Nat.le_refl 0), ?_⟩⟩
    exact ⟨congrArg Except.ok h, halike.lastRead⟩

/-- At the end of a feed. -/
theorem local_endOfInput (expected : String) :
    Local f c w 0 0 (endOfInput expected : Rule α) (endOfInput expected) := by
  have hstops (s : Feed) (hs : (s.items.length : Int) ≤ 0) :
      Stops (α := α) c s [] ((endOfInput expected).run s) := by
    have hnil : s.items = [] := List.length_eq_zero_iff.mp (by omega)
    have hlast : s.last = s.lastRead := by rw [Feed.last, hnil, List.foldl_nil]
    have hitems : s.items = ([] : List Token).map .ok ++ [] := hnil
    refine .stuck hitems ?_ fun _ => hlast.symm
    rw [hnil]
    exact .ending
  refine ⟨fun s hs => ⟨[], hstops s hs⟩, fun s t hs ht => ⟨[], hstops s hs, fun halike => ?_⟩⟩
  refine ⟨[], rfl, hstops t ht, ⟨?_, halike.lastRead⟩⟩
  exact congrArg (fun p => Except.error (SyntaxError.mk (.unexpectedEnd expected) p))
    halike.lastRead

/-- **One rule after the other.**  The first may look at what the second takes. -/
theorem Local.bind {x y : Rule α} {g h : α → Rule β} (hx : Local f c₁ w₁ n m x y) (c₂ : Nat)
    (hg : ∀ a b, place f a = place f b → Local f c₂ w (n - c₁) (m - c₁) (g a) (h b))
    (hcw : c ≤ c₁ + c₂ ∧ w₁ ≤ c₂ + w ∧ w₁ ≤ 1) : Local f c w n m (x >>= g) (y >>= h) := by
  obtain ⟨hsum, hw, hw₁⟩ := hcw
  suffices Local f (c₁ + c₂) w n m (x >>= g) (y >>= h) from this.weaken hsum (Nat.le_refl w)
  refine ⟨fun s hs => ?_, fun s t hs ht => ?_⟩
  · obtain ⟨us, hstops⟩ := hx.stops s hs
    rcases hrun : x.run s with ⟨e | a, s₁⟩ <;> rw [hrun] at hstops
    · rw [Action.run_bind_of_error hrun]
      exact ⟨us, hstops.error⟩
    · rw [Action.run_bind_of_ok hrun]
      obtain ⟨hitems, hlast, hc⟩ | ⟨⟩ := hstops
      have hlength : us.length + s₁.items.length = s.items.length := by simp [hitems]
      obtain ⟨vs, hstops'⟩ := (hg a a rfl).stops s₁ (by omega)
      exact ⟨us ++ vs, hstops'.append hitems hlast hc⟩
  · obtain ⟨us, hstops, hfollows⟩ := hx.follows s t hs ht
    rcases hrun : x.run s with ⟨e | a, s₁⟩ <;> rw [hrun] at hstops hfollows
    · rw [Action.run_bind_of_error hrun]
      refine ⟨us, hstops.error, fun halike => ?_⟩
      obtain ⟨us', hus', hstops', hresult, hlastRead⟩ := hfollows halike
      rcases hrun' : y.run t with ⟨e' | b, t₁⟩ <;> rw [hrun'] at hstops' hresult hlastRead
      · rw [Action.run_bind_of_error hrun']
        exact ⟨us', hus', hstops'.error, congrArg Except.error (Except.error.inj hresult),
          hlastRead⟩
      · cases hresult
    · rw [Action.run_bind_of_ok hrun]
      obtain ⟨hitems, hlast, hc⟩ | ⟨⟩ := hstops
      have hlength : us.length + s₁.items.length = s.items.length := by simp [hitems]
      have hlook {vs : List Token} {out : Except SyntaxError β × Feed} (hvs : Stops c₂ s₁ vs out) :
          w₁ ≤ vs.length + reach w out.1 := by
        cases hvs with
        | done _ _ hc₂ => exact hw.trans (Nat.add_le_add_right hc₂ _)
        | stuck => exact hw₁.trans (Nat.le_add_left 1 _)
      -- Feeds that differ where the first rule looks differ where the two together look.
      by_cases halike₁ : Alike f (us.length + w₁) s t
      · obtain ⟨us', hus', hstops', hresult, hlastRead⟩ := hfollows halike₁
        have hlength' : us'.length = us.length := by
          rw [← length_place f us', hus', length_place]
        rcases hrun' : y.run t with ⟨e' | b, t₁⟩ <;> rw [hrun'] at hstops' hresult hlastRead
        · cases hresult
        · rw [Action.run_bind_of_ok hrun']
          obtain ⟨hitems', hlast', hc'⟩ | ⟨⟩ := hstops'
          have hlength'' : us'.length + t₁.items.length = t.items.length := by simp [hitems']
          obtain ⟨vs, hvs, hfollows'⟩ :=
            (hg a b (Except.ok.inj hresult)).follows s₁ t₁ (by omega) (by omega)
          refine ⟨us ++ vs, hvs.append hitems hlast hc, fun halike => ?_⟩
          rw [List.length_append, Nat.add_assoc] at halike
          have hagree := halike.items
          rw [hitems, hitems'] at hagree
          obtain ⟨vs', hvs', hstops'', hsame⟩ := hfollows' ⟨hagree.drop hlength', hlastRead⟩
          exact ⟨us' ++ vs', by rw [place_append, place_append, hus', hvs'],
            hstops''.append hitems' hlast' hc', hsame⟩
      · obtain ⟨vs, hvs⟩ := (hg a a rfl).stops s₁ (by omega)
        refine ⟨us ++ vs, hvs.append hitems hlast hc, fun halike => absurd ?_ halike₁⟩
        have hle := hlook hvs
        rw [List.length_append] at halike
        exact ⟨halike.items.mono (by omega), halike.lastRead⟩

/-! ## Reading -/

/-- **What a rule may do with a token that it has read**: reject it, keep it, or put it back. -/
inductive After (f : Position → Position) (c w : Nat) (n m : Int) (t t' : Token) :
    Rule α → Rule α → Prop
  | reject {fault : SyntaxFault} : fault.found? = some t.lexeme → fault.found? = some t'.lexeme →
    After f c w n m t t' (throw ⟨fault, t.position⟩) (throw ⟨fault, t'.position⟩)
  | keep {x y z z' : Rule α} : Local f (c - 1) w (n - 1) (m - 1) z z' → Resumes t x z →
    Resumes t' y z' → After f c w n m t t' x y
  | back {x y : Rule α} : Local f c w n m x y →
    After f c w n m t t' (unread t >>= fun _ => x) (unread t' >>= fun _ => y)

theorem After.go {t t' : Token} {x y : Rule α} (h : Local f (c - 1) w (n - 1) (m - 1) x y) :
    After f c w n m t t' x y :=
  .keep h (.refl t x) (.refl t' y)

section Reading

variable {s s₁ t t₁ : Feed} {tok tok' : Token} {x y : Rule α}

theorem After.stops (h : After f c w n m tok tok' x y) (hitems : s.items = .ok tok :: s₁.items)
    (hread : s₁.lastRead = tok.position) (hs : s.items.length ≤ n) :
    ∃ us, Stops c s us (x.run s₁) := by
  have hlength : s₁.items.length + 1 = s.items.length := by rw [hitems, List.length_cons]
  cases h with
  | reject hfound _ => exact ⟨[], .stuck hitems (.token hfound rfl) fun hnil => by cases hnil⟩
  | keep hz hx _ =>
    obtain ⟨s', hitems', hread', hrun⟩ := hx s₁ hread
    obtain ⟨us, hstops⟩ := hz.stops s' (by rw [hitems']; omega)
    exact ⟨tok :: us, hrun ▸ hstops.cons hitems hread hitems' hread'⟩
  | back hz =>
    obtain ⟨us, hstops⟩ := hz.stops (s₁.putBack tok)
        (by rw [Feed.items_putBack, ← hitems]; exact hs)
    exact ⟨us, hstops.congr hitems.symm (last_of_putBack hitems)⟩

theorem After.follows (h : After f c w n m tok tok' x y) (htok : place f tok = place f tok')
    (hitems : s.items = .ok tok :: s₁.items) (hread : s₁.lastRead = tok.position)
    (hs : s.items.length ≤ n) (hitems' : t.items = .ok tok' :: t₁.items)
    (hread' : t₁.lastRead = tok'.position) (ht : t.items.length ≤ m) :
    Follows f c w s t (x.run s₁) (y.run t₁) := by
  have hposition : f tok.position = f tok'.position := congrArg Token.position htok
  have hlastRead : f s₁.lastRead = f t₁.lastRead := by rw [hread, hread', hposition]
  have hlength : s₁.items.length + 1 = s.items.length := by rw [hitems, List.length_cons]
  have hlength' : t₁.items.length + 1 = t.items.length := by rw [hitems', List.length_cons]
  cases h with
  | @reject fault hfound hfound' =>
    have hstops : Stops c s [] ((throw ⟨fault, tok.position⟩ : Rule α).run s₁) :=
      .stuck hitems (.token hfound rfl) fun hnil => by cases hnil
    have hstops' : Stops c t [] ((throw ⟨fault, tok'.position⟩ : Rule α).run t₁) :=
      .stuck hitems' (.token hfound' rfl) fun hnil => by cases hnil
    refine ⟨[], hstops, fun _ => ⟨[], rfl, hstops', ?_⟩⟩
    exact ⟨congrArg (fun p => Except.error (SyntaxError.mk fault p)) hposition, hlastRead⟩
  | keep hz hx hy =>
    obtain ⟨s', hsitems, hsread, hsrun⟩ := hx s₁ hread
    obtain ⟨t', htitems, htread, htrun⟩ := hy t₁ hread'
    obtain ⟨us, hstops, hfollows⟩ :=
      hz.follows s' t' (by rw [hsitems]; omega) (by rw [htitems]; omega)
    rw [hsrun, htrun]
    refine ⟨tok :: us, hstops.cons hitems hread hsitems hsread, fun halike => ?_⟩
    have hagree := halike.items
    rw [hitems, hitems', List.length_cons, Nat.add_right_comm, Nat.add_comm] at hagree
    have hagree' : Agree f _ ([tok].map .ok ++ s₁.items) ([tok'].map .ok ++ t₁.items) := hagree
    have hone : [tok'].length = [tok].length := rfl
    obtain ⟨us', hus', hstops', hsame⟩ :=
      hfollows ⟨by rw [hsitems, htitems]; exact hagree'.drop hone,
        by rw [hsread, htread, hlastRead]⟩
    refine ⟨tok' :: us', ?_, hstops'.cons hitems' hread' htitems htread, hsame⟩
    rw [place_cons, place_cons, htok, hus']
  | back hz =>
    have hback : (s₁.putBack tok).items = s.items := hitems.symm
    have hback' : (t₁.putBack tok').items = t.items := hitems'.symm
    obtain ⟨us, hstops, hfollows⟩ :=
      hz.follows (s₁.putBack tok) (t₁.putBack tok') (by rw [hback]; exact hs)
        (by rw [hback']; exact ht)
    refine ⟨us, hstops.congr hback (last_of_putBack hitems), fun halike => ?_⟩
    obtain ⟨us', hus', hstops', hsame⟩ :=
      hfollows ⟨by rw [hback, hback']; exact halike.items, hlastRead⟩
    exact ⟨us', hus', hstops'.congr hback' (last_of_putBack hitems'), hsame⟩

end Reading

/-- Where two feeds begin differently nothing follows. -/
theorem Follows.of_not_agree {s t : Feed} {out out' : Except SyntaxError α × Feed}
    (h : ∃ us, Stops c s us out) (hcw : 0 < c + w) (hagree : ¬ Agree f 1 s.items t.items) :
    Follows f c w s t out out' := by
  obtain ⟨us, hstops⟩ := h
  exact ⟨us, hstops, fun halike => absurd (halike.items.mono (reach_pos hstops hcw)) hagree⟩

/-- **Reading a token, then deciding on it.** -/
theorem local_read?_bind {g h : Option Token → Rule α} (hcw : 0 < c + w)
    (hsome : ∀ l p p', f p = f p' →
      After f c w n m ⟨l, p⟩ ⟨l, p'⟩ (g (some ⟨l, p⟩)) (h (some ⟨l, p'⟩)))
    (hnone : Local f c w (min n 0) (min m 0) (g none) (h none)) :
    Local f c w n m (read? >>= g) (read? >>= h) := by
  have hrun {g : Option Token → Rule α} {s s₁ : Feed} {r : Option Token}
      (htake : s.take = (.ok r, s₁)) :
      (read? >>= g).run s = (g r).run s₁ := Action.run_bind_of_ok (x := read?) htake g
  have hrun_error {g : Option Token → Rule α} {s s₁ : Feed} {e : SyntaxError}
      (htake : s.take = (.error e, s₁)) : (read? >>= g).run s = (.error e, s₁) :=
    Action.run_bind_of_error (x := read?) htake g
  have hstops (s : Feed) (hs : (s.items.length : Int) ≤ n) :
      ∃ us, Stops c s us ((read? >>= g).run s) := by
    rcases hitems : s.items with _ | ⟨e | ⟨l, p⟩, rest⟩
    · rw [hrun (Feed.take_of_nil hitems)]
      exact hnone.stops s (Int.le_min.mpr ⟨hs, by simp [hitems]⟩)
    · obtain ⟨s₁, htake, rfl, -, hlexical⟩ := Feed.take_of_error hitems
      rw [hrun_error htake]
      exact ⟨[], .stuck hitems (.lexical hlexical) fun hnil => by cases hnil⟩
    · obtain ⟨s₁, htake, rfl, hread⟩ := Feed.take_of_ok hitems
      rw [hrun htake]
      exact (hsome l p p rfl).stops hitems hread hs
  refine ⟨hstops, fun s t hs ht => ?_⟩
  by_cases hagree : Agree f 1 s.items t.items
  · rcases hitems : s.items with _ | ⟨e | ⟨l, p⟩, rest⟩ <;> rw [hitems] at hagree
    · have hitems' := hagree.of_nil Nat.one_pos
      rw [hrun (Feed.take_of_nil hitems), hrun (Feed.take_of_nil hitems')]
      exact hnone.follows s t (Int.le_min.mpr ⟨hs, by simp [hitems]⟩)
        (Int.le_min.mpr ⟨ht, by simp [hitems']⟩)
    · obtain ⟨e' | t', rest', hitems', hplace⟩ := hagree.of_cons Nat.one_pos
      · obtain ⟨s₁, htake, rfl, hread, hlexical⟩ := Feed.take_of_error hitems
        obtain ⟨t₁, htake', rfl, hread', hlexical'⟩ := Feed.take_of_error hitems'
        rw [hrun_error htake, hrun_error htake']
        have hstuck : Stops (α := α) c s [] (.error e, s₁) :=
          .stuck hitems (.lexical hlexical) fun hnil => by cases hnil
        have hstuck' : Stops (α := α) c t [] (.error e', t₁) :=
          .stuck hitems' (.lexical hlexical') fun hnil => by cases hnil
        refine ⟨[], hstuck, fun halike => ⟨[], rfl, hstuck', ?_, ?_⟩⟩
        · exact congrArg Except.error (Except.error.inj hplace)
        · rw [hread, hread']
          exact halike.lastRead
      · cases hplace
    · obtain ⟨e' | ⟨l', p'⟩, rest', hitems', hplace⟩ := hagree.of_cons Nat.one_pos
      · cases hplace
      · obtain ⟨rfl, hp⟩ := Token.mk.inj (Except.ok.inj hplace)
        obtain ⟨s₁, htake, rfl, hread⟩ := Feed.take_of_ok hitems
        obtain ⟨t₁, htake', rfl, hread'⟩ := Feed.take_of_ok hitems'
        rw [hrun htake, hrun htake']
        exact (hsome l p p' hp).follows (Except.ok.inj hplace) hitems hread hs hitems' hread' ht
  · exact .of_not_agree (hstops s hs) hcw hagree

theorem local_read_bind {expected : String} {g h : Token → Rule α} (hcw : 0 < c + w)
    (hg : ∀ l p p', f p = f p' → After f c w n m ⟨l, p⟩ ⟨l, p'⟩ (g ⟨l, p⟩) (h ⟨l, p'⟩)) :
    Local f c w n m (read expected >>= g) (read expected >>= h) := by
  rw [read, bind_assoc, bind_assoc]
  exact local_read?_bind hcw hg
    ((local_endOfInput expected).mono (Int.min_le_right _ _) (Int.min_le_right _ _))

/-- A token that is not accepted is put back. -/
theorem local_accept?_bind {lexeme : Lexeme} {g h : Option Token → Rule α} (hcw : 0 < c + w)
    (hsome : ∀ l p p', f p = f p' → l.sameClass lexeme →
      After f c w n m ⟨l, p⟩ ⟨l, p'⟩ (g (some ⟨l, p⟩)) (h (some ⟨l, p'⟩)))
    (hnone : Local f c w n m (g none) (h none)) :
    Local f c w n m (accept? lexeme >>= g) (accept? lexeme >>= h) := by
  rw [accept?, bind_assoc, bind_assoc]
  refine local_read?_bind hcw (fun l p p' hp => ?_) ?_
  · by_cases hclass : l.sameClass lexeme = true
    · simp only [if_pos hclass]
      exact hsome l p p' hp hclass
    · simp only [if_neg hclass]
      exact .back hnone
  · exact hnone.mono (Int.min_le_left _ _) (Int.min_le_left _ _)

theorem local_require (lexeme : Lexeme) : Local f 1 0 n m (require lexeme) (require lexeme) := by
  refine local_read_bind Nat.one_pos fun l p p' hp => ?_
  by_cases hclass : l.sameClass lexeme = true
  · simp only [if_pos hclass]
    exact .go (local_pure (congrArg (Token.mk l) hp))
  · simp only [if_neg hclass]
    exact .reject rfl rfl

theorem Local.discard {x y : Rule α} (h : Local f c 0 n m x y) :
    Local f c 0 n m (discard x) (discard y) :=
  h.bind 0 (fun _ _ _ => local_pure rfl) (by omega)

theorem local_mark (k : Mark) : Local f 1 0 n m (discard (mark k)) (discard (mark k)) :=
  (local_require _).discard

theorem local_word (k : Keyword) : Local f 1 0 n m (discard (word k)) (discard (word k)) :=
  (local_require _).discard

/-- The bound that a rule asks for is at least the number of items. -/
theorem local_remaining_bind {g h : Nat → Rule α}
    (hg : ∀ i j : Nat, Local f c w (min n i) (min m j) (g i) (h j)) :
    Local f c w n m (remaining >>= g) (remaining >>= h) := by
  refine ⟨fun s hs => ?_, fun s t hs ht => ?_⟩
  · have hsize := s.length_items_le_size
    exact (hg s.size 0).stops s (by omega)
  · have hsize := s.length_items_le_size
    have hsize' := t.length_items_le_size
    exact (hg s.size t.size).follows s t (by omega) (by omega)

/-- A rule may be replaced by one that does the same on feeds of the given size. -/
theorem Local.congr {x x' y y' : Rule α} (h : Local f c w n m x' y')
    (hx : ∀ s : Feed, (s.items.length : Int) ≤ n → x.run s = x'.run s)
    (hy : ∀ s : Feed, (s.items.length : Int) ≤ m → y.run s = y'.run s) : Local f c w n m x y := by
  refine ⟨fun s hs => ?_, fun s t hs ht => ?_⟩
  · rw [hx s hs]
    exact h.stops s hs
  · rw [hx s hs, hy t ht]
    exact h.follows s t hs ht

/-- **Recursion under a bound.**  A bound of as many as there are items, and no more than a given
one, is ample if on an empty feed the bound zero is as good as one. -/
theorem Local.within {ι : Type} [Placed ι] {x y : Nat → ι → Rule α} {N M : Int}
    (hx : ∀ i (s : Feed), s.items = [] → (x 0 i).run s = (x 1 i).run s)
    (hy : ∀ i (s : Feed), s.items = [] → (y 0 i).run s = (y 1 i).run s)
    (hzero : ∀ i j, place f i = place f j → Local f c w 0 0 (x 0 i) (y 0 j))
    (hstep : ∀ a b : Nat,
      (∀ i j, place f i = place f j → Local f c w (min N a) (min M b) (x a i) (y b j)) →
      ∀ i j, place f i = place f j →
        Local f c w (min N (a + 1)) (min M (b + 1)) (x (a + 1) i) (y (b + 1) j)) :
    ∀ (a b : Nat) (i j : ι), place f i = place f j →
      Local f c w (min N a) (min M b) (x a i) (y b j)
  | 0, 0, i, j, hij => (hzero i j hij).mono (Int.min_le_right _ _) (Int.min_le_right _ _)
  | 0, b + 1, i, j, hij => by
    have h := hstep 0 b (within hx hy hzero hstep 0 b) i j hij
    refine (h.mono (by omega) (by omega)).congr (fun s hs => hx i s ?_) fun _ _ => rfl
    exact List.length_eq_zero_iff.mp (by omega)
  | a + 1, 0, i, j, hij => by
    have h := hstep a 0 (within hx hy hzero hstep a 0) i j hij
    refine (h.mono (by omega) (by omega)).congr (fun _ _ => rfl) fun s hs => hy j s ?_
    exact List.length_eq_zero_iff.mp (by omega)
  | a + 1, b + 1, i, j, hij => hstep a b (within hx hy hzero hstep a b) i j hij

/-- **A loop under a bound** that is one more than the number of items: after a turn that took an
item the next lower bound is enough. -/
theorem Local.of_pred {x y : Nat → Rule α} {N M : Int} {a b : Nat}
    (ih : ∀ a' < a, ∀ b' : Nat, Local f c w (min N a') (min M b') (x (a' + 1)) (y (b' + 1)))
    (hn : n < min N a) (hm : m < min M b) : Local f c w n m (x a) (y b) := by
  cases a with
  | zero => exact .of_neg (by omega)
  | succ a =>
    have ih := ih a (Nat.lt_succ_self a)
    cases b with
    | zero => exact ((ih 0).mono (by omega) (Int.le_refl _)).of_neg_right (by omega)
    | succ b => exact (ih b).mono (by omega) (by omega)

end Rule

end BraceScript
