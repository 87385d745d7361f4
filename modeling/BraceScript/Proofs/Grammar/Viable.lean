import BraceScript.Proofs.Grammar.Complete
import BraceScript.Proofs.Grammar.Lookahead
import BraceScript.Proofs.Grammar.Sound

/-!
# Proofs/Grammar/Viable — a rule that fails took nothing that cannot be completed

A rule **completes** a relation of the grammar if, whenever it fails, the tokens that it took before
the place of the error begin something that the relation derives.  A rule made of two completes what
the two derive together: where the first fails, what it took can be completed to something that it
would accept, and then by anything that the second derives.  So a relation is asked to derive
something too, and nothing else is ever supplied by hand.
-/

namespace BraceScript

open Grammar

namespace Grammar

variable {α : Type}

/-- The tokens begin something that is derived. -/
def Begins (G : Derivation α) (us : List Token) : Prop := ∃ vs a, G (us ++ vs) a

/-- One token. -/
def IsLexeme (l : Lexeme) : Derivation Unit := fun us _ => ∃ p, us = [⟨l, p⟩]

/-- `(op)?` -/
def IsOperator (accept : BinaryOp → Bool) : Derivation (Option (BinaryOp × Position)) := fun us r =>
  (∃ op p, r = some (op, p) ∧ accept op ∧ us = [⟨.mark op.mark, p⟩]) ∨ (r = none ∧ us = [])

/-- What a closing parenthesis ends. -/
def Closed (G : Derivation α) : Derivation α := fun us a =>
  ∃ vs p, us = vs ++ [⟨.mark .rightParen, p⟩] ∧ G vs a

/-- Parameters after their opening parenthesis. -/
theorem Closed.params {us : List Token} {xs : List Name}
    (h : Closed (Listed IsName) us xs) (p : Position) :
    IsParams (⟨.mark .leftParen, p⟩ :: us) xs := by
  obtain ⟨vs, q, rfl, hxs⟩ := h
  exact .mk hxs

end Grammar

namespace Rule

variable {α β : Type} {G : Derivation α} {H : Derivation β} {n n' : Int}

/-- **What a failing run took before the place of its error can be completed**, on feeds of at most
`n` items. -/
structure Completes (n : Int) (x : Rule α) (G : Derivation α) : Prop where
  inhabited : ∃ us a, G us a
  fails : ∀ ⦃s s' : Feed⦄ ⦃e : SyntaxError⦄, s.items.length ≤ n → x.run s = (.error e, s') →
    ∃ us next, s.items = us.map .ok ++ next ∧ Blocked e next s'.items ∧ Begins G us

namespace Completes

variable {x : Rule α}

theorem mono (h : Completes n x G) (hn : n' ≤ n) : Completes n' x G :=
  ⟨h.inhabited, fun _ _ _ hs hrun => h.fails (by omega) hrun⟩

/-- There are no feeds of less than no items. -/
theorem of_neg (hG : ∃ us a, G us a) (hn : n < 0) : Completes n x G :=
  ⟨hG, fun s _ _ hs _ => by omega⟩

/-- What can be completed to one thing can be completed to anything that it is a case of. -/
theorem imp {G' : Derivation α} (h : Completes n x G) (hG : ∀ us a, G us a → G' us a) :
    Completes n x G' := by
  refine ⟨?_, fun s s' e hs hrun => ?_⟩
  · obtain ⟨us, a, ha⟩ := h.inhabited
    exact ⟨us, a, hG us a ha⟩
  · obtain ⟨us, next, hitems, hblocked, vs, a, ha⟩ := h.fails hs hrun
    exact ⟨us, next, hitems, hblocked, vs, a, hG _ _ ha⟩

/-- **One rule after the other.** -/
theorem bind {g : α → Rule β} (hx : Completes n x G) (hsound : Sound x G)
    (hg : ∀ us a, G us a → Completes (n - us.length) (g a) fun vs b => H (us ++ vs) b) :
    Completes n (x >>= g) H := by
  refine ⟨?_, fun s s' e hs hrun => ?_⟩
  · obtain ⟨us, a, ha⟩ := hx.inhabited
    obtain ⟨vs, b, hb⟩ := (hg us a ha).inhabited
    exact ⟨us ++ vs, b, hb⟩
  · rcases hfirst : x.run s with ⟨e' | a, s₁⟩
    · rw [Action.run_bind_of_error hfirst] at hrun
      cases hrun
      -- What the first rule would have gone on to accept can be followed by something for the
      -- second.
      obtain ⟨us, next, hitems, hblocked, vs, a, ha⟩ := hx.fails hs hfirst
      obtain ⟨ws, b, hb⟩ := (hg _ a ha).inhabited
      exact ⟨us, next, hitems, hblocked, vs ++ ws, b, by rwa [← List.append_assoc]⟩
    · rw [Action.run_bind_of_ok hfirst] at hrun
      obtain ⟨us, hitems, ha⟩ := hsound hfirst
      have hlength : us.length + s₁.items.length = s.items.length := by simp [hitems]
      obtain ⟨vs, next, hitems', hblocked, ws, b, hb⟩ := (hg us a ha).fails (by omega) hrun
      refine ⟨us ++ vs, next, ?_, hblocked, ws, b, by rwa [List.append_assoc]⟩
      rw [hitems, hitems', List.map_append, List.append_assoc]

end Completes

/-- A rule that does not fail has nothing to be completed. -/
theorem completes_pure {a : α} (h : G [] a) : Completes n (pure a) G :=
  ⟨⟨[], a, h⟩, fun _ _ _ _ hrun => by cases hrun⟩

/-- What is done with the result cannot fail. -/
theorem Completes.map {x : Rule α} {g : α → β} (hx : Completes n x G)
    (hG : ∀ us a, G us a → H us (g a)) : Completes n (x >>= fun a => pure (g a)) H := by
  refine ⟨?_, fun s s' e hs hrun => ?_⟩
  · obtain ⟨us, a, ha⟩ := hx.inhabited
    exact ⟨us, g a, hG us a ha⟩
  · rcases hfirst : x.run s with ⟨e' | a, s₁⟩
    · rw [Action.run_bind_of_error hfirst] at hrun
      cases hrun
      obtain ⟨us, next, hitems, hblocked, vs, a, ha⟩ := hx.fails hs hfirst
      exact ⟨us, next, hitems, hblocked, vs, g a, hG _ _ ha⟩
    · rw [Action.run_bind_of_ok hfirst] at hrun
      cases hrun

/-- At the end of the source whatever was asked for can still follow. -/
theorem completes_endOfInput (hG : ∃ us a, G us a) (hn : n ≤ 0) (expected : String) :
    Completes n (endOfInput expected) G := by
  refine ⟨hG, fun s s' e hs hrun => ?_⟩
  have hnil : s.items = [] := List.length_eq_zero_iff.mp (by omega)
  cases hrun
  refine ⟨[], [], hnil, ?_, hG⟩
  rw [hnil]
  exact .ending

/-! ## Reading -/

/-- **What a rule may do with a token that it has read**: reject it, keep it, or put it back. -/
inductive Handled (n : Int) (t : Token) (G : Derivation α) : Rule α → Prop
  | reject {fault : SyntaxFault} : fault.found? = some t.lexeme →
    Handled n t G (throw ⟨fault, t.position⟩)
  | keep {x z : Rule α} : Completes (n - 1) z (fun us a => G (t :: us) a) → Resumes t x z →
    Handled n t G x
  | back {x : Rule α} : Completes n x G → Handled n t G (unread t >>= fun _ => x)

/-- A token that is kept is the first of what is derived. -/
theorem Handled.go {t : Token} {x : Rule α} (h : Completes (n - 1) x fun us a => G (t :: us) a) :
    Handled n t G x :=
  .keep h (.refl t x)

/-- **Whatever was done with a token, the tokens before the error can be completed.** -/
theorem Handled.fails {t : Token} {x : Rule α} (h : Handled n t G x) (hG : ∃ us a, G us a)
    {s s₁ s' : Feed} {e : SyntaxError} (hitems : s.items = .ok t :: s₁.items)
    (hread : s₁.lastRead = t.position) (hs : s.items.length ≤ n)
    (hrun : x.run s₁ = (.error e, s')) :
    ∃ us next, s.items = us.map .ok ++ next ∧ Blocked e next s'.items ∧ Begins G us := by
  have hlength : s₁.items.length + 1 = s.items.length := by rw [hitems, List.length_cons]
  cases h with
  | reject hfound =>
    cases hrun
    exact ⟨[], _, hitems, .token hfound rfl, hG⟩
  | keep hz hresumes =>
    obtain ⟨s₂, hitems₂, -, hrun₂⟩ := hresumes s₁ hread
    rw [hrun₂] at hrun
    obtain ⟨us, next, hus, hblocked, vs, a, ha⟩ := hz.fails (by rw [hitems₂]; omega) hrun
    refine ⟨t :: us, next, ?_, hblocked, vs, a, ha⟩
    rw [hitems, ← hitems₂, hus]
    rfl
  | back hx =>
    have hback : (s₁.putBack t).items = s.items := hitems.symm
    obtain ⟨us, next, hus, hblocked, hbegins⟩ := hx.fails (by rw [hback]; exact hs) hrun
    exact ⟨us, next, hback ▸ hus, hblocked, hbegins⟩

/-- **Reading a token, then deciding on it.** -/
theorem completes_read?_bind {g : Option Token → Rule α}
    (hsome : ∀ t, Handled n t G (g (some t))) (hnone : Completes (min n 0) (g none) G) :
    Completes n (read? >>= g) G := by
  refine ⟨hnone.inhabited, fun s s' e hs hrun => ?_⟩
  rcases hitems : s.items with _ | ⟨e' | t, rest⟩
  · have htake : read?.run s = (.ok none, s) := Feed.take_of_nil hitems
    rw [Action.run_bind_of_ok htake] at hrun
    rw [← hitems]
    exact hnone.fails (by simp only [hitems, List.length_nil] at hs ⊢; omega) hrun
  · obtain ⟨s₁, htake, rfl, -, hlexical⟩ := Feed.take_of_error hitems
    rw [Action.run_bind_of_error (x := read?) htake] at hrun
    cases hrun
    exact ⟨[], _, rfl, .lexical hlexical, hnone.inhabited⟩
  · obtain ⟨s₁, htake, rfl, hread⟩ := Feed.take_of_ok hitems
    rw [Action.run_bind_of_ok (x := read?) htake] at hrun
    rw [← hitems]
    exact (hsome t).fails hnone.inhabited hitems hread hs hrun

/-- A rule that reads a token and handles every one can be completed; at the end of the source
anything derived can follow. -/
theorem completes_read_bind {expected : String} {g : Token → Rule α} (hG : ∃ us a, G us a)
    (hg : ∀ l p, Handled n ⟨l, p⟩ G (g ⟨l, p⟩)) : Completes n (read expected >>= g) G := by
  rw [read, bind_assoc]
  exact completes_read?_bind (fun t => hg t.lexeme t.position)
    (completes_endOfInput hG (Int.min_le_right _ _) expected)

/-- An optional token is handled if it is there, and else the rule goes on without it. -/
theorem completes_accept?_bind {lexeme : Lexeme} {g : Option Token → Rule α}
    (hsome : ∀ l p, l.sameClass lexeme → Handled n ⟨l, p⟩ G (g (some ⟨l, p⟩)))
    (hnone : Completes n (g none) G) : Completes n (accept? lexeme >>= g) G := by
  rw [accept?, bind_assoc]
  refine completes_read?_bind (fun t => ?_) (hnone.mono (Int.min_le_left _ _))
  by_cases hclass : t.lexeme.sameClass lexeme = true
  · simp only [if_pos hclass]
    exact hsome t.lexeme t.position hclass
  · simp only [if_neg hclass]
    exact .back hnone

/-- One token of its own class. -/
theorem completes_require {lexeme : Lexeme} (h : ∀ l : Lexeme, l.sameClass lexeme → l = lexeme) :
    Completes n (require lexeme) fun us t => us = [t] ∧ t.lexeme = lexeme := by
  refine completes_read_bind ⟨_, ⟨lexeme, .start⟩, rfl, rfl⟩ fun l p => ?_
  by_cases hclass : l.sameClass lexeme = true
  · simp only [if_pos hclass]
    exact .go (completes_pure ⟨rfl, h l hclass⟩)
  · simp only [if_neg hclass]
    exact .reject rfl

/-- A mark that is required is what completes an empty list of tokens. -/
theorem completes_mark (k : Mark) : Completes n (discard (mark k)) (IsLexeme (.mark k)) := by
  refine (completes_require fun l => (Lexeme.sameClass_mark l k).mp).map fun us t ht => ?_
  exact ⟨t.position, by rw [ht.1, ← ht.2]⟩

theorem completes_word (k : Keyword) : Completes n (discard (word k)) (IsLexeme (.keyword k)) := by
  refine (completes_require fun l => (Lexeme.sameClass_keyword l k).mp).map fun us t ht => ?_
  exact ⟨t.position, by rw [ht.1, ← ht.2]⟩

theorem sound_mark (k : Mark) : Sound (discard (mark k)) (IsLexeme (.mark k)) := by
  intro s s' _ h
  obtain ⟨p, hp⟩ := discard_mark_eq_ok h
  exact ⟨[⟨.mark k, p⟩], hp, p, rfl⟩

theorem sound_word (k : Keyword) : Sound (discard (word k)) (IsLexeme (.keyword k)) := by
  intro s s' _ h
  obtain ⟨p, hp⟩ := discard_word_eq_ok h
  exact ⟨[⟨.keyword k, p⟩], hp, p, rfl⟩

/-- After a mark, what follows is completed with the mark in front. -/
theorem completes_mark_bind {k : Mark} {g : Unit → Rule α}
    (hg : ∀ p, Completes (n - 1) (g ()) fun us a => G (⟨.mark k, p⟩ :: us) a) :
    Completes n (discard (mark k) >>= g) G := by
  refine (completes_mark k).bind (sound_mark k) ?_
  rintro _ _ ⟨p, rfl⟩
  exact hg p

theorem completes_word_bind {k : Keyword} {g : Unit → Rule α}
    (hg : ∀ p, Completes (n - 1) (g ()) fun us a => G (⟨.keyword k, p⟩ :: us) a) :
    Completes n (discard (word k) >>= g) G := by
  refine (completes_word k).bind (sound_word k) ?_
  rintro _ _ ⟨p, rfl⟩
  exact hg p

/-- The bound that a rule asks for is at least the number of items. -/
theorem completes_remaining_bind {g : Nat → Rule α} (hg : ∀ k : Nat, Completes (min n k) (g k) G) :
    Completes n (remaining >>= g) G := by
  refine ⟨(hg 0).inhabited, fun s s' e hs hrun => ?_⟩
  have hsize := s.length_items_le_size
  exact (hg s.size).fails (by omega) hrun

/-! ## Names, operators and lists -/

theorem completes_name : Completes n name IsName := by
  refine completes_read_bind ⟨_, _, .mk ⟨"", .start⟩⟩ fun l p => ?_
  cases l with
  | identifier text => exact .go (completes_pure (.mk ⟨text, p⟩))
  | _ => exact .reject rfl

/-- After a name, what follows is completed with the name in front. -/
theorem completes_name_bind {g : Name → Rule α}
    (hg : ∀ x, Completes (n - 1) (g x) fun us a => G (x.token :: us) a) :
    Completes n (name >>= g) G := by
  refine completes_name.bind sound_name fun us x hx => ?_
  cases hx
  exact hg x

theorem sound_operator (accept : BinaryOp → Bool) :
    Sound (operator accept) (IsOperator accept) := by
  intro s s' r h
  obtain ⟨op, p, rfl, haccept, hitems⟩ | ⟨rfl, hitems⟩ := operator_eq_ok h
  · exact ⟨[⟨.mark op.mark, p⟩], hitems, .inl ⟨op, p, rfl, haccept, rfl⟩⟩
  · exact ⟨[], hitems.symm, .inr ⟨rfl, rfl⟩⟩

/-- Looking for an operator fails only for an error of the lexer, and nothing need follow then. -/
theorem completes_operator (accept : BinaryOp → Bool) :
    Completes n (operator accept) (IsOperator accept) := by
  refine completes_read?_bind (fun t => ?_) (completes_pure (.inr ⟨rfl, rfl⟩))
  cases hop : (BinaryOp.ofLexeme? t.lexeme).filter accept with
  | some op =>
    obtain ⟨hlexeme, haccept⟩ := Option.filter_eq_some_iff.mp hop
    have ht := BinaryOp.eq_mark_of_ofLexeme? hlexeme
    simp only [hop]
    exact .go (completes_pure (.inl ⟨op, t.position, rfl, haccept, by rw [← ht]⟩))
  | none =>
    simp only [hop]
    exact .back (completes_pure (.inr ⟨rfl, rfl⟩))

/-- An operator, if one follows. -/
theorem completes_operator_bind {accept : BinaryOp → Bool}
    {g : Option (BinaryOp × Position) → Rule α}
    (hsome : ∀ op p, accept op →
      Completes (n - 1) (g (some (op, p))) fun us a => G (⟨.mark op.mark, p⟩ :: us) a)
    (hnone : Completes n (g none) G) : Completes n (operator accept >>= g) G := by
  refine (completes_operator accept).bind (sound_operator accept) ?_
  rintro _ _ (⟨op, p, rfl, haccept, rfl⟩ | ⟨rfl, rfl⟩)
  · exact hsome op p haccept
  · exact hnone.mono (by simp)

section Chain

variable {accept : BinaryOp → Bool} {operand : Rule Expr} {G : Derivation Expr}

/-- Where a chain breaks off after an operator, its operand can be completed and the chain ended. -/
theorem completes_chainWithin (hoperand : Completes n operand G) (hsound : Sound operand G) :
    ∀ {n' : Int} (count : Nat) (a : Expr), n' ≤ n →
      Completes n' (chainWithin accept operand count a) (Tail accept G a)
  | _, 0, a, _ => completes_pure (.stop a)
  | n', count + 1, a, hn => by
    refine completes_operator_bind (fun op p haccept => ?_) (completes_pure (.stop a))
    refine (hoperand.mono (by omega)).bind hsound fun us b hb => ?_
    exact (completes_chainWithin hoperand hsound count _ (by omega)).imp fun vs c hc =>
      .more haccept hb hc

theorem completes_chain (hoperand : Completes n operand G) (hsound : Sound operand G) :
    Completes n (chain accept operand) (Joined accept G) := by
  refine hoperand.bind hsound fun us a ha => completes_remaining_bind fun k => ?_
  exact (completes_chainWithin hoperand hsound k a (by omega)).imp fun vs b hb => .mk ha hb

end Chain

section Lists

variable {item : Rule α} (hitem : Completes n item G) (hsound : Sound item G)

include hitem hsound

/-- The bound on a list is met on no feed that is shorter, so it makes no error of its own. -/
theorem completes_itemsWithin : ∀ {n' : Int} (count : Nat), n' ≤ n → n' < count →
    Completes n' (itemsWithin item count) (Closed (Separated G))
  | n', 0, _, hcount => by
    obtain ⟨us, a, ha⟩ := hitem.inhabited
    exact .of_neg ⟨_, _, us, .start, rfl, .one ha⟩ hcount
  | n', count + 1, hn, hcount => by
    refine (hitem.mono hn).bind hsound fun us a ha => ?_
    have hlast (p : Position) : Closed (Separated G) (us ++ [⟨.mark .rightParen, p⟩]) [a] :=
      ⟨us, p, rfl, .one ha⟩
    refine completes_read_bind ⟨_, _, hlast .start⟩ fun l p => ?_
    cases l with
    | mark k =>
      cases k with
      | comma =>
        refine .go ((completes_itemsWithin count (by omega) (by omega)).map fun vs as hvs => ?_)
        obtain ⟨ws, q, rfl, has⟩ := hvs
        exact ⟨us ++ ⟨.mark .comma, p⟩ :: ws, q, by simp, .more ha has⟩
      | rightParen => exact .go (completes_pure (hlast p))
      | _ => exact .reject rfl
    | _ => exact .reject rfl

/-- A list that breaks off can be completed and closed. -/
theorem completes_commaSeparated : Completes n (commaSeparated item) (Closed (Listed G)) := by
  refine completes_accept?_bind (fun l p hclass => ?_) (completes_remaining_bind fun k => ?_)
  · obtain rfl := (Lexeme.sameClass_mark l _).mp hclass
    exact .go (completes_pure ⟨[], p, rfl, .none⟩)
  · refine (completes_itemsWithin hitem hsound (k + 1) (by omega) (by omega)).imp ?_
    rintro _ as ⟨vs, p, rfl, has⟩
    exact ⟨vs, p, rfl, .some has⟩

omit hitem in
theorem sound_commaSeparated : Sound (commaSeparated item) (Closed (Listed G)) := by
  intro s s' as h
  obtain ⟨us, p, hus, has⟩ := commaSeparated_sound hsound h
  exact ⟨us ++ [⟨.mark .rightParen, p⟩], by rw [hus]; simp, us, p, rfl, has⟩

end Lists

/-! ## Expressions -/

section Expressions

variable {factor : Rule Expr} (hfactor : Completes n factor IsFactor)
    (hsound : Sound factor IsFactor)

include hfactor hsound

theorem completes_sumOf : Completes n (sumOf factor) IsSum :=
  completes_chain (completes_chain hfactor hsound) (sound_chain hsound)

/-- Comparisons can be completed if factors can. -/
theorem completes_comparisonOf : Completes n (comparisonOf factor) IsComparison := by
  refine (completes_sumOf hfactor hsound).bind (sound_sumOf hsound) fun us a ha => ?_
  refine completes_operator_bind (fun op p hop => ?_) (completes_pure ?_)
  · exact ((completes_sumOf hfactor hsound).mono (by omega)).map fun vs b hb => .compare ha hop hb
  · rw [List.append_nil]
    exact .sum ha

/-- Arguments can be completed to a call, whatever its name. -/
theorem completes_argsOf (x : Name) :
    Completes n (argsOf factor x) fun us c =>
      ∀ p, IsCall (x.token :: ⟨.mark .leftParen, p⟩ :: us) c := by
  refine (completes_commaSeparated (completes_comparisonOf hfactor hsound)
    (sound_comparisonOf hsound)).map ?_
  rintro _ as ⟨vs, q, rfl, has⟩ p
  exact .mk has

end Expressions

/-- **What is taken of a factor can be completed**, under a bound on nesting that is at least the
number of items. -/
theorem completes_factorWithin : ∀ {n : Int} (depth : Nat), n ≤ depth →
    Completes n (factorWithin depth) IsFactor
  | n, 0, hn => completes_endOfInput ⟨_, _, .bool true .start⟩ hn _
  | n, depth + 1, hn => by
    have ih := completes_factorWithin (n := n - 1) depth (by omega)
    have hsound := sound_factorWithin depth
    refine completes_read_bind ⟨_, _, .bool true .start⟩ fun l p => ?_
    cases l with
    | identifier text =>
      refine .go (completes_accept?_bind (fun l q hclass => ?_) (completes_pure (.var ⟨text, p⟩)))
      obtain rfl := (Lexeme.sameClass_mark l _).mp hclass
      have hfactor : Completes (n - 1 - 1) (factorWithin depth) IsFactor := ih.mono (by omega)
      refine .keep ?_ (resumes_callOf _ text p q _)
      exact (completes_argsOf hfactor hsound ⟨text, p⟩).map fun us c hc => .call (hc q)
    | number v => exact .go (completes_pure (.number v p))
    | bool v => exact .go (completes_pure (.bool v p))
    | mark k =>
      cases k with
      | leftParen =>
        refine .go ((completes_comparisonOf ih hsound).bind
          (sound_comparisonOf hsound) fun us a ha => ?_)
        exact completes_mark_bind fun q => completes_pure (.parens ha)
      | plus => exact .go (ih.map fun us a ha => .sign .plus p ha)
      | minus => exact .go (ih.map fun us a ha => .sign .minus p ha)
      | _ => exact .reject rfl
    | _ => exact .reject rfl

/-- **An expression that breaks off can be completed.** -/
theorem completes_comparison : Completes n comparison IsComparison :=
  completes_remaining_bind fun k =>
    completes_comparisonOf (completes_factorWithin (k + 1) (by omega)) (sound_factorWithin _)

/-! ## Statements -/

theorem completes_condition : Completes n condition IsCondition := by
  refine completes_mark_bind fun p => ?_
  refine completes_comparison.bind sound_comparison fun us a ha => ?_
  exact completes_mark_bind fun q => completes_pure (.mk ha)

theorem completes_params : Completes n params (Closed (Listed IsName)) :=
  completes_commaSeparated completes_name sound_name

theorem sound_params : Sound params (Closed (Listed IsName)) := sound_commaSeparated sound_name

theorem completes_result : Completes n result IsStatement := by
  have hword := completes_require (n := n) fun l => (Lexeme.sameClass_keyword l .kwReturn).mp
  refine hword.bind (fun s s' t h => ⟨[t], require_eq_ok h |>.1, rfl, ?_⟩) fun us t ht => ?_
  · exact (Lexeme.sameClass_keyword _ _).mp (require_eq_ok h).2
  · obtain ⟨rfl, ht⟩ := ht
    refine completes_comparison.map fun vs a ha => ?_
    rcases t with ⟨l, p⟩
    obtain rfl : l = .keyword .kwReturn := ht
    exact .result ha

section Statements

variable {statement : Rule Statement} (hstatement : Completes n statement IsStatement)
  (hsound : Sound statement IsStatement)

include hstatement hsound

/-- Statements of a block that break off can be completed and the others left out. -/
theorem completes_statementsWithin : ∀ {n' : Int} (count : Nat), n' ≤ n → n' < count →
    Completes n' (statementsWithin statement count) (Repeated IsStatement)
  | _, 0, _, hcount => .of_neg ⟨[], [], .nil⟩ hcount
  | n', count + 1, hn, hcount => by
    have hmore : Completes n'
        (do let first ← statement; return first :: (← statementsWithin statement count))
        (Repeated IsStatement) := by
      refine (hstatement.mono hn).bind hsound fun us a ha => ?_
      have hpos := starts_statement.length_pos ha
      exact (completes_statementsWithin count (by omega) (by omega)).map fun vs as has =>
        .cons ha has
    refine completes_read_bind ⟨[], [], .nil⟩ fun l p => ?_
    cases l with
    | mark k =>
      cases k with
      | rightBrace => exact .back (completes_pure .nil)
      | _ => exact .back hmore
    | _ => exact .back hmore

theorem completes_blockOf : Completes n (blockOf statement) IsBlock := by
  refine completes_mark_bind fun p => completes_remaining_bind fun k => ?_
  have hbody : Completes (min (n - 1) k) (statementsWithin statement (k + 1))
      (Repeated IsStatement) :=
    completes_statementsWithin hstatement hsound (k + 1) (by omega) (by omega)
  refine hbody.bind (sound_statementsWithin hsound _) fun us b hb => ?_
  exact completes_mark_bind fun q => completes_pure (.mk hb)

/-- After a name and its sign, an expression or a function can be completed. -/
theorem completes_assignedOf (x : Name) (p : Position) :
    Completes n (assignedOf statement x) fun us c =>
      IsStatement (x.token :: ⟨.mark .assign, p⟩ :: us) c := by
  refine completes_accept?_bind (fun l q hclass => ?_)
    (completes_comparison.map fun us a ha => .assign ha)
  obtain rfl := (Lexeme.sameClass_keyword l _).mp hclass
  refine .go (completes_mark_bind fun r => ?_)
  refine completes_params.bind sound_params fun us xs hxs => ?_
  refine completes_mark_bind fun r' => ?_
  exact ((completes_blockOf hstatement hsound).mono (by omega)).map fun vs b hb =>
    .lambda (hxs.params r) hb

end Statements

section Forms

variable {statement : Rule Statement} (hstatement : Completes (n - 1) statement IsStatement)
  (hsound : Sound statement IsStatement)

include hstatement hsound

theorem completes_definitionOf : Completes n (definitionOf statement) IsStatement := by
  refine completes_word_bind fun p => completes_name_bind fun x => completes_mark_bind fun q => ?_
  refine completes_params.bind sound_params fun us xs hxs => ?_
  exact ((completes_blockOf hstatement hsound).mono (by omega)).map fun vs b hb =>
    .define (hxs.params q) hb

theorem completes_branchOf : Completes n (branchOf statement) IsStatement := by
  have hblock := completes_blockOf hstatement hsound
  refine completes_word_bind fun p => completes_condition.bind sound_condition fun us a ha => ?_
  refine (hblock.mono (by omega)).bind (sound_blockOf hsound) fun vs yes hyes => ?_
  refine completes_word_bind fun q => ?_
  exact (hblock.mono (by omega)).map fun ws no hno => .branch ha hyes hno

theorem completes_loopOf : Completes n (loopOf statement) IsStatement := by
  refine completes_word_bind fun p => completes_condition.bind sound_condition fun us a ha => ?_
  exact ((completes_blockOf hstatement hsound).mono (by omega)).map fun vs b hb => .loop ha hb

end Forms

/-- **What is taken of a statement can be completed**, under a bound on nesting that is at least the
number of items. -/
theorem completes_statementWithin : ∀ {n : Int} (depth : Nat), n ≤ depth →
    Completes n (statementWithin depth) IsStatement
  | n, 0, hn => completes_endOfInput (completes_result (n := n)).inhabited hn _
  | n, depth + 1, hn => by
    have ih := completes_statementWithin (n := n - 1) depth (by omega)
    have hsound := sound_statementWithin depth
    refine completes_read_bind ih.inhabited fun l p => ?_
    cases l with
    | identifier text =>
      have hnested : Completes (n - 1 - 1) (statementWithin depth) IsStatement := ih.mono (by omega)
      have hassign (q : Position) := completes_assignedOf hnested hsound ⟨text, p⟩ q
      obtain ⟨vs, c, hc⟩ := (hassign .start).inhabited
      refine .go (completes_read_bind ⟨_, c, hc⟩ fun l q => ?_)
      cases l with
      | mark k =>
        cases k with
        | assign => exact .keep (hassign q) (resumes_assignmentOf _ text p q)
        | leftParen =>
          refine .keep (completes_remaining_bind fun k => ?_) (resumes_call text p q _)
          have hfactor : Completes (min (n - 1 - 1) k) (factorWithin (k + 3)) IsFactor :=
            completes_factorWithin (k + 3) (by omega)
          exact (completes_argsOf hfactor (sound_factorWithin _) ⟨text, p⟩).map fun us c hc =>
            .call (hc q)
        | _ => exact .reject rfl
      | _ => exact .reject rfl
    | keyword k =>
      cases k with
      | kwDef => exact .back (completes_definitionOf ih hsound)
      | kwIf => exact .back (completes_branchOf ih hsound)
      | kwWhile => exact .back (completes_loopOf ih hsound)
      | kwReturn => exact .back completes_result
      | _ => exact .reject rfl
    | _ => exact .reject rfl

theorem completes_block : Completes n block IsBlock :=
  completes_remaining_bind fun k =>
    completes_blockOf (completes_statementWithin (k + 1) (by omega)) (sound_statementWithin _)

/-- **A program that breaks off can be completed**: what was read before the error begins one. -/
theorem completes_program : Completes n program IsProgram :=
  completes_word_bind fun _ => completes_name_bind fun _ => completes_block.map fun _ _ hb => .mk hb

/-- **What is taken of a program can be completed**, also where a token follows it. -/
theorem completes_wholeProgram : Completes n wholeProgram IsProgram := by
  refine completes_program.bind sound_program fun us r hr => ?_
  refine completes_read?_bind (fun t => .reject rfl) (completes_pure ?_)
  rwa [List.append_nil]

end Rule

end BraceScript
