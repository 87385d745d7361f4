import BraceScript.Proofs.Grammar.Exact
import BraceScript.Proofs.Grammar.Pushback
import BraceScript.Proofs.Grammar.Viable

/-!
# Proofs/Grammar/Leftmost — an error stands where a source stops being the beginning of a program

Whether tokens begin a program does not depend on where they stand, so a token list is **viable** if
its lexemes are the first ones of some program.  What was taken before an error is viable, because
it can be completed (`Grammar/Viable`).  With the token that the error is about it is not: a program
that began in the same way would be read like the source up to that token (`Grammar/Lookahead`), and
fail too.
-/

namespace BraceScript

open Grammar

/-! ## Viable tokens -/

/-- **Tokens that a program can begin with**, wherever they stand. -/
def Viable (us : List Token) : Prop :=
  ∃ ts r, IsProgram ts r ∧ us.map Token.lexeme <+: ts.map Token.lexeme

/-- Tokens that a program can begin with and not end with. -/
def ViableUnfinished (us : List Token) : Prop :=
  ∃ ts r, IsProgram ts r ∧ us.map Token.lexeme <+: ts.map Token.lexeme ∧ us.length < ts.length

/-- Tokens that begin a program, at their places, are viable. -/
theorem Grammar.Begins.viable {us : List Token} (h : Begins IsProgram us) : Viable us := by
  obtain ⟨vs, r, hr⟩ := h
  exact ⟨us ++ vs, r, hr, by rw [List.map_append]; exact List.prefix_append _ _⟩

theorem SyntaxFault.not_isLexical {fault : SyntaxFault} {found : Lexeme}
    (h : fault.found? = some found) : ¬ fault.isLexical := by
  cases fault with
  | invalidCharacter | invalidNumeric | unterminatedComment | unexpectedEnd => cases h
  | unexpectedToken | invalidStatement | trailingToken => exact Bool.false_ne_true

theorem foldl_position (us : List Token) (p : Position) :
    (us.map .ok).foldl (fun _ (item : Item) => item.position) p =
      (us.getLast?.map Token.position).getD p := by
  induction us generalizing p with
  | nil => rfl
  | cons u us ih =>
    rw [List.map_cons, List.foldl_cons, ih, List.getLast?_cons]
    cases us.getLast? <;> rfl

namespace Rule

/-- An error is about one item only. -/
theorem Blocked.unique {e : SyntaxError} {next next' rest : List Item} (h : Blocked e next rest)
    (h' : Blocked e next' rest) : next = next' := by
  cases h with
  | @token _ t _ hfound hposition =>
    cases h' with
    | @token _ t' _ hfound' hposition' =>
      obtain rfl : t = t' := by
        rcases t with ⟨l, p⟩
        rcases t' with ⟨l', p'⟩
        obtain rfl : l = l' := Option.some.inj (hfound.symm.trans hfound')
        obtain rfl : p = p' := hposition.symm.trans hposition'
        rfl
      rfl
    | lexical hlexical => exact absurd hlexical (SyntaxFault.not_isLexical hfound)
    | ending => cases hfound
  | lexical hlexical =>
    cases h' with
    | token hfound' _ => exact absurd hlexical (SyntaxFault.not_isLexical hfound')
    | lexical => rfl
    | ending => cases hlexical
  | ending =>
    cases h' with
    | token hfound' _ => cases hfound'
    | lexical hlexical => cases hlexical
    | ending => rfl

/-- **A rejected run has taken one list of tokens**: where it is blocked is given by what is
left. -/
theorem Stops.unique {α : Type} {c : Nat} {s s' : Feed} {e : SyntaxError} {us us' : List Token}
    {next : List Item} (h : Stops (α := α) c s us (.error e, s'))
    (hitems : s.items = us'.map .ok ++ next) (hblocked : Blocked e next s'.items) : us = us' := by
  obtain ⟨⟩ | ⟨hitems', hblocked', -⟩ := h
  rw [hblocked'.unique hblocked, hitems] at hitems'
  have hmap := List.append_cancel_right hitems'
  exact ((List.map_inj_right fun _ _ => Except.ok.inj).mp hmap).symm

/-- **What is known where a source is rejected.** -/
structure Rejected (items : List Item) (e : SyntaxError) (us : List Token) (next : List Item) :
    Prop where
  items_eq : items = us.map .ok ++ next
  blocked : ∃ rest, Blocked e next rest
  begins : Begins IsProgram us
  position_eq : next = [] → e.position = items.foldl (fun _ item => item.position) .start
  not_agree : ∀ ts r, IsProgram ts r → ¬ Agree (fun _ => .start) (us.length + 1) items (ts.map .ok)

/-- **Every syntax error comes from a place where the source is rejected so.** -/
theorem exists_rejected {source : String} {e : SyntaxError}
    (h : (wholeProgram.parse source).1 = .error e) :
    ∃ us next, Rejected (lex source) e us next := by
  let s := Feed.ofSource source
  have hs : s.items = lex source := Feed.items_ofSource source
  have hrun : wholeProgram.run s = (.error e, (wholeProgram.run s).2) := Prod.ext h rfl
  obtain ⟨us, next, hitems, hblocked, hbegins⟩ :=
    (completes_wholeProgram (n := s.items.length)).fails (Int.le_refl _) hrun
  refine ⟨us, next, hs ▸ hitems, ⟨_, hblocked⟩, hbegins, fun hnext => ?_, fun ts r hr hagree => ?_⟩
  · obtain ⟨us', hstops⟩ := (local_wholeProgram (f := id) (n := s.items.length) (m := 0)).stops s
      (Int.le_refl _)
    rw [hrun] at hstops
    obtain ⟨⟩ | ⟨-, hblocked', hlast⟩ := hstops
    rw [hlast ((hblocked'.unique hblocked).trans hnext), Feed.last, hs]
    rfl
  · -- A program that agrees with the source up to the token after `us` is read as far, and then
    -- rejected.
    let t := Feed.ofTokens ts
    have ht : t.items = ts.map .ok := Feed.items_ofTokens ts
    have hok : (wholeProgram.run t).1 = .ok r := (run_wholeProgram_iff t r).mpr ⟨ts, ht, hr⟩
    obtain ⟨us', hstops, hfollows⟩ :=
      (local_wholeProgram (f := fun _ => .start) (n := s.items.length)
        (m := t.items.length)).follows s t (Int.le_refl _) (Int.le_refl _)
    rw [hrun] at hstops hfollows
    obtain rfl := hstops.unique hitems hblocked
    obtain ⟨_, _, _, hresult, _⟩ := hfollows ⟨by rw [hs, ht]; exact hagree, rfl⟩
    rw [hok] at hresult
    cases hresult

namespace Rejected

variable {items next : List Item} {e : SyntaxError} {us : List Token}

/-- A program that begins like the tokens taken and the next one would be rejected there too. -/
theorem not_viable {t : Token} (h : Rejected items e us next) {rest : List Item}
    (hnext : next = .ok t :: rest) : ¬ Viable (us ++ [t]) := by
  rintro ⟨ts, r, hr, hbegin⟩
  refine h.not_agree ts r hr ?_
  have htake : items.take (us.length + 1) = (us ++ [t]).map .ok := by
    have hitems : items = (us ++ [t]).map .ok ++ rest := by
      rw [h.items_eq, hnext]
      simp
    rw [hitems]
    exact List.take_left' (by simp)
  have hlexemes : (us ++ [t]).map Token.lexeme = (ts.take (us.length + 1)).map Token.lexeme := by
    rw [List.map_take, List.prefix_iff_eq_take.mp hbegin]
    simp
  rw [Agree, htake, ← List.map_take]
  exact (bare_map_ok _).trans ((congrArg _ hlexemes).trans (bare_map_ok _).symm)

/-- Where an error names a token, that token is the first one that no program goes on with. -/
theorem token {found : Lexeme} (h : Rejected items e us next)
    (hfound : e.fault.found? = some found) :
    ∃ us t rest, items = us.map .ok ++ .ok t :: rest ∧ t = ⟨found, e.position⟩ ∧
      Viable us ∧ ¬ Viable (us ++ [t]) := by
  obtain ⟨rest, hblocked⟩ := h.blocked
  cases hblocked with
  | @token _ t _ hfound' hposition =>
    obtain rfl := Option.some.inj (hfound.symm.trans hfound')
    exact ⟨us, t, rest, h.items_eq, by rw [hposition], h.begins.viable, h.not_viable rfl⟩
  | lexical hlexical => exact absurd hlexical (SyntaxFault.not_isLexical hfound)
  | ending => cases hfound

theorem lexical (h : Rejected items e us next) (hlexical : e.fault.isLexical) :
    ∃ us rest, items = us.map .ok ++ .error e :: rest ∧ Viable us := by
  obtain ⟨rest, hblocked⟩ := h.blocked
  cases hblocked with
  | token hfound _ => exact absurd hlexical (SyntaxFault.not_isLexical hfound)
  | lexical => exact ⟨us, rest, h.items_eq, h.begins.viable⟩
  | ending => cases hlexical

/-- What is taken before the source ends is not yet a program, for else it would have been
accepted. -/
theorem ending {expected : String} (h : Rejected items e us next)
    (hending : e.fault = .unexpectedEnd expected) :
    ∃ us, items = us.map .ok ∧ ViableUnfinished us ∧
      e.position = (us.getLast?.map Token.position).getD .start := by
  obtain ⟨rest, hblocked⟩ := h.blocked
  cases hblocked with
  | token hfound _ =>
    rw [hending] at hfound
    cases hfound
  | lexical hlexical =>
    rw [hending] at hlexical
    cases hlexical
  | ending =>
    have hitems : items = us.map .ok := h.items_eq.trans (List.append_nil _)
    refine ⟨us, hitems, ?_, ?_⟩
    · obtain ⟨vs, r, hr⟩ := h.begins
      refine ⟨us ++ vs, r, hr, by rw [List.map_append]; exact List.prefix_append _ _, ?_⟩
      cases vs with
      | nil =>
        rw [List.append_nil] at hr
        have hagree : Agree (fun _ => .start) (us.length + 1) items (us.map .ok) :=
          congrArg _ (by rw [hitems])
        exact absurd hagree (h.not_agree us r hr)
      | cons v vs => simp
    · rw [h.position_eq rfl, hitems, foldl_position]

end Rejected

end Rule

/-- **A source is rejected at the leftmost possible place.**  A token that an error is about is the
first with which the source no longer begins a program; what the lexer finds wrong is the first such
item, and the source begins a program up to it; and at an unexpected end the source begins a program
without being one, and the place is that of its last token. -/
theorem parse_error_leftmost {source : String} {e : SyntaxError}
    (h : (Rule.wholeProgram.parse source).1 = .error e) :
    match e.fault with
    | .unexpectedToken _ found | .invalidStatement found | .trailingToken found =>
      ∃ us t rest, lex source = us.map .ok ++ .ok t :: rest ∧ t = ⟨found, e.position⟩ ∧
        Viable us ∧ ¬ Viable (us ++ [t])
    | .invalidCharacter _ | .invalidNumeric _ | .unterminatedComment =>
      ∃ us rest, lex source = us.map .ok ++ .error e :: rest ∧ Viable us
    | .unexpectedEnd _ =>
      ∃ us, lex source = us.map .ok ∧ ViableUnfinished us ∧
        e.position = (us.getLast?.map Token.position).getD .start := by
  obtain ⟨us, next, hrejected⟩ := Rule.exists_rejected h
  cases hfault : e.fault with
  | unexpectedToken | invalidStatement | trailingToken =>
    exact hrejected.token (by rw [hfault]; rfl)
  | invalidCharacter | invalidNumeric | unterminatedComment =>
    exact hrejected.lexical (by rw [hfault]; rfl)
  | unexpectedEnd => exact hrejected.ending hfault

/-- The second name of a statement. -/
theorem parse_error_leftmost_atName : (Rule.wholeProgram.parse "PROGRAM p\x7bx y\x7d").1 =
      .error ⟨.invalidStatement (.identifier "y"), ⟨1, 13⟩⟩ ∧
    ∃ us t rest, lex "PROGRAM p\x7bx y\x7d" = us.map .ok ++ .ok t :: rest ∧
      t = ⟨.identifier "y", ⟨1, 13⟩⟩ ∧ Viable us ∧ ¬ Viable (us ++ [t]) := by
  have h : (Rule.wholeProgram.parse "PROGRAM p\x7bx y\x7d").1 =
      .error ⟨.invalidStatement (.identifier "y"), ⟨1, 13⟩⟩ := by
    have hholds : Feed.Holds (.ofSource "PROGRAM p\x7bx y\x7d") (.ofTokens
        [⟨.keyword .kwProgram, ⟨1, 1⟩⟩, ⟨.identifier "p", ⟨1, 9⟩⟩, ⟨.mark .leftBrace, ⟨1, 10⟩⟩,
          ⟨.identifier "x", ⟨1, 11⟩⟩, ⟨.identifier "y", ⟨1, 13⟩⟩, ⟨.mark .rightBrace, ⟨1, 14⟩⟩]) :=
      ⟨rfl, rfl⟩
    exact (Rule.Local.oblivious (fun _ _ => Rule.local_wholeProgram) _ _ hholds).1.trans rfl
  exact ⟨h, parse_error_leftmost h⟩

end BraceScript
