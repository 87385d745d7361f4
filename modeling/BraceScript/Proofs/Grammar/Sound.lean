import BraceScript.Grammar.Statement
import BraceScript.Proofs.Feed
import BraceScript.Proofs.Grammar

/-!
# Proofs/Grammar/Sound — what is read is derived

A rule is **sound** for a relation of the grammar if, whenever it gives a tree, the items that it
took from the feed are tokens from which the grammar derives that tree.  Tokens that were looked at
and put back are not among them.

The rules are written over the reader of factors or of statements, so soundness goes through each
level once, for any sound reader below; the bounds on nesting and on loops play no part.
-/

namespace BraceScript

open Grammar

/-- An operator is read off its own mark only. -/
theorem BinaryOp.eq_mark_of_ofLexeme? {l : Lexeme} {op : BinaryOp}
    (h : BinaryOp.ofLexeme? l = some op) : l = .mark op.mark := by
  cases l with
  | mark m =>
    cases m <;> simp only [ofLexeme?, ofMark?, Option.some.injEq, reduceCtorEq] at h <;>
      subst h <;> rfl
  | _ => simp [ofLexeme?] at h

namespace Rule

variable {α : Type}

/-- **Whatever the rule gives is derived from the tokens that it took.** -/
def Sound (x : Rule α) (G : Derivation α) : Prop :=
  ∀ ⦃s s' : Feed⦄ ⦃a : α⦄, x.run s = (.ok a, s') →
    ∃ us : List Token, s.items = us.map .ok ++ s'.items ∧ G us a

/-! ## Names, operators and lists -/

/-- A name that was read is the first item, with its place. -/
theorem name_eq_ok {s s' : Feed} {x : Name} (h : name.run s = (.ok x, s')) :
    s.items = .ok x.token :: s'.items := by
  obtain ⟨t, s₁, hread, h⟩ := Action.run_bind_eq_ok h
  rw [read_eq_ok hread]
  split at h
  · next text heq =>
    cases h
    rw [Name.token, ← heq]
  · cases h

theorem sound_name : Sound name IsName := by
  intro s s' x h
  exact ⟨[x.token], name_eq_ok h, .mk x⟩

/-- An operator was read and is of the kind accepted, or nothing was taken. -/
theorem operator_eq_ok {accept : BinaryOp → Bool} {s s' : Feed} {r : Option (BinaryOp × Position)}
    (h : (operator accept).run s = (.ok r, s')) :
    (∃ op p, r = some (op, p) ∧ accept op ∧ s.items = .ok ⟨.mark op.mark, p⟩ :: s'.items) ∨
      (r = none ∧ s'.items = s.items) := by
  obtain ⟨r', s₁, hread, h⟩ := Action.run_bind_eq_ok h
  cases r' with
  | none =>
    cases h
    obtain ⟨hs, hs'⟩ := read?_eq_none hread
    exact .inr ⟨rfl, hs'.trans hs.symm⟩
  | some t =>
    have hitems := read?_eq_some hread
    simp only at h
    split at h
    · next op hop =>
      cases h
      obtain ⟨hop, haccept⟩ := Option.filter_eq_some_iff.mp hop
      refine .inl ⟨op, t.position, rfl, haccept, ?_⟩
      rw [hitems, ← BinaryOp.eq_mark_of_ofLexeme? hop]
    · cases h
      exact .inr ⟨rfl, hitems.symm⟩

/-- A chain that is cut off by its bound is still derived: it is a shorter one. -/
theorem chainWithin_sound {accept : BinaryOp → Bool} {operand : Rule Expr} {G : Derivation Expr}
    (hoperand : Sound operand G) : ∀ {count : Nat} {a c : Expr} {s s' : Feed},
      (chainWithin accept operand count a).run s = (.ok c, s') →
      ∃ us : List Token, s.items = us.map .ok ++ s'.items ∧ Tail accept G a us c
  | 0, a, c, s, s', h => by
    cases h
    exact ⟨[], rfl, .stop a⟩
  | count + 1, a, c, s, s', h => by
    obtain ⟨r, s₁, hop, h⟩ := Action.run_bind_eq_ok h
    obtain ⟨op, p, rfl, haccept, hitems⟩ | ⟨rfl, hitems⟩ := operator_eq_ok hop
    · obtain ⟨b, s₂, hright, h⟩ := Action.run_bind_eq_ok h
      obtain ⟨us, hus, hb⟩ := hoperand hright
      obtain ⟨vs, hvs, htail⟩ := chainWithin_sound hoperand h
      refine ⟨⟨.mark op.mark, p⟩ :: (us ++ vs), ?_, .more haccept hb htail⟩
      rw [hitems, hus, hvs]
      simp
    · cases h
      exact ⟨[], hitems.symm, .stop a⟩

/-- A chain of operands is sound if its operands are. -/
theorem sound_chain {accept : BinaryOp → Bool} {operand : Rule Expr} {G : Derivation Expr}
    (hoperand : Sound operand G) : Sound (chain accept operand) (Joined accept G) := by
  intro s s' c h
  obtain ⟨a, s₁, hfirst, h⟩ := Action.run_bind_eq_ok h
  rw [run_remaining_bind] at h
  obtain ⟨us, hus, ha⟩ := hoperand hfirst
  obtain ⟨vs, hvs, htail⟩ := chainWithin_sound hoperand h
  refine ⟨us ++ vs, ?_, .mk ha htail⟩
  rw [hus, hvs]
  simp

/-- A list is sound up to its closing parenthesis, which the rule takes too. -/
theorem itemsWithin_sound {item : Rule α} {G : Derivation α} (hitem : Sound item G) :
    ∀ {count : Nat} {as : List α} {s s' : Feed}, (itemsWithin item count).run s = (.ok as, s') →
      ∃ (us : List Token) (p : Position),
        s.items = us.map .ok ++ .ok ⟨.mark .rightParen, p⟩ :: s'.items ∧ Separated G us as
  | 0, _, _, _, h => by cases h
  | count + 1, as, s, s', h => by
    obtain ⟨a, s₁, hfirst, h⟩ := Action.run_bind_eq_ok h
    obtain ⟨t, s₂, hread, h⟩ := Action.run_bind_eq_ok h
    obtain ⟨us, hus, ha⟩ := hitem hfirst
    have ht := read_eq_ok hread
    rcases t with ⟨lexeme, p⟩
    simp only at h
    split at h
    · obtain ⟨bs, s₃, hrest, h⟩ := Action.run_bind_eq_ok h
      cases h
      obtain ⟨vs, q, hvs, hbs⟩ := itemsWithin_sound hitem hrest
      refine ⟨us ++ ⟨.mark .comma, p⟩ :: vs, q, ?_, .more ha hbs⟩
      rw [hus, ht, hvs]
      simp
    · cases h
      exact ⟨us, p, by rw [hus, ht], .one ha⟩
    · cases h

/-- A list up to its closing parenthesis is sound if its items are. -/
theorem commaSeparated_sound {item : Rule α} {G : Derivation α} (hitem : Sound item G)
    {as : List α} {s s' : Feed} (h : (commaSeparated item).run s = (.ok as, s')) :
    ∃ (us : List Token) (p : Position),
      s.items = us.map .ok ++ .ok ⟨.mark .rightParen, p⟩ :: s'.items ∧ Listed G us as := by
  obtain ⟨r, s₁, haccept, h⟩ := Action.run_bind_eq_ok h
  obtain ⟨t, rfl, hitems, hclass⟩ | ⟨rfl, hitems⟩ := accept?_eq_ok haccept
  · cases h
    refine ⟨[], t.position, ?_, .none⟩
    rw [hitems, ← (Lexeme.sameClass_mark _ _).mp hclass]
    rfl
  · simp only [run_remaining_bind] at h
    obtain ⟨us, p, hus, has⟩ := itemsWithin_sound hitem h
    exact ⟨us, p, hitems.symm.trans hus, .some has⟩

/-! ## Expressions -/

section Expressions

variable {factor : Rule Expr} (hfactor : Sound factor IsFactor)

include hfactor

theorem sound_sumOf : Sound (sumOf factor) IsSum := sound_chain (sound_chain hfactor)

/-- Comparisons are sound if factors are. -/
theorem sound_comparisonOf : Sound (comparisonOf factor) IsComparison := by
  intro s s' c h
  obtain ⟨a, s₁, hleft, h⟩ := Action.run_bind_eq_ok h
  obtain ⟨r, s₂, hop, h⟩ := Action.run_bind_eq_ok h
  obtain ⟨us, hus, ha⟩ := sound_sumOf hfactor hleft
  obtain ⟨op, p, rfl, haccept, hitems⟩ | ⟨rfl, hitems⟩ := operator_eq_ok hop
  · obtain ⟨b, s₃, hright, h⟩ := Action.run_bind_eq_ok h
    cases h
    obtain ⟨vs, hvs, hb⟩ := sound_sumOf hfactor hright
    refine ⟨us ++ ⟨.mark op.mark, p⟩ :: vs, ?_, .compare ha haccept hb⟩
    rw [hus, hitems, hvs]
    simp
  · cases h
    exact ⟨us, hus.trans (by rw [hitems]), .sum ha⟩

/-- Calls are sound if factors are. -/
theorem sound_callOf : Sound (callOf factor) IsCall := by
  intro s s' c h
  obtain ⟨x, s₁, hname, h⟩ := Action.run_bind_eq_ok h
  obtain ⟨_, s₂, hopen, h⟩ := Action.run_bind_eq_ok h
  obtain ⟨as, s₃, hargs, h⟩ := Action.run_bind_eq_ok h
  cases h
  obtain ⟨p, hp⟩ := discard_mark_eq_ok hopen
  obtain ⟨us, q, hus, has⟩ := commaSeparated_sound (sound_comparisonOf hfactor) hargs
  refine ⟨x.token :: ⟨.mark .leftParen, p⟩ :: (us ++ [⟨.mark .rightParen, q⟩]), ?_, .mk has⟩
  rw [name_eq_ok hname, hp, hus]
  simp

end Expressions

/-- **Factors are sound**, whatever the bound on nesting. -/
theorem sound_factorWithin : ∀ depth, Sound (factorWithin depth) IsFactor
  | 0 => by
    intro s s' e h
    cases h
  | depth + 1 => by
    intro s s' e h
    have ih := sound_factorWithin depth
    obtain ⟨⟨lexeme, p⟩, s₁, hread, h⟩ := Action.run_bind_eq_ok h
    have ht := read_eq_ok hread
    simp only at h
    split at h
    · next text =>
      -- A name: a call if a parenthesis follows, and then both tokens are read again.
      obtain ⟨r, s₂, haccept, h⟩ := Action.run_bind_eq_ok h
      obtain ⟨paren, rfl, hparen, -⟩ | ⟨rfl, hitems⟩ := accept?_eq_ok haccept
      · simp only [run_unread_bind] at h
        obtain ⟨c, s₃, hcall, h⟩ := Action.run_bind_eq_ok h
        cases h
        obtain ⟨us, hus, hc⟩ := sound_callOf ih hcall
        refine ⟨us, ?_, .call hc⟩
        rw [ht, hparen, ← hus]
        rfl
      · cases h
        exact ⟨[⟨.identifier text, p⟩], by rw [ht, ← hitems]; rfl, .var ⟨text, p⟩⟩
    · next n =>
      cases h
      exact ⟨[⟨.number n, p⟩], ht, .number n p⟩
    · next b =>
      cases h
      exact ⟨[⟨.bool b, p⟩], ht, .bool b p⟩
    · obtain ⟨a, s₂, hinner, h⟩ := Action.run_bind_eq_ok h
      obtain ⟨_, s₃, hclose, h⟩ := Action.run_bind_eq_ok h
      cases h
      obtain ⟨us, hus, ha⟩ := sound_comparisonOf ih hinner
      obtain ⟨q, hq⟩ := discard_mark_eq_ok hclose
      refine ⟨⟨.mark .leftParen, p⟩ :: (us ++ [⟨.mark .rightParen, q⟩]), ?_, .parens ha⟩
      rw [ht, hus, hq]
      simp
    · obtain ⟨a, s₂, hoperand, h⟩ := Action.run_bind_eq_ok h
      cases h
      obtain ⟨us, hus, ha⟩ := ih hoperand
      exact ⟨⟨.mark .plus, p⟩ :: us, by rw [ht, hus]; rfl, .sign .plus p ha⟩
    · obtain ⟨a, s₂, hoperand, h⟩ := Action.run_bind_eq_ok h
      cases h
      obtain ⟨us, hus, ha⟩ := ih hoperand
      exact ⟨⟨.mark .minus, p⟩ :: us, by rw [ht, hus]; rfl, .sign .minus p ha⟩
    · cases h

theorem sound_comparison : Sound comparison IsComparison := by
  intro s s' e h
  rw [comparison, run_remaining_bind] at h
  exact sound_comparisonOf (sound_factorWithin _) h

theorem sound_call : Sound call IsCall := by
  intro s s' c h
  rw [call, run_remaining_bind] at h
  exact sound_callOf (sound_factorWithin _) h

/-! ## Statements -/

theorem sound_condition : Sound condition IsCondition := by
  intro s s' e h
  obtain ⟨_, s₁, hopen, h⟩ := Action.run_bind_eq_ok h
  obtain ⟨a, s₂, hinner, h⟩ := Action.run_bind_eq_ok h
  obtain ⟨_, s₃, hclose, h⟩ := Action.run_bind_eq_ok h
  cases h
  obtain ⟨p, hp⟩ := discard_mark_eq_ok hopen
  obtain ⟨us, hus, ha⟩ := sound_comparison hinner
  obtain ⟨q, hq⟩ := discard_mark_eq_ok hclose
  refine ⟨⟨.mark .leftParen, p⟩ :: (us ++ [⟨.mark .rightParen, q⟩]), ?_, .mk ha⟩
  rw [hp, hus, hq]
  simp

/-- The opening parenthesis of a list of parameters is read before them. -/
theorem params_sound {s s₁ s' : Feed} {u : Unit} {xs : List Name}
    (hopen : (discard (mark .leftParen)).run s = (.ok u, s₁)) (h : params.run s₁ = (.ok xs, s')) :
    ∃ us : List Token, s.items = us.map .ok ++ s'.items ∧ IsParams us xs := by
  obtain ⟨p, hp⟩ := discard_mark_eq_ok hopen
  obtain ⟨us, q, hus, hxs⟩ := commaSeparated_sound sound_name h
  refine ⟨⟨.mark .leftParen, p⟩ :: (us ++ [⟨.mark .rightParen, q⟩]), ?_, .mk hxs⟩
  rw [hp, hus]
  simp

theorem sound_result : Sound result IsStatement := by
  intro s s' c h
  obtain ⟨t, s₁, hword, h⟩ := Action.run_bind_eq_ok h
  obtain ⟨a, s₂, hvalue, h⟩ := Action.run_bind_eq_ok h
  cases h
  obtain ⟨us, hus, ha⟩ := sound_comparison hvalue
  refine ⟨⟨.keyword .kwReturn, t.position⟩ :: us, ?_, .result ha⟩
  rw [word_eq_ok hword, hus]
  rfl

section Statements

variable {statement : Rule Statement} (hstatement : Sound statement IsStatement)

include hstatement

/-- Statements up to the end of a block are sound if each of them is. -/
theorem sound_statementsWithin : ∀ count,
    Sound (statementsWithin statement count) (Repeated IsStatement)
  | 0 => by
    intro s s' b h
    cases h
  | count + 1 => by
    intro s s' b h
    obtain ⟨t, s₁, hread, h⟩ := Action.run_bind_eq_ok h
    rw [run_unread_bind] at h
    -- The token that decides is put back, so the feed holds what it held before.
    have hback : (s₁.putBack t).items = s.items := (read_eq_ok hread).symm
    split at h
    · cases h
      exact ⟨[], hback.symm, .nil⟩
    · obtain ⟨first, s₂, hfirst, h⟩ := Action.run_bind_eq_ok h
      obtain ⟨others, s₃, hothers, h⟩ := Action.run_bind_eq_ok h
      cases h
      obtain ⟨us, hus, hf⟩ := hstatement hfirst
      obtain ⟨vs, hvs, hb⟩ := sound_statementsWithin count hothers
      refine ⟨us ++ vs, ?_, .cons hf hb⟩
      rw [← hback, hus, hvs]
      simp

/-- Blocks are sound if statements are. -/
theorem sound_blockOf : Sound (blockOf statement) IsBlock := by
  intro s s' b h
  obtain ⟨_, s₁, hopen, h⟩ := Action.run_bind_eq_ok h
  rw [run_remaining_bind] at h
  obtain ⟨body, s₂, hbody, h⟩ := Action.run_bind_eq_ok h
  obtain ⟨_, s₃, hclose, h⟩ := Action.run_bind_eq_ok h
  cases h
  obtain ⟨p, hp⟩ := discard_mark_eq_ok hopen
  obtain ⟨us, hus, hb⟩ := sound_statementsWithin hstatement _ hbody
  obtain ⟨q, hq⟩ := discard_mark_eq_ok hclose
  refine ⟨⟨.mark .leftBrace, p⟩ :: (us ++ [⟨.mark .rightBrace, q⟩]), ?_, .mk hb⟩
  rw [hp, hus, hq]
  simp

theorem sound_definitionOf : Sound (definitionOf statement) IsStatement := by
  intro s s' c h
  obtain ⟨_, s₁, hword, h⟩ := Action.run_bind_eq_ok h
  obtain ⟨x, s₂, hname, h⟩ := Action.run_bind_eq_ok h
  obtain ⟨_, s₃, hopen, h⟩ := Action.run_bind_eq_ok h
  obtain ⟨xs, s₄, hparams, h⟩ := Action.run_bind_eq_ok h
  obtain ⟨b, s₅, hblock, h⟩ := Action.run_bind_eq_ok h
  cases h
  obtain ⟨p, hp⟩ := discard_word_eq_ok hword
  obtain ⟨us, hus, hxs⟩ := params_sound hopen hparams
  obtain ⟨vs, hvs, hb⟩ := sound_blockOf hstatement hblock
  refine ⟨⟨.keyword .kwDef, p⟩ :: x.token :: (us ++ vs), ?_, .define hxs hb⟩
  rw [hp, name_eq_ok hname, hus, hvs]
  simp

theorem sound_branchOf : Sound (branchOf statement) IsStatement := by
  intro s s' c h
  obtain ⟨_, s₁, hword, h⟩ := Action.run_bind_eq_ok h
  obtain ⟨a, s₂, hcondition, h⟩ := Action.run_bind_eq_ok h
  obtain ⟨yes, s₃, hyes, h⟩ := Action.run_bind_eq_ok h
  obtain ⟨_, s₄, helse, h⟩ := Action.run_bind_eq_ok h
  obtain ⟨no, s₅, hno, h⟩ := Action.run_bind_eq_ok h
  cases h
  obtain ⟨p, hp⟩ := discard_word_eq_ok hword
  obtain ⟨us, hus, ha⟩ := sound_condition hcondition
  obtain ⟨vs, hvs, hyes⟩ := sound_blockOf hstatement hyes
  obtain ⟨q, hq⟩ := discard_word_eq_ok helse
  obtain ⟨ws, hws, hno⟩ := sound_blockOf hstatement hno
  refine ⟨⟨.keyword .kwIf, p⟩ :: (us ++ (vs ++ ⟨.keyword .kwElse, q⟩ :: ws)), ?_,
    .branch ha hyes hno⟩
  rw [hp, hus, hvs, hq, hws]
  simp

theorem sound_loopOf : Sound (loopOf statement) IsStatement := by
  intro s s' c h
  obtain ⟨_, s₁, hword, h⟩ := Action.run_bind_eq_ok h
  obtain ⟨a, s₂, hcondition, h⟩ := Action.run_bind_eq_ok h
  obtain ⟨b, s₃, hblock, h⟩ := Action.run_bind_eq_ok h
  cases h
  obtain ⟨p, hp⟩ := discard_word_eq_ok hword
  obtain ⟨us, hus, ha⟩ := sound_condition hcondition
  obtain ⟨vs, hvs, hb⟩ := sound_blockOf hstatement hblock
  refine ⟨⟨.keyword .kwWhile, p⟩ :: (us ++ vs), ?_, .loop ha hb⟩
  rw [hp, hus, hvs]
  simp

theorem sound_assignmentOf : Sound (assignmentOf statement) IsStatement := by
  intro s s' c h
  obtain ⟨x, s₁, hname, h⟩ := Action.run_bind_eq_ok h
  obtain ⟨_, s₂, hassign, h⟩ := Action.run_bind_eq_ok h
  obtain ⟨r, s₃, haccept, h⟩ := Action.run_bind_eq_ok h
  have hx := name_eq_ok hname
  obtain ⟨p, hp⟩ := discard_mark_eq_ok hassign
  obtain ⟨t, rfl, ht, hclass⟩ | ⟨rfl, hitems⟩ := accept?_eq_ok haccept
  · obtain ⟨_, s₄, hopen, h⟩ := Action.run_bind_eq_ok h
    obtain ⟨xs, s₅, hparams, h⟩ := Action.run_bind_eq_ok h
    obtain ⟨_, s₆, hcolon, h⟩ := Action.run_bind_eq_ok h
    obtain ⟨b, s₇, hblock, h⟩ := Action.run_bind_eq_ok h
    cases h
    obtain ⟨us, hus, hxs⟩ := params_sound hopen hparams
    obtain ⟨r, hr⟩ := discard_mark_eq_ok hcolon
    obtain ⟨vs, hvs, hb⟩ := sound_blockOf hstatement hblock
    refine ⟨x.token :: ⟨.mark .assign, p⟩ :: ⟨.keyword .kwLambda, t.position⟩ ::
      (us ++ ⟨.mark .colon, r⟩ :: vs), ?_, .lambda hxs hb⟩
    rw [hx, hp, ht, hus, hr, hvs, ← (Lexeme.sameClass_keyword _ _).mp hclass]
    simp
  · obtain ⟨a, s₄, hvalue, h⟩ := Action.run_bind_eq_ok h
    cases h
    obtain ⟨us, hus, ha⟩ := sound_comparison hvalue
    refine ⟨x.token :: ⟨.mark .assign, p⟩ :: us, ?_, .assign ha⟩
    rw [hx, hp, ← hitems, hus]
    simp

end Statements

/-- A rule that begins at a token put back is sound from before that token. -/
theorem Sound.of_putBack {x : Rule α} {G : Derivation α} (hx : Sound x G) {s s₁ s' : Feed}
    {t : Token}
    {a : α} (hs : s.items = .ok t :: s₁.items) (h : x.run (s₁.putBack t) = (.ok a, s')) :
    ∃ us : List Token, s.items = us.map .ok ++ s'.items ∧ G us a := by
  rw [hs]
  exact hx h

/-- **Statements are sound**, whatever the bound on nesting. -/
theorem sound_statementWithin : ∀ depth, Sound (statementWithin depth) IsStatement
  | 0 => by
    intro s s' c h
    cases h
  | depth + 1 => by
    intro s s' c h
    have ih := sound_statementWithin depth
    obtain ⟨t, s₁, hread, h⟩ := Action.run_bind_eq_ok h
    have ht := read_eq_ok hread
    split at h
    · exact (sound_definitionOf ih).of_putBack ht h
    · exact (sound_branchOf ih).of_putBack ht h
    · exact (sound_loopOf ih).of_putBack ht h
    · exact sound_result.of_putBack ht h
    · obtain ⟨u, s₂, hsecond, h⟩ := Action.run_bind_eq_ok h
      have hu : s₁.items = (s₂.putBack u).items := read_eq_ok hsecond
      rw [hu] at ht
      split at h
      · exact (sound_assignmentOf ih).of_putBack ht h
      · simp only [run_unread_bind] at h
        obtain ⟨c, s₃, hcall, h⟩ := Action.run_bind_eq_ok h
        cases h
        obtain ⟨us, hus, hc⟩ := sound_call.of_putBack ht hcall
        exact ⟨us, hus, .call hc⟩
      · cases h
    · cases h

/-- **Programs are sound.** -/
theorem sound_program : Sound program IsProgram := by
  intro s s' r h
  obtain ⟨_, s₁, hword, h⟩ := Action.run_bind_eq_ok h
  obtain ⟨x, s₂, hname, h⟩ := Action.run_bind_eq_ok h
  obtain ⟨b, s₃, hblock, h⟩ := Action.run_bind_eq_ok h
  cases h
  rw [block, run_remaining_bind] at hblock
  obtain ⟨p, hp⟩ := discard_word_eq_ok hword
  obtain ⟨us, hus, hb⟩ := sound_blockOf (sound_statementWithin _) hblock
  refine ⟨⟨.keyword .kwProgram, p⟩ :: x.token :: us, ?_, .mk hb⟩
  rw [hp, name_eq_ok hname, hus]
  rfl

/-- A program that is the whole source takes every item. -/
theorem wholeProgram_sound {s s' : Feed} {r : Program} (h : wholeProgram.run s = (.ok r, s')) :
    ∃ us : List Token, s.items = us.map .ok ∧ IsProgram us r := by
  obtain ⟨r', s₁, hprogram, h⟩ := Action.run_bind_eq_ok h
  obtain ⟨t?, s₂, hend, h⟩ := Action.run_bind_eq_ok h
  cases t? with
  | some t => cases h
  | none =>
    cases h
    obtain ⟨us, hus, hr⟩ := sound_program hprogram
    refine ⟨us, ?_, hr⟩
    rw [hus, (read?_eq_none hend).1, List.append_nil]

end Rule

end BraceScript
