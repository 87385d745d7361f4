import BraceScript.Proofs.Grammar.Exact
import BraceScript.Proofs.Grammar.Lookahead
import Mathlib.Data.List.Basic

/-!
# Proofs/Grammar/Extent — what follows a construct does not change it

A rule that succeeds has taken some tokens.  On any other feed that begins with the same tokens it
takes these and gives the same tree; for an expression or a statement the item after them has to be
the same too, since it decides that the construct ends there.

Two facts meet in `LooksAt.of_local`.  That the rule takes the same tokens is locality, with all
positions forgotten: the feeds may differ in the token read last, which shows in errors only.  That
it gives the same tree, positions included, is the grammar: the tree is derived from the tokens, and
the tokens derive no other (`Unambiguous`).
-/

namespace BraceScript

open Grammar

/-! ## Unambiguous derivations -/

/-- **No tokens derive two trees.** -/
def Grammar.Unambiguous {α : Type} (G : Derivation α) : Prop :=
  ∀ ⦃us : List Token⦄ ⦃a b : α⦄, G us a → G us b → a = b

namespace Rule

variable {α : Type} {G : Derivation α}

theorem halts_nil (p : Lexeme → Bool) : Halts p [] := fun _ h => by cases h

/-- **A relation is unambiguous if a rule reads it**: the rule is a function. -/
theorem unambiguous_of_reads {x : Rule α}
    (h : ∀ ⦃us : List Token⦄ ⦃a : α⦄, G us a → Reads x (us ++ []) a []) : Unambiguous G := by
  intro us a b ha hb
  have hitems : (Feed.ofTokens us).items = (us ++ []).map .ok := by
    rw [List.append_nil, Feed.items_ofTokens]
  obtain ⟨s, hs, -⟩ := h ha _ hitems
  obtain ⟨t, ht, -⟩ := h hb _ hitems
  exact Except.ok.inj (congrArg Prod.fst (hs.symm.trans ht))

/-- A rule that asks for a bound first reads what it reads under every bound that is ample. -/
theorem unambiguous_of_complete {x : Nat → Rule α} {ops : BinaryOp → Bool}
    (h : ∀ n, Complete (x (n + 1)) G ops (n + 1)) : Unambiguous G := by
  refine unambiguous_of_reads (x := do x ((← remaining) + 1)) fun us a ha => ?_
  refine .remaining fun n hn => h n ha ?_ (halts_nil _)
  rw [List.length_append] at hn
  omega

theorem unambiguous_factor : Unambiguous IsFactor :=
  unambiguous_of_complete fun n => complete_factorWithin (n + 1)

/-- In front of nothing a product is read to its end, so it has one tree. -/
theorem unambiguous_product : Unambiguous IsProduct :=
  unambiguous_of_complete (x := fun n => productOf (factorWithin n)) fun n =>
    complete_productOf (complete_factorWithin (n + 1))

theorem unambiguous_sum : Unambiguous IsSum :=
  unambiguous_of_complete (x := fun n => sumOf (factorWithin n)) fun n =>
    complete_sumOf (complete_factorWithin (n + 1))

/-- **No tokens derive two expressions.** -/
theorem unambiguous_comparison : Unambiguous IsComparison :=
  unambiguous_of_reads fun _ _ h => reads_comparison h (halts_nil _)

theorem unambiguous_call : Unambiguous IsCall := unambiguous_of_reads fun _ _ h => reads_call h []

/-- **No tokens derive two statements.** -/
theorem unambiguous_statement : Unambiguous IsStatement :=
  unambiguous_of_complete fun n => complete_statementWithin (n + 1)

theorem unambiguous_block : Unambiguous IsBlock := by
  refine unambiguous_of_reads (x := block) fun us b h => .remaining fun n hn => ?_
  rw [List.length_append] at hn
  exact reads_blockOf (complete_statementWithin (n + 1)) h (by omega) []

/-! ## Rules that ask for a bound -/

/-- A bound taken from the feed does not matter for soundness. -/
theorem Sound.remaining {x : Nat → Rule α} (h : ∀ n, Sound (x n) G) :
    Sound (do x ((← remaining) + 1)) G := by
  intro s s' a hrun
  exact h (s.size + 1) hrun

/-! ## The extent of a construct -/

/-- **A rule looks at `w` items after the tokens that it takes.**  Where it succeeds it takes some
tokens off the front; and on every feed that begins with them, and agrees with the first on `w` more
items or ends like it, the rule succeeds with the same tree and takes the same tokens. -/
def LooksAt (w : Nat) (x : Rule α) : Prop :=
  ∀ ⦃s s' : Feed⦄ ⦃a : α⦄, x.run s = (.ok a, s') →
    ∃ us : List Token, s.items = us.map .ok ++ s'.items ∧
      ∀ t : Feed, t.items.take (us.length + w) = s.items.take (us.length + w) →
        ∃ t' : Feed, x.run t = (.ok a, t') ∧ t.items = us.map .ok ++ t'.items

/-- The tokens that were taken are known from what is left. -/
theorem eq_of_map_ok_append {us vs : List Token} {rest : List Item}
    (h : us.map .ok ++ rest = vs.map .ok ++ rest) : us = vs :=
  List.map_injective_iff.mpr (fun _ _ => Except.ok.inj) (List.append_cancel_right h)

/-- The tokens that were taken are known from their number. -/
theorem eq_of_take_eq {us vs : List Token} {as bs : List Item} (hlength : vs.length = us.length)
    (h : ((vs.map .ok : List Item) ++ bs).take us.length =
      ((us.map .ok : List Item) ++ as).take us.length) : vs = us := by
  rw [List.take_left' (by simp [hlength]), List.take_left' (List.length_map _)] at h
  exact List.map_injective_iff.mpr (fun _ _ => Except.ok.inj) h

/-- **Local up to positions, sound and unambiguous together give the extent.** -/
theorem LooksAt.of_local [Placed α] {c w : Nat} {x : Rule α}
    (hlocal : ∀ n m : Int, Local (fun _ => .start) c w n m x x) (hsound : Sound x G)
    (hunique : Unambiguous G) : LooksAt w x := by
  intro s s' a hrun
  obtain ⟨us, hitems, ha⟩ := hsound hrun
  refine ⟨us, hitems, fun t hagree => ?_⟩
  obtain ⟨vs, hstops, hfollows⟩ :=
    (hlocal s.items.length t.items.length).follows s t (Int.le_refl _) (Int.le_refl _)
  rw [hrun] at hstops hfollows
  obtain ⟨hvs, -, -⟩ | ⟨⟩ := hstops
  obtain rfl : us = vs := eq_of_map_ok_append (hitems.symm.trans hvs)
  -- The feeds may differ in the token read last, but all places are one here.
  have halike : Alike (fun _ => .start) (us.length + w) s t :=
    ⟨congrArg (place _) hagree.symm, rfl⟩
  obtain ⟨us', hus', hstops', hresult, -⟩ := hfollows halike
  rcases hrun' : x.run t with ⟨e | b, t'⟩ <;> rw [hrun'] at hstops' hresult
  · cases hresult
  · obtain ⟨hitems', -, -⟩ | ⟨⟩ := hstops'
    have hlength : us'.length = us.length := by rw [← length_place _ us', hus', length_place]
    obtain rfl : us' = us := by
      have htake := congrArg (List.take us.length) hagree
      rw [List.take_take, List.take_take, Nat.min_eq_left (Nat.le_add_right _ w), hitems,
        hitems'] at htake
      exact eq_of_take_eq hlength htake
    obtain ⟨ws, hws, hb⟩ := hsound hrun'
    obtain rfl : us' = ws := eq_of_map_ok_append (hitems'.symm.trans hws)
    exact ⟨t', by rw [hunique ha hb], hitems'⟩

end Rule

open Rule in
/-- **Lookahead is bounded.**  An expression, of whatever level, and a statement are known from
their tokens and one item more, or the end of the source there: on every feed that agrees so far the
rule gives the same tree and takes the same tokens.  A call, a block and a program are known from
their own tokens alone, so that nothing after the mark that closes them, be it no token at all, is
looked at. -/
theorem rules_look_ahead :
    LooksAt 1 comparison ∧ LooksAt 1 sum ∧ LooksAt 1 product ∧ LooksAt 1 factor ∧ LooksAt 0 call ∧
    LooksAt 1 statement ∧ LooksAt 0 block ∧ LooksAt 0 program := by
  refine ⟨.of_local (fun _ _ => local_comparison) sound_comparison unambiguous_comparison,
    .of_local (fun _ _ => local_sum) ?_ unambiguous_sum,
    .of_local (fun _ _ => local_product) ?_ unambiguous_product,
    .of_local (fun _ _ => local_factor) (.remaining sound_factorWithin) unambiguous_factor,
    .of_local (fun _ _ => local_call) sound_call unambiguous_call,
    .of_local (fun _ _ => local_statement) (.remaining sound_statementWithin) unambiguous_statement,
    .of_local (fun _ _ => local_block) ?_ unambiguous_block,
    .of_local (fun _ _ => local_program) sound_program fun _ _ _ => IsProgram.unique⟩
  · exact .remaining (x := fun n => sumOf (factorWithin n)) fun n =>
      sound_sumOf (sound_factorWithin n)
  · exact .remaining (x := fun n => productOf (factorWithin n)) fun n =>
      sound_chain (sound_factorWithin n)
  · exact .remaining (x := fun n => blockOf (statementWithin n)) fun n =>
      sound_blockOf (sound_statementWithin n)

/-- A call before a character that starts no token. -/
example : (Rule.call.parse "f()?").1 = .ok ⟨⟨"f", ⟨1, 1⟩⟩, []⟩ := rfl

end BraceScript
