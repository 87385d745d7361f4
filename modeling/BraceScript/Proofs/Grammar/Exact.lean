import BraceScript.Proofs.Grammar.Complete
import BraceScript.Proofs.Grammar.Sound

/-!
# Proofs/Grammar/Exact — parsing decides derivability, and finds the tree

What a program rule gives on a feed is derived from the feed's items (`Grammar/Sound`), and what is
derived from them is given (`Grammar/Complete`), so the rule accepts exactly the grammar.  A rule is
a function; tokens can be put in front of a feed one by one, so every token list is what some feed
holds, and the grammar, in which nothing looks ahead, is unambiguous because the rule for it is.
-/

namespace BraceScript

open Grammar

/-- A feed that holds some tokens and nothing else. -/
def Feed.ofTokens (ts : List Token) : Feed := { Feed.ofSource "" with pending := ts }

theorem Feed.items_ofTokens (ts : List Token) : (Feed.ofTokens ts).items = ts.map .ok :=
  List.append_nil _

namespace Rule

/-- **A feed is read as a program exactly if its items are tokens that derive the program.** -/
theorem run_wholeProgram_iff (s : Feed) (r : Program) :
    (wholeProgram.run s).1 = .ok r ↔ ∃ ts : List Token, s.items = ts.map .ok ∧ IsProgram ts r := by
  constructor
  · intro h
    have hrun : wholeProgram.run s = (.ok r, (wholeProgram.run s).2) := Prod.ext h rfl
    exact wholeProgram_sound hrun
  · rintro ⟨ts, hs, hr⟩
    obtain ⟨s', hrun, -⟩ := reads_wholeProgram hr s hs
    rw [hrun]

end Rule

/-- **No token list derives two programs.** -/
theorem Grammar.IsProgram.unique {ts : List Token} {r r' : Program} (h : IsProgram ts r)
    (h' : IsProgram ts r') : r = r' := by
  have hitems := Feed.items_ofTokens ts
  have hrun := (Rule.run_wholeProgram_iff _ r).mpr ⟨ts, hitems, h⟩
  have hrun' := (Rule.run_wholeProgram_iff _ r').mpr ⟨ts, hitems, h'⟩
  exact Except.ok.inj (hrun.symm.trans hrun')

/-- **Parsing accepts exactly the grammar and gives the tree of the derivation.**  A source is read
as a program if and only if it is cut into tokens without an error and they derive that program; and
no tokens derive two programs. -/
theorem parse_wholeProgram_iff_derives :
    (∀ (source : String) (r : Program), (Rule.wholeProgram.parse source).1 = .ok r ↔
      ∃ ts : List Token, lex source = ts.map .ok ∧ IsProgram ts r) ∧
    ∀ (ts : List Token) (r r' : Program), IsProgram ts r → IsProgram ts r' → r = r' := by
  refine ⟨fun source r => ?_, fun ts r r' h h' => h.unique h'⟩
  rw [← Feed.items_ofSource source]
  exact Rule.run_wholeProgram_iff (.ofSource source) r

/-- A name in the first line. -/
def Name.atColumn (column : Nat) (text : String) : Name := ⟨text, ⟨1, column⟩⟩

/-- Differences group from the left, and nothing separates the call from the assignment before
it. -/
theorem parse_wholeProgram_iff_derives_unseparated :
    (Rule.wholeProgram.parse "PROGRAM p\x7bx=a-b-c f(x)\x7d").1 = .ok
      ⟨.atColumn 9 "p",
        [.assign (.atColumn 11 "x")
          (.binary .sub ⟨1, 16⟩
            (.binary .sub ⟨1, 14⟩ (.var (.atColumn 13 "a")) (.var (.atColumn 15 "b")))
            (.var (.atColumn 17 "c"))),
        .call (.atColumn 19 "f") [.var (.atColumn 21 "x")]]⟩ := by
  have hname (x : Name) : IsProduct ([x.token] ++ []) (.var x) := .mk (.var x) (.stop _)
  have hsub : BinaryOp.sub.isAdditive := rfl
  have hvalue := IsComparison.sum (.mk (hname (.atColumn 13 "a"))
    (.more (p := ⟨1, 14⟩) hsub (hname (.atColumn 15 "b"))
      (.more (p := ⟨1, 16⟩) hsub (hname (.atColumn 17 "c")) (.stop _))))
  have harg := IsComparison.sum (.mk (hname (.atColumn 21 "x")) (.stop _))
  have hassign := IsStatement.assign (p := ⟨1, 12⟩) (x := .atColumn 11 "x") hvalue
  have hcall := IsStatement.call
    (.mk (x := .atColumn 19 "f") (p := ⟨1, 20⟩) (q := ⟨1, 22⟩) (.some (.one harg)))
  have hblock := IsBlock.mk (p := ⟨1, 10⟩) (q := ⟨1, 23⟩) (.cons hassign (.cons hcall .nil))
  have hprogram := IsProgram.mk (p := ⟨1, 1⟩) (x := .atColumn 9 "p") hblock
  exact (parse_wholeProgram_iff_derives.1 _ _).mpr ⟨_, rfl, hprogram⟩

end BraceScript
