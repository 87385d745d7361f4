import BraceScript.Proofs.Grammar.Complete
import BraceScript.Proofs.Vocabulary

/-!
# Proofs/Grammar/Anchors — every node stands at a token that was read

The tree of a derivation has no node, and binds no name, that does not stand at one of the tokens
derived from.  The relations of the grammar go through one another and through repetitions and
lists, so the induction is on a bound for the number of tokens: what an expression in parentheses, a
list of arguments or a block is derived from is shorter than the whole.
-/

namespace BraceScript.Grammar

variable {α : Type}

/-- **What is derived from at most `n` tokens stands at them**, where `view` gives the tokens at
which the nodes of a tree stand. -/
def Anchored (view : α → List Token) (G : Derivation α) (n : Nat) : Prop :=
  ∀ ⦃us : List Token⦄ ⦃a : α⦄, us.length ≤ n → G us a → view a ⊆ us

/-! ## Repetitions and lists -/

/-- Operators stand at their marks, and the operands between them are anchored. -/
theorem Anchored.tail {accept : BinaryOp → Bool} {G : Derivation Expr} {n : Nat}
    (hG : Anchored Expr.anchors G n) {a c : Expr} {us : List Token} (h : Tail accept G a us c)
    (hn : us.length ≤ n) : c.anchors ⊆ a.anchors ++ us := by
  induction h with
  | stop a => exact List.subset_append_left _ _
  | @more op p a b c us vs _ hb _ ih =>
    rw [List.length_cons, List.length_append] at hn
    have hc := ih (by omega)
    have hb := hG (by omega) hb
    rw [Expr.anchors] at hc
    grind

theorem Anchored.joined {accept : BinaryOp → Bool} {G : Derivation Expr} {n : Nat}
    (hG : Anchored Expr.anchors G n) : Anchored Expr.anchors (Joined accept G) n := by
  rintro _ c hn ⟨ha, htail⟩
  rw [List.length_append] at hn
  have ha := hG (by omega) ha
  have hc := hG.tail htail (by omega)
  grind

/-- The commas of a list are no places of its items. -/
theorem Anchored.separated {view : α → List Token} {G : Derivation α} {n : Nat}
    (hG : Anchored view G n) : Anchored (List.flatMap view) (Separated G) n := by
  intro us as hn h
  induction h with
  | one ha =>
    rw [List.flatMap_singleton]
    exact hG hn ha
  | @more a as p us vs ha _ ih =>
    rw [List.length_append, List.length_cons] at hn
    have ha := hG (by omega) ha
    have has := ih (by omega)
    rw [List.flatMap_cons]
    grind

theorem Anchored.listed {view : α → List Token} {G : Derivation α} {n : Nat}
    (hG : Anchored view G n) : Anchored (List.flatMap view) (Listed G) n := by
  rintro us as hn (_ | has)
  · exact List.nil_subset _
  · exact hG.separated hn has

theorem Anchored.repeated {view : α → List Token} {G : Derivation α} {n : Nat}
    (hG : Anchored view G n) : Anchored (List.flatMap view) (Repeated G) n := by
  intro us as hn h
  induction h with
  | nil => exact List.nil_subset _
  | @cons a as us vs ha _ ih =>
    rw [List.length_append] at hn
    have ha := hG (by omega) ha
    have has := ih (by omega)
    rw [List.flatMap_cons]
    grind

/-! ## Expressions -/

/-- Sums and comparisons are anchored if the factors are. -/
theorem Anchored.comparison {n : Nat} (h : Anchored Expr.anchors IsFactor n) :
    Anchored Expr.anchors IsComparison n := by
  intro us c hn hc
  cases hc with
  | sum ha => exact h.joined.joined hn ha
  | @compare op p a b us vs ha _ hb =>
    rw [List.length_append, List.length_cons] at hn
    have ha := h.joined.joined (by omega) ha
    have hb := h.joined.joined (by omega) hb
    rw [Expr.anchors]
    grind

/-- A call stands at its name, which is one token more than its arguments need. -/
theorem Anchored.call {n : Nat} (h : Anchored Expr.anchors IsComparison n) :
    Anchored Call.anchors IsCall (n + 1) := by
  rintro _ _ hn ⟨has⟩
  simp only [List.length_cons, List.length_append, List.length_nil] at hn
  have has := h.listed (by omega) has
  rw [Call.anchors, Expr.allAnchors_eq]
  grind

/-- **Every node of a factor stands at a token that was read.** -/
theorem anchored_factor : ∀ n, Anchored Expr.anchors IsFactor n
  | 0 => fun us a hn h => absurd (starts_factor.length_pos h) (by omega)
  | n + 1 => by
    intro us a hn h
    have ih := anchored_factor n
    cases h with
    | number k p => exact List.Subset.refl _
    | bool b p => exact List.Subset.refl _
    | var x => exact List.Subset.refl _
    | call hc => exact ih.comparison.call hn hc
    | sign op p ha =>
      have ha := ih (Nat.le_of_succ_le_succ hn) ha
      rw [Expr.anchors]
      exact List.cons_subset_cons _ ha
    | parens ha =>
      simp only [List.length_cons, List.length_append, List.length_nil] at hn
      have ha := ih.comparison (by omega) ha
      grind

theorem anchored_comparison (n : Nat) : Anchored Expr.anchors IsComparison n :=
  (anchored_factor n).comparison

/-! ## Statements -/

/-- Parameters stand at their own tokens. -/
theorem anchored_params (n : Nat) : Anchored (List.map Name.token) IsParams n := by
  have hname (n : Nat) : Anchored (fun x => [x.token]) IsName n := by
    rintro _ _ _ ⟨x⟩
    exact List.Subset.refl _
  rintro _ xs hn ⟨hxs⟩
  simp only [List.length_cons, List.length_append, List.length_nil] at hn
  have hxs := (hname n).listed (by omega) hxs
  rw [← List.map_eq_flatMap] at hxs
  grind

theorem anchored_condition (n : Nat) : Anchored Expr.anchors IsCondition n := by
  rintro _ a hn ⟨ha⟩
  simp only [List.length_cons, List.length_append, List.length_nil] at hn
  have ha := anchored_comparison n (by omega) ha
  grind

/-- The statements of a block are anchored between its braces. -/
theorem Anchored.block {n : Nat} (h : Anchored Statement.anchors IsStatement n) :
    Anchored Statement.allAnchors IsBlock n := by
  rintro _ b hn ⟨hb⟩
  simp only [List.length_cons, List.length_append, List.length_nil] at hn
  have hb := h.repeated (by omega) hb
  rw [Statement.allAnchors_eq]
  grind

/-- **Every node of a statement stands at a token that was read**, and so does every name that it
binds. -/
theorem anchored_statement : ∀ n, Anchored Statement.anchors IsStatement n
  | 0 => fun us s hn h => absurd (starts_statement.length_pos h) (by omega)
  | n + 1 => by
    intro us s hn h
    have hblock := (anchored_statement n).block
    cases h with
    | define hxs hb =>
      simp only [List.length_cons, List.length_append] at hn
      have hxs := anchored_params n (by omega) hxs
      have hb := hblock (by omega) hb
      rw [Statement.anchors]
      grind
    | branch ha hyes hno =>
      simp only [List.length_cons, List.length_append] at hn
      have ha := anchored_condition n (by omega) ha
      have hyes := hblock (by omega) hyes
      have hno := hblock (by omega) hno
      rw [Statement.anchors]
      grind
    | loop ha hb =>
      simp only [List.length_cons, List.length_append] at hn
      have ha := anchored_condition n (by omega) ha
      have hb := hblock (by omega) hb
      rw [Statement.anchors]
      grind
    | result ha =>
      have ha := anchored_comparison n (Nat.le_of_succ_le_succ hn) ha
      rw [Statement.anchors]
      exact List.cons_subset_cons _ ha
    | assign ha =>
      simp only [List.length_cons] at hn
      have ha := anchored_comparison n (by omega) ha
      rw [Statement.anchors]
      grind
    | lambda hxs hb =>
      simp only [List.length_cons, List.length_append] at hn
      have hxs := anchored_params n (by omega) hxs
      have hb := hblock (by omega) hb
      rw [Statement.anchors]
      grind
    | call hc => exact (anchored_comparison n).call hn hc

/-- **Every node of a program stands at a token that was read.** -/
theorem IsProgram.anchors_subset {us : List Token} {p : Program} (h : IsProgram us p) :
    p.anchors ⊆ us := by
  obtain ⟨hb⟩ := h
  have hb := (anchored_statement _).block (Nat.le_refl _) hb
  rw [Statement.allAnchors_eq] at hb
  rw [Program.anchors]
  grind

end BraceScript.Grammar
