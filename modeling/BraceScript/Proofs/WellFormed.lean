import BraceScript.Proofs.Chain
import BraceScript.Proofs.Effects

/-!
# Proofs/WellFormed — the shape of every stack that a program meets

Frame zero is the outermost one and binds the built-in functions; every other frame has a parent
below it and stands one level deeper.  Extending a stack keeps this shape, and so does the push of a
callee's frame, whose parent is found by name among the frames there are; so every state that a run
passes has it (`Passes.wellFormed`).
-/

namespace BraceScript

namespace Stack

/-- **The shape of a stack.** -/
structure WellFormed (s : Stack) : Prop where
  outermost : ∃ f, s.frame? 0 = some f ∧ f.level = 0 ∧ f.parent = none ∧
    ∀ b : Builtin, f.bindings.binds b.name
  nested : ∀ i f, 0 < i → s.frame? i = some f →
    ∃ p g, f.parent = some p ∧ p < i ∧ s.frame? p = some g ∧ f.level = g.level + 1

/-- So many parent links lead from one frame to another. -/
inductive Links (s : Stack) : Nat → Nat → Nat → Prop
  | here (i : Nat) : Links s i i 0
  | up {i j p n : Nat} {f : Frame} :
    s.frame? i = some f → f.parent = some p → Links s p j n → Links s i j (n + 1)

namespace WellFormed

variable {s t : Stack}

theorem initial : WellFormed Stack.initial where
  outermost := by
    refine ⟨.outermost, rfl, rfl, rfl, fun b => ?_⟩
    cases b <;> decide +kernel
  nested i f hi hf := by
    have h : i < 1 := lt_depth_of_frame? hf
    omega

/-- Every parent lies below its frame, so that names are looked up along the chain. -/
theorem ordered (h : WellFormed s) : s.Ordered := by
  intro i f p hf hp
  rcases Nat.eq_zero_or_pos i with rfl | hi
  · obtain ⟨g, hg, -, hparent, -⟩ := h.outermost
    obtain rfl : g = f := Option.some.inj (hg.symm.trans hf)
    simp [hparent] at hp
  · obtain ⟨q, -, hq, hlt, -⟩ := h.nested i f hi hf
    obtain rfl : q = p := Option.some.inj (hq.symm.trans hp)
    exact hlt

/-- Extending a stack keeps its shape. -/
theorem of_extends (h : WellFormed s) (hext : Extends s t) : WellFormed t where
  outermost := by
    obtain ⟨f, hf, hlevel, hparent, hbinds⟩ := h.outermost
    obtain ⟨g, hg, hlevel', hparent', hbinds'⟩ := hext.frame? hf
    exact ⟨g, hg, hlevel'.trans hlevel, hparent'.trans hparent, fun b => hbinds' _ (hbinds b)⟩
  nested i g hi hg := by
    obtain ⟨f, hf⟩ := exists_frame? (hext.depth_eq ▸ lt_depth_of_frame? hg)
    obtain ⟨g', hg', hlevel, hparent, -⟩ := hext.frame? hf
    obtain rfl : g' = g := Option.some.inj (hg'.symm.trans hg)
    obtain ⟨p, q, hp, hlt, hq, hfq⟩ := h.nested i f hi hf
    obtain ⟨q', hq', hlevel', -, -⟩ := hext.frame? hq
    exact ⟨p, q', hparent.trans hp, hlt, hq', by omega⟩

/-- **The frame of a callee fits on top**, under the frame that was found for it. -/
theorem push_calleeFrame (h : WellFormed s) {name : String} {p : Nat} (hp : s.find? name = some p)
    (r : Routine) (args : List Value) : WellFormed (s.push (s.calleeFrame r args p)) where
  outermost := by
    obtain ⟨f, hf, hrest⟩ := h.outermost
    exact ⟨f, (frame?_push_of_lt s.depth_pos _).trans hf, hrest⟩
  nested i f hi hf := by
    obtain ⟨g, hg, -⟩ := find?_eq_some hp
    have hlt : p < s.depth := lt_depth_of_frame? hg
    rw [frame?_push] at hf
    split at hf
    · next heq =>
      obtain rfl := Option.some.inj hf
      refine ⟨p, g, rfl, heq ▸ hlt, (frame?_push_of_lt hlt _).trans hg, ?_⟩
      simp only [calleeFrame, level, hg]
    · obtain ⟨q, k, hq, hlt', hk, hlevel⟩ := h.nested i f hi hf
      have hqs : q < s.depth := lt_depth_of_frame? hk
      exact ⟨q, k, hq, hlt', (frame?_push_of_lt hqs _).trans hk, hlevel⟩

/-- **The level of a frame is the number of parent links to the outermost one.** -/
theorem links_iff (h : WellFormed s) {i : Nat} {f : Frame} (hf : s.frame? i = some f) (n : Nat) :
    Links s i 0 n ↔ n = f.level := by
  induction i using Nat.strongRecOn generalizing f n with
  | ind i ih =>
    rcases Nat.eq_zero_or_pos i with rfl | hi
    · obtain ⟨g, hg, hlevel, hparent, -⟩ := h.outermost
      obtain rfl : g = f := Option.some.inj (hg.symm.trans hf)
      rw [hlevel]
      refine ⟨fun hlinks => ?_, fun hn => by rw [hn]; exact .here 0⟩
      cases hlinks with
      | here => rfl
      | up hf' hp _ =>
        obtain rfl := Option.some.inj (hg.symm.trans hf')
        simp [hparent] at hp
    · obtain ⟨p, g, hp, hlt, hg, hlevel⟩ := h.nested i f hi hf
      refine ⟨fun hlinks => ?_, fun hn => ?_⟩
      · cases hlinks with
        | here => exact absurd hi (Nat.lt_irrefl 0)
        | up hf' hp' hlinks =>
          obtain rfl := Option.some.inj (hf.symm.trans hf')
          obtain rfl := Option.some.inj (hp.symm.trans hp')
          rw [(ih p hlt hg _).mp hlinks, hlevel]
      · rw [hn, hlevel]
        exact .up hf hp ((ih p hlt hg _).mpr rfl)

/-- The walk for a name that the outermost frame binds does not end empty-handed. -/
theorem findFrom_ne_none (h : WellFormed s) {f : Frame} (hf : s.frame? 0 = some f) {name : String}
    (hname : f.bindings.binds name) :
    ∀ count i, i < count → i < s.depth → s.findFrom name count (some i) ≠ none := by
  intro count
  induction count with
  | zero => intro i hi; exact absurd hi (Nat.not_lt_zero i)
  | succ count ih =>
    intro i hi hdepth
    obtain ⟨g, hg⟩ := exists_frame? hdepth
    rw [findFrom_succ hg]
    by_cases hb : g.bindings.binds name = true
    · rw [if_pos hb]
      exact Option.some_ne_none i
    · rw [if_neg hb]
      have hpos : 0 < i := by
        rcases Nat.eq_zero_or_pos i with rfl | hpos
        · obtain rfl := Option.some.inj (hf.symm.trans hg)
          exact absurd hname hb
        · exact hpos
      obtain ⟨p, k, hp, hlt, hk, -⟩ := h.nested i g hpos hg
      rw [hp]
      exact ih p (by omega) (lt_depth_of_frame? hk)

/-- **Built-in names are always found.** -/
theorem lookup?_builtin (h : WellFormed s) (b : Builtin) : ∃ v, s.lookup? b.name = some v := by
  obtain ⟨f, hf, -, -, hbinds⟩ := h.outermost
  have hne := h.findFrom_ne_none hf (hbinds b) s.depth s.top s.top_lt_depth s.top_lt_depth
  obtain ⟨p, hp⟩ := Option.ne_none_iff_exists'.mp hne
  obtain ⟨g, hg, hg'⟩ := findFrom_eq_some hp
  obtain ⟨v, hv⟩ := Option.isSome_iff_exists.mp hg'
  have hfind : s.find? b.name = some p := hp
  exact ⟨v, by rw [lookup?, hfind]; simp [hg, hv]⟩

end WellFormed

end Stack

/-- Calls in progress keep the shape of the stack. -/
theorem Stack.InProgress.wellFormed {s u : Stack} (h : InProgress s u) :
    s.WellFormed → u.WellFormed := by
  induction h with
  | none s => exact id
  | call r args hparent hext _ ih =>
    exact fun hs => ih ((hs.push_calleeFrame hparent r args).of_extends hext)

/-- **Every state that a run passes has a well-formed stack**, if the first one has. -/
theorem Passes.wellFormed {fuel : Nat} {t : Task} {m m' : Machine} (h : Passes fuel t m m')
    (hm : m.stack.WellFormed) : m'.stack.WellFormed := by
  obtain ⟨s, ⟨hext, -⟩, hcalls⟩ := h.inProgress
  exact hcalls.wellFormed (hm.of_extends hext)

end BraceScript
