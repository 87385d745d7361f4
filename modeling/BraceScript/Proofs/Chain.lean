import BraceScript.Proofs.Passes
import BraceScript.Proofs.Stack

/-!
# Proofs/Chain — the frames that names are looked up in

The **chain** of a stack is what the top frame sees: its own level and bindings, then those of its
parent, and so on.  On a stack whose parents lie below their frames (`Ordered`) the chain says
everything that looking up a name can tell:

* `lookup?_eq_chain` — the value of a name is the first one on the chain;
* `dropWhile_chain` — the nearest frame that binds a name is where the rest of the chain starts.

The indices of the frames, and the frames off the chain, play no part in either.
-/

namespace BraceScript

/-- What a frame shows to the names below it. -/
def Frame.scope (f : Frame) : Nat × Bindings := (f.level, f.bindings)

namespace Stack

/-- **Every parent lies below its frame.** -/
def Ordered (s : Stack) : Prop := ∀ i f p, s.frame? i = some f → f.parent = some p → p < i

/-- The level and the bindings of the frames met from a frame, by following parents downwards. -/
def chainFrom (s : Stack) (i : Nat) : List (Nat × Bindings) :=
  match s.frame? i with
  | none => []
  | some f =>
    f.scope ::
      match f.parent with
      | none => []
      | some p => if p < i then s.chainFrom p else []
termination_by i

/-- **The chain of a stack**, from the top frame. -/
def chain (s : Stack) : List (Nat × Bindings) := s.chainFrom s.top

/-- The chain above a frame with a given parent. -/
def chainOf (s : Stack) : Option Nat → List (Nat × Bindings)
  | none => []
  | some p => s.chainFrom p

theorem chainFrom_of_none {s : Stack} {i : Nat} (h : s.frame? i = none) : s.chainFrom i = [] := by
  rw [chainFrom, h]

/-- The chain of a frame is its own scope and then the chain of its parent, which on an ordered
stack lies below it. -/
theorem chainFrom_of_some {s : Stack} (hs : s.Ordered) {i : Nat} {f : Frame}
    (h : s.frame? i = some f) : s.chainFrom i = f.scope :: s.chainOf f.parent := by
  rw [chainFrom, h]
  cases hp : f.parent with
  | none => simp only [chainOf, hp]
  | some p => simp only [chainOf, hp, if_pos (hs i f p h hp)]

theorem chain_eq_cons {s : Stack} (hs : s.Ordered) :
    s.chain = s.topFrame.scope :: s.chainOf s.topFrame.parent :=
  chainFrom_of_some hs s.frame?_top

/-- Stacks that agree up to a frame have the same chain from it. -/
theorem chainFrom_congr {s t : Stack} : ∀ i, (∀ j, j ≤ i → t.frame? j = s.frame? j) →
    t.chainFrom i = s.chainFrom i := by
  intro i
  induction i using Nat.strongRecOn with
  | ind i ih =>
    intro h
    rw [chainFrom, chainFrom, h i (Nat.le_refl i)]
    cases s.frame? i with
    | none => rfl
    | some f =>
      cases hparent : f.parent with
      | none => simp only [hparent]
      | some p =>
        by_cases hp : p < i
        · simp only [hparent, if_pos hp,
            ih p hp fun j hj => h j (Nat.le_trans hj (Nat.le_of_lt hp))]
        · simp only [hparent, if_neg hp]

/-! ## Looking up a name -/

/-- Whether a scope does not bind a name. -/
def misses (name : String) (scope : Nat × Bindings) : Bool := !scope.2.binds name

/-- One step of the search: this frame if it binds the name, else on from its parent. -/
theorem findFrom_succ {s : Stack} {i : Nat} {f : Frame} (h : s.frame? i = some f) (name : String)
    (count : Nat) : s.findFrom name (count + 1) (some i) =
      if f.bindings.binds name then some i else s.findFrom name count f.parent := by
  rw [findFrom, h]

theorem findFrom_succ_of_none {s : Stack} {i : Nat} (h : s.frame? i = none) (name : String)
    (count : Nat) : s.findFrom name (count + 1) (some i) = none := by
  rw [findFrom, h]

theorem findFrom_eq_some {s : Stack} {name : String} {p : Nat} :
    ∀ {count : Nat} {start : Option Nat}, s.findFrom name count start = some p →
      ∃ f, s.frame? p = some f ∧ f.bindings.binds name
  | 0, _, h => by simp [findFrom] at h
  | _ + 1, none, h => by simp [findFrom] at h
  | count + 1, some i, h => by
    cases hf : s.frame? i with
    | none => simp [findFrom_succ_of_none hf] at h
    | some f =>
      rw [findFrom_succ hf] at h
      by_cases hb : f.bindings.binds name = true
      · rw [if_pos hb, Option.some.injEq] at h
        exact h ▸ ⟨f, hf, hb⟩
      · rw [if_neg hb] at h
        exact findFrom_eq_some h

/-- A frame that is found is on the stack and binds the name. -/
theorem find?_eq_some {s : Stack} {name : String} {p : Nat} (h : s.find? name = some p) :
    ∃ f, s.frame? p = some f ∧ f.bindings.binds name := findFrom_eq_some h

/-- **Where the walk for a name stops, the rest of the chain starts.** -/
theorem dropWhile_chainFrom {s : Stack} (hs : s.Ordered) (name : String) :
    ∀ count i, i < count →
      (s.chainFrom i).dropWhile (misses name) = s.chainOf (s.findFrom name count (some i)) := by
  intro count
  induction count with
  | zero => intro i hi; exact absurd hi (Nat.not_lt_zero i)
  | succ count ih =>
    intro i hi
    cases hf : s.frame? i with
    | none => rw [chainFrom_of_none hf, findFrom_succ_of_none hf]; rfl
    | some f =>
      have hcons := chainFrom_of_some hs hf
      rw [findFrom_succ hf]
      by_cases hb : f.bindings.binds name = true
      · rw [hcons, List.dropWhile_cons_of_neg (by simp [misses, Frame.scope, hb]), if_pos hb,
          chainOf, hcons]
      · rw [hcons, List.dropWhile_cons_of_pos (by simp [misses, Frame.scope, hb]), if_neg hb]
        cases hp : f.parent with
        | none => cases count <;> rfl
        | some p => exact ih p (Nat.lt_of_lt_of_le (hs i f p hf hp) (Nat.le_of_lt_succ hi))

/-- The chain from the nearest frame that binds a name. -/
theorem dropWhile_chain {s : Stack} (hs : s.Ordered) (name : String) :
    s.chain.dropWhile (misses name) = s.chainOf (s.find? name) :=
  dropWhile_chainFrom hs name s.depth s.top s.top_lt_depth

/-- **The value of a name is the first one on the chain.** -/
theorem lookup?_eq_chain {s : Stack} (hs : s.Ordered) (name : String) :
    s.lookup? name =
      (s.chain.dropWhile (misses name)).head?.bind fun scope => scope.2.find? name := by
  rw [dropWhile_chain hs name, lookup?]
  cases hfind : s.find? name with
  | none => rfl
  | some p =>
    obtain ⟨f, hf, -⟩ := find?_eq_some hfind
    rw [chainOf, chainFrom_of_some hs hf]
    simp [hf, Frame.scope]

/-! ## Binding, pushing and extending -/

theorem ordered_initial : Stack.initial.Ordered := by
  intro i f p hf hp
  have hi : i < 1 := lt_depth_of_frame? hf
  obtain rfl : i = 0 := Nat.lt_one_iff.mp hi
  obtain rfl : Frame.outermost = f := Option.some.inj hf
  simp [Frame.outermost] at hp

/-- Binding names in the top frame leaves the parents as they are. -/
theorem Extends.ordered {s t : Stack} (h : Extends s t) (hs : s.Ordered) : t.Ordered := by
  intro i g p hg hp
  obtain ⟨f, hf⟩ := exists_frame? (h.depth_eq ▸ lt_depth_of_frame? hg)
  obtain ⟨g', hg', -, hparent, -⟩ := h.frame? hf
  obtain rfl : g' = g := Option.some.inj (hg'.symm.trans hg)
  exact hs i f p hf (hparent.symm.trans hp)

theorem ordered_push {s : Stack} (hs : s.Ordered) {f : Frame} {p : Nat} (hf : f.parent = some p)
    (hp : p < s.depth) : (s.push f).Ordered := by
  intro i g q hg hq
  rw [frame?_push] at hg
  split at hg
  · next heq =>
    obtain rfl := Option.some.inj hg
    obtain rfl : p = q := Option.some.inj (hf.symm.trans hq)
    exact heq ▸ hp
  · exact hs i g q hg hq

/-- Binding a name changes the head of the chain. -/
theorem chain_bind {s : Stack} (hs : s.Ordered) (name : String) (value : Value) :
    (s.bind name value).chain =
      (s.topFrame.level, s.topFrame.bindings.insert name value) :: s.chain.tail := by
  have hext := Extends.bind s name value
  rw [chain_eq_cons (hext.ordered hs), chain_eq_cons hs, List.tail_cons, hext.parent_eq,
    topFrame_bind]
  refine congrArg (_ :: ·) ?_
  cases hp : s.topFrame.parent with
  | none => rfl
  | some p =>
    have hlt : p < s.top := hs _ _ p s.frame?_top hp
    exact chainFrom_congr p fun j hj => hext.below j (Nat.lt_of_le_of_lt hj hlt)

/-- **A new frame sees itself, then what its parent sees.** -/
theorem chain_push {s : Stack} (hs : s.Ordered) {f : Frame} {p : Nat} (hf : f.parent = some p)
    (hp : p < s.depth) : (s.push f).chain = f.scope :: s.chainFrom p := by
  rw [chain_eq_cons (ordered_push hs hf hp), topFrame_push, hf]
  exact congrArg (_ :: ·)
    (chainFrom_congr p fun j hj => frame?_push_of_lt (Nat.lt_of_le_of_lt hj hp) f)

end Stack

end BraceScript
