import BraceScript.Proofs.WellFormed

/-!
# Proofs/Resolution — the nearest frame that binds a name

A name is looked up in the top frame, then from parent to parent.  The chain is spoken of by parent
links alone (`Links`): `Nearest` is the frame that the fewest links lead to among those that bind a
name, and a name is `Unbound` if no frame that links lead to binds it.

`Walks` is the walk for a name with no bound on its steps, and a derivation of it is a walk that
ends.  On any stack it ends at the nearest frame that binds the name (`walks_some_iff`), or where
the chain does, if no frame on it binds the name (`walks_none_iff`).  What a bound on the steps
needs is that the walk ends at all, and it does on a stack in which every parent lies below its
frame or outside (`Grounded.walks_find?`).
-/

namespace BraceScript

namespace Stack

variable {s : Stack} {name : String} {i j start : Nat}

/-- There is a frame of this index, and it binds a name. -/
def BindsAt (s : Stack) (name : String) (i : Nat) : Prop :=
  ∃ f, s.frame? i = some f ∧ f.bindings.binds name

/-- The nearest frame that binds a name, among those that parent links lead to. -/
def NearestFrom (s : Stack) (name : String) (start i : Nat) : Prop :=
  ∃ n, Links s start i n ∧ s.BindsAt name i ∧ ∀ j k, k < n → Links s start j k → ¬ s.BindsAt name j

/-- **The nearest frame of the active chain that binds a name.** -/
def Nearest (s : Stack) (name : String) (i : Nat) : Prop := s.NearestFrom name s.top i

/-- **No frame of the active chain binds a name.** -/
def Unbound (s : Stack) (name : String) : Prop := ∀ j n, Links s s.top j n → ¬ s.BindsAt name j

/-- The chain from an index comes to an end: at a frame without a parent, or outside the stack. -/
def EndsFrom (s : Stack) (start : Nat) : Prop :=
  ∃ j n, Links s start j n ∧ (s.frame? j = none ∨ ∃ f, s.frame? j = some f ∧ f.parent = none)

theorem bindsAt_iff {f : Frame} (hf : s.frame? i = some f) :
    s.BindsAt name i ↔ f.bindings.binds name := by
  refine ⟨fun h => ?_, fun h => ⟨f, hf, h⟩⟩
  obtain ⟨g, hg, hbinds⟩ := h
  obtain rfl : f = g := Option.some.inj (hf.symm.trans hg)
  exact hbinds

theorem not_bindsAt_of_none (hf : s.frame? i = none) : ¬ s.BindsAt name i := by
  rintro ⟨f, hf', -⟩
  cases hf.symm.trans hf'

/-- Links from a frame stay at it or go through its parent. -/
theorem links_cases {f : Frame} {n : Nat} (hf : s.frame? start = some f) (h : Links s start j n) :
    (j = start ∧ n = 0) ∨ ∃ p k, f.parent = some p ∧ n = k + 1 ∧ Links s p j k := by
  cases h with
  | here => exact .inl ⟨rfl, rfl⟩
  | @up _ _ p k g hg hp h =>
    obtain rfl := Option.some.inj (hf.symm.trans hg)
    exact .inr ⟨p, k, hp, rfl, h⟩

/-! ## The walk without a bound -/

/-- **The walk for a name, from an index to its outcome.**  There is a derivation only if the walk
ends. -/
inductive Walks (s : Stack) (name : String) : Option Nat → Option Nat → Prop
  /-- There is no further parent. -/
  | ended : Walks s name none none
  /-- The index lies outside the stack. -/
  | outside {i : Nat} : s.frame? i = none → Walks s name (some i) none
  | found {i : Nat} {f : Frame} : s.frame? i = some f → f.bindings.binds name →
    Walks s name (some i) (some i)
  | onward {i : Nat} {f : Frame} {result : Option Nat} :
    s.frame? i = some f → ¬ f.bindings.binds name → Walks s name f.parent result →
      Walks s name (some i) result

/-- A walk has one outcome. -/
theorem Walks.unique {from? r r' : Option Nat} (h : s.Walks name from? r)
    (h' : s.Walks name from? r') : r = r' := by
  induction h with
  | ended => cases h'; rfl
  | outside hf =>
    cases h' with
    | outside => rfl
    | found hf' _ | onward hf' _ _ => cases hf.symm.trans hf'
  | found hf hb =>
    cases h' with
    | outside hf' => cases hf.symm.trans hf'
    | found => rfl
    | onward hf' hb' _ =>
      obtain rfl := Option.some.inj (hf.symm.trans hf')
      exact absurd hb hb'
  | onward hf hb _ ih =>
    cases h' with
    | outside hf' => cases hf.symm.trans hf'
    | found hf' hb' =>
      obtain rfl := Option.some.inj (hf.symm.trans hf')
      exact absurd hb' hb
    | onward hf' _ h' =>
      obtain rfl := Option.some.inj (hf.symm.trans hf')
      exact ih h'

/-- One link further away, past a frame that does not bind the name. -/
theorem NearestFrom.up {f : Frame} {p : Nat} (hf : s.frame? start = some f) (hp : f.parent = some p)
    (hb : ¬ f.bindings.binds name) (h : s.NearestFrom name p i) : s.NearestFrom name start i := by
  obtain ⟨n, hlinks, hbinds, hmin⟩ := h
  refine ⟨n + 1, .up hf hp hlinks, hbinds, fun j k hk hj => ?_⟩
  obtain ⟨rfl, -⟩ | ⟨q, k, hq, rfl, hj⟩ := links_cases hf hj
  · exact mt (bindsAt_iff hf).mp hb
  · obtain rfl := Option.some.inj (hp.symm.trans hq)
    exact hmin j k (Nat.lt_of_succ_lt_succ hk) hj

/-- **A walk that finds a frame has found the nearest one.** -/
theorem Walks.nearestFrom {from? r : Option Nat} (h : s.Walks name from? r) :
    ∀ start i, from? = some start → r = some i → s.NearestFrom name start i := by
  induction h with
  | ended => intro start i hstart; cases hstart
  | outside => intro start i _ hi; cases hi
  | @found j f hf hb =>
    rintro start i hstart hi
    obtain rfl := Option.some.inj hstart
    obtain rfl := Option.some.inj hi
    exact ⟨0, .here _, ⟨f, hf, hb⟩, fun _ k hk => absurd hk (Nat.not_lt_zero k)⟩
  | @onward j f r hf hb h ih =>
    rintro start i hstart rfl
    obtain rfl := Option.some.inj hstart
    cases hp : f.parent with
    | none =>
      rw [hp] at h
      cases h
    | some p => exact (ih p i hp rfl).up hf hp hb

/-- The walk passes every frame before the nearest one that binds the name. -/
theorem walks_of_links {n : Nat} (hlinks : Links s start i n) (hi : s.BindsAt name i)
    (hmin : ∀ j k, k < n → Links s start j k → ¬ s.BindsAt name j) :
    s.Walks name (some start) (some i) := by
  induction hlinks with
  | here =>
    obtain ⟨f, hf, hb⟩ := hi
    exact .found hf hb
  | up hf hp _ ih =>
    have hb := mt (bindsAt_iff hf).mpr (hmin _ 0 (Nat.succ_pos _) (.here _))
    refine .onward hf hb (hp ▸ ih hi fun j k hk hj => ?_)
    exact hmin j (k + 1) (Nat.succ_lt_succ hk) (.up hf hp hj)

/-- **A walk ends at the nearest frame that binds the name.** -/
theorem walks_some_iff : s.Walks name (some start) (some i) ↔ s.NearestFrom name start i :=
  ⟨fun h => h.nearestFrom start i rfl rfl,
    fun ⟨_, hlinks, hi, hmin⟩ => walks_of_links hlinks hi hmin⟩

/-- **A walk that finds nothing has gone to the end of the chain**, and met no binding. -/
theorem Walks.ends_unbound {from? r : Option Nat} (h : s.Walks name from? r) :
    ∀ start, from? = some start → r = none →
      s.EndsFrom start ∧ ∀ j n, Links s start j n → ¬ s.BindsAt name j := by
  induction h with
  | ended => intro start hstart; cases hstart
  | @outside j hf =>
    rintro start hstart -
    obtain rfl := Option.some.inj hstart
    refine ⟨⟨j, 0, .here j, .inl hf⟩, fun i n hi => ?_⟩
    cases hi with
    | here => exact not_bindsAt_of_none hf
    | up hf' _ _ => cases hf.symm.trans hf'
  | found => intro start _ hr; cases hr
  | @onward j f r hf hb h ih =>
    rintro start hstart rfl
    obtain rfl := Option.some.inj hstart
    cases hp : f.parent with
    | none =>
      refine ⟨⟨j, 0, .here j, .inr ⟨f, hf, hp⟩⟩, fun i n hi => ?_⟩
      obtain ⟨rfl, -⟩ | ⟨q, -, hq, -⟩ := links_cases hf hi
      · exact mt (bindsAt_iff hf).mp hb
      · cases hp.symm.trans hq
    | some p =>
      obtain ⟨⟨e, n, he, hend⟩, hun⟩ := ih p hp rfl
      refine ⟨⟨e, n + 1, .up hf hp he, hend⟩, fun i k hi => ?_⟩
      obtain ⟨rfl, -⟩ | ⟨q, k, hq, -, hi⟩ := links_cases hf hi
      · exact mt (bindsAt_iff hf).mp hb
      · obtain rfl := Option.some.inj (hp.symm.trans hq)
        exact hun i k hi

/-- The walk passes every frame of a chain that ends and does not bind the name. -/
theorem walks_of_ends {n : Nat} (hlinks : Links s start j n)
    (hend : s.frame? j = none ∨ ∃ f, s.frame? j = some f ∧ f.parent = none)
    (hun : ∀ i k, Links s start i k → ¬ s.BindsAt name i) : s.Walks name (some start) none := by
  induction hlinks with
  | here i =>
    obtain hf | ⟨f, hf, hp⟩ := hend
    · exact .outside hf
    · have hb := mt (bindsAt_iff hf).mpr (hun i 0 (.here i))
      refine .onward hf hb ?_
      rw [hp]
      exact .ended
  | up hf hp _ ih =>
    have hb := mt (bindsAt_iff hf).mpr (hun _ 0 (.here _))
    exact .onward hf hb (hp ▸ ih hend fun i k hi => hun i (k + 1) (.up hf hp hi))

/-- **A walk finds nothing if the chain ends and no frame on it binds the name.** -/
theorem walks_none_iff : s.Walks name (some start) none ↔
    s.EndsFrom start ∧ ∀ j n, Links s start j n → ¬ s.BindsAt name j :=
  ⟨fun h => h.ends_unbound start rfl rfl,
    fun ⟨⟨_, _, hlinks, hend⟩, hun⟩ => walks_of_ends hlinks hend hun⟩

/-- There is one nearest frame, since a walk has one outcome. -/
theorem NearestFrom.unique (hi : s.NearestFrom name start i) (hj : s.NearestFrom name start j) :
    i = j :=
  Option.some.inj ((walks_some_iff.mpr hi).unique (walks_some_iff.mpr hj))

/-! ## The walk within a bound -/

/-- **Every parent lies below its frame, or outside the stack.** -/
def Grounded (s : Stack) : Prop :=
  ∀ i f p, s.frame? i = some f → f.parent = some p → p < i ∨ s.depth ≤ p

instance : DecidablePred Grounded := fun s =>
  decidable_of_iff (∀ i < s.depth, ∀ f ∈ s.frame? i, ∀ p ∈ f.parent, p < i ∨ s.depth ≤ p)
    ⟨fun h i f p hf => h i (lt_depth_of_frame? hf) f hf p, fun h i _ f hf p => h i f p hf⟩

theorem Ordered.grounded (hs : s.Ordered) : s.Grounded := fun i f p hf hp => .inl (hs i f p hf hp)

namespace Grounded

/-- **The bound does not cut the walk short**: a step leads to a lower index, of which the bound
leaves as many as there are, or out of the stack. -/
theorem walks_findFrom (hs : s.Grounded) {count : Nat} (hstart : start < count ∨ s.depth ≤ start) :
    s.Walks name (some start) (s.findFrom name count (some start)) := by
  induction count generalizing start with
  | zero =>
    have hout : s.depth ≤ start := hstart.resolve_left (Nat.not_lt_zero start)
    exact .outside ((s.frame?_eq_none_iff start).mpr hout)
  | succ count ih =>
    cases hf : s.frame? start with
    | none =>
      rw [findFrom_succ_of_none hf]
      exact .outside hf
    | some f =>
      have hlt : start < count + 1 := hstart.resolve_right (Nat.not_le.mpr (lt_depth_of_frame? hf))
      rw [findFrom_succ hf]
      by_cases hb : f.bindings.binds name = true
      · rw [if_pos hb]
        exact .found hf hb
      · rw [if_neg hb]
        refine .onward hf hb ?_
        cases hp : f.parent with
        | none => cases count <;> exact .ended
        | some p =>
          refine ih ((hs start f p hf hp).imp_left fun hbelow => ?_)
          exact Nat.lt_of_lt_of_le hbelow (Nat.le_of_lt_succ hlt)

/-- On a grounded stack the bound on the number of steps is not met before the walk ends. -/
theorem walks_find? (hs : s.Grounded) : s.Walks name (some s.top) (s.find? name) :=
  hs.walks_findFrom (.inl s.top_lt_depth)

theorem find?_eq_iff (hs : s.Grounded) {r : Option Nat} :
    s.find? name = r ↔ s.Walks name (some s.top) r :=
  ⟨fun h => h ▸ hs.walks_find?, hs.walks_find?.unique⟩

theorem find?_eq_some_iff (hs : s.Grounded) : s.find? name = some i ↔ s.Nearest name i :=
  hs.find?_eq_iff.trans walks_some_iff

theorem find?_eq_none_iff (hs : s.Grounded) :
    s.find? name = none ↔ s.EndsFrom s.top ∧ s.Unbound name :=
  hs.find?_eq_iff.trans walks_none_iff

/-- The value of a name is the one in the nearest frame that binds it. -/
theorem lookup?_of_nearest (hs : s.Grounded) (hi : s.Nearest name i) {f : Frame}
    (hf : s.frame? i = some f) : s.lookup? name = f.bindings.find? name := by
  have hfind : s.find? name = some i := hs.find?_eq_some_iff.mpr hi
  simp only [lookup?, hfind, Option.bind_eq_bind, Option.bind_some, hf]

theorem lookup?_eq_some_iff (hs : s.Grounded) {v : Value} : s.lookup? name = some v ↔
    ∃ i f, s.Nearest name i ∧ s.frame? i = some f ∧ f.bindings.find? name = some v := by
  refine ⟨fun h => ?_, fun ⟨i, f, hi, hf, hv⟩ => (hs.lookup?_of_nearest hi hf).trans hv⟩
  cases hfind : s.find? name with
  | none =>
    rw [lookup?, hfind] at h
    cases h
  | some i =>
    obtain ⟨f, hf, -⟩ := find?_eq_some hfind
    have hi : s.Nearest name i := hs.find?_eq_some_iff.mp hfind
    exact ⟨i, f, hi, hf, (hs.lookup?_of_nearest hi hf).symm.trans h⟩

theorem lookup?_eq_none_iff (hs : s.Grounded) : s.lookup? name = none ↔ s.find? name = none := by
  refine ⟨fun h => ?_, fun h => by rw [lookup?, h]; rfl⟩
  cases hfind : s.find? name with
  | none => rfl
  | some i =>
    obtain ⟨f, hf, hb⟩ := find?_eq_some hfind
    obtain ⟨v, hv⟩ := Option.isSome_iff_exists.mp hb
    cases h.symm.trans ((hs.lookup?_of_nearest (hs.find?_eq_some_iff.mp hfind) hf).trans hv)

end Grounded

namespace WellFormed

theorem find?_eq_some_iff (h : s.WellFormed) : s.find? name = some i ↔ s.Nearest name i :=
  h.ordered.grounded.find?_eq_some_iff

theorem find?_eq_none_iff (h : s.WellFormed) : s.find? name = none ↔ s.Unbound name := by
  refine ⟨fun hfind => (h.ordered.grounded.find?_eq_none_iff.mp hfind).2, fun hun => ?_⟩
  cases hfind : s.find? name with
  | none => rfl
  | some i =>
    obtain ⟨n, hlinks, hbinds, -⟩ := h.find?_eq_some_iff.mp hfind
    exact absurd hbinds (hun i n hlinks)

/-- The value of a name is the one in the nearest frame that binds it. -/
theorem lookup?_of_nearest (h : s.WellFormed) (hi : s.Nearest name i) {f : Frame} {v : Value}
    (hf : s.frame? i = some f) (hv : f.bindings.find? name = some v) : s.lookup? name = some v :=
  (h.ordered.grounded.lookup?_of_nearest hi hf).trans hv

end WellFormed

/-- **A name means its nearest binding.**  On a stack in which every parent lies below its frame or
outside the stack, the walk for a name ends, and finds the frame of the active chain that is nearest
among those that bind the name; it finds none exactly if the chain ends, or leaves the stack, and no
frame on it binds the name.  The value of the name is the one bound in the frame that was found, and
there is none in the same cases. -/
theorem resolution_nearest (hs : s.Grounded) (name : String) :
    s.Walks name (some s.top) (s.find? name) ∧
    (∀ i, s.find? name = some i ↔ s.Nearest name i) ∧
    (s.find? name = none ↔ s.EndsFrom s.top ∧ s.Unbound name) ∧
    (∀ v, s.lookup? name = some v ↔
      ∃ i f, s.find? name = some i ∧ s.frame? i = some f ∧ f.bindings.find? name = some v) ∧
    (s.lookup? name = none ↔ s.EndsFrom s.top ∧ s.Unbound name) := by
  have hnone : s.find? name = none ↔ s.EndsFrom s.top ∧ s.Unbound name := hs.find?_eq_none_iff
  refine ⟨hs.walks_find?, fun i => hs.find?_eq_some_iff, hnone, fun v => ?_,
    hs.lookup?_eq_none_iff.trans hnone⟩
  simp only [hs.find?_eq_some_iff]
  exact hs.lookup?_eq_some_iff

/-- A stack whose top frame has a parent outside. -/
def straying : Stack := ((initial.bind "y" (.int 0)).push ⟨1, some 99, .empty⟩).bind "y" (.int 1)

/-- The same with a frame on top that stands under the outermost one. -/
def skipping : Stack := straying.push ⟨1, some 0, .empty⟩

/-- The name is bound in the frame below, but the chain passes that frame by; and from that frame,
whose parent lies outside, not even a built-in name is found. -/
theorem resolution_nearest_skipping :
    skipping.Nearest "y" 0 ∧ skipping.lookup? "y" = some (.int 0) ∧
    straying.find? "print" = none ∧ straying.EndsFrom straying.top ∧ straying.Unbound "print" := by
  have hskipping : skipping.Grounded := by decide +kernel
  have hstraying : straying.Grounded := by decide +kernel
  obtain ⟨-, hsome, -, hvalue, -⟩ := resolution_nearest hskipping "y"
  obtain ⟨-, -, hnone, -, -⟩ := resolution_nearest hstraying "print"
  have hfind : skipping.find? "y" = some 0 := by decide +kernel
  have hprint : straying.find? "print" = none := by decide +kernel
  exact ⟨(hsome 0).mp hfind, (hvalue (.int 0)).mpr ⟨0, _, hfind, rfl, rfl⟩, hprint, hnone.mp hprint⟩

end Stack

end BraceScript
