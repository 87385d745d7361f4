import BraceScript.Machine

/-!
# Proofs/Stack — what binding, pushing and popping leave alone

Two orders on stacks carry every statement about effects:

* `Extends s t` — the frames of `t` are those of `s`, but for the top one, which may have gained
  names or changed their values.  Running a statement extends the stack.
* `Above s t` — the frames of `s` lie untouched below the top ones of `t`.  This is where a call in
  progress stands to its caller.

The link between them is `pop_eq_of_push_extends`: what a body does in its own frame goes away with
it.
-/

namespace BraceScript

namespace Bindings

/-- What was inserted is found. -/
theorem lookup_insertEntry_self (name : String) (value : Value) :
    ∀ entries : List (String × Value),
      (insertEntry name value entries).lookup name = some value
  | [] => by simp [insertEntry]
  | (key, old) :: rest => by
    unfold insertEntry
    split
    · simp
    · split
      · simp
      · next hne =>
        rw [List.lookup_cons, beq_false_of_ne hne]
        exact lookup_insertEntry_self name value rest

/-- Other names are found as before. -/
theorem lookup_insertEntry_of_ne {name other : String} (h : other ≠ name) (value : Value) :
    ∀ entries : List (String × Value),
      (insertEntry name value entries).lookup other = entries.lookup other
  | [] => by
    simp only [insertEntry, List.lookup_cons, List.lookup_nil, beq_false_of_ne h]
  | (key, old) :: rest => by
    unfold insertEntry
    split
    · rw [List.lookup_cons, beq_false_of_ne h]
    · split
      · next heq =>
        subst heq
        simp only [List.lookup_cons, beq_false_of_ne h]
      · simp only [List.lookup_cons, lookup_insertEntry_of_ne h value rest]

@[simp] theorem find?_insert_self (b : Bindings) (name : String) (value : Value) :
    (b.insert name value).find? name = some value :=
  lookup_insertEntry_self name value b.entries

theorem find?_insert_of_ne (b : Bindings) {name other : String} (h : other ≠ name) (value : Value) :
    (b.insert name value).find? other = b.find? other :=
  lookup_insertEntry_of_ne h value b.entries

/-- After an insertion the new name is bound, and what was bound before. -/
theorem binds_insert (b : Bindings) (name other : String) (value : Value) :
    (b.insert name value).binds other = (decide (other = name) || b.binds other) := by
  by_cases h : other = name
  · subst h
    simp [binds]
  · simp [binds, find?_insert_of_ne b h, h]

end Bindings

namespace Stack

/-! ## Frames by index -/

/-- A stack is its frames: that there is one at least adds nothing. -/
@[ext] theorem ext_frames {s t : Stack} (h : s.frames = t.frames) : s = t := by
  cases s
  cases t
  subst h
  rfl

/-- Stacks of one depth with the same frame at every index are equal. -/
theorem ext_frame? {s t : Stack} (h : ∀ i, s.frame? i = t.frame? i) : s = t :=
  ext_frames (Array.ext_getElem? h)

theorem depth_pos (s : Stack) : 0 < s.depth := s.nonempty

/-- A stack has at least one frame, so it has a top. -/
theorem top_lt_depth (s : Stack) : s.top < s.depth := Nat.sub_one_lt_of_lt s.nonempty

theorem top_add_one (s : Stack) : s.top + 1 = s.depth := Nat.sub_add_cancel s.nonempty

/-- Frames are numbered from zero up to the depth. -/
theorem frame?_eq_none_iff (s : Stack) (i : Nat) : s.frame? i = none ↔ s.depth ≤ i :=
  Array.getElem?_eq_none_iff

theorem lt_depth_of_frame? {s : Stack} {i : Nat} {f : Frame} (h : s.frame? i = some f) :
    i < s.depth :=
  (Array.getElem?_eq_some_iff.mp h).1

theorem exists_frame? {s : Stack} {i : Nat} (h : i < s.depth) : ∃ f, s.frame? i = some f :=
  ⟨_, Array.getElem?_eq_getElem h⟩

/-- The top frame is the one with the highest number. -/
theorem frame?_top (s : Stack) : s.frame? s.top = some s.topFrame := by
  unfold frame? top topFrame Array.back
  exact Array.getElem?_eq_getElem _

@[simp] theorem depth_push (s : Stack) (f : Frame) : (s.push f).depth = s.depth + 1 :=
  Array.size_push f

/-- A new frame has the number that was the depth. -/
@[simp] theorem top_push (s : Stack) (f : Frame) : (s.push f).top = s.depth := by
  simp [top, push, depth]

/-- A new frame comes on top, and the others keep their numbers. -/
theorem frame?_push (s : Stack) (f : Frame) (i : Nat) :
    (s.push f).frame? i = if i = s.depth then some f else s.frame? i := Array.getElem?_push

theorem frame?_push_of_lt {s : Stack} {i : Nat} (h : i < s.depth) (f : Frame) :
    (s.push f).frame? i = s.frame? i := by
  rw [frame?_push, if_neg (Nat.ne_of_lt h)]

@[simp] theorem topFrame_push (s : Stack) (f : Frame) : (s.push f).topFrame = f := by
  have h := frame?_top (s.push f)
  rw [top_push, frame?_push, if_pos rfl] at h
  exact (Option.some.inj h).symm

/-- Taking the top frame off leaves those below. -/
theorem frame?_pop_of_lt {s : Stack} {i : Nat} (h : i < s.top) : s.pop.frame? i = s.frame? i := by
  have hs : 1 < s.frames.size := by
    unfold top at h
    omega
  rw [pop, dif_pos hs]
  simp only [frame?, Array.getElem?_pop]
  exact if_pos h

/-- Taking a frame off leaves no new ones. -/
theorem frame?_of_pop {s : Stack} {i : Nat} {f : Frame} (h : s.pop.frame? i = some f) :
    s.frame? i = some f := by
  unfold pop at h
  split at h
  · simp only [frame?, Array.getElem?_pop] at h
    split at h
    · exact h
    · cases h
  · exact h

/-- The last frame is never taken off; any other is. -/
theorem depth_pop {s : Stack} (h : 1 < s.depth) : s.pop.depth = s.depth - 1 := by
  have hs : 1 < s.frames.size := h
  rw [pop, dif_pos hs]
  exact Array.size_pop

@[simp] theorem depth_bind (s : Stack) (name : String) (value : Value) :
    (s.bind name value).depth = s.depth := Array.size_modify

@[simp] theorem top_bind (s : Stack) (name : String) (value : Value) :
    (s.bind name value).top = s.top := congrArg (· - 1) (depth_bind s name value)

/-- A name is bound in the top frame and in no other. -/
theorem frame?_bind (s : Stack) (name : String) (value : Value) (i : Nat) :
    (s.bind name value).frame? i =
      if s.top = i then (s.frame? i).map (·.bind name value) else s.frame? i :=
  Array.getElem?_modify

/-- The top frame is the one that changes. -/
@[simp] theorem topFrame_bind (s : Stack) (name : String) (value : Value) :
    (s.bind name value).topFrame = s.topFrame.bind name value := by
  have h := frame?_top (s.bind name value)
  rw [top_bind, frame?_bind, if_pos rfl, frame?_top] at h
  exact (Option.some.inj h).symm

/-! ## Extending a stack

The reading of "only the top frame changes, and no name leaves it". -/

/-- **`t` is `s` with more names, or other values, in the top frame.** -/
structure Extends (s t : Stack) : Prop where
  depth_eq : t.depth = s.depth
  /-- Below the top nothing changes. -/
  below : ∀ i, i < s.top → t.frame? i = s.frame? i
  level_eq : t.topFrame.level = s.topFrame.level
  parent_eq : t.topFrame.parent = s.topFrame.parent
  /-- No name is lost. -/
  binds : ∀ name, s.topFrame.bindings.binds name → t.topFrame.bindings.binds name

namespace Extends

variable {s t u : Stack}

theorem refl (s : Stack) : Extends s s := ⟨rfl, fun _ _ => rfl, rfl, rfl, fun _ h => h⟩

theorem of_eq (h : t = s) : Extends s t := h ▸ refl s

/-- Binding names neither adds frames nor takes them off. -/
theorem top_eq (h : Extends s t) : t.top = s.top := congrArg (· - 1) h.depth_eq

theorem trans (h : Extends s t) (h' : Extends t u) : Extends s u where
  depth_eq := h'.depth_eq.trans h.depth_eq
  below i hi := (h'.below i (h.top_eq ▸ hi)).trans (h.below i hi)
  level_eq := h'.level_eq.trans h.level_eq
  parent_eq := h'.parent_eq.trans h.parent_eq
  binds name hn := h'.binds name (h.binds name hn)

/-- Binding a name extends the stack. -/
theorem bind (s : Stack) (name : String) (value : Value) : Extends s (s.bind name value) where
  depth_eq := depth_bind s name value
  below i hi := by rw [frame?_bind, if_neg (Nat.ne_of_gt hi)]
  level_eq := by rw [topFrame_bind]; rfl
  parent_eq := by rw [topFrame_bind]; rfl
  binds other h := by
    rw [topFrame_bind, Frame.bind, Bindings.binds_insert, h, Bool.or_true]

/-- The frame of an index in the extension: its level and its parent stay, and so do its names. -/
theorem frame? (h : Extends s t) {i : Nat} {f : Frame} (hf : s.frame? i = some f) :
    ∃ g, t.frame? i = some g ∧ g.level = f.level ∧ g.parent = f.parent ∧
      ∀ name, f.bindings.binds name → g.bindings.binds name := by
  have hi : i ≤ s.top := by
    have := lt_depth_of_frame? hf
    have := s.top_add_one
    omega
  rcases Nat.lt_or_eq_of_le hi with hlt | rfl
  · exact ⟨f, (h.below i hlt).trans hf, rfl, rfl, fun _ hn => hn⟩
  · rw [frame?_top, Option.some.injEq] at hf
    subst hf
    exact ⟨t.topFrame, h.top_eq ▸ frame?_top t, h.level_eq, h.parent_eq, h.binds⟩

end Extends

/-- **What is done in a new frame goes away with it.** -/
theorem pop_eq_of_push_extends {s t : Stack} {f : Frame} (h : Extends (s.push f) t) :
    t.pop = s := by
  have hdepth : t.depth = s.depth + 1 := h.depth_eq.trans (depth_push s f)
  have htop : t.top = s.depth := h.top_eq.trans (top_push s f)
  refine ext_frame? fun i => ?_
  by_cases hi : i < s.depth
  · rw [frame?_pop_of_lt (htop.symm ▸ hi), h.below i ((top_push s f).symm ▸ hi),
      frame?_push_of_lt hi]
  · have hpop : t.pop.depth = s.depth := by
      rw [depth_pop (by have := s.depth_pos; omega), hdepth, Nat.add_sub_cancel]
    rw [(frame?_eq_none_iff _ _).mpr (hpop ▸ Nat.le_of_not_lt hi),
      (frame?_eq_none_iff _ _).mpr (Nat.le_of_not_lt hi)]

/-! ## Standing above a stack -/

/-- **The frames of `s` lie untouched at the bottom of `t`.** -/
def Above (s t : Stack) : Prop := ∀ i, i < s.depth → t.frame? i = s.frame? i

namespace Above

variable {s t u : Stack}

theorem refl (s : Stack) : Above s s := fun _ _ => rfl

/-- A stack above another is at least as high. -/
theorem depth_le (h : Above s t) : s.depth ≤ t.depth := by
  obtain ⟨f, hf⟩ := exists_frame? s.top_lt_depth
  have := lt_depth_of_frame? ((h s.top s.top_lt_depth).trans hf)
  have := s.top_add_one
  omega

theorem trans (h : Above s t) (h' : Above t u) : Above s u := fun i hi =>
  (h' i (Nat.lt_of_lt_of_le hi h.depth_le)).trans (h i hi)

end Above

end Stack

end BraceScript
