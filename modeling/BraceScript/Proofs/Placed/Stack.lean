import BraceScript.Machine
import BraceScript.Proofs.Placed
import BraceScript.Proofs.Stack
import BraceScript.Value.Arithmetic

/-!
# Proofs/Placed/Stack — values, frames and stacks with their positions moved

A value holds positions if it is a function, in the tree of its body; a frame holds values, and a
stack frames.  Nothing that is computed with them looks at a position: every operation on moved data
gives what it gives on the data as they were, moved.
-/

namespace BraceScript

instance : Placed Bool := ⟨fun _ => id⟩

instance : Placed String := ⟨fun _ => id⟩

instance : Placed Routine := ⟨fun f r => ⟨place f r.name, place f r.params, place f r.body⟩⟩

instance : Placed Value where
  place f
    | .function r => .function (place f r)
    | .lambda r => .lambda (place f r)
    | v => v

instance : Placed Bindings where
  place f b := ⟨place f b.entries, List.pairwise_map.mpr b.sorted⟩

instance : Placed Frame := ⟨fun f frame => { frame with bindings := place f frame.bindings }⟩

instance : Placed Stack where
  place f s := ⟨s.frames.map (place f), by rw [Array.size_map]; exact s.nonempty⟩

instance : Placed RuntimeError where
  place f
    | .located fault p => .located fault (f p)
    | .output => .output

instance : Placed Failure where
  place f
    | .syntaxError e => .syntaxError (place f e)
    | .runtimeError e => .runtimeError (place f e)
    | .outOfFuel => .outOfFuel

variable (f : Position → Position)

/-! ## Values -/

namespace Value

/-- Numbers stand nowhere. -/
@[simp] theorem number?_place (v : Value) : (place f v).number? = v.number? := by cases v <;> rfl

/-- The kind of a function does not depend on where its body stands. -/
@[simp] theorem kind_place (v : Value) : (place f v).kind = v.kind := by cases v <;> rfl

@[simp] theorem truth?_place (v : Value) : (place f v).truth? = v.truth? := by cases v <;> rfl

/-- What is printed of a value has no positions in it. -/
@[simp] theorem text_place (v : Value) : (place f v).text = v.text := by cases v <;> rfl

/-- A value that is no condition is blamed at the moved place. -/
theorem condition_place (v : Value) (p : Position) :
    (place f v).condition (f p) = place f (v.condition p) := by
  simp only [condition, truth?_place, kind_place]
  cases v.truth? <;> rfl

end Value

@[simp] theorem place_toValue (n : Number) : place f n.toValue = n.toValue := by cases n <;> rfl

/-- A sign at a moved place gives the same value, or its error there. -/
theorem UnaryOp.apply_place (op : UnaryOp) (v : Value) (p : Position) :
    op.apply (place f v) (f p) = place f (op.apply v p) := by
  simp only [apply, Value.number?_place, Value.kind_place]
  cases v.number? with
  | none => rfl
  | some n => rw [place_ok, place_toValue]

/-- What is computed from numbers holds no position. -/
theorem BinaryOp.place_onNumbers? (op : BinaryOp) (a b : Number) :
    place f (op.onNumbers? a b) = op.onNumbers? a b := by
  cases op with
  | div =>
    cases a <;> cases b <;> try rfl
    simp only [onNumbers?, Number.div?, Number.combine]
    split <;> rfl
  | _ => cases a <;> cases b <;> rfl

/-- An operator at a moved place gives the same value, or its error there. -/
theorem BinaryOp.apply_place (op : BinaryOp) (v w : Value) (p : Position) :
    op.apply (place f v) (place f w) (f p) = place f (op.apply v w p) := by
  simp only [apply, Value.number?_place, Value.kind_place]
  rcases v.number? with _ | a <;> rcases w.number? with _ | b <;> try rfl
  have h := op.place_onNumbers? f a b
  cases hv : op.onNumbers? a b with
  | none =>
    simp only [hv]
    rfl
  | some v =>
    rw [hv] at h
    simp only [hv]
    exact congrArg Except.ok (Option.some.inj h).symm

/-! ## Built-in functions -/

namespace Builtin

/-- Printing moved values prints the same line. -/
theorem line_place (args : List Value) : line (place f args) = line args := by
  rw [line, line]
  refine congrArg _ (List.map_map.trans (List.map_congr_left fun v _ => ?_))
  exact v.text_place f

/-- The choice of the best goes by doubles, so the same argument is chosen. -/
theorem extremeFrom_place (better : Float → Float → Bool) (p : Position) (args : List Value) :
    ∀ best : Option (Value × Float),
      extremeFrom better (f p) (best.map (Prod.map (place f) id)) (place f args) =
        place f (extremeFrom better p best args) := by
  induction args with
  | nil => intro best; cases best <;> rfl
  | cons v args ih =>
    intro best
    rw [place_cons]
    unfold extremeFrom
    rw [Value.number?_place, Value.kind_place]
    rcases v.number? with _ | n
    · rfl
    rcases best with _ | ⟨w, y⟩
    · exact ih (some (v, n.toFloat))
    · by_cases hbetter : better n.toFloat y = true
      · simp only [Option.map_some, Prod.map, id, if_pos hbetter]
        exact ih (some (v, n.toFloat))
      · simp only [Option.map_some, Prod.map, id, if_neg hbetter]
        exact ih (some (w, y))

theorem absolute_place (args : List Value) (p : Position) :
    absolute (place f args) (f p) = place f (absolute args p) := by
  cases args with
  | nil => rfl
  | cons v args =>
    simp only [place_cons, absolute, Value.number?_place, Value.kind_place]
    cases v.number? with
    | none => rfl
    | some n => exact congrArg (fun v => Except.ok (some v)) (place_toValue f (magnitude n)).symm

/-- A sum has no place; a summand of a wrong kind is blamed at the moved one. -/
theorem totalFrom_place (p : Position) (args : List Value) :
    ∀ acc : Number, totalFrom (f p) acc (place f args) = place f (totalFrom p acc args) := by
  induction args with
  | nil =>
    intro acc
    exact congrArg (fun v => Except.ok (some v)) (place_toValue f acc).symm
  | cons v args ih =>
    intro acc
    rw [place_cons]
    unfold totalFrom
    rw [Value.number?_place, Value.kind_place]
    rcases v.number? with _ | (b | b) <;> rcases acc with a | a
    · rfl
    · rfl
    · exact ih _
    · exact ih _
    · exact ih _
    · exact ih _

/-- **A built-in function does with moved arguments what it does with the arguments.** -/
theorem apply_place (b : Builtin) (args : List Value) (p : Position) (sink : Sink) :
    b.apply (place f args) (f p) sink =
      (place f (b.apply args p sink).1, (b.apply args p sink).2) := by
  cases b with
  | print =>
    simp only [apply, printLine, line_place]
    rcases sink.writeLine (line args) with ⟨_ | _, sink'⟩ <;> rfl
  | min => exact congrArg (·, sink) (extremeFrom_place f _ p args none)
  | max => exact congrArg (·, sink) (extremeFrom_place f _ p args none)
  | abs => exact congrArg (·, sink) (absolute_place f args p)
  | sum => exact congrArg (·, sink) (totalFrom_place f p args (.int 0))

end Builtin

/-! ## Frames -/

namespace Bindings

/-- Entries are sorted by their names, which stand nowhere. -/
theorem insertEntry_place (name : String) (value : Value) (entries : List (String × Value)) :
    insertEntry name (place f value) (place f entries) =
      place f (insertEntry name value entries) := by
  induction entries with
  | nil => rfl
  | cons entry rest ih =>
    rcases entry with ⟨key, old⟩
    change insertEntry name (place f value) ((key, place f old) :: place f rest) = _
    unfold insertEntry
    split
    · rfl
    · split
      · rfl
      · exact congrArg ((key, place f old) :: ·) ih

/-- Bindings are their entries: that these are sorted adds nothing. -/
@[ext] theorem ext_entries {b c : Bindings} (h : b.entries = c.entries) : b = c := by
  cases b
  cases c
  subst h
  rfl

theorem insert_place (b : Bindings) (name : String) (value : Value) :
    (place f b).insert name (place f value) = place f (b.insert name value) :=
  ext_entries (insertEntry_place f name value b.entries)

theorem find?_place (b : Bindings) (name : String) :
    (place f b).find? name = place f (b.find? name) := by
  change (place f b.entries).lookup name = place f (b.entries.lookup name)
  induction b.entries with
  | nil => rfl
  | cons entry rest ih =>
    rcases entry with ⟨key, value⟩
    change ((key, place f value) :: place f rest).lookup name = _
    rw [List.lookup_cons, List.lookup_cons, ih]
    cases name == key <;> rfl

theorem binds_place (b : Bindings) (name : String) : (place f b).binds name = b.binds name := by
  rw [binds, binds, find?_place]
  exact Option.isSome_map

/-- Names bound one after another to moved values are the moved bindings. -/
theorem ofList_place (pairs : List (String × Value)) :
    ofList (place f pairs) = place f (ofList pairs) := by
  have hfold (b : Bindings) :
      (place f pairs).foldl (fun b entry => b.insert entry.1 entry.2) (place f b) =
        place f (pairs.foldl (fun b entry => b.insert entry.1 entry.2) b) := by
    induction pairs generalizing b with
    | nil => rfl
    | cons pair pairs ih =>
      rcases pair with ⟨name, value⟩
      rw [place_cons, List.foldl_cons, List.foldl_cons, ← ih, ← insert_place]
      rfl
  exact hfold empty

/-- The built-in functions have no places. -/
theorem place_builtins : place f builtins = builtins := (ofList_place f _).symm

end Bindings

theorem Frame.bind_place (frame : Frame) (name : String) (value : Value) :
    (place f frame).bind name (place f value) = place f (frame.bind name value) :=
  congrArg (Frame.mk frame.level frame.parent) (frame.bindings.insert_place f name value)

/-- A frame is shown the same wherever the bodies in it stand. -/
theorem Frame.text_place (frame : Frame) : (place f frame).text = frame.text := by
  have hentries : (place f frame.bindings.entries).map entryText =
      frame.bindings.entries.map entryText := by
    refine List.map_map.trans (List.map_congr_left fun entry _ => ?_)
    exact congrArg (entry.1 ++ " : " ++ ·) (entry.2.text_place f)
  exact congrArg (fun ls => "\n".intercalate (s!"level: {frame.level}" :: ls)) hentries

/-! ## Stacks -/

namespace Stack

@[simp] theorem depth_place (s : Stack) : (place f s).depth = s.depth := Array.size_map

@[simp] theorem top_place (s : Stack) : (place f s).top = s.top :=
  congrArg (· - 1) (s.depth_place f)

/-- Each frame is moved on its own. -/
@[simp] theorem frame?_place (s : Stack) (i : Nat) : (place f s).frame? i = place f (s.frame? i) :=
  Array.getElem?_map

theorem level_place (s : Stack) (i : Nat) : (place f s).level i = s.level i := by
  rw [level, level, frame?_place]
  cases s.frame? i <;> rfl

/-- The search goes by names and parents, so it takes the same steps. -/
theorem findFrom_place (s : Stack) (name : String) :
    ∀ (count : Nat) (i : Option Nat), (place f s).findFrom name count i = s.findFrom name count i
  | 0, _ => rfl
  | _ + 1, none => rfl
  | count + 1, some i => by
    rw [findFrom, findFrom, frame?_place]
    cases s.frame? i with
    | none => rfl
    | some frame =>
      change (if (place f frame.bindings).binds name then some i
        else (place f s).findFrom name count frame.parent) = _
      rw [Bindings.binds_place, findFrom_place s name count frame.parent]

theorem find?_place (s : Stack) (name : String) : (place f s).find? name = s.find? name := by
  rw [find?, find?, depth_place, top_place, findFrom_place]

/-- What is found under a name is moved. -/
theorem lookup?_place (s : Stack) (name : String) :
    (place f s).lookup? name = place f (s.lookup? name) := by
  rw [lookup?, lookup?, find?_place]
  cases s.find? name with
  | none => rfl
  | some i =>
    simp only [Option.bind_some, Option.bind_eq_bind, frame?_place]
    cases s.frame? i with
    | none => rfl
    | some frame => exact frame.bindings.find?_place f name

theorem push_place (s : Stack) (frame : Frame) :
    (place f s).push (place f frame) = place f (s.push frame) :=
  ext_frames Array.map_push.symm

theorem pop_place (s : Stack) : (place f s).pop = place f s.pop := by
  have hsize : (place f s).frames.size = s.frames.size := s.depth_place f
  by_cases h : 1 < s.frames.size
  · rw [pop, pop, dif_pos h, dif_pos (hsize ▸ h)]
    exact ext_frames Array.map_pop.symm
  · rw [pop, pop, dif_neg h, dif_neg (hsize ▸ h)]

/-- A moved value is bound in the top frame of the moved stack. -/
theorem bind_place (s : Stack) (name : String) (value : Value) :
    (place f s).bind name (place f value) = place f (s.bind name value) := by
  refine ext_frame? fun i => ?_
  rw [frame?_bind, frame?_place, frame?_place, frame?_bind, top_place]
  split
  · cases s.frame? i with
    | none => rfl
    | some frame => exact congrArg some (frame.bind_place f name value)
  · rfl

/-- A stack on which nothing has run holds no position. -/
theorem place_initial : place f initial = initial := by
  refine ext_frame? fun i => ?_
  rw [frame?_place]
  rcases i with _ | i
  · exact congrArg (fun b => some (Frame.mk 0 none b)) (Bindings.place_builtins f)
  · rfl

end Stack

end BraceScript
