import BraceScript.Frame

/-!
# Stack — the frames of the calls in progress

Frames are numbered from the outermost one, and the last one is the top.  A name is looked up in the
top frame, then from parent to parent; frames of other calls that lie between are not seen.
-/

namespace BraceScript

/-- The frames of the calls in progress, the outermost first. -/
structure Stack where
  frames : Array Frame
  nonempty : 0 < frames.size

namespace Stack

/-- The stack of a program that has not started. -/
def initial : Stack := ⟨#[.outermost], Nat.zero_lt_one⟩

/-- How many frames there are. -/
def depth (s : Stack) : Nat := s.frames.size

/-- The index of the top frame. -/
def top (s : Stack) : Nat := s.frames.size - 1

/-- The frame of an index. -/
def frame? (s : Stack) (index : Nat) : Option Frame := s.frames[index]?

/-- The top frame. -/
def topFrame (s : Stack) : Frame := s.frames.back s.nonempty

/-- The level of a frame; zero if there is no such frame. -/
def level (s : Stack) (index : Nat) : Nat :=
  match s.frame? index with
  | some f => f.level
  | none => 0

/-- Puts a frame on top. -/
def push (s : Stack) (f : Frame) : Stack := ⟨s.frames.push f, by simp⟩

/-- Takes the top frame off, unless it is the only one. -/
def pop (s : Stack) : Stack :=
  if h : 1 < s.frames.size then ⟨s.frames.pop, by simpa using Nat.sub_pos_of_lt h⟩ else s

/-- Binds a name in the top frame. -/
def bind (s : Stack) (name : String) (value : Value) : Stack :=
  ⟨s.frames.modify s.top (·.bind name value), by simpa using s.nonempty⟩

/-- The first frame that binds a name, from a given one along at most `count` frames. -/
def findFrom (s : Stack) (name : String) : Nat → Option Nat → Option Nat
  | 0, _ => none
  | _ + 1, none => none
  | count + 1, some index =>
    match s.frame? index with
    | none => none
    | some f => if f.bindings.binds name then some index else s.findFrom name count f.parent

/-- The nearest frame that binds a name.  A walk that meets no binding in as many steps as there are
frames has met every frame it can reach. -/
def find? (s : Stack) (name : String) : Option Nat := s.findFrom name s.depth (some s.top)

/-- The value of a name in the nearest frame that binds it. -/
def lookup? (s : Stack) (name : String) : Option Value := do
  let index ← s.find? name
  let f ← s.frame? index
  f.bindings.find? name

end Stack

end BraceScript
