import BraceScript.Frame

/-!
# Event — what happens while a program is read and run
-/

namespace BraceScript

/-- Something that happened. -/
inductive Event
  /-- A source of so many bytes is about to be interpreted. -/
  | opened (bytes : Nat)
  /-- A token was read. -/
  | token (t : Token)
  /-- A program was read whole. -/
  | parsed (program : String)
  /-- A frame was put on the stack. -/
  | pushed (level : Nat) (parent : Option Nat)
  /-- A frame was taken off the stack. -/
  | popped (frame : Frame)
  /-- A function of the program is about to run in a frame of this level. -/
  | entered (routine : String) (level args : Nat)
  /-- A built-in function is about to run. -/
  | invoked (builtin : Builtin) (args : Nat)
  /-- A program ran to its end, leaving so many frames. -/
  | finished (frames : Nat)

namespace Event

/-- Whether an event is logged at a verbosity: the steps of a run at one, every detail from two on.
The opening of a source belongs to all that follows and has no line of its own. -/
def isLogged (verbosity : Nat) : Event → Bool
  | opened _ => false
  | token _ | pushed _ _ | popped _ => 2 ≤ verbosity
  | _ => 1 ≤ verbosity

/-- The text of an optional index. -/
def parentText : Option Nat → String
  | some index => s!"Some({index})"
  | none => "None"

/-- The text of an event: its weight, what happened, and the data of it. -/
def text : Event → String
  | opened bytes => s!"SPAN DEBUG interpret bytes={bytes}"
  | token t => "TRACE token token=" ++ t.text
  | parsed program => "DEBUG parsed program=" ++ program
  | pushed level parent => s!"TRACE push frame level={level} parent=" ++ parentText parent
  | popped frame => "TRACE pop frame frame=" ++ frame.text
  | entered routine level args =>
    "DEBUG call function=" ++ routine ++ s!" level={level} args={args}"
  | invoked builtin args => "DEBUG call builtin=" ++ builtin.name ++ s!" args={args}"
  | finished frames => s!"DEBUG program finished frames={frames}"

end Event

end BraceScript
