/-!
# Directory — files reached by paths

A path is followed one name at a time, from the root if it starts with a slash and from the working
directory otherwise.  `Place.step` takes one name: it fails at the first one that cannot be taken,
so of two faults the earlier in the path is reported.
-/

namespace BraceScript

/-- What a directory holds under a name. -/
inductive Entry
  | file (bytes : ByteArray)
  | directory (entries : List (String × Entry))

/-- Why a file cannot be read. -/
inductive ReadFailure
  | notFound
  | notDirectory
  | isDirectory
  | nameTooLong
  | notText
  | other (text : String)
deriving DecidableEq, Repr

/-- The wording of a read failure. -/
def ReadFailure.text : ReadFailure → String
  | notFound => "No such file or directory (os error 2)"
  | notDirectory => "Not a directory (os error 20)"
  | isDirectory => "Is a directory (os error 21)"
  | nameTooLong => "File name too long (os error 36)"
  | notText => "stream did not contain valid UTF-8"
  | other text => text

/-- The most bytes a name in a directory has. -/
def longestName : Nat := 255

/-- The most bytes a path has. -/
def longestPath : Nat := 4095

/-- Where a path leads: what stands there, and the directories around it, the innermost first. -/
structure Place where
  entry : Entry
  enclosing : List (List (String × Entry))

namespace Place

/-- The directory around a place; the root is around itself. -/
def parent (p : Place) : Place :=
  match p.enclosing with
  | [] => p
  | entries :: outer => ⟨.directory entries, outer⟩

/-- The outermost directory around a place. -/
def root (p : Place) : Place :=
  match p.enclosing.getLast? with
  | none => p
  | some entries => ⟨.directory entries, []⟩

/-- Takes one name of a path.  Every name, the empty one between two slashes or after the last one
included, is looked up in a directory. -/
def step (p : Place) (name : String) : Except ReadFailure Place :=
  match p.entry with
  | .file _ => .error .notDirectory
  | .directory entries =>
    if name = "" ∨ name = "." then .ok p
    else if name = ".." then .ok p.parent
    else if longestName < name.utf8ByteSize then .error .nameTooLong
    else
      match entries.lookup name with
      | some entry => .ok ⟨entry, entries :: p.enclosing⟩
      | none => .error .notFound

/-- Takes the names of a path in turn. -/
def walk (p : Place) : List String → Except ReadFailure Place
  | [] => .ok p
  | name :: rest =>
    match p.step name with
    | .ok q => q.walk rest
    | .error e => .error e

/-- Follows a path.  The empty path leads nowhere. -/
def follow (p : Place) (path : String) : Except ReadFailure Place :=
  if path.isEmpty then .error .notFound
  else if longestPath < path.utf8ByteSize then .error .nameTooLong
  else
    match path.splitOn "/" with
    | "" :: rest => p.root.walk rest
    | names => p.walk names

/-- The text that stands at a place. -/
def text (p : Place) : Except ReadFailure String :=
  match p.entry with
  | .directory _ => .error .isDirectory
  | .file bytes =>
    match String.fromUTF8? bytes with
    | some text => .ok text
    | none => .error .notText

/-- The text of the file that a path leads to. -/
def read (p : Place) (path : String) : Except ReadFailure String :=
  match p.follow path with
  | .ok q => q.text
  | .error e => .error e

end Place

end BraceScript
