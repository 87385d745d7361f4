/-!
# Sink — where printed text goes

A sink keeps the bytes written to it, up to a limit if it has one.  A write that would go past the
limit keeps what fits and is refused.
-/

namespace BraceScript

/-- The bytes written so far, and how many there may be. -/
structure Sink where
  limit : Option Nat
  written : ByteArray

namespace Sink

/-- An empty sink. -/
def empty (limit : Option Nat) : Sink := ⟨limit, ByteArray.empty⟩

/-- Writes a text: whether it was taken whole, and the sink with what it kept. -/
def write (s : Sink) (text : String) : Bool × Sink :=
  let all := s.written ++ text.toUTF8
  match s.limit with
  | some limit =>
    if all.size ≤ limit then (true, { s with written := all })
    else (false, { s with written := all.extract 0 limit })
  | none => (true, { s with written := all })

/-- Writes a line and then a line feed. -/
def writeLine (s : Sink) (line : String) : Bool × Sink :=
  match s.write line with
  | (true, s) => s.write "\n"
  | (false, s) => (false, s)

/-- The text of bytes that are the beginning of a text; a character that was cut shows as one
replacement mark. -/
def decode (bytes : ByteArray) : String :=
  match String.fromUTF8? bytes with
  | some text => text
  | none =>
    let whole := [1, 2, 3].findSome? fun cut =>
      String.fromUTF8? (bytes.extract 0 (bytes.size - cut))
    whole.getD "" ++ "�"

/-- The text kept after the first `start` bytes. -/
def textFrom (s : Sink) (start : Nat) : String := decode (s.written.extract start s.written.size)

/-- All the text kept. -/
def text (s : Sink) : String := decode s.written

end Sink

end BraceScript
