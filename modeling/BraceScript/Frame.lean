import BraceScript.Value

/-!
# Frame — the names bound in one scope

`Bindings` keeps its entries in strictly increasing order of the names, so equal bindings are equal
lists and a frame is rendered by writing the entries out.  The order of strings by code points is
the order of their bytes.
-/

namespace BraceScript

/-- Names and their values, in strictly increasing order of the names. -/
structure Bindings where
  entries : List (String × Value)
  sorted : entries.Pairwise fun a b => a.1 < b.1

namespace Bindings

/-- No names. -/
def empty : Bindings := ⟨[], List.Pairwise.nil⟩

/-- Puts an entry in its place, over an older one of its name. -/
def insertEntry (name : String) (value : Value) : List (String × Value) → List (String × Value)
  | [] => [(name, value)]
  | (key, old) :: rest =>
    if name < key then (name, value) :: (key, old) :: rest
    else if name = key then (name, value) :: rest
    else (key, old) :: insertEntry name value rest

/-- An entry after inserting is the new one, by its name, or was there before. -/
theorem fst_of_mem_insertEntry {name : String} {value : Value} :
    ∀ {entries : List (String × Value)} {e : String × Value},
      e ∈ insertEntry name value entries → e.1 = name ∨ e ∈ entries
  | [], e, h => by
    simp only [insertEntry, List.mem_singleton] at h
    exact .inl (by rw [h])
  | (key, old) :: rest, e, h => by
    unfold insertEntry at h
    split at h
    · rcases List.mem_cons.mp h with rfl | h
      · exact .inl rfl
      · exact .inr h
    · split at h
      · rcases List.mem_cons.mp h with rfl | h
        · exact .inl rfl
        · exact .inr (List.mem_cons_of_mem _ h)
      · rcases List.mem_cons.mp h with rfl | h
        · exact .inr List.mem_cons_self
        · exact (fst_of_mem_insertEntry h).imp_right (List.mem_cons_of_mem _)

/-- Inserting keeps the order. -/
theorem pairwise_insertEntry {name : String} {value : Value} :
    ∀ {entries : List (String × Value)}, (entries.Pairwise fun a b => a.1 < b.1) →
      (insertEntry name value entries).Pairwise fun a b => a.1 < b.1
  | [], _ => List.pairwise_singleton _ _
  | (key, old) :: rest, h => by
    obtain ⟨hkey, hrest⟩ := List.pairwise_cons.mp h
    unfold insertEntry
    split
    · next hlt =>
      refine List.pairwise_cons.mpr ⟨fun e he => ?_, h⟩
      rcases List.mem_cons.mp he with rfl | he
      · exact hlt
      · exact String.lt_trans hlt (hkey e he)
    · next hnlt =>
      split
      · next heq =>
        subst heq
        exact List.pairwise_cons.mpr ⟨hkey, hrest⟩
      · next hne =>
        refine List.pairwise_cons.mpr ⟨fun e he => ?_, pairwise_insertEntry hrest⟩
        rcases fst_of_mem_insertEntry he with h1 | h1
        · rw [h1]
          exact Std.lt_of_le_of_ne (String.not_lt.mp hnlt) (Ne.symm hne)
        · exact hkey e h1

/-- Binds a name, over an older value. -/
def insert (b : Bindings) (name : String) (value : Value) : Bindings :=
  ⟨insertEntry name value b.entries, pairwise_insertEntry b.sorted⟩

/-- The value of a name. -/
def find? (b : Bindings) (name : String) : Option Value := b.entries.lookup name

/-- Whether a name is bound. -/
def binds (b : Bindings) (name : String) : Bool := (b.find? name).isSome

/-- Names bound one after another, a later value of a name over an earlier one. -/
def ofList (pairs : List (String × Value)) : Bindings :=
  pairs.foldl (fun b (name, value) => b.insert name value) empty

/-- The built-in functions under their names. -/
def builtins : Bindings := ofList (Builtin.all.map fun b => (b.name, .builtin b))

end Bindings

/-- A scope: its depth of nesting, the scope around it, and what it binds. -/
structure Frame where
  level : Nat
  /-- The index of the frame around it; none for the outermost. -/
  parent : Option Nat
  bindings : Bindings

namespace Frame

/-- The frame of a program's own names, with the built-in functions bound. -/
def outermost : Frame := ⟨0, none, .builtins⟩

/-- The frame with a name bound. -/
def bind (f : Frame) (name : String) (value : Value) : Frame :=
  { f with bindings := f.bindings.insert name value }

/-- The line of an entry. -/
def entryText (entry : String × Value) : String := entry.1 ++ " : " ++ entry.2.text

/-- The lines of a frame: its level, then its entries in the order of their names. -/
def lines (f : Frame) : List String := s!"level: {f.level}" :: f.bindings.entries.map entryText

/-- The text of a frame. -/
def text (f : Frame) : String := "\n".intercalate f.lines

end Frame

end BraceScript
