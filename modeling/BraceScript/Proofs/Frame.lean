import BraceScript.Proofs.ByteOrder
import BraceScript.Proofs.Stack
import Mathlib.Data.List.Sort

/-!
# Proofs/Frame — the text of a frame, whatever the order of its bindings

What a frame holds after a sequence of bindings is what the sequence gives each name last
(`Stack.find?_bindAll`).  How it is written out is said without the frame: `Tabulates rows history`
holds of the rows that list every name of a history once, with the value bound last, in the order of
the bytes of the names.  There is only one such list of rows (`Tabulates.unique`), so neither the
order in which names were bound nor how often is seen in the text.
-/

namespace BraceScript

/-! ## The value bound last -/

/-- The value that a sequence of bindings gives a name last. -/
def lastValue? (binds : List (String × Value)) (name : String) : Option Value :=
  binds.reverse.lookup name

theorem lastValue?_append (earlier later : List (String × Value)) (name : String) :
    lastValue? (earlier ++ later) name = (lastValue? later name).or (lastValue? earlier name) := by
  rw [lastValue?, List.reverse_append]
  exact List.lookup_append

namespace Bindings

theorem find?_insert (b : Bindings) (name other : String) (value : Value) :
    (b.insert name value).find? other = (lastValue? [(name, value)] other).or (b.find? other) := by
  rw [lastValue?, List.reverse_singleton, List.lookup_cons]
  by_cases h : other = name
  · rw [h, find?_insert_self, beq_self_eq_true]
    rfl
  · rw [find?_insert_of_ne b h, beq_false_of_ne h]
    rfl

/-- Where no name occurs twice, a name has the value it is listed with. -/
theorem lookup_eq_some_iff_mem {entries : List (String × Value)}
    (h : entries.Pairwise fun a b => a.1 ≠ b.1) {name : String} {value : Value} :
    entries.lookup name = some value ↔ (name, value) ∈ entries := by
  rw [List.lookup_eq_some_iff]
  constructor
  · rintro ⟨before, after, rfl, -⟩
    exact List.mem_append_right before List.mem_cons_self
  · intro hmem
    obtain ⟨before, after, rfl⟩ := List.append_of_mem hmem
    refine ⟨before, after, rfl, fun e he => bne_iff_ne.mpr fun heq => ?_⟩
    exact (List.pairwise_append.mp h).2.2 e he (name, value) List.mem_cons_self heq.symm

theorem pairwise_ne (b : Bindings) : b.entries.Pairwise fun a b => a.1 ≠ b.1 := by
  refine b.sorted.imp fun {x y} hlt heq => ?_
  rw [heq] at hlt
  exact String.lt_irrefl y.1 hlt

theorem mem_entries_iff (b : Bindings) {name : String} {value : Value} :
    (name, value) ∈ b.entries ↔ b.find? name = some value :=
  (lookup_eq_some_iff_mem b.pairwise_ne).symm

/-- Bindings are a history of their own. -/
theorem lastValue?_entries (b : Bindings) (name : String) :
    lastValue? b.entries name = b.find? name := by
  have hne : b.entries.reverse.Pairwise fun a b => a.1 ≠ b.1 :=
    List.pairwise_reverse.mpr (b.pairwise_ne.imp Ne.symm)
  refine Option.ext fun value => ?_
  rw [← mem_entries_iff, ← List.mem_reverse]
  exact lookup_eq_some_iff_mem hne

end Bindings

/-! ## Rows -/

/-- **The rows of a history**: each name that was bound has one row, with the value bound last, and
the names are in strictly increasing order of their bytes. -/
structure Tabulates (rows history : List (String × Value)) : Prop where
  increasing : rows.Pairwise fun a b => utf8 a.1.toList < utf8 b.1.toList
  mem_iff (name : String) (value : Value) :
    (name, value) ∈ rows ↔ lastValue? history name = some value

/-- **The last values determine the rows.** -/
theorem Tabulates.unique {rows rows' history history' : List (String × Value)}
    (h : Tabulates rows history)
    (h' : Tabulates rows' history')
    (hlast : ∀ name, lastValue? history name = lastValue? history' name) : rows = rows' := by
  have : Std.Irrefl fun a b : String × Value => utf8 a.1.toList < utf8 b.1.toList :=
    ⟨fun a => List.lt_irrefl (utf8 a.1.toList)⟩
  have : Std.Antisymm fun a b : String × Value => utf8 a.1.toList < utf8 b.1.toList :=
    ⟨fun a b hab hba => absurd hba (List.lt_asymm hab)⟩
  refine h.increasing.eq_of_mem_iff h'.increasing fun row => ?_
  rw [h.mem_iff row.1 row.2, h'.mem_iff row.1 row.2, hlast]

/-- A frame's entries are the rows of any history with the values they have. -/
theorem Bindings.tabulates_entries (b : Bindings) {history : List (String × Value)}
    (h : ∀ name, b.find? name = lastValue? history name) : Tabulates b.entries history where
  increasing := b.sorted.imp utf8_lt_utf8
  mem_iff name value := by rw [mem_entries_iff, h name]

namespace Stack

/-- Binds names in the top frame, one after another. -/
def bindAll (s : Stack) (binds : List (String × Value)) : Stack :=
  binds.foldl (fun s entry => s.bind entry.1 entry.2) s

/-- All that was bound in the top frame, what it held before included. -/
def history (s : Stack) (binds : List (String × Value)) : List (String × Value) :=
  s.topFrame.bindings.entries ++ binds

theorem level_topFrame_bindAll (s : Stack) (binds : List (String × Value)) :
    (s.bindAll binds).topFrame.level = s.topFrame.level := by
  induction binds generalizing s with
  | nil => rfl
  | cons entry binds ih =>
    refine (ih (s.bind entry.1 entry.2)).trans ?_
    rw [topFrame_bind]
    rfl

/-- **A name has the value bound last**, or the one it had. -/
theorem find?_bindAll (s : Stack) (binds : List (String × Value)) (name : String) :
    (s.bindAll binds).topFrame.bindings.find? name =
      (lastValue? binds name).or (s.topFrame.bindings.find? name) := by
  induction binds generalizing s with
  | nil => rfl
  | cons entry binds ih =>
    refine (ih (s.bind entry.1 entry.2)).trans ?_
    rw [topFrame_bind, ← List.singleton_append, lastValue?_append, Option.or_assoc]
    exact congrArg _ (s.topFrame.bindings.find?_insert entry.1 name entry.2)

/-- What counts as bound in the top frame is what was bound last, and else what was there. -/
theorem lastValue?_history (s : Stack) (binds : List (String × Value)) (name : String) :
    lastValue? (s.history binds) name =
      (lastValue? binds name).or (s.topFrame.bindings.find? name) := by
  rw [history, lastValue?_append, Bindings.lastValue?_entries]

theorem tabulates_bindAll (s : Stack) (binds : List (String × Value)) :
    Tabulates (s.bindAll binds).topFrame.bindings.entries (s.history binds) :=
  Bindings.tabulates_entries _ fun name => by rw [find?_bindAll, lastValue?_history]

/-- Only the level and the last values are seen in the text of the top frame. -/
theorem text_bindAll_congr {s t : Stack} {binds binds' : List (String × Value)}
    (hlevel : s.topFrame.level = t.topFrame.level)
    (hlast : ∀ name, lastValue? (s.history binds) name = lastValue? (t.history binds') name) :
    (s.bindAll binds).topFrame.text = (t.bindAll binds').topFrame.text := by
  have hentries := (s.tabulates_bindAll binds).unique (t.tabulates_bindAll binds') hlast
  unfold Frame.text Frame.lines
  rw [hentries, level_topFrame_bindAll, level_topFrame_bindAll, hlevel]

end Stack

/-- **The text of a frame is canonical.**  After any sequence of bindings, the text of the top frame
is the line of its level and a line for each row of all that was bound in it; there is one row for
each name ever bound, with the value bound last, in strictly increasing order of the bytes of the
names.  So two sequences that agree in the last value of each name give the same text, and so do two
frames of one level, on any stacks, if all that was bound in them agrees so. -/
theorem frame_text_canonical (s : Stack) (binds : List (String × Value)) :
    (∃ rows, Tabulates rows (s.history binds) ∧
      (s.bindAll binds).topFrame.text = "\n".intercalate
        (("level: " ++ toString s.topFrame.level) ::
          rows.map fun row => row.1 ++ " : " ++ row.2.text)) ∧
    (∀ binds', (∀ name, lastValue? binds name = lastValue? binds' name) →
      (s.bindAll binds).topFrame.text = (s.bindAll binds').topFrame.text) ∧
    ∀ (t : Stack) binds', s.topFrame.level = t.topFrame.level →
      (∀ name, lastValue? (s.history binds) name = lastValue? (t.history binds') name) →
      (s.bindAll binds).topFrame.text = (t.bindAll binds').topFrame.text := by
  refine ⟨⟨_, s.tabulates_bindAll binds, ?_⟩, fun binds' hlast => ?_,
    fun t binds' => Stack.text_bindAll_congr⟩
  · rw [← s.level_topFrame_bindAll binds]
    rfl
  · refine Stack.text_bindAll_congr rfl fun name => ?_
    rw [Stack.lastValue?_history, Stack.lastValue?_history, hlast]

/-- A stack with a frame of given bindings on top. -/
def Stack.opened (b : Bindings) : Stack := Stack.initial.push ⟨1, some 0, b⟩

/-- A name is bound, then another one, then the first again. -/
def rebound : List (String × Value) := [("é", .int 1), ("z", .bool true), ("é", .int 3)]

/-- The same names bound once, in the other order. -/
def swapped : List (String × Value) := [("é", .int 3), ("z", .bool true)]

/-- Neither the first value of a name nor the order of the names is seen in the text, nor whether a
name was there from the start. -/
theorem frame_text_canonical_rebound :
    (∀ name, lastValue? rebound name = lastValue? swapped name) ∧
    ((Stack.opened .empty).bindAll swapped).topFrame.text = "level: 1\nz : True\né : 3" ∧
    ((Stack.opened (.ofList [("é", .int 3)])).bindAll [("z", .bool true)]).topFrame.text =
      "level: 1\nz : True\né : 3" := by
  have hlast (name : String) : lastValue? rebound name = lastValue? swapped name := by
    unfold lastValue? rebound swapped
    simp only [List.reverse_cons, List.reverse_nil, List.nil_append, List.cons_append,
      List.lookup_cons, List.lookup_nil]
    by_cases h : name = "é"
    · rw [h]
      rfl
    · simp only [beq_false_of_ne h]
  have hlevel (b c : Bindings) :
      (Stack.opened b).topFrame.level = (Stack.opened c).topFrame.level := by
    rw [Stack.opened, Stack.opened, Stack.topFrame_push, Stack.topFrame_push]
  have htext : ((Stack.opened .empty).bindAll rebound).topFrame.text =
      "level: 1\nz : True\né : 3" := by
    decide +kernel
  obtain ⟨-, hswapped, hheld⟩ := frame_text_canonical (.opened .empty) rebound
  refine ⟨hlast, (hswapped _ hlast).symm.trans htext,
    (hheld _ _ (hlevel _ _) fun name => ?_).symm.trans htext⟩
  exact hlast name

end BraceScript
