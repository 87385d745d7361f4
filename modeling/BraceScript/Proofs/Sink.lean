import BraceScript.Proofs.Session

/-!
# Proofs/Sink — a full sink cuts the output and changes nothing else

A run on a sink without a limit is compared with the run on a sink that keeps the first bytes only.
Up to the first line that does not fit the two are the same; that line is refused, and the error it
makes goes through everything that runs to the outside.

* `Sink.writeLine_cut` — what one line does to the two sinks.
* `Truncates.bind` — an error of the second run is kept by what comes after it, and so are the
  bytes.
* `Discipline.truncation` — hence all that runs.
-/

namespace BraceScript

/-! ## Sinks -/

theorem extract_of_size_le {bytes : ByteArray} {limit : Nat} (h : bytes.size ≤ limit) :
    bytes.extract 0 limit = bytes := by
  rw [← Nat.max_eq_left h, ByteArray.extract_zero_max_size]

/-- What is appended past the limit is cut off again. -/
theorem extract_append_of_le {bytes : ByteArray} {limit : Nat} (h : limit ≤ bytes.size)
    (more : ByteArray) : (bytes ++ more).extract 0 limit = bytes.extract 0 limit := by
  rw [ByteArray.extract_append, Nat.sub_eq_zero_of_le h, Nat.zero_sub, ByteArray.extract_same,
    ByteArray.append_empty]

namespace Sink

/-- **The sink that keeps the first bytes only.** -/
def cut (limit : Nat) (s : Sink) : Sink := ⟨some limit, s.written.extract 0 limit⟩

/-- Whether the bytes written fit into a limit. -/
def Fits (limit : Nat) (s : Sink) : Prop := s.written.size ≤ limit

instance (limit : Nat) (s : Sink) : Decidable (s.Fits limit) := inferInstanceAs (Decidable (_ ≤ _))

/-- `s'` is `s`, which has no limit, with more bytes. -/
def Appends (s s' : Sink) : Prop := s'.limit = none ∧ ∃ more, s'.written = s.written ++ more

variable {limit : Nat} {s s' s'' : Sink}

/-- Nothing is cut off what fits. -/
theorem cut_of_fits (h : s.Fits limit) : s.cut limit = ⟨some limit, s.written⟩ := by
  rw [cut, extract_of_size_le h]

namespace Appends

theorem refl (h : s.limit = none) : s.Appends s := ⟨h, .empty, ByteArray.append_empty.symm⟩

theorem trans (h : s.Appends s') (h' : s'.Appends s'') : s.Appends s'' := by
  obtain ⟨-, more, hmore⟩ := h
  obtain ⟨hlimit, more', hmore'⟩ := h'
  exact ⟨hlimit, more ++ more', by rw [hmore', hmore, ByteArray.append_assoc]⟩

/-- Once the bytes do not fit, no more bytes make them fit, -/
theorem not_fits (h : s.Appends s') (hs : ¬ s.Fits limit) : ¬ s'.Fits limit := by
  obtain ⟨-, more, hmore⟩ := h
  simp only [Fits, hmore, ByteArray.size_append, Nat.not_le] at hs ⊢
  omega

/-- and the first ones stay as they are. -/
theorem cut_eq (h : s.Appends s') (hs : ¬ s.Fits limit) : s'.cut limit = s.cut limit := by
  obtain ⟨-, more, hmore⟩ := h
  rw [cut, cut, hmore, extract_append_of_le (Nat.le_of_not_le hs)]

end Appends

/-- A sink without a limit takes everything. -/
theorem write_none (hlimit : s.limit = none) (text : String) :
    s.write text = (true, ⟨none, s.written ++ text.toUTF8⟩) := by
  simp only [write, hlimit]

/-- A text is taken if it fits, and what fits of it is kept. -/
theorem write_cut (hlimit : s.limit = none) (h : s.Fits limit) (text : String) :
    (s.cut limit).write text =
      (decide ((s.write text).2.Fits limit), (s.write text).2.cut limit) := by
  rw [cut_of_fits h, write_none hlimit]
  by_cases hfits : (⟨none, s.written ++ text.toUTF8⟩ : Sink).Fits limit
  · rw [decide_eq_true hfits, cut_of_fits hfits]
    exact if_pos hfits
  · rw [decide_eq_false hfits]
    exact if_neg hfits

theorem writeLine_none (hlimit : s.limit = none) (line : String) :
    s.writeLine line = (true, ⟨none, s.written ++ line.toUTF8 ++ "\n".toUTF8⟩) := by
  rw [writeLine, write_none hlimit]
  exact write_none rfl "\n"

/-- **A line is taken if it and its line feed fit, and what fits of them is kept.** -/
theorem writeLine_cut (hlimit : s.limit = none) (h : s.Fits limit) (line : String) :
    (s.cut limit).writeLine line =
      (decide ((s.writeLine line).2.Fits limit), (s.writeLine line).2.cut limit) := by
  have hwrite := write_cut hlimit h line
  rw [write_none hlimit] at hwrite
  rw [writeLine, hwrite]
  by_cases hfits : (⟨none, s.written ++ line.toUTF8⟩ : Sink).Fits limit
  · simp only [decide_eq_true hfits]
    rw [write_cut rfl hfits, writeLine_none hlimit, write_none rfl]
  · -- The line feed is not tried.
    have happends : (⟨none, s.written ++ line.toUTF8⟩ : Sink).Appends (s.writeLine line).2 := by
      rw [writeLine_none hlimit]
      exact ⟨rfl, _, rfl⟩
    simp only [decide_eq_false hfits]
    rw [decide_eq_false (happends.not_fits hfits), happends.cut_eq hfits]

end Sink

/-! ## Built-in functions -/

namespace Builtin

/-- Every built-in function but one has no use for the sink. -/
theorem apply_of_ne_print {b : Builtin} (hb : b ≠ print) (args : List Value) (p : Position) :
    ∃ result, ∀ sink, b.apply args p sink = (result, sink) := by
  cases b with
  | print => exact absurd rfl hb
  | min => exact ⟨_, fun _ => rfl⟩
  | max => exact ⟨_, fun _ => rfl⟩
  | abs => exact ⟨_, fun _ => rfl⟩
  | sum => exact ⟨_, fun _ => rfl⟩

theorem apply_print_none {s : Sink} (hlimit : s.limit = none) (args : List Value) (p : Position) :
    print.apply args p s = (.ok none, (s.writeLine (line args)).2) := by
  simp only [apply, printLine, Sink.writeLine_none hlimit]

/-- **Under a limit a line is printed as far as it fits**; printing fails if that is not all of
it. -/
theorem apply_print_cut {s : Sink} {limit : Nat} (hlimit : s.limit = none) (h : s.Fits limit)
    (args : List Value) (p : Position) :
    print.apply args p (s.cut limit) =
      (if (s.writeLine (line args)).2.Fits limit then .ok none else .error .output,
        (s.writeLine (line args)).2.cut limit) := by
  simp only [apply, printLine, Sink.writeLine_cut hlimit h]
  by_cases hfits : (s.writeLine (line args)).2.Fits limit
  · simp only [decide_eq_true hfits, if_pos hfits]
  · simp only [decide_eq_false hfits, if_neg hfits]

end Builtin

/-! ## Two runs side by side -/

/-- The machine with a sink that keeps the first bytes only. -/
def Machine.cut (limit : Nat) (m : Machine) : Machine := { m with sink := m.sink.cut limit }

/-- Taking a frame off has nothing to do with the sink. -/
theorem Machine.pop_cut (limit : Nat) (m : Machine) : (m.cut limit).pop = m.pop.cut limit := by
  unfold Machine.pop
  split
  · next h => rw [if_pos (show 1 < m.stack.depth from h)]; rfl
  · next h => rw [if_neg (show ¬ 1 < m.stack.depth from h)]

/-- **The second outcome is the first one with its output cut**: the same if the output fits, and an
output error with the first bytes of it otherwise. -/
structure Truncated (limit : Nat) {α : Type} (out out' : Except Failure α × Machine) : Prop where
  sink : out'.2.sink = out.2.sink.cut limit
  same : out.2.sink.Fits limit → out' = (out.1, out.2.cut limit)
  refused : ¬ out.2.sink.Fits limit → out'.1 = .error (.runtimeError .output)

namespace Truncated

variable {limit : Nat} {α β : Type}

/-- The frame of a call is taken off on both sides. -/
theorem pop {out out' : Except Failure α × Machine} (h : Truncated limit out out') :
    Truncated limit (out.1, out.2.pop) (out'.1, out'.2.pop) where
  sink := by rw [Machine.pop_sink, Machine.pop_sink, h.sink]
  same hfits := by
    rw [Machine.pop_sink] at hfits
    rw [h.same hfits, Machine.pop_cut]
  refused hfits := h.refused (by rwa [Machine.pop_sink] at hfits)

/-- What was refused stays refused, whatever the first run does next. -/
theorem of_refused {out out' : Except Failure α × Machine} (h : Truncated limit out out')
    (hfits : ¬ out.2.sink.Fits limit) {next : Except Failure β × Machine}
    (hnext : out.2.sink.Appends next.2.sink) :
    Truncated limit next (.error (.runtimeError .output), out'.2) where
  sink := by rw [h.sink, hnext.cut_eq hfits]
  same hnext' := absurd hnext' (hnext.not_fits hfits)
  refused _ := rfl

end Truncated

namespace Eval

/-- **Computations that a full sink cuts short and does not change otherwise.** -/
structure Truncates (limit : Nat) {α : Type} (x : Eval α) : Prop where
  /-- A sink without a limit only grows, -/
  appends : ∀ m : Machine, m.sink.limit = none → m.sink.Appends (x.run m).2.sink
  /-- and one with a limit keeps the beginning. -/
  truncated : ∀ m : Machine, m.sink.limit = none → m.sink.Fits limit →
    Truncated limit (x.run m) (x.run (m.cut limit))

variable {limit : Nat} {α β : Type}

/-- Computations that do not print and do not look at the sink. -/
theorem truncates_of_silent {x : Eval α} (hsink : ∀ m, (x.run m).2.sink = m.sink)
    (hcut : ∀ m, x.run (m.cut limit) = ((x.run m).1, (x.run m).2.cut limit)) :
    Truncates limit x where
  appends m hlimit := by
    rw [hsink]
    exact .refl hlimit
  truncated m _ hfits :=
    { sink := by rw [hcut]; rfl
      same := fun _ => hcut m
      refused := fun h => absurd hfits (by rwa [hsink] at h) }

theorem truncates_pure (a : α) : Truncates limit (pure a : Eval α) :=
  truncates_of_silent (fun _ => rfl) fun _ => rfl

theorem truncates_throw (e : Failure) : Truncates limit (throw e : Eval α) :=
  truncates_of_silent (fun _ => rfl) fun _ => rfl

theorem truncates_emit (e : Event) : Truncates limit (emit e) :=
  truncates_of_silent (fun _ => rfl) fun _ => rfl

theorem truncates_bindName (name : String) (value : Value) :
    Truncates limit (bindName name value) :=
  truncates_of_silent (fun _ => rfl) fun _ => rfl

/-- Reading prints nothing, so a limit makes no difference to it. -/
theorem truncates_ofRule (rule : Rule α) (source : String) :
    Truncates limit (ofRule rule source) := by
  refine truncates_of_silent (fun m => (ofRule_unchanged rule source m).2) fun m => ?_
  simp only [ofRule, Action.run]
  rcases rule.parse source with ⟨_ | _, feed⟩ <;> rfl

theorem truncates_resolve (name : Name) : Truncates limit (resolve name) := by
  have hrun (m : Machine) : (resolve name).run m =
      ((m.stack.lookup? name.text).elim
        (.error (.runtimeError (.located (.unknownName name.text) name.position))) .ok, m) := by
    simp only [resolve, Action.run_bind, Action.run_get]
    cases m.stack.lookup? name.text <;> rfl
  exact truncates_of_silent (fun m => by rw [hrun]) fun m => by rw [hrun, hrun]; rfl

/-- **Sequences**: what the second run refuses in the first part it refuses as a whole, and the
bytes of the second part come too late to be among the first ones. -/
theorem Truncates.bind {x : Eval α} {f : α → Eval β} (hx : Truncates limit x)
    (hf : ∀ a, Truncates limit (f a)) : Truncates limit (x >>= f) := by
  have happends (m : Machine) (hlimit : m.sink.limit = none) :
      (x.run m).2.sink.Appends ((x >>= f).run m).2.sink := by
    have hlimit' := (hx.appends m hlimit).1
    rcases hrun : x.run m with ⟨e | a, m₁⟩ <;> rw [hrun] at hlimit'
    · rw [Action.run_bind_of_error hrun]
      exact .refl hlimit'
    · rw [Action.run_bind_of_ok hrun]
      exact (hf a).appends m₁ hlimit'
  refine ⟨fun m hlimit => (hx.appends m hlimit).trans (happends m hlimit), fun m hlimit hm => ?_⟩
  have hout := hx.truncated m hlimit hm
  by_cases hfits : (x.run m).2.sink.Fits limit
  · have hsame := hout.same hfits
    have hlimit' := (hx.appends m hlimit).1
    rcases hrun : x.run m with ⟨e | a, m₁⟩ <;> rw [hrun] at hsame hlimit' hfits
    · rw [Action.run_bind_of_error hrun, Action.run_bind_of_error hsame]
      exact ⟨rfl, fun _ => rfl, fun h => absurd hfits h⟩
    · rw [Action.run_bind_of_ok hrun, Action.run_bind_of_ok hsame]
      exact (hf a).truncated m₁ hlimit' hfits
  · rw [Action.run_bind_of_error (Prod.ext (hout.refused hfits) rfl)]
    exact hout.of_refused hfits (happends m hlimit)

/-- Of the built-in functions only `print` can meet the limit. -/
theorem truncates_applyBuiltin (b : Builtin) (args : List Value) (p : Position) :
    Truncates limit (applyBuiltin b args p) := by
  by_cases hb : b = .print
  · subst hb
    have hrun (m : Machine) (hlimit : m.sink.limit = none) : (applyBuiltin .print args p).run m =
        (.ok none, { m with sink := (m.sink.writeLine (Builtin.line args)).2 }) := by
      simp only [applyBuiltin, Action.run, Builtin.apply_print_none hlimit]
    refine ⟨fun m hlimit => ?_, fun m hlimit hm => ?_⟩
    · rw [hrun m hlimit, Sink.writeLine_none hlimit]
      exact ⟨rfl, _, ByteArray.append_assoc⟩
    · rw [hrun m hlimit]
      have hcut := Builtin.apply_print_cut hlimit hm args p
      by_cases hfits : (m.sink.writeLine (Builtin.line args)).2.Fits limit
      · rw [if_pos hfits] at hcut
        simp only [applyBuiltin, Action.run, Machine.cut, hcut]
        exact ⟨rfl, fun _ => rfl, fun h => absurd hfits h⟩
      · rw [if_neg hfits] at hcut
        simp only [applyBuiltin, Action.run, Machine.cut, hcut]
        exact ⟨rfl, fun h => absurd h hfits, fun _ => rfl⟩
  · obtain ⟨result, hresult⟩ := Builtin.apply_of_ne_print hb args p
    have hrun (m : Machine) :
        (applyBuiltin b args p).run m = (result.mapError .runtimeError, m) := by
      simp only [applyBuiltin, Action.run, hresult]
      cases result <;> rfl
    exact truncates_of_silent (fun m => by rw [hrun]) fun m => by rw [hrun, hrun]

theorem truncates_callBuiltin (b : Builtin) (args : List Value) (p : Position) :
    Truncates limit (callBuiltin b args p) := by
  unfold callBuiltin
  split
  · exact (truncates_emit _).bind fun _ => truncates_applyBuiltin b args p
  · exact truncates_throw _

/-- **A call**: the frame is pushed and taken off alike on both sides. -/
theorem truncates_callRoutine (enter : Block → Eval (Option Value))
    (henter : ∀ b, Truncates limit (enter b)) (r : Routine) (args : List Value) (p : Position) :
    Truncates limit (callRoutine enter r args p) := by
  refine ⟨fun m hlimit => ?_, fun m hlimit hm => ?_⟩
  · obtain ⟨e, he⟩ | ⟨parent, -, -, hrun⟩ := callRoutine_cases enter r args p m
    · rw [he]
      exact .refl hlimit
    · rw [hrun, Machine.pop_sink]
      exact (henter r.body).appends (m.enter r args parent) hlimit
  · rw [callRoutine_run, callRoutine_run, show (m.cut limit).stack = m.stack from rfl]
    have hsilent (e : Failure) : Truncated (α := Option Value) limit (.error e, m)
        (.error e, m.cut limit) := ⟨rfl, fun _ => rfl, fun h => absurd hm h⟩
    cases m.stack.find? r.name.text with
    | none => exact hsilent _
    | some parent =>
      by_cases hlength : r.params.length = args.length
      · simp only [if_pos hlength]
        exact ((henter r.body).truncated (m.enter r args parent) hlimit hm).pop
      · simp only [if_neg hlength]
        exact hsilent _

end Eval

/-- **Everything that runs is cut short by a full sink, and not changed otherwise.** -/
def Discipline.truncation (limit : Nat) : Discipline where
  expr := Eval.Truncates limit
  stmt := Eval.Truncates limit
  expr_pure := Eval.truncates_pure
  expr_bind := Eval.Truncates.bind
  expr_fail _ := Eval.truncates_throw _
  expr_resolve := Eval.truncates_resolve
  expr_callBuiltin := Eval.truncates_callBuiltin
  expr_callRoutine := Eval.truncates_callRoutine
  stmt_of_expr := id
  stmt_bind := Eval.Truncates.bind
  stmt_outOfFuel := Eval.truncates_throw _
  stmt_bindName := Eval.truncates_bindName

namespace Eval

variable {limit : Nat}

/-- **A program under a limit does what it does without one**, until its output no longer fits. -/
theorem truncates_program (fuel : Nat) (p : Program) : Truncates limit (p.run fuel) := by
  have hfinish : Truncates limit (do emit (.finished (← get).stack.depth)) :=
    truncates_of_silent (fun _ => rfl) fun _ => rfl
  exact (truncates_bindName _ _).bind fun _ =>
    ((Discipline.truncation limit).stmt_discard
      ((Discipline.truncation limit).run fuel p.body)).bind
      fun _ => hfinish

theorem truncates_interpret (fuel : Nat) (source : String) :
    Truncates limit (interpret fuel source) :=
  (truncates_emit _).bind fun _ => (truncates_ofRule _ source).bind fun p =>
    (truncates_emit _).bind fun _ => truncates_program fuel p

theorem extendsStack_interpret (fuel : Nat) (source : String) :
    ExtendsStack (interpret fuel source) :=
  Discipline.stack.stmt_bind (extendsStack_emit _) fun _ =>
    Discipline.stack.stmt_bind (extendsStack_ofRule _ source) fun p =>
      Discipline.stack.stmt_bind (extendsStack_emit _) fun _ => extendsStack_run fuel p

end Eval

/-- **A sink that fails cuts the output and changes nothing else.**  Run a program on a sink without
a limit and on one that keeps the first `limit` bytes.  If all that the first run prints fits, the
second one has the same result, the same output and the same stack.  If not, the second run fails
with an output error, which has no place; it kept the first `limit` bytes of that output and left
one frame. -/
theorem interpret_truncated (fuel : Nat) (source : String) (limit : Nat) :
    match (interpret fuel source).run (.fresh none),
      (interpret fuel source).run (.fresh (some limit)) with
    | (result, m), (result', m') =>
      (m.sink.written.size ≤ limit →
        result' = result ∧ m'.sink.written = m.sink.written ∧ m'.stack = m.stack) ∧
      (limit < m.sink.written.size →
        (∃ e : RuntimeError, result' = .error (.runtimeError e) ∧ e = .output ∧
          e.errorClass.text = "IOError" ∧ e.position? = none) ∧
        m'.sink.written = m.sink.written.extract 0 limit ∧ m'.stack.depth = 1) := by
  have hlimited : Machine.fresh (some limit) = (Machine.fresh none).cut limit := by
    have hempty : (Sink.empty none).Fits limit := Nat.zero_le limit
    rw [Machine.cut, show (Machine.fresh none).sink = .empty none from rfl, Sink.cut_of_fits hempty]
    rfl
  have htruncated : Truncated limit ((interpret fuel source).run (.fresh none))
      ((interpret fuel source).run (.fresh (some limit))) := by
    rw [hlimited]
    exact (Eval.truncates_interpret fuel source).truncated (.fresh none) rfl (Nat.zero_le _)
  have hdepth : ((interpret fuel source).run (.fresh (some limit))).2.stack.depth = 1 :=
    (Eval.extendsStack_interpret fuel source (.fresh (some limit))).depth_eq
  generalize (interpret fuel source).run (.fresh none) = out at htruncated
  generalize (interpret fuel source).run (.fresh (some limit)) = out' at htruncated hdepth
  refine ⟨fun hfits => ?_, fun hexceeds => ⟨⟨.output, ?_, rfl, rfl, rfl⟩, ?_, hdepth⟩⟩
  · rw [htruncated.same hfits, Machine.cut, Sink.cut_of_fits hfits]
    exact ⟨rfl, rfl, rfl⟩
  · exact htruncated.refused (Nat.not_le.mpr hexceeds)
  · rw [htruncated.sink, Sink.cut]

end BraceScript
