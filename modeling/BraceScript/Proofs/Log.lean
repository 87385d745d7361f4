import BraceScript.Proofs.Session

/-!
# Proofs/Log — the record of a run is well bracketed

    opened, token, …, token, parsed, body, finished

The body is made of calls.  A built-in function leaves one event.  A function of the program is
entered, its frame is pushed, the calls of its own body follow, and the frame is popped, also when
something in between fails.  That the frame is there to be popped, and is still the one that was
pushed, is what the stack discipline says of every body; so the record and the stack go through one
induction together (`Discipline.log`).
-/

namespace BraceScript

/-! ## Brackets -/

namespace Event

/-- Whether an event puts a frame on the stack or takes one off. -/
def isFrame : Event → Bool
  | pushed _ _ | popped _ => true
  | _ => false

/-- Whether an event is one of a running program. -/
def isStep : Event → Bool
  | entered _ _ _ | invoked _ _ | pushed _ _ | popped _ => true
  | _ => false

end Event

/-- **Frames are pushed and popped in pairs**, one pair inside another or after it, and what is
popped has the level of what was pushed. -/
inductive Balanced : List Event → Prop
  | nil : Balanced []
  | pair {level : Nat} {parent : Option Nat} {frame : Frame} {inside rest : List Event} :
    frame.level = level → Balanced inside → Balanced rest →
      Balanced (.pushed level parent :: inside ++ .popped frame :: rest)

/-- One balanced record after another is balanced. -/
theorem Balanced.append {a b : List Event} (ha : Balanced a) (hb : Balanced b) :
    Balanced (a ++ b) := by
  induction ha with
  | nil => exact hb
  | pair hlevel hinside _ _ ih =>
    rw [List.append_assoc, List.cons_append]
    exact .pair hlevel hinside ih

/-- **A call and its frame stand side by side**: right after a function is entered a frame of that
level is pushed, and no frame is pushed otherwise. -/
structure Adjacent (log : List Event) : Prop where
  pushed_of_entered : ∀ (i : Nat) (name : String) (level args : Nat),
    log[i]? = some (.entered name level args) → ∃ parent, log[i + 1]? = some (.pushed level parent)
  entered_of_pushed : ∀ (i level : Nat) (parent : Option Nat),
    log[i]? = some (.pushed level parent) →
      ∃ j name args, i = j + 1 ∧ log[j]? = some (.entered name level args)

namespace Adjacent

theorem nil : Adjacent [] where
  pushed_of_entered _ _ _ _ h := by cases h
  entered_of_pushed _ _ _ h := by cases h

theorem append {a b : List Event} (ha : Adjacent a) (hb : Adjacent b) : Adjacent (a ++ b) where
  pushed_of_entered i name level args h := by
    rw [List.getElem?_append] at h
    split at h
    · obtain ⟨parent, hnext⟩ := ha.pushed_of_entered i name level args h
      have hlt : i + 1 < a.length := (List.getElem?_eq_some_iff.mp hnext).1
      exact ⟨parent, by rw [List.getElem?_append_left hlt, hnext]⟩
    · next hge =>
      obtain ⟨parent, hnext⟩ := hb.pushed_of_entered _ name level args h
      refine ⟨parent, ?_⟩
      rw [List.getElem?_append_right (by omega), ← hnext]
      congr 1
      omega
  entered_of_pushed i level parent h := by
    rw [List.getElem?_append] at h
    split at h
    · obtain ⟨j, name, args, rfl, hentered⟩ := ha.entered_of_pushed i level parent h
      exact ⟨j, name, args, rfl, by rw [List.getElem?_append_left (by omega), hentered]⟩
    · obtain ⟨j, name, args, hj, hentered⟩ := hb.entered_of_pushed _ level parent h
      refine ⟨a.length + j, name, args, by omega, ?_⟩
      rw [List.getElem?_append_right (by omega), Nat.add_sub_cancel_left, hentered]

theorem invoked (b : Builtin) (args : Nat) : Adjacent [.invoked b args] where
  pushed_of_entered i _ _ _ h := by cases List.mem_singleton.mp (List.mem_of_getElem? h)
  entered_of_pushed i _ _ h := by cases List.mem_singleton.mp (List.mem_of_getElem? h)

theorem popped (frame : Frame) : Adjacent [.popped frame] where
  pushed_of_entered i _ _ _ h := by cases List.mem_singleton.mp (List.mem_of_getElem? h)
  entered_of_pushed i _ _ h := by cases List.mem_singleton.mp (List.mem_of_getElem? h)

/-- A call is entered and its frame is put on the stack next, with the same level. -/
theorem entered (name : String) (level args : Nat) (parent : Option Nat) :
    Adjacent [.entered name level args, .pushed level parent] where
  pushed_of_entered i _ _ _ h := by
    match i, h with
    | 0, h =>
      cases h
      exact ⟨parent, rfl⟩
    | 1, h => cases h
  entered_of_pushed i _ _ h := by
    match i, h with
    | 1, h =>
      cases h
      exact ⟨0, name, args, rfl, rfl⟩
    | 0, h => cases h

end Adjacent

/-- **The events of a running program, well bracketed.** -/
structure Bracketed (log : List Event) : Prop where
  steps : ∀ e ∈ log, e.isStep
  balanced : Balanced (log.filter Event.isFrame)
  adjacent : Adjacent log

namespace Bracketed

theorem nil : Bracketed [] := ⟨fun _ h => (List.not_mem_nil h).elim, .nil, .nil⟩

theorem append {a b : List Event} (ha : Bracketed a) (hb : Bracketed b) : Bracketed (a ++ b) where
  steps e h := (List.mem_append.mp h).elim (ha.steps e) (hb.steps e)
  balanced := by
    rw [List.filter_append]
    exact ha.balanced.append hb.balanced
  adjacent := ha.adjacent.append hb.adjacent

/-- A built-in function leaves one event. -/
theorem invoked (b : Builtin) (args : Nat) : Bracketed [.invoked b args] where
  steps e h := by rw [List.mem_singleton.mp h]; rfl
  balanced := .nil
  adjacent := .invoked b args

/-- **The events of a call**: the frame of the callee around what its body leaves. -/
theorem call {inside : List Event} (h : Bracketed inside) {frame : Frame} {level : Nat}
    (hlevel : frame.level = level) (name : String) (args : Nat) (parent : Option Nat) :
    Bracketed ([.entered name level args, .pushed level parent] ++ inside ++ [.popped frame]) where
  steps e he := by
    simp only [List.mem_append, List.mem_cons, List.not_mem_nil, or_false] at he
    rcases he with ((rfl | rfl) | he) | rfl
    · rfl
    · rfl
    · exact h.steps e he
    · rfl
  balanced := by
    rw [List.filter_append, List.filter_append]
    exact .pair hlevel h.balanced .nil
  adjacent := ((Adjacent.entered name level args parent).append h.adjacent).append (.popped frame)

end Bracketed

/-! ## Runs -/

namespace Eval

/-- **Computations that record well bracketed events.** -/
def Logs {α : Type} (x : Eval α) : Prop :=
  ∀ m : Machine, ∃ log, Bracketed log ∧ (x.run m).2.events = log.reverse ++ m.events

/-- What records nothing adds the empty record. -/
theorem logs_of_silent {α : Type} {x : Eval α} (h : ∀ m, (x.run m).2.events = m.events) : Logs x :=
  fun m => ⟨[], .nil, h m⟩

/-- A sequence adds the records of its parts, the later in front. -/
theorem Logs.bind {α β : Type} {x : Eval α} {f : α → Eval β} (hx : Logs x) (hf : ∀ a, Logs (f a)) :
    Logs (x >>= f) := by
  intro m
  obtain ⟨log, hlog, hevents⟩ := hx m
  rcases hrun : x.run m with ⟨e | a, m₁⟩ <;> rw [hrun] at hevents
  · rw [Action.run_bind_of_error hrun]
    exact ⟨log, hlog, hevents⟩
  · obtain ⟨log', hlog', hevents'⟩ := hf a m₁
    rw [Action.run_bind_of_ok hrun]
    refine ⟨log ++ log', hlog.append hlog', ?_⟩
    rw [hevents', hevents, List.reverse_append, List.append_assoc]

theorem logs_resolve (name : Name) : Logs (resolve name) := by
  refine logs_of_silent fun m => ?_
  simp only [resolve, Action.run_bind, Action.run_get]
  cases m.stack.lookup? name.text <;> rfl

theorem logs_applyBuiltin (b : Builtin) (args : List Value) (p : Position) :
    Logs (applyBuiltin b args p) := by
  refine logs_of_silent fun m => ?_
  simp only [applyBuiltin, Action.run]
  rcases b.apply args p m.sink with ⟨_ | _, _⟩ <;> rfl

/-- A built-in function is noted when it is invoked, if the number of its arguments is right. -/
theorem logs_callBuiltin (b : Builtin) (args : List Value) (p : Position) :
    Logs (callBuiltin b args p) := by
  unfold callBuiltin
  split
  · exact Logs.bind (fun m => ⟨_, .invoked b args.length, rfl⟩) fun _ => logs_applyBuiltin b args p
  · exact logs_of_silent fun _ => rfl

/-- What is popped after a body is the frame that was pushed for it. -/
theorem events_pop_of_extends {m m' : Machine} {r : Routine} {args : List Value} {parent : Nat}
    (h : Stack.Extends (m.enter r args parent).stack m'.stack) :
    ∃ frame : Frame, frame.level = m.stack.level parent + 1 ∧
      m'.pop.events = .popped frame :: m'.events := by
  have hdepth : 1 < m'.stack.depth := by
    rw [h.depth_eq, Machine.enter_stack, Stack.depth_push]
    exact Nat.succ_lt_succ m.stack.depth_pos
  refine ⟨m'.stack.topFrame, ?_, by rw [Machine.pop, if_pos hdepth]⟩
  rw [h.level_eq, Machine.enter_stack, Stack.topFrame_push]
  rfl

/-- **A call leaves the events of its body between those of its frame.** -/
theorem logs_callRoutine (enter : Block → Eval (Option Value))
    (henter : ∀ b, ExtendsStack (enter b) ∧ Logs (enter b)) (r : Routine) (args : List Value)
    (p : Position) : Logs (callRoutine enter r args p) := by
  intro m
  obtain ⟨e, he⟩ | ⟨parent, -, -, hrun⟩ := callRoutine_cases enter r args p m
  · rw [he]
    exact ⟨[], .nil, rfl⟩
  · obtain ⟨hextends, hlogs⟩ := henter r.body
    obtain ⟨inside, hinside, hevents⟩ := hlogs (m.enter r args parent)
    obtain ⟨frame, hlevel, hpop⟩ := events_pop_of_extends (hextends (m.enter r args parent))
    refine ⟨_, hinside.call hlevel r.name.text r.params.length (some parent), ?_⟩
    rw [hrun, hpop, hevents]
    simp [Machine.enter, Machine.push, Machine.emit, Stack.calleeFrame]

end Eval

/-- **Everything that runs leaves well bracketed events**, and takes off the frames it puts on. -/
def Discipline.log : Discipline where
  expr x := Eval.KeepsStack x ∧ Eval.Logs x
  stmt x := Eval.ExtendsStack x ∧ Eval.Logs x
  expr_pure a := ⟨Discipline.stack.expr_pure a, Eval.logs_of_silent fun _ => rfl⟩
  expr_bind hx hf :=
    ⟨Discipline.stack.expr_bind hx.1 fun a => (hf a).1, hx.2.bind fun a => (hf a).2⟩
  expr_fail e := ⟨Discipline.stack.expr_fail e, Eval.logs_of_silent fun _ => rfl⟩
  expr_resolve name := ⟨Discipline.stack.expr_resolve name, Eval.logs_resolve name⟩
  expr_callBuiltin b args p :=
    ⟨Discipline.stack.expr_callBuiltin b args p, Eval.logs_callBuiltin b args p⟩
  expr_callRoutine enter henter r args p :=
    ⟨Discipline.stack.expr_callRoutine enter (fun b => (henter b).1) r args p,
      Eval.logs_callRoutine enter henter r args p⟩
  stmt_of_expr h := ⟨h.1.extends, h.2⟩
  stmt_bind hx hf :=
    ⟨Discipline.stack.stmt_bind hx.1 fun a => (hf a).1, hx.2.bind fun a => (hf a).2⟩
  stmt_outOfFuel := ⟨Discipline.stack.stmt_outOfFuel, Eval.logs_of_silent fun _ => rfl⟩
  stmt_bindName name value :=
    ⟨Discipline.stack.stmt_bindName name value, Eval.logs_of_silent fun _ => rfl⟩

/-! ## Whole sources -/

/-- **The log of a source**, in the order of its events: first it is read, token by token; if it is
a program, that is noted, and the events of the run follow, well bracketed; and if the run succeeds,
its end is noted, with the one frame that is left. -/
inductive Logged (bytes : Nat) (tokens : List Token) :
    Except SyntaxError Program → Except Failure Unit → List Event → Prop
  | unread (e : SyntaxError) :
    Logged bytes tokens (.error e) (.error (.syntaxError e)) (.opened bytes :: tokens.map .token)
  | failed (p : Program) (e : Failure) {body : List Event} : Bracketed body →
    Logged bytes tokens (.ok p) (.error e)
      (.opened bytes :: tokens.map .token ++ .parsed p.name.text :: body)
  | finished (p : Program) {body : List Event} : Bracketed body →
    Logged bytes tokens (.ok p) (.ok ())
      (.opened bytes :: tokens.map .token ++ .parsed p.name.text :: body ++ [.finished 1])

/-- Reading adds the tokens that were read, one event for each time. -/
theorem Eval.ofRule_run_events {α : Type} (rule : Rule α) (source : String) (m : Machine) :
    (ofRule rule source).run m = ((rule.parse source).1.mapError .syntaxError,
      { m with events := (rule.parse source).2.history.map .token ++ m.events }) := by
  simp only [ofRule, Action.run]
  rcases rule.parse source with ⟨_ | _, feed⟩ <;> rfl

/-- The events of a program: those of its body, and its end if it gets there. -/
theorem Program.run_logs (fuel : Nat) (p : Program) (m : Machine) :
    ∃ body, Bracketed body ∧ ((p.run fuel).run m).2.events.reverse = m.events.reverse ++ body ++
      match ((p.run fuel).run m).1 with
      | .ok _ => [.finished m.stack.depth]
      | .error _ => [] := by
  let start := m.bind p.name.text (.program p.name.text)
  obtain ⟨hextends, hlogs⟩ := Discipline.log.stmt_discard (Discipline.log.run fuel p.body)
  obtain ⟨body, hbody, hevents⟩ := hlogs start
  have hdepth : ((discard (Block.run fuel p.body)).run start).2.stack.depth = m.stack.depth :=
    ((Stack.Extends.bind m.stack _ _).trans (hextends start)).depth_eq
  have hbind : (Eval.bindName p.name.text (.program p.name.text)).run m = (.ok (), start) := rfl
  refine ⟨body, hbody, ?_⟩
  rw [Program.run, Action.run_bind_of_ok hbind]
  rcases hrun : (discard (Block.run fuel p.body)).run start with ⟨e | a, m'⟩ <;>
    rw [hrun] at hevents hdepth
  · rw [Action.run_bind_of_error hrun, hevents]
    simp [start, Machine.bind]
  · have hfinish : (do Eval.emit (.finished (← get).stack.depth)).run m' =
        (.ok (), m'.emit (.finished m'.stack.depth)) := rfl
    rw [Action.run_bind_of_ok hrun, hfinish, Machine.emit, hevents, hdepth]
    simp [start, Machine.bind]

/-- **The log of a source is ordered by phases and well bracketed.**  The tokens that were read come
first.  If and only if the source is a program this is noted next; what then follows, also in a run
that fails, are calls, with the frame of each function pushed at its level right after it is
entered, and frames popped in pairs with those pushed, at the same level.  The end is noted last, if
and only if the run succeeds, and one frame is left. -/
theorem interpret_logged (fuel : Nat) (source : String) (limit : Option Nat) :
    match Rule.wholeProgram.parse source, (interpret fuel source).run (.fresh limit) with
    | (parsed, feed), (result, m) =>
      Logged source.utf8ByteSize feed.history.reverse parsed result m.events.reverse := by
  have hread := Eval.ofRule_run_events Rule.wholeProgram source
    ((Machine.fresh limit).emit (.opened source.utf8ByteSize))
  rw [interpret, Action.run_bind_of_ok (Eval.run_emit _ _)]
  rcases hparse : Rule.wholeProgram.parse source with ⟨e | p, feed⟩ <;> rw [hparse] at hread
  · rw [Action.run_bind_of_error hread]
    have hlog : Logged source.utf8ByteSize feed.history.reverse _ _ _ := .unread e
    simpa [Machine.emit, Machine.fresh] using hlog
  · rw [Action.run_bind_of_ok hread, Action.run_bind_of_ok (Eval.run_emit _ _)]
    generalize hstart : Machine.emit _ (.parsed p.name.text) = start
    have hbefore : start.events.reverse = .opened source.utf8ByteSize ::
        feed.history.reverse.map .token ++ [.parsed p.name.text] := by
      rw [← hstart]
      simp [Machine.emit, Machine.fresh]
    have hdepth : start.stack.depth = 1 := hstart ▸ rfl
    obtain ⟨body, hbody, hevents⟩ := p.run_logs fuel start
    rw [hbefore, hdepth] at hevents
    rcases hrun : (p.run fuel).run start with ⟨e | u, m⟩ <;> rw [hrun] at hevents
    · have hlog : Logged source.utf8ByteSize feed.history.reverse _ _ _ := .failed p e hbody
      simpa [hevents] using hlog
    · have hlog : Logged source.utf8ByteSize feed.history.reverse _ _ _ := .finished p hbody
      simpa [hevents] using hlog

end BraceScript
