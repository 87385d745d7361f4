import BraceScript.Proofs.Grammar.Lookahead
import BraceScript.Proofs.Placed.Stack
import BraceScript.Proofs.Session

/-!
# Proofs/Layout — what a program does depends on its tokens, not on where they stand

Move every position in a tree, and in the machine that it runs on: the run does the same, and its
result and the machine that it leaves are moved too (`Eval.Moves`).  So programs that are the same
but for their positions do the same, but for the positions in their errors; and sources that are cut
into the same lexemes are read as such programs, or rejected for the same reason
(`Grammar/Lookahead`).

The record of events is not compared: it holds the size of the source, which its layout changes.
-/

namespace BraceScript

variable {α β : Type} [Placed α] [Placed β] {f : Position → Position}

/-- **A machine with every position moved**; the records of events may differ. -/
structure Machine.Moved (f : Position → Position) (m m' : Machine) : Prop where
  stack : m'.stack = place f m.stack
  sink : m'.sink = m.sink

namespace Eval

/-- **On a moved machine one computation does what the other does**, moved. -/
def Moves (f : Position → Position) (x y : Eval α) : Prop :=
  ∀ ⦃m m' : Machine⦄, Machine.Moved f m m' →
    (y.run m').1 = place f (x.run m).1 ∧ Machine.Moved f (x.run m).2 (y.run m').2

theorem moves_pure (a : α) : Moves f (pure a) (pure (place f a)) := fun _ _ h => ⟨rfl, h⟩

theorem moves_throw (e : Failure) : Moves f (throw e : Eval α) (throw (place f e)) :=
  fun _ _ h => ⟨rfl, h⟩

/-- **Sequences move if their parts do**, the second for the moved result of the first. -/
theorem Moves.bind {x y : Eval α} {g h : α → Eval β} (hx : Moves f x y)
    (hg : ∀ a, Moves f (g a) (h (place f a))) : Moves f (x >>= g) (y >>= h) := by
  intro m m' hm
  obtain ⟨hresult, hafter⟩ := hx hm
  rcases hrun : x.run m with ⟨e | a, m₁⟩ <;> rcases hrun' : y.run m' with ⟨e' | b, m₁'⟩ <;>
    rw [hrun, hrun'] at hresult hafter
  · obtain rfl : e' = place f e := Except.error.inj hresult
    rw [Action.run_bind_of_error hrun, Action.run_bind_of_error hrun']
    exact ⟨rfl, hafter⟩
  · cases hresult
  · cases hresult
  · obtain rfl : b = place f a := Except.ok.inj hresult
    rw [Action.run_bind_of_ok hrun, Action.run_bind_of_ok hrun']
    exact hg a hafter

theorem Moves.discard {x y : Eval α} (h : Moves f x y) : Moves f (discard x) (discard y) :=
  h.bind fun _ => moves_pure ()

/-- Recording an event changes nothing that is compared. -/
theorem Moves.emit_bind {x y : Eval α} (h : Moves f x y) (e : Event) :
    Moves f (emit e >>= fun _ => x) y :=
  fun m _ hm => h (m := m.emit e) ⟨hm.stack, hm.sink⟩

/-! ## Steps of a run -/

theorem moves_fail (fault : RuntimeFault) (p : Position) :
    Moves f (fail fault p : Eval α) (fail fault (f p)) := moves_throw _

theorem moves_ofExcept {r r' : Except RuntimeError α} (h : r' = place f r) :
    Moves f (ofExcept r) (ofExcept r') := by
  subst h
  cases r with
  | ok a => exact moves_pure a
  | error e => exact moves_throw (.runtimeError e)

/-- A name is the same text wherever it stands, so it is bound in the same place. -/
theorem moves_bindName (name : String) (v : Value) :
    Moves f (bindName name v) (bindName name (place f v)) := by
  refine fun m m' h => ⟨rfl, ?_, h.sink⟩
  change m'.stack.bind name (place f v) = place f (m.stack.bind name v)
  rw [h.stack, Stack.bind_place]

/-- A name is found in the same frame; its value is moved, or the error is. -/
theorem moves_resolve (x : Name) : Moves f (resolve x) (resolve (place f x)) := by
  intro m m' h
  have hlookup : m'.stack.lookup? (place f x).text = place f (m.stack.lookup? x.text) := by
    rw [h.stack, Stack.lookup?_place]
    rfl
  simp only [resolve, Action.run_bind, Action.run_get, hlookup]
  cases m.stack.lookup? x.text with
  | none => exact ⟨rfl, h⟩
  | some v => exact ⟨rfl, h⟩

/-- Events are not compared, so they need not even be alike. -/
theorem moves_emit (e e' : Event) : Moves f (emit e) (emit e') :=
  fun _ _ h => ⟨rfl, h.stack, h.sink⟩

theorem moves_applyBuiltin (b : Builtin) (args : List Value) (p : Position) :
    Moves f (applyBuiltin b args p) (applyBuiltin b (place f args) (f p)) := by
  intro m m' h
  simp only [applyBuiltin, Action.run, h.sink, Builtin.apply_place]
  rcases b.apply args p m.sink with ⟨_ | _, sink⟩
  · exact ⟨rfl, h.stack, rfl⟩
  · exact ⟨rfl, h.stack, rfl⟩

/-- A built-in function prints the same, and its error stands at the moved place. -/
theorem moves_callBuiltin (b : Builtin) (args : List Value) (p : Position) :
    Moves f (callBuiltin b args p) (callBuiltin b (place f args) (f p)) := by
  rw [callBuiltin, callBuiltin, length_place]
  by_cases hallows : b.arity.allows args.length = true
  · rw [if_pos hallows, if_pos hallows]
    exact (moves_emit _ _).bind fun _ => moves_applyBuiltin b args p
  · rw [if_neg hallows, if_neg hallows]
    exact moves_fail _ p

end Eval

/-- The frame of a moved call is the moved frame of the call. -/
theorem Stack.calleeFrame_place (s : Stack) (r : Routine) (args : List Value) (parent : Nat) :
    (place f s).calleeFrame (place f r) (place f args) parent =
      place f (s.calleeFrame r args parent) := by
  have hnames : (place f r).params.map Name.text = r.params.map Name.text := List.map_map
  have hpairs : (r.params.map Name.text).zip (place f args) =
      place f ((r.params.map Name.text).zip args) := List.zip_map_right
  rw [calleeFrame, hnames, hpairs, level_place, Bindings.ofList_place]
  rfl

/-- The body of a called function starts on a moved machine. -/
theorem Machine.Moved.enter {m m' : Machine} (h : Moved f m m') (r : Routine) (args : List Value)
    (parent : Nat) :
    Moved f (m.enter r args parent) (m'.enter (place f r) (place f args) parent) := by
  refine ⟨?_, h.sink⟩
  rw [Machine.enter_stack, Machine.enter_stack, h.stack, Stack.calleeFrame_place, Stack.push_place]

theorem Machine.Moved.pop {m m' : Machine} (h : Moved f m m') : Moved f m.pop m'.pop := by
  refine ⟨?_, ?_⟩
  · rw [Machine.pop_stack, Machine.pop_stack, h.stack, Stack.pop_place]
  · rw [Machine.pop_sink, Machine.pop_sink, h.sink]

namespace Eval

section Bodies

variable {enter enter' : Block → Eval (Option Value)}

/-- The bodies of functions move. -/
def BodiesMove (f : Position → Position) (enter enter' : Block → Eval (Option Value)) : Prop :=
  ∀ b, Moves f (enter b) (enter' (place f b))

/-- A function that is called is found by its name and has its moved body run. -/
theorem moves_callRoutine (henter : BodiesMove f enter enter') (r : Routine) (args : List Value)
    (p : Position) :
    Moves f (callRoutine enter r args p) (callRoutine enter' (place f r) (place f args) (f p)) := by
  intro m m' h
  have hfind : m'.stack.find? (place f r).name.text = m.stack.find? r.name.text := by
    rw [h.stack, Stack.find?_place]
    rfl
  have hparams : (place f r).params.length = r.params.length := length_place f r.params
  rw [callRoutine_run, callRoutine_run, hfind, hparams, length_place]
  cases m.stack.find? r.name.text with
  | none => exact ⟨rfl, h⟩
  | some parent =>
    by_cases hlength : r.params.length = args.length
    · simp only [if_pos hlength]
      obtain ⟨hresult, hafter⟩ := henter r.body (h.enter r args parent)
      exact ⟨hresult, hafter.pop⟩
    · simp only [if_neg hlength]
      exact ⟨rfl, h⟩

/-- **Calls move** with the bodies of functions and the arguments. -/
theorem moves_call (henter : BodiesMove f enter enter') (callee : Name)
    {args args' : Eval (List Value)} (hargs : Moves f args args') :
    Moves f (call enter callee args) (call enter' (place f callee) args') := by
  refine (moves_resolve callee).bind fun v => ?_
  cases v with
  | builtin b => exact hargs.bind fun vs => moves_callBuiltin b vs callee.position
  | function r => exact hargs.bind fun vs => moves_callRoutine henter r vs callee.position
  | lambda r => exact hargs.bind fun vs => moves_callRoutine henter r vs callee.position
  | int _ => exact moves_fail _ callee.position
  | float _ => exact moves_fail _ callee.position
  | bool _ => exact moves_fail _ callee.position
  | program _ => exact moves_fail _ callee.position

mutual

/-- **Expressions move.** -/
theorem moves_eval (henter : BodiesMove f enter enter') :
    ∀ e : Expr, Moves f (e.eval enter) ((place f e).eval enter')
  | .number n _ => by
    have h : Moves f (pure n.toValue) (pure (place f n.toValue)) := moves_pure n.toValue
    rw [place_toValue] at h
    rw [place_number, Expr.eval, Expr.eval]
    exact h
  | .bool b _ => by
    rw [place_bool, Expr.eval, Expr.eval]
    exact moves_pure (Value.bool b)
  | .var x => by
    rw [place_var, Expr.eval, Expr.eval]
    exact moves_resolve x
  | .unary op p operand => by
    rw [place_unary, Expr.eval, Expr.eval]
    exact (moves_eval henter operand).bind fun v => moves_ofExcept (op.apply_place f v p)
  | .binary op p left right => by
    rw [place_binary, Expr.eval, Expr.eval]
    exact (moves_eval henter left).bind fun v => (moves_eval henter right).bind fun w =>
      moves_ofExcept (op.apply_place f v w p)
  | .call callee args => by
    rw [place_call, Expr.eval, Expr.eval]
    refine (moves_call henter callee (moves_evalAll henter args)).bind fun v => ?_
    cases v with
    | some v => exact moves_pure v
    | none => exact moves_fail _ callee.position

theorem moves_evalAll (henter : BodiesMove f enter enter') :
    ∀ es : List Expr, Moves f (Expr.evalAll enter es) (Expr.evalAll enter' (place f es))
  | [] => by
    rw [place_nil, Expr.evalAll, Expr.evalAll]
    exact moves_pure []
  | e :: es => by
    rw [place_cons, Expr.evalAll, Expr.evalAll]
    exact (moves_eval henter e).bind fun v => (moves_evalAll henter es).bind fun vs =>
      moves_pure (v :: vs)

end

theorem position_place (e : Expr) : (place f e).position = f e.position := by
  cases e <;> rfl

/-- A condition that is no truth value is blamed at the moved place of its expression. -/
theorem moves_test (henter : BodiesMove f enter enter') (e : Expr) :
    Moves f (e.test enter) ((place f e).test enter') := by
  refine (moves_eval henter e).bind fun v => moves_ofExcept ?_
  rw [position_place, Value.condition_place]

theorem moves_repeatWhile {test test' : Eval Bool} {body body' : Eval Unit}
    (htest : Moves f test test') (hbody : Moves f body body') :
    ∀ turns, Moves f (repeatWhile test body turns) (repeatWhile test' body' turns)
  | 0 => moves_throw .outOfFuel
  | turns + 1 => by
    refine htest.bind fun b => ?_
    cases b with
    | true => exact hbody.bind fun _ => moves_repeatWhile htest hbody turns
    | false => exact moves_pure ()

mutual

/-- **Statements move.** -/
theorem moves_exec (henter : BodiesMove f enter enter') (turns : Nat) :
    ∀ s : Statement, Moves f (s.exec enter turns) ((place f s).exec enter' turns)
  | .assign target value => by
    rw [place_assign, Statement.exec, Statement.exec]
    exact (moves_eval henter value).bind fun v =>
      (moves_bindName target.text v).bind fun _ => moves_pure none
  | .lambda target params body => by
    rw [place_lambda, Statement.exec, Statement.exec]
    exact (moves_bindName target.text (.lambda ⟨target, params, body⟩)).bind fun _ =>
      moves_pure none
  | .define name params body => by
    rw [place_define, Statement.exec, Statement.exec]
    exact (moves_bindName name.text (.function ⟨name, params, body⟩)).bind fun _ => moves_pure none
  | .call callee args => by
    rw [place_perform, Statement.exec, Statement.exec]
    exact moves_call henter callee (moves_evalAll henter args)
  | .branch condition yes no => by
    rw [place_branch, Statement.exec, Statement.exec]
    refine (moves_test henter condition).bind fun b => ?_
    cases b with
    | true => exact moves_execFrom henter turns none yes
    | false => exact moves_execFrom henter turns none no
  | .loop condition body => by
    rw [place_loop, Statement.exec, Statement.exec]
    exact (moves_repeatWhile (moves_test henter condition)
      (moves_execFrom henter turns none body).discard turns).bind fun _ => moves_pure none
  | .result _ value => by
    rw [place_result, Statement.exec, Statement.exec]
    exact (moves_eval henter value).bind fun v => moves_pure (some v)

theorem moves_execFrom (henter : BodiesMove f enter enter') (turns : Nat) :
    ∀ (last : Option Value) (ss : List Statement),
      Moves f (Statement.execFrom enter turns last ss)
        (Statement.execFrom enter' turns (place f last) (place f ss))
  | last, [] => by
    rw [place_nil, Statement.execFrom, Statement.execFrom]
    exact moves_pure last
  | _, s :: rest => by
    rw [place_cons, Statement.execFrom, Statement.execFrom]
    exact (moves_exec henter turns s).bind fun v => moves_execFrom henter turns v rest

end

end Bodies

/-- **Blocks move**, with any fuel. -/
theorem moves_block : ∀ (fuel : Nat) (b : Block),
    Moves f (Block.run fuel b) (Block.run fuel (place f b))
  | 0, _ => moves_throw .outOfFuel
  | fuel + 1, b => moves_execFrom (moves_block fuel) fuel none b

/-- **A moved program does what the program does, moved.** -/
theorem moves_program (fuel : Nat) (p : Program) : Moves f (p.run fuel) ((place f p).run fuel) := by
  refine (moves_bindName p.name.text (.program p.name.text)).bind fun _ => ?_
  refine (moves_block fuel p.body).discard.bind fun _ => ?_
  exact fun _ _ h => ⟨rfl, h.stack, h.sink⟩

/-! ## From the source -/

/-- Takes over the result of reading a source. -/
def ofReading {α : Type} : Except SyntaxError α → Eval α
  | .ok a => pure a
  | .error e => throw (.syntaxError e)

theorem moves_ofRule (rule : Rule α) (source : String) :
    Moves f (ofRule rule source) (ofReading (place f (rule.parse source).1)) := by
  intro m m' h
  obtain ⟨events, hrun⟩ := ofRule_run rule source m
  rw [hrun]
  cases (rule.parse source).1 with
  | ok a => exact ⟨rfl, h.stack, h.sink⟩
  | error e => exact ⟨rfl, h.stack, h.sink⟩

/-- **What a source does is known from what is read, with any positions.** -/
theorem moves_interpret (fuel : Nat) (source : String) :
    Moves f (interpret fuel source)
      (ofReading (place f (Rule.wholeProgram.parse source).1) >>= Program.run fuel) := by
  refine Moves.emit_bind ?_ _
  exact (moves_ofRule Rule.wholeProgram source).bind fun p => (moves_program fuel p).emit_bind _

end Eval

/-- **Sources of the same lexemes are read alike**: as the same program but for positions, or with
the same fault. -/
theorem Rule.bare_parse_eq {source source' : String} {ts ts' : List Token}
    (hlex : lex source = ts.map .ok) (hlex' : lex source' = ts'.map .ok)
    (hlexemes : ts.map Token.lexeme = ts'.map Token.lexeme) :
    bare (wholeProgram.parse source).1 = bare (wholeProgram.parse source').1 := by
  have hitems : bare (Feed.ofSource source).items = bare (Feed.ofSource source').items := by
    rw [Feed.items_ofSource, Feed.items_ofSource, hlex, hlex', bare_map_ok, bare_map_ok, hlexemes]
  obtain ⟨us, -, hfollows⟩ := local_wholeProgram.follows (.ofSource source) (.ofSource source')
    (Int.le_refl _) (Int.le_refl _)
  obtain ⟨_, _, _, hsame⟩ := hfollows ⟨.of_place_eq hitems _, rfl⟩
  rw [bare_def, bare_def, parse, parse]
  exact hsame.result

/-- **Two runs ended alike**: with the same result but for positions, the same output, as many
frames, and the same text of the outermost one. -/
structure EndedAlike (out out' : Except Failure Unit × Machine) : Prop where
  result : bare out.1 = bare out'.1
  output : out.2.sink = out'.2.sink
  depth : out.2.stack.depth = out'.2.stack.depth
  outermost : (out.2.stack.frame? 0).map Frame.text = (out'.2.stack.frame? 0).map Frame.text

/-- What ended like a third run, but for positions, ended alike. -/
theorem EndedAlike.of_moved {out out' : Except Failure Unit × Machine} {r : Except Failure Unit}
    {m : Machine} (h : r = place (fun _ => .start) out.1 ∧ Machine.Moved (fun _ => .start) out.2 m)
    (h' : r = place (fun _ => .start) out'.1 ∧ Machine.Moved (fun _ => .start) out'.2 m) :
    EndedAlike out out' where
  result := h.1.symm.trans h'.1
  output := h.2.sink.symm.trans h'.2.sink
  depth := by
    rw [← Stack.depth_place (fun _ => .start), ← h.2.stack, h'.2.stack, Stack.depth_place]
  outermost := by
    have htext {s : Stack} (hs : m.stack = place (fun _ => .start) s) :
        (m.stack.frame? 0).map Frame.text = (s.frame? 0).map Frame.text := by
      rw [hs, Stack.frame?_place]
      cases s.frame? 0 with
      | none => rfl
      | some frame => exact congrArg some (frame.text_place _)
    exact (htext h.2.stack).symm.trans (htext h'.2.stack)

/-- A source that is interpreted to an end on a fresh machine. -/
def Terminates (limit : Option Nat) (source : String) : Prop :=
  ∃ fuel, ((interpret fuel source).run (.fresh limit)).1 ≠ .error .outOfFuel

/-- **Sources that are read as the same tree but for positions end alike.** -/
theorem endedAlike_interpret {source source' : String}
    (h : bare (Rule.wholeProgram.parse source).1 = bare (Rule.wholeProgram.parse source').1)
    (limit : Option Nat) (fuel : Nat) :
    EndedAlike ((interpret fuel source).run (.fresh limit))
      ((interpret fuel source').run (.fresh limit)) := by
  have hfresh : Machine.Moved (fun _ => .start) (.fresh limit) (.fresh limit) :=
    ⟨(Stack.place_initial _).symm, rfl⟩
  have hmoved := Eval.moves_interpret fuel source hfresh
  rw [bare_def, bare_def] at h
  rw [h] at hmoved
  exact .of_moved hmoved (Eval.moves_interpret fuel source' hfresh)

/-- A run that ended like one without fuel left had none left itself. -/
theorem EndedAlike.outOfFuel {out out' : Except Failure Unit × Machine} (h : EndedAlike out out')
    (hout : out.1 = .error .outOfFuel) : out'.1 = .error .outOfFuel := by
  have hresult := h.result
  rw [hout] at hresult
  rcases out' with ⟨(_ | _ | _) | _, m'⟩
  · cases hresult
  · cases hresult
  · rfl
  · cases hresult

theorem EndedAlike.symm {out out' : Except Failure Unit × Machine} (h : EndedAlike out out') :
    EndedAlike out' out :=
  ⟨h.result.symm, h.output.symm, h.depth.symm, h.outermost.symm⟩

/-- **Layout does not matter.**  Sources that are cut without an error into the same lexemes,
wherever they stand, are read as the same program but for positions, or rejected for the same
reason; and interpreted on fresh machines they end, both or neither, with the same result but for
positions, the same output, the same depth and the same text of the outermost frame. -/
theorem interpret_layout_independent {source source' : String} {ts ts' : List Token}
    (hlex : lex source = ts.map .ok) (hlex' : lex source' = ts'.map .ok)
    (hlexemes : ts.map Token.lexeme = ts'.map Token.lexeme) :
    bare (Rule.wholeProgram.parse source).1 = bare (Rule.wholeProgram.parse source').1 ∧
    ∀ limit, (Terminates limit source ↔ Terminates limit source') ∧
      ∀ fuel, EndedAlike ((interpret fuel source).run (.fresh limit))
        ((interpret fuel source').run (.fresh limit)) := by
  have hparse := Rule.bare_parse_eq hlex hlex' hlexemes
  have halike := endedAlike_interpret hparse
  refine ⟨hparse, fun limit => ⟨exists_congr fun fuel => not_congr ?_, halike limit⟩⟩
  exact ⟨(halike limit fuel).outOfFuel, (halike limit fuel).symm.outOfFuel⟩

open Grammar in
/-- A call of an unknown name, in one line and in two. -/
theorem interpret_layout_independent_unknown :
    let out := (interpret 3 "PROGRAM p\x7bf()\x7d").run (.fresh none)
    let out' := (interpret 3 "PROGRAM p\n\x7b /* f */ f ( ) \x7d").run (.fresh none)
    EndedAlike out out' ∧
      out.1 = .error (.runtimeError (.located (.unknownName "f") ⟨1, 11⟩)) ∧
      out'.1 = .error (.runtimeError (.located (.unknownName "f") ⟨2, 11⟩)) := by
  have hlex : lex "PROGRAM p\x7bf()\x7d" =
      [⟨.keyword .kwProgram, ⟨1, 1⟩⟩, ⟨.identifier "p", ⟨1, 9⟩⟩, ⟨.mark .leftBrace, ⟨1, 10⟩⟩,
        ⟨.identifier "f", ⟨1, 11⟩⟩, ⟨.mark .leftParen, ⟨1, 12⟩⟩, ⟨.mark .rightParen, ⟨1, 13⟩⟩,
        ⟨.mark .rightBrace, ⟨1, 14⟩⟩].map .ok := rfl
  have hlex' : lex "PROGRAM p\n\x7b /* f */ f ( ) \x7d" =
      [⟨.keyword .kwProgram, ⟨1, 1⟩⟩, ⟨.identifier "p", ⟨1, 9⟩⟩, ⟨.mark .leftBrace, ⟨2, 1⟩⟩,
        ⟨.identifier "f", ⟨2, 11⟩⟩, ⟨.mark .leftParen, ⟨2, 13⟩⟩, ⟨.mark .rightParen, ⟨2, 15⟩⟩,
        ⟨.mark .rightBrace, ⟨2, 17⟩⟩].map .ok := rfl
  have hderives (o p q r : Position) (x : Name) (f : Name) (k : Position) :
      IsProgram [⟨.keyword .kwProgram, o⟩, x.token, ⟨.mark .leftBrace, p⟩, f.token,
        ⟨.mark .leftParen, q⟩, ⟨.mark .rightParen, r⟩, ⟨.mark .rightBrace, k⟩]
        ⟨x, [.call f []]⟩ := .mk (.mk (.cons (.call (.mk .none)) .nil))
  refine ⟨((interpret_layout_independent hlex hlex' rfl).2 none).2 3, ?_, ?_⟩
  · have hreads := Rule.reads_wholeProgram
      (hderives ⟨1, 1⟩ ⟨1, 10⟩ ⟨1, 12⟩ ⟨1, 13⟩ ⟨"p", ⟨1, 9⟩⟩ ⟨"f", ⟨1, 11⟩⟩ ⟨1, 14⟩)
    obtain ⟨events, hrun⟩ := Eval.interpret_of_parse (hreads.parse_eq hlex) 3 none
    exact (congrArg Prod.fst hrun).trans rfl
  · have hreads := Rule.reads_wholeProgram
      (hderives ⟨1, 1⟩ ⟨2, 1⟩ ⟨2, 13⟩ ⟨2, 15⟩ ⟨"p", ⟨1, 9⟩⟩ ⟨"f", ⟨2, 11⟩⟩ ⟨2, 17⟩)
    obtain ⟨events, hrun⟩ := Eval.interpret_of_parse (hreads.parse_eq hlex') 3 none
    exact (congrArg Prod.fst hrun).trans rfl

end BraceScript
