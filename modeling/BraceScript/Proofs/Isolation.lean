import BraceScript.Proofs.Chain
import BraceScript.Proofs.Effects

/-!
# Proofs/Isolation — a run sees its chain and nothing else of the stack

Two machines **look alike** when their stacks have the same chain and their sinks are equal; the
frames off the chain, and all indices, may differ.  Running the same thing on machines that look
alike gives the same result and leaves machines that look alike.

The case with an argument in it is a call.  The frame that the callee runs in stands under the
nearest frame that binds its declared name; by `dropWhile_chain` that frame starts the same rest of
the chain in both stacks, so the two bodies start alike.  When they end, their frames go away and
the stacks are those of before the call.
-/

namespace BraceScript

/-- **Two machines look alike** to what runs on them: ordered stacks with the same chain, and the
same sink. -/
structure Machine.Alike (m n : Machine) : Prop where
  left : m.stack.Ordered
  right : n.stack.Ordered
  chain : m.stack.chain = n.stack.chain
  sink : m.sink = n.sink

namespace Machine.Alike

variable {m n : Machine}

/-- **A name means the same on machines with the same chain**, however many frames lie off it. -/
theorem lookup? (h : Alike m n) (name : String) :
    m.stack.lookup? name = n.stack.lookup? name := by
  rw [Stack.lookup?_eq_chain h.left, Stack.lookup?_eq_chain h.right, h.chain]

/-- The nearest frames that bind a name are at the ends of the same rest of the chain. -/
theorem find? (h : Alike m n) (name : String) :
    m.stack.chainOf (m.stack.find? name) = n.stack.chainOf (n.stack.find? name) := by
  rw [← Stack.dropWhile_chain h.left, ← Stack.dropWhile_chain h.right, h.chain]

theorem topFrame_scope (h : Alike m n) : m.stack.topFrame.scope = n.stack.topFrame.scope := by
  have hchain := h.chain
  rw [Stack.chain_eq_cons h.left, Stack.chain_eq_cons h.right] at hchain
  exact (List.cons.inj hchain).1

theorem emit (h : Alike m n) (e e' : Event) : Alike (m.emit e) (n.emit e') :=
  ⟨h.left, h.right, h.chain, h.sink⟩

/-- Binding a name in the top frame changes the first scope of both chains alike. -/
theorem bind (h : Alike m n) (name : String) (value : Value) :
    Alike (m.bind name value) (n.bind name value) where
  left := (Stack.Extends.bind m.stack name value).ordered h.left
  right := (Stack.Extends.bind n.stack name value).ordered h.right
  chain := by
    obtain ⟨hlevel, hbindings⟩ := Prod.mk.inj h.topFrame_scope
    change (m.stack.bind name value).chain = (n.stack.bind name value).chain
    rw [Stack.chain_bind h.left, Stack.chain_bind h.right, hlevel, hbindings, h.chain]
  sink := h.sink

end Machine.Alike

namespace Stack

theorem level_of_frame? {s : Stack} {i : Nat} {f : Frame} (h : s.frame? i = some f) :
    s.level i = f.level := by
  rw [level, h]

end Stack

/-- **The body of a called function starts alike on machines that look alike.** -/
theorem Machine.Alike.enter {m n : Machine} (h : Alike m n) (r : Routine) (args : List Value)
    {p q : Nat} (hp : m.stack.find? r.name.text = some p)
    (hq : n.stack.find? r.name.text = some q) :
    Alike (m.enter r args p) (n.enter r args q) := by
  obtain ⟨f, hf, -⟩ := Stack.find?_eq_some hp
  obtain ⟨g, hg, -⟩ := Stack.find?_eq_some hq
  have hrest := h.find? r.name.text
  simp only [hp, hq, Stack.chainOf] at hrest
  have hlevel : f.level = g.level := by
    rw [Stack.chainFrom_of_some h.left hf, Stack.chainFrom_of_some h.right hg] at hrest
    exact congrArg Prod.fst (List.cons.inj hrest).1
  refine ⟨Stack.ordered_push h.left rfl (Stack.lt_depth_of_frame? hf),
    Stack.ordered_push h.right rfl (Stack.lt_depth_of_frame? hg), ?_, h.sink⟩
  rw [Machine.enter_stack, Machine.enter_stack,
    Stack.chain_push h.left rfl (Stack.lt_depth_of_frame? hf),
    Stack.chain_push h.right rfl (Stack.lt_depth_of_frame? hg), hrest]
  simp only [Frame.scope, Stack.calleeFrame, Stack.level_of_frame? hf, Stack.level_of_frame? hg,
    hlevel]

namespace Eval

/-- The computations that only see what machines that look alike have in common. -/
def SeesChain {α : Type} (x : Eval α) : Prop := Action.Respects Machine.Alike x

/-- Looking up a name depends on the chain only. -/
theorem seesChain_resolve (name : Name) : SeesChain (resolve name) := by
  intro m n h
  simp only [resolve, Action.run_bind, Action.run_get, h.lookup? name.text]
  cases n.stack.lookup? name.text with
  | none => exact ⟨rfl, h⟩
  | some v => exact ⟨rfl, h⟩

theorem seesChain_applyBuiltin (b : Builtin) (args : List Value) (p : Position) :
    SeesChain (applyBuiltin b args p) := by
  intro m n h
  simp only [applyBuiltin, Action.run, h.sink]
  rcases b.apply args p n.sink with ⟨_ | _, sink⟩ <;> exact ⟨rfl, h.left, h.right, h.chain, rfl⟩

/-- A built-in function sees its arguments and the sink, and so no frames at all. -/
theorem seesChain_callBuiltin (b : Builtin) (args : List Value) (p : Position) :
    SeesChain (callBuiltin b args p) := by
  unfold callBuiltin
  split
  · exact Action.Respects.bind (fun m n h => ⟨rfl, h.emit _ _⟩)
      fun _ => seesChain_applyBuiltin b args p
  · exact Action.respects_throw _ _

/-- **A call sees the chain only**, if the body of the callee does and extends its own stack. -/
theorem seesChain_callRoutine (enter : Block → Eval (Option Value))
    (henter : ∀ b, ExtendsStack (enter b) ∧ SeesChain (enter b)) (r : Routine) (args : List Value)
    (p : Position) : SeesChain (callRoutine enter r args p) := by
  intro m n h
  have hrest := h.find? r.name.text
  rw [callRoutine_run, callRoutine_run]
  cases hm : m.stack.find? r.name.text with
  | none =>
    cases hn : n.stack.find? r.name.text with
    | none => exact ⟨rfl, h⟩
    | some q =>
      obtain ⟨g, hg, -⟩ := Stack.find?_eq_some hn
      simp [hm, hn, Stack.chainOf, Stack.chainFrom_of_some h.right hg] at hrest
  | some q =>
    obtain ⟨f, hf, -⟩ := Stack.find?_eq_some hm
    cases hn : n.stack.find? r.name.text with
    | none => simp [hm, hn, Stack.chainOf, Stack.chainFrom_of_some h.left hf] at hrest
    | some q' =>
      by_cases hlen : r.params.length = args.length
      · obtain ⟨hext, hsees⟩ := henter r.body
        obtain ⟨hresult, hafter⟩ := hsees _ _ (h.enter r args hm hn)
        -- Both frames go away, and with them everything that could differ from before the call.
        have hpop : ∀ (k : Machine) (i : Nat),
            ((enter r.body).run (k.enter r args i)).2.pop.stack = k.stack := fun k i => by
          rw [Machine.pop_stack]
          exact Stack.pop_eq_of_push_extends (hext (k.enter r args i))
        simp only [if_pos hlen]
        refine ⟨hresult, ?_, ?_, ?_, ?_⟩
        · exact (hpop m q).symm ▸ h.left
        · exact (hpop n q').symm ▸ h.right
        · rw [hpop, hpop]
          exact h.chain
        · rw [Machine.pop_sink, Machine.pop_sink]
          exact hafter.sink
      · simp only [if_neg hlen]
        exact ⟨trivial, h⟩

end Eval

/-- **The scope discipline**: the stack discipline, seeing the chain only. -/
def Discipline.scope : Discipline where
  expr x := Eval.KeepsStack x ∧ Eval.SeesChain x
  stmt x := Eval.ExtendsStack x ∧ Eval.SeesChain x
  expr_pure a := ⟨Discipline.stack.expr_pure a, Action.respects_pure _ a⟩
  expr_bind hx hf :=
    ⟨Discipline.stack.expr_bind hx.1 fun a => (hf a).1, hx.2.bind fun a => (hf a).2⟩
  expr_fail e := ⟨Discipline.stack.expr_fail e, Action.respects_throw _ _⟩
  expr_resolve name := ⟨Eval.keepsStack_resolve name, Eval.seesChain_resolve name⟩
  expr_callBuiltin b args p :=
    ⟨Eval.keepsStack_callBuiltin b args p, Eval.seesChain_callBuiltin b args p⟩
  expr_callRoutine enter henter r args p :=
    ⟨Eval.keepsStack_callRoutine enter (fun b => (henter b).1) r args p,
      Eval.seesChain_callRoutine enter henter r args p⟩
  stmt_of_expr h := ⟨h.1.extends, h.2⟩
  stmt_bind hx hf :=
    ⟨Discipline.stack.stmt_bind hx.1 fun a => (hf a).1, hx.2.bind fun a => (hf a).2⟩
  stmt_outOfFuel := ⟨Discipline.stack.stmt_outOfFuel, Action.respects_throw _ _⟩
  stmt_bindName name value :=
    ⟨Discipline.stack.stmt_bindName name value, fun _ _ h => ⟨rfl, h.bind name value⟩⟩

/-- **Scope isolation.**  On machines whose ordered stacks have the same chain, and whose sinks are
equal, the same expression, call, statement or block gives the same result and the same output, and
leaves machines of which the same holds again. -/
theorem scope_isolation (fuel : Nat) {m n : Machine} (h : Machine.Alike m n) :
    (∀ e : Expr, ((e.run fuel).run m).1 = ((e.run fuel).run n).1 ∧
      Machine.Alike ((e.run fuel).run m).2 ((e.run fuel).run n).2) ∧
    (∀ c : Call, ((c.run fuel).run m).1 = ((c.run fuel).run n).1 ∧
      Machine.Alike ((c.run fuel).run m).2 ((c.run fuel).run n).2) ∧
    (∀ s : Statement, ((s.run fuel).run m).1 = ((s.run fuel).run n).1 ∧
      Machine.Alike ((s.run fuel).run m).2 ((s.run fuel).run n).2) ∧
    (∀ b : Block, ((Block.run fuel b).run m).1 = ((Block.run fuel b).run n).1 ∧
      Machine.Alike ((Block.run fuel b).run m).2 ((Block.run fuel b).run n).2) := by
  have hrun := Discipline.scope.run fuel
  refine ⟨fun e => (Discipline.scope.eval hrun e).2 m n h, fun c => ?_,
    fun s => (Discipline.scope.exec hrun fuel s).2 m n h, fun b => (hrun b).2 m n h⟩
  exact (Discipline.scope.call hrun c.callee (Discipline.scope.evalAll hrun c.args)).2 m n h

/-! ## A caller's locals

The function `g` gives the value of `y`, which only a frame off its chain binds. -/

/-- The outermost frame alone, with `g` bound. -/
def Stack.withReader : Stack :=
  Stack.initial.bind "g" (.function ⟨⟨"g", .start⟩, [], [.result .start (.var ⟨"y", .start⟩)]⟩)

/-- A frame of a call that binds nothing. -/
def Frame.bare : Frame := ⟨1, some 0, .empty⟩

/-- A frame of a call that binds `y`. -/
def Frame.holding : Frame := ⟨1, some 0, Bindings.empty.insert "y" (.bool true)⟩

theorem Stack.ordered_withReader : Stack.withReader.Ordered :=
  (Extends.bind _ _ _).ordered ordered_initial

/-- With and without a frame that binds `y` below the top one, `g` fails to find it. -/
theorem scope_isolation_withReader :
    let m : Machine := ⟨Stack.withReader.push .bare, .empty none, []⟩
    let n : Machine := ⟨(Stack.withReader.push .holding).push .bare, .empty none, []⟩
    Machine.Alike m n ∧
      ((Call.run 2 ⟨⟨"g", .start⟩, []⟩).run m).1 = ((Call.run 2 ⟨⟨"g", .start⟩, []⟩).run n).1 ∧
      ((Call.run 2 ⟨⟨"g", .start⟩, []⟩).run n).1 =
        .error (.runtimeError (.located (.unknownName "y") .start)) := by
  intro m n
  have hzero : 0 < Stack.withReader.depth := Stack.depth_pos _
  have hheld : (Stack.withReader.push .holding).Ordered :=
    Stack.ordered_push Stack.ordered_withReader rfl hzero
  have h : Machine.Alike m n := by
    refine ⟨Stack.ordered_push Stack.ordered_withReader rfl hzero,
      Stack.ordered_push hheld rfl (Stack.depth_pos _), ?_, rfl⟩
    rw [Stack.chain_push Stack.ordered_withReader rfl hzero,
      Stack.chain_push hheld rfl (Stack.depth_pos _)]
    refine congrArg (_ :: ·) (Stack.chainFrom_congr 0 fun j hj => ?_).symm
    exact Stack.frame?_push_of_lt (Nat.lt_of_le_of_lt hj hzero) _
  exact ⟨h, ((scope_isolation 2 h).2.1 _).1, rfl⟩

end BraceScript
