import BraceScript.Proofs.Resolution

/-!
# Proofs/Callee — the scope that a called function runs in

A call looks up two names: first the callee's, then, when the arguments are computed, the name that
the function was declared with.  The frame found second is the parent of the frame that the body
runs in.  Between the two any code may run, calls within calls, but what it does to the stack is
undone when it ends (`stack_eq_of_evalAll`), so both names are looked up on the same chain.

Where a frame is found on the chain is a matter of `Proofs/Resolution`: on a well-formed stack it is
the nearest one that binds the name (`WellFormed.find?_eq_some_iff`).

If no frame binds the declared name, the call fails for want of it.  That it fails with this error
is no sign of it, though: a call passes on whatever error its body meets, and the body may look for
the same name on a chain of its own.  What is particular to the missing scope is that the body has
no part in the failure (`Call.FailsUnentered`).
-/

namespace BraceScript

namespace Call

/-- **The call fails so without entering a body**: it does whatever is run in place of the callee's
body.  The arguments are computed as ever. -/
def FailsUnentered (fuel : Nat) (c : Call) (m : Machine) (e : Failure) : Prop :=
  ∀ enter : Block → Eval (Option Value),
    ((Eval.call enter c.callee (Expr.evalAll (Block.run fuel) c.args)).run m).1 = .error e

variable {fuel : Nat} {c : Call} {m m₁ : Machine} {v : Value} {r : Routine} {vs : List Value}

/-- **What a call of a function of the program does**, once its arguments are computed: the stack is
what it was before them. -/
theorem run_of_routine (enter : Block → Eval (Option Value))
    (hv : m.stack.lookup? c.callee.text = some v) (hr : v.routine? = some r)
    (hargs : (Expr.evalAll (Block.run fuel) c.args).run m = (.ok vs, m₁)) :
    (Eval.call enter c.callee (Expr.evalAll (Block.run fuel) c.args)).run m =
      match m.stack.find? r.name.text with
      | none =>
        (.error (.runtimeError (.located (.unknownName r.name.text) c.callee.position)), m₁)
      | some parent =>
        if r.params.length = vs.length then
          (((enter r.body).run (m₁.enter r vs parent)).1,
            ((enter r.body).run (m₁.enter r vs parent)).2.pop)
        else
          (.error (.runtimeError (.located
            (.argumentCount r.name.text r.params.length vs.length) c.callee.position)), m₁) := by
  have hresolve : (Eval.resolve c.callee).run m = (.ok v, m) := by
    simp only [Eval.resolve, Action.run_bind, Action.run_get, hv]
    rfl
  rw [← stack_eq_of_evalAll hargs]
  refine Eq.trans ?_ (Eval.callRoutine_run enter r vs c.callee.position m₁)
  rw [Eval.call, Action.run_bind_of_ok hresolve]
  cases v with
  | function r' | lambda r' =>
    obtain rfl : r' = r := Option.some.inj hr
    exact Action.run_bind_of_ok hargs _
  | _ => cases hr

/-- **A call fails for want of the declared name exactly if it is not bound.**  Where it is bound, a
body that gives no value in place of the callee's tells the failure apart. -/
theorem failsUnentered_unknownName_iff (hv : m.stack.lookup? c.callee.text = some v)
    (hr : v.routine? = some r)
    (hargs : (Expr.evalAll (Block.run fuel) c.args).run m = (.ok vs, m₁)) :
    (∃ p, c.FailsUnentered fuel m (.runtimeError (.located (.unknownName r.name.text) p))) ↔
      m.stack.find? r.name.text = none := by
  have hrun (enter : Block → Eval (Option Value)) := run_of_routine enter hv hr hargs
  cases hparent : m.stack.find? r.name.text with
  | none =>
    refine iff_of_true ⟨c.callee.position, fun enter => ?_⟩ rfl
    rw [hrun, hparent]
  | some parent =>
    refine iff_of_false ?_ (Option.some_ne_none parent)
    rintro ⟨p, hfails⟩
    have h := hfails fun _ => pure none
    rw [hrun, hparent] at h
    by_cases hlength : r.params.length = vs.length
    · simp only [if_pos hlength] at h
      cases h
    · simp only [if_neg hlength] at h
      cases h

end Call

/-- **The scope of the callee is chosen by the name it was declared with.**  The callee's name is
bound, in the nearest frame `i` of the active chain, to a function declared as `r.name`, and the
arguments are computed, which leaves the machine `m₁`.

* The body runs under the nearest frame of the chain *before* the arguments that binds the declared
  name, and the call ends as the body does; unless the arguments are not as many as the parameters.
* The call fails for want of the declared name without entering a body exactly if no frame of that
  chain binds it, and then nothing is done since the arguments.
* A function called by its declared name runs under frame `i`, and its call never fails so. -/
theorem callee_scope {fuel : Nat} {c : Call} {m m₁ : Machine} {i : Nat} {f : Frame} {v : Value}
    {r : Routine} {vs : List Value} (hm : m.stack.WellFormed)
    (hi : m.stack.Nearest c.callee.text i) (hf : m.stack.frame? i = some f)
    (hv : f.bindings.find? c.callee.text = some v) (hr : v.routine? = some r)
    (hargs : (Expr.evalAll (Block.run fuel) c.args).run m = (.ok vs, m₁)) :
    (∀ parent, m.stack.Nearest r.name.text parent →
      if r.params.length = vs.length then
        ∃ m₂ : Machine, m₂.stack = m.stack.push (m.stack.calleeFrame r vs parent) ∧
          m₂.stack.topFrame.parent = some parent ∧ m₂.sink = m₁.sink ∧
          (c.run fuel).run m =
            (((Block.run fuel r.body).run m₂).1, ((Block.run fuel r.body).run m₂).2.pop)
      else
        (c.run fuel).run m = (.error (.runtimeError (.located
          (.argumentCount r.name.text r.params.length vs.length) c.callee.position)), m₁)) ∧
    ((∃ p, c.FailsUnentered fuel m (.runtimeError (.located (.unknownName r.name.text) p))) ↔
      m.stack.Unbound r.name.text) ∧
    (m.stack.Unbound r.name.text → (c.run fuel).run m =
      (.error (.runtimeError (.located (.unknownName r.name.text) c.callee.position)), m₁)) ∧
    (r.name.text = c.callee.text → (∀ parent, m.stack.Nearest r.name.text parent ↔ parent = i) ∧
      ∀ p, ¬ c.FailsUnentered fuel m (.runtimeError (.located (.unknownName r.name.text) p))) := by
  have hlookup := hm.lookup?_of_nearest hi hf hv
  have hrun := Call.run_of_routine (Block.run fuel) hlookup hr hargs
  have hunknown := (Call.failsUnentered_unknownName_iff hlookup hr hargs).trans hm.find?_eq_none_iff
  refine ⟨fun parent hparent => ?_, hunknown, fun hunbound => ?_, fun hname =>
    ⟨fun parent => ?_, fun p hfails => ?_⟩⟩
  · have hstack : (m₁.enter r vs parent).stack =
        m.stack.push (m.stack.calleeFrame r vs parent) := by
      rw [Machine.enter_stack, stack_eq_of_evalAll hargs]
    rw [hm.find?_eq_some_iff.mpr hparent] at hrun
    split
    · next hlength =>
      refine ⟨m₁.enter r vs parent, hstack, ?_, rfl, hrun.trans (if_pos hlength)⟩
      rw [hstack, Stack.topFrame_push]
      rfl
    · next hlength => exact hrun.trans (if_neg hlength)
  · rw [hm.find?_eq_none_iff.mpr hunbound] at hrun
    exact hrun
  · rw [hname]
    exact ⟨fun h => Stack.NearestFrom.unique h hi, fun h => h ▸ hi⟩
  · obtain ⟨n, hlinks, hbinds, -⟩ := hi
    exact hunknown.mp ⟨p, hfails⟩ i n hlinks (hname ▸ hbinds)

/-- A function declared as `f`, which gives back its argument. -/
def Routine.echo : Routine :=
  ⟨⟨"f", .start⟩, [⟨"x", .start⟩], [.result .start (.var ⟨"x", .start⟩)]⟩

/-- A function that binds `f` and `h` anew, in its own frame. -/
def Routine.rebinding : Routine :=
  ⟨⟨"g", .start⟩, [], [.assign ⟨"f", .start⟩ (.bool true .start),
    .assign ⟨"h", .start⟩ (.bool true .start), .result .start (.var ⟨"h", .start⟩)]⟩

/-- The machine on which both are functions. -/
def Machine.echoing : Machine :=
  ((Machine.fresh none).bind "f" (.function .echo)).bind "g" (.function .rebinding)

/-- A frame in which `h` is what was declared as `f` in the frame around it. -/
def Machine.renaming : Machine := (Machine.echoing.enter .rebinding [] 0).bind "h" (.function .echo)

/-- The call of `h` on what `g` gives. -/
def Call.renamed : Call := ⟨⟨"h", .start⟩, [.call ⟨"g", .start⟩ []]⟩

theorem Machine.wellFormed_renaming : Machine.renaming.stack.WellFormed := by
  have hechoing : Machine.echoing.stack.WellFormed :=
    (Stack.WellFormed.initial.of_extends (.bind _ _ _)).of_extends (.bind _ _ _)
  have hfind : Machine.echoing.stack.find? "g" = some 0 := by decide +kernel
  exact (hechoing.push_calleeFrame hfind .rebinding []).of_extends (.bind _ _ _)

/-- The callee is found in frame one, and its argument binds both names elsewhere; the body runs in
a third frame, under frame zero, where `f` is bound. -/
theorem callee_scope_renaming :
    Machine.renaming.stack.Nearest "h" 1 ∧
    ∃ m₂ : Machine, m₂.stack.depth = 3 ∧ m₂.stack.topFrame.parent = some 0 ∧
      (Call.renamed.run 2).run .renaming =
        (((Block.run 2 Routine.echo.body).run m₂).1,
          ((Block.run 2 Routine.echo.body).run m₂).2.pop) := by
  have hm := Machine.wellFormed_renaming
  have hcallee : Machine.renaming.stack.Nearest "h" 1 :=
    hm.find?_eq_some_iff.mp (by decide +kernel)
  have hdeclared : Machine.renaming.stack.Nearest "f" 0 :=
    hm.find?_eq_some_iff.mp (by decide +kernel)
  have hargs : (Expr.evalAll (Block.run 2) Call.renamed.args).run .renaming =
      (.ok [.bool true], _) := rfl
  have hscope := callee_scope hm hcallee rfl rfl rfl hargs
  obtain ⟨m₂, hstack, hparent, -, hrun⟩ := hscope.1 0 hdeclared
  exact ⟨hcallee, m₂, by rw [hstack]; rfl, hparent, hrun⟩

/-- The function of `def g() { return f }`. -/
def Routine.asking : Routine :=
  ⟨⟨"g", ⟨1, 17⟩⟩, [], [.result ⟨1, 23⟩ (.var ⟨"f", ⟨1, 30⟩⟩)]⟩

/-- The function of `f = lambda (): { return g() }`. -/
def Routine.deferring : Routine :=
  ⟨⟨"f", ⟨1, 44⟩⟩, [], [.result ⟨1, 61⟩ (.call ⟨"g", ⟨1, 68⟩⟩ [])]⟩

/-- The function of `def h() { f = lambda (): { return g() } return f() }`. -/
def Routine.handing : Routine :=
  ⟨⟨"h", ⟨1, 38⟩⟩, [], [.lambda Routine.deferring.name [] Routine.deferring.body,
    .result ⟨1, 74⟩ (.call ⟨"f", ⟨1, 81⟩⟩ [])]⟩

/-- The machine on which `g` and `h` are functions. -/
def Machine.calling : Machine :=
  ((Machine.fresh none).bind "g" (.function .asking)).bind "h" (.function .handing)

/-- The machine inside a call of `h`, where `f` is bound too. -/
def Machine.handing : Machine := (Machine.calling.enter .handing [] 0).bind "f" (.lambda .deferring)

/-- **A call may fail with its declared name unknown although that name is bound.**  The callee is
called by its declared name, which is found in frame one.  Its body calls `g`, which runs under
frame zero and looks for the name there; the error comes back through the body of the callee. -/
theorem callee_scope_inside_body :
    Machine.handing.stack.WellFormed ∧ Machine.handing.stack.Nearest "f" 1 ∧
    Machine.handing.stack.lookup? "f" = some (.lambda .deferring) ∧
    Routine.deferring.name.text = "f" ∧ ¬ Machine.handing.stack.Unbound "f" ∧
    (Expr.evalAll (Block.run 3) []).run .handing = (.ok [], .handing) ∧
    (((Call.mk ⟨"f", ⟨1, 81⟩⟩ []).run 3).run .handing).1 =
      .error (.runtimeError (.located (.unknownName "f") ⟨1, 30⟩)) := by
  have hcaller : Machine.calling.stack.WellFormed :=
    (Stack.WellFormed.initial.of_extends (.bind _ _ _)).of_extends (.bind _ _ _)
  have hparent : Machine.calling.stack.find? "h" = some 0 := by decide +kernel
  have hm : Machine.handing.stack.WellFormed :=
    (hcaller.push_calleeFrame hparent .handing []).of_extends (.bind _ _ _)
  have hfind : Machine.handing.stack.find? "f" = some 1 := by decide +kernel
  refine ⟨hm, hm.find?_eq_some_iff.mp hfind, rfl, rfl, fun hunbound => ?_, rfl, rfl⟩
  cases hfind.symm.trans (hm.find?_eq_none_iff.mpr hunbound)

end BraceScript
