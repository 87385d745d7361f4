import BraceScript.Proofs.Blame
import BraceScript.Proofs.WellFormed

/-!
# Proofs/Binders — only the names that a program writes are bound

Every program starts with the built-in functions under their names.  What else comes to be bound is
bound by an assignment, a definition or a call, and the names are written in the program: targets,
names of functions and parameters.

That the stack is bound by the vocabulary of the program (`Stack.Bound`) is kept by every part of a
run from its start to its end (`Eval.Keeps`).  Here this is extended to the states in between
(`Passes.bound`), inside calls too.  A built-in function is allowed under its own name only, so a
name that the program does not bind is still the function it was.
-/

namespace BraceScript

variable {V : Vocabulary}

/-! ## On the way -/

/-- **A task lies within a vocabulary** if its trees do. -/
def Task.Within (V : Vocabulary) : Task → Prop
  | .expr e => e.Within V
  | .exprs es => ∀ e ∈ es, e.Within V
  | .call c => V.token c.callee.token ∧ ∀ e ∈ c.args, e.Within V
  | .statement s => s.Within V
  | .statements ss => Block.Within V ss
  | .loop condition body _ => condition.Within V ∧ Block.Within V body
  | .block b => Block.Within V b

/-- **A task stays within its vocabulary**, whatever part of a run it is. -/
theorem Task.keeps_run {t : Task} (ht : t.Within V) (fuel : Nat) :
    Eval.Keeps V (fun _ => True) (t.run fuel) := by
  have hbodies := Eval.bodiesKeep_run (V := V) fuel
  cases t with
  | expr e => exact (Eval.keeps_eval hbodies e ht).discard
  | exprs es => exact (Eval.keeps_evalAll hbodies es ht).discard
  | call c => exact (Eval.keeps_call hbodies ht.1 (Eval.keeps_evalAll hbodies c.args ht.2)).discard
  | statement s => exact (Eval.keeps_exec hbodies fuel s ht).discard
  | statements ss => exact (Eval.keeps_execFrom hbodies fuel Eval.withinIfAny_none ss ht).discard
  | loop condition body turns =>
    exact Eval.keeps_repeatWhile (Eval.keeps_test hbodies ht.1)
      (Eval.keeps_execFrom hbodies fuel Eval.withinIfAny_none body ht.2).discard turns
  | block b => exact (hbodies b ht).discard

/-- **Every state that a run passes binds what is written**, if the first one does.  A state inside
a call is one of a body that was found in a frame, on a stack with its parameters bound. -/
theorem Passes.bound {fuel : Nat} {t : Task} {m m' : Machine} (h : Passes fuel t m m') :
    t.Within V → m.stack.Bound V → m'.stack.Bound V := by
  have hbodies (fuel : Nat) := Eval.bodiesKeep_run (V := V) fuel
  induction h with
  | start t m => exact fun _ hm => hm
  | @finish fuel t m => exact fun ht hm => (t.keeps_run ht fuel m hm).1
  | operand _ ih => exact fun ht hm => ih (Expr.within_unary.mp ht).2 hm
  | left _ ih => exact fun ht hm => ih (Expr.within_binary.mp ht).2.1 hm
  | @right fuel _ _ a _ _ _ _ _ hrun _ ih =>
    intro ht hm
    obtain ⟨-, ha, hb⟩ := Expr.within_binary.mp ht
    exact ih hb ((Eval.keeps_eval (hbodies fuel) a ha).of_run_ok hrun hm).1
  | called _ ih => exact fun ht hm => ih (Expr.within_call.mp ht) hm
  | head _ ih => exact fun ht hm => ih (List.forall_mem_cons.mp ht).1 hm
  | @tail fuel e _ _ _ _ _ hrun _ ih =>
    intro ht hm
    obtain ⟨he, hes⟩ := List.forall_mem_cons.mp ht
    exact ih hes ((Eval.keeps_eval (hbodies fuel) e he).of_run_ok hrun hm).1
  | args _ _ _ ih => exact fun ht hm => ih ht.2 hm
  | @body fuel c _ r vs parent _ m₁ _ hlookup hr hargs _ _ _ ih =>
    intro ht hm
    -- The body is no part of the call; it comes out of a frame.
    have hroutine : r.Within V := (hm.lookup? hlookup).within r hr
    obtain ⟨hm₁, hvs⟩ := (Eval.keeps_evalAll (hbodies fuel) c.args ht.2).of_run_ok hargs hm
    exact ih hroutine.body (hm₁.push (hroutine.bound_calleeFrame hvs m₁.stack parent))
  | assigned _ ih => exact fun ht hm => ih (Statement.within_assign.mp ht).2 hm
  | performed _ ih => exact fun ht hm => ih (Statement.within_call.mp ht) hm
  | condition _ ih => exact fun ht hm => ih (Statement.within_branch.mp ht).1 hm
  | @chosen fuel e yes no b _ _ _ htest _ ih =>
    intro ht hm
    obtain ⟨he, hyes, hno⟩ := Statement.within_branch.mp ht
    refine ih ?_ ((Eval.keeps_test (hbodies fuel) he).of_run_ok htest hm).1
    cases b with
    | true => exact hyes
    | false => exact hno
  | looped _ ih => exact fun ht hm => ih (Statement.within_loop.mp ht) hm
  | tested _ ih => exact fun ht hm => ih ht.1 hm
  | @turn fuel _ e _ _ _ _ htest _ ih =>
    exact fun ht hm => ih ht.2 ((Eval.keeps_test (hbodies fuel) ht.1).of_run_ok htest hm).1
  | @again fuel _ e body _ _ _ _ _ htest hbody _ ih =>
    intro ht hm
    obtain ⟨hm₁, -⟩ := (Eval.keeps_test (hbodies fuel) ht.1).of_run_ok htest hm
    have hkeeps := Eval.keeps_execFrom (hbodies fuel) fuel Eval.withinIfAny_none body ht.2
    exact ih ht (hkeeps.of_run_ok hbody hm₁).1
  | returned _ ih => exact fun ht hm => ih (Statement.within_result.mp ht).2 hm
  | first _ ih => exact fun ht hm => ih (List.forall_mem_cons.mp ht).1 hm
  | @next fuel s _ _ _ _ _ hrun _ ih =>
    intro ht hm
    obtain ⟨hs, hrest⟩ := List.forall_mem_cons.mp ht
    exact ih hrest ((Eval.keeps_exec (hbodies fuel) fuel s hs).of_run_ok hrun hm).1
  | entered _ ih => exact ih

/-! ## Programs -/

namespace Program

/-- **`m'` is passed while a program runs on `m`**: it begins or ends there, or its body passes it,
once the name of the program is bound. -/
inductive Passes (fuel : Nat) (p : Program) (m : Machine) : Machine → Prop
  | start : Passes fuel p m m
  | finish : Passes fuel p m ((p.run fuel).run m).2
  | body {m' : Machine} : BraceScript.Passes fuel (.block p.body)
      (m.bind p.name.text (.program p.name.text)) m' → Passes fuel p m m'

/-- **A program binds what is written in it**, on every stack that it passes, and the stack keeps
its shape. -/
theorem Passes.bound {fuel : Nat} {p : Program} {m m' : Machine} (h : p.Passes fuel m m')
    (hm : m.stack.Bound p.vocabulary) (hshape : m.stack.WellFormed) :
    m'.stack.Bound p.vocabulary ∧ m'.stack.WellFormed := by
  cases h with
  | start => exact ⟨hm, hshape⟩
  | finish =>
    exact ⟨(Eval.keeps_program fuel p m hm).1, hshape.of_extends (Eval.extendsStack_run fuel p m)⟩
  | body h =>
    exact ⟨h.bound p.body_within (Eval.keeps_programName p m hm).1,
      h.wellFormed (hshape.of_extends (.bind _ _ _))⟩

end Program

theorem Builtin.eq_of_name_eq {b b' : Builtin} (h : b.name = b'.name) : b = b' := by
  cases b <;> cases b' <;> simp_all [name]

/-- **Only written binders bind.**  A program runs from a stack on which nothing has run, and passes
a state.  There every name bound in any frame is that of a built-in function or one that the program
writes as its own name, a target, the name of a function or a parameter; so a built-in name that it
does not write in such a place still means the built-in function. -/
theorem bound_names_written {fuel : Nat} {p : Program} {m m' : Machine} (hm : m.stack = .initial)
    (h : p.Passes fuel m m') :
    (∀ i f name, m'.stack.frame? i = some f → f.bindings.binds name →
      name ∈ p.binders ∨ ∃ b : Builtin, name = b.name) ∧
    ∀ b : Builtin, b.name ∉ p.binders → m'.stack.lookup? b.name = some (.builtin b) := by
  obtain ⟨hbound, hshape⟩ := h.bound (hm ▸ .initial) (hm ▸ .initial)
  refine ⟨fun i f name hf hname => ?_, fun b hb => ?_⟩
  · obtain ⟨v, hv⟩ := Option.isSome_iff_exists.mp hname
    obtain ⟨hwritten, -⟩ | ⟨b, hb, -⟩ := hbound i f hf name v hv
    · exact .inl hwritten
    · exact .inr ⟨b, hb⟩
  · obtain ⟨v, hv⟩ := hshape.lookup?_builtin b
    obtain ⟨hwritten, -⟩ | ⟨b', hname, rfl⟩ := hbound.lookup? hv
    · exact absurd hwritten hb
    · rw [hv, Builtin.eq_of_name_eq hname]

/-- A program that binds a built-in name, and a parameter of a function that it calls. -/
def Program.shadowing : Program :=
  ⟨⟨"p", .start⟩, [.assign ⟨"max", .start⟩ (.bool true .start),
    .define ⟨"f", .start⟩ [⟨"x", .start⟩] [.assign ⟨"y", .start⟩ (.var ⟨"x", .start⟩)],
    .call ⟨"f", .start⟩ [.var ⟨"max", .start⟩]]⟩

/-- Inside the call, with two frames, one of the two built-in names is still what it was. -/
theorem bound_names_written_shadowing :
    ∃ m', Program.shadowing.Passes 2 (.fresh none) m' ∧ m'.stack.depth = 2 ∧
      m'.stack.lookup? "max" = some (.bool true) ∧
        m'.stack.lookup? "min" = some (.builtin .min) := by
  have hpass : Program.shadowing.Passes 2 (.fresh none) _ :=
    .body (.entered (.next rfl (.next rfl (.first (.performed (.body rfl rfl rfl rfl rfl
      (.finish _ _)))))))
  refine ⟨_, hpass, by decide +kernel, ?_, ?_⟩
  · rfl
  · exact (bound_names_written rfl hpass).2 .min (by decide +kernel)

end BraceScript
