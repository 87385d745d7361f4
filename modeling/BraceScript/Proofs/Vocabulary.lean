import BraceScript.Proofs.Chain
import BraceScript.Proofs.Grammar
import BraceScript.Proofs.Passes

/-!
# Proofs/Vocabulary — what the trees of a running program are made of

A run carries trees about: a definition puts a body into a frame, and a call takes it out again,
much later and in another frame.  They stay parts of the program, though, and what follows from that
is said by a **vocabulary**: the tokens at which the nodes of a tree stand (`anchors`) and the names
that it binds (`binders`).  A tree or a value lies *within* a vocabulary if all its nodes and names
are of it.

Every program starts with the built-in functions under their names.  So a stack is *bound by* a
vocabulary (`Stack.Bound`) if each of its bindings is of the vocabulary or is a built-in function
under its own name.
-/

namespace BraceScript

/-! ## Trees -/

mutual

/-- **The tokens at which the nodes of an expression stand.** -/
def Expr.anchors : Expr → List Token
  | .number n p => [⟨.number n, p⟩]
  | .bool b p => [⟨.bool b, p⟩]
  | .var x => [x.token]
  | .unary op p a => ⟨.mark op.mark, p⟩ :: a.anchors
  | .binary op p a b => ⟨.mark op.mark, p⟩ :: (a.anchors ++ b.anchors)
  | .call x as => x.token :: Expr.allAnchors as

/-- The tokens at which the nodes of several expressions stand. -/
def Expr.allAnchors : List Expr → List Token
  | [] => []
  | a :: as => a.anchors ++ Expr.allAnchors as

end

mutual

/-- **The tokens at which the nodes of a statement stand**, with those of the names that it
binds. -/
def Statement.anchors : Statement → List Token
  | .assign x a => x.token :: a.anchors
  | .lambda x xs b => x.token :: (xs.map Name.token ++ Statement.allAnchors b)
  | .define x xs b => x.token :: (xs.map Name.token ++ Statement.allAnchors b)
  | .call x as => x.token :: Expr.allAnchors as
  | .branch a yes no => a.anchors ++ (Statement.allAnchors yes ++ Statement.allAnchors no)
  | .loop a b => a.anchors ++ Statement.allAnchors b
  | .result p a => ⟨.keyword .kwReturn, p⟩ :: a.anchors

/-- The tokens at which the nodes of several statements stand. -/
def Statement.allAnchors : List Statement → List Token
  | [] => []
  | s :: ss => s.anchors ++ Statement.allAnchors ss

end

mutual

/-- **The names that a statement binds**: targets of assignments, names of functions, and
parameters. -/
def Statement.binders : Statement → List String
  | .assign x _ => [x.text]
  | .lambda x xs b => x.text :: (xs.map Name.text ++ Statement.allBinders b)
  | .define x xs b => x.text :: (xs.map Name.text ++ Statement.allBinders b)
  | .call _ _ => []
  | .branch _ yes no => Statement.allBinders yes ++ Statement.allBinders no
  | .loop _ b => Statement.allBinders b
  | .result _ _ => []

/-- The names that several statements bind. -/
def Statement.allBinders : List Statement → List String
  | [] => []
  | s :: ss => s.binders ++ Statement.allBinders ss

end

theorem Expr.allAnchors_eq (as : List Expr) : Expr.allAnchors as = as.flatMap Expr.anchors := by
  induction as with
  | nil => rfl
  | cons a as ih => rw [Expr.allAnchors, ih, List.flatMap_cons]

theorem Statement.allAnchors_eq (ss : List Statement) :
    Statement.allAnchors ss = ss.flatMap Statement.anchors := by
  induction ss with
  | nil => rfl
  | cons s ss ih => rw [Statement.allAnchors, ih, List.flatMap_cons]

theorem Statement.allBinders_eq (ss : List Statement) :
    Statement.allBinders ss = ss.flatMap Statement.binders := by
  induction ss with
  | nil => rfl
  | cons s ss ih => rw [Statement.allBinders, ih, List.flatMap_cons]

/-- The tokens at which the nodes of a call stand. -/
def Call.anchors (c : Call) : List Token := c.callee.token :: Expr.allAnchors c.args

namespace Program

/-- The tokens at which the nodes of a program stand, with that of its name. -/
def anchors (p : Program) : List Token := p.name.token :: p.body.flatMap Statement.anchors

/-- The names that a program binds, its own among them. -/
def binders (p : Program) : List String := p.name.text :: p.body.flatMap Statement.binders

end Program

/-! ## Within a vocabulary -/

/-- **What trees may consist of**: tokens for nodes to stand at, and names to bind. -/
structure Vocabulary where
  token : Token → Prop
  binder : String → Prop

/-- A name that may be bound where it stands. -/
def Vocabulary.binds (V : Vocabulary) (x : Name) : Prop := V.token x.token ∧ V.binder x.text

/-- **The vocabulary of a program**: its own tokens and names. -/
def Program.vocabulary (p : Program) : Vocabulary := ⟨(· ∈ p.anchors), (· ∈ p.binders)⟩

variable {V : Vocabulary}

/-- Parameters are of the vocabulary if their tokens and their names are. -/
theorem Vocabulary.forall_binds_iff {xs : List Name} : (∀ x ∈ xs, V.binds x) ↔
    (∀ t ∈ xs.map Name.token, V.token t) ∧ ∀ name ∈ xs.map Name.text, V.binder name := by
  simp only [Vocabulary.binds, List.forall_mem_map, forall_and]

/-- Every node of the expression stands at a token of the vocabulary. -/
def Expr.Within (V : Vocabulary) (a : Expr) : Prop := ∀ t ∈ a.anchors, V.token t

/-- Every node of the statement stands at a token of the vocabulary, and every name that it binds is
one. -/
def Statement.Within (V : Vocabulary) (s : Statement) : Prop :=
  (∀ t ∈ s.anchors, V.token t) ∧ ∀ name ∈ s.binders, V.binder name

/-- The statements of a block lie within the vocabulary. -/
def Block.Within (V : Vocabulary) (b : Block) : Prop := ∀ s ∈ b, Statement.Within V s

/-- A block lies within the vocabulary if its tokens and the names that it binds are of it. -/
theorem Block.within_iff {b : Block} :
    Block.Within V b ↔
      (∀ t ∈ Statement.allAnchors b, V.token t) ∧
        ∀ name ∈ Statement.allBinders b, V.binder name := by
  simp only [Block.Within, Statement.Within, Statement.allAnchors_eq, Statement.allBinders_eq,
    List.forall_mem_flatMap, forall_and]

-- Said once here, the equations of the mutual definitions are not made anew for each construct
-- below.
attribute [local simp] Expr.anchors Statement.anchors Statement.binders

namespace Expr

theorem within_var {x : Name} : (var x).Within V ↔ V.token x.token := by
  simp [Within]

theorem within_unary {op : UnaryOp} {p : Position} {a : Expr} :
    (unary op p a).Within V ↔ V.token ⟨.mark op.mark, p⟩ ∧ a.Within V := by
  simp only [Within, anchors, List.forall_mem_cons]

theorem within_binary {op : BinaryOp} {p : Position} {a b : Expr} :
    (binary op p a b).Within V ↔ V.token ⟨.mark op.mark, p⟩ ∧ a.Within V ∧ b.Within V := by
  simp only [Within, anchors, List.forall_mem_cons, List.forall_mem_append]

theorem within_call {x : Name} {as : List Expr} :
    (call x as).Within V ↔ V.token x.token ∧ ∀ a ∈ as, a.Within V := by
  simp only [Within, anchors, allAnchors_eq, List.forall_mem_cons, List.forall_mem_flatMap]

end Expr

namespace Statement

theorem within_assign {x : Name} {a : Expr} :
    (assign x a).Within V ↔ V.binds x ∧ a.Within V := by
  simp [Within, Vocabulary.binds, Expr.Within, and_right_comm]

theorem within_define {x : Name} {xs : List Name} {b : Block} :
    (define x xs b).Within V ↔ V.binds x ∧ (∀ y ∈ xs, V.binds y) ∧ Block.Within V b := by
  rw [Vocabulary.forall_binds_iff, Block.within_iff]
  simp only [Within, anchors, binders, Vocabulary.binds, List.forall_mem_cons,
    List.forall_mem_append]
  exact ⟨fun ⟨⟨h₁, h₂, h₃⟩, h₄, h₅, h₆⟩ => ⟨⟨h₁, h₄⟩, ⟨h₂, h₅⟩, h₃, h₆⟩,
    fun ⟨⟨h₁, h₄⟩, ⟨h₂, h₅⟩, h₃, h₆⟩ => ⟨⟨h₁, h₂, h₃⟩, h₄, h₅, h₆⟩⟩

/-- A function without a name of its own lies within the vocabulary if one with a name does. -/
theorem within_lambda {x : Name} {xs : List Name} {b : Block} :
    (lambda x xs b).Within V ↔ V.binds x ∧ (∀ y ∈ xs, V.binds y) ∧ Block.Within V b :=
  (show (lambda x xs b).Within V ↔ (define x xs b).Within V by
    simp only [Within, anchors, binders]).trans within_define

theorem within_call {x : Name} {as : List Expr} :
    (call x as).Within V ↔ V.token x.token ∧ ∀ a ∈ as, a.Within V := by
  rw [← Expr.within_call]
  simp [Within, Expr.Within]

theorem within_branch {a : Expr} {yes no : Block} :
    (branch a yes no).Within V ↔ a.Within V ∧ Block.Within V yes ∧ Block.Within V no := by
  simp only [Within, anchors, binders, Block.within_iff, Expr.Within, List.forall_mem_append]
  exact ⟨fun ⟨⟨h₁, h₂, h₃⟩, h₄, h₅⟩ => ⟨h₁, ⟨h₂, h₄⟩, h₃, h₅⟩,
    fun ⟨h₁, ⟨h₂, h₄⟩, h₃, h₅⟩ => ⟨⟨h₁, h₂, h₃⟩, h₄, h₅⟩⟩

theorem within_loop {a : Expr} {b : Block} :
    (loop a b).Within V ↔ a.Within V ∧ Block.Within V b := by
  simp only [Within, anchors, binders, Block.within_iff, Expr.Within, List.forall_mem_append]
  exact and_assoc

theorem within_result {p : Position} {a : Expr} :
    (result p a).Within V ↔ V.token ⟨.keyword .kwReturn, p⟩ ∧ a.Within V := by
  simp [Within, Expr.Within]

end Statement

/-- The body of a program lies within the vocabulary of the program. -/
theorem Program.body_within (p : Program) : Block.Within p.vocabulary p.body := fun s hs =>
  ⟨fun _ ht => List.mem_cons_of_mem _ (List.mem_flatMap.mpr ⟨s, hs, ht⟩),
    fun _ hname => List.mem_cons_of_mem _ (List.mem_flatMap.mpr ⟨s, hs, hname⟩)⟩

/-! ## Values and frames -/

/-- The parameters and the body of the function lie within the vocabulary. -/
structure Routine.Within (V : Vocabulary) (r : Routine) : Prop where
  params : ∀ x ∈ r.params, V.binds x
  body : Block.Within V r.body

/-- The function that the value may be lies within the vocabulary. -/
def Value.Within (V : Vocabulary) (v : Value) : Prop := ∀ r, v.routine? = some r → r.Within V

/-- A number holds no trees. -/
theorem Value.within_of_number {v : Value} {n : Number} (h : v.number? = some n) : v.Within V := by
  intro r hr
  cases v with
  | function _ | lambda _ => cases h
  | _ => cases hr

/-- **A binding that the vocabulary allows**: a name of it with a value within it, or a built-in
function under its own name. -/
def Vocabulary.Allows (V : Vocabulary) (name : String) (v : Value) : Prop :=
  (V.binder name ∧ v.Within V) ∨ ∃ b : Builtin, name = b.name ∧ v = .builtin b

/-- A value that may be bound lies within the vocabulary: a built-in function has no body. -/
theorem Vocabulary.Allows.within {name : String} {v : Value} (h : V.Allows name v) :
    v.Within V := by
  obtain ⟨-, hv⟩ | ⟨b, -, rfl⟩ := h
  · exact hv
  · exact fun r hr => by cases hr

/-- **Each binding is allowed by the vocabulary.** -/
def Bindings.Bound (V : Vocabulary) (bs : Bindings) : Prop :=
  ∀ name v, bs.find? name = some v → V.Allows name v

namespace Bindings.Bound

/-- Without names there is nothing to allow. -/
theorem empty : Bound V .empty := fun _ _ h => by cases h

/-- Binding a name needs to be allowed; what else was bound stays. -/
theorem insert {bs : Bindings} (h : bs.Bound V) {name : String} {v : Value} (hv : V.Allows name v) :
    (bs.insert name v).Bound V := by
  intro other w hw
  by_cases heq : other = name
  · subst heq
    rw [find?_insert_self] at hw
    exact Option.some.inj hw ▸ hv
  · rw [find?_insert_of_ne bs heq] at hw
    exact h other w hw

/-- Names bound one after another, each of them allowed. -/
theorem ofList {pairs : List (String × Value)} (h : ∀ e ∈ pairs, V.Allows e.1 e.2) :
    Bound V (.ofList pairs) :=
  List.foldlRecOn pairs _ empty fun _ hb e he => hb.insert (h e he)

/-- The built-in functions are allowed by any vocabulary. -/
theorem builtins : Bound V .builtins := by
  refine ofList fun e he => ?_
  obtain ⟨b, -, rfl⟩ := List.mem_map.mp he
  exact .inr ⟨b, rfl, rfl⟩

end Bindings.Bound

/-- **In every frame, each binding is allowed by the vocabulary.** -/
def Stack.Bound (V : Vocabulary) (s : Stack) : Prop :=
  ∀ i f, s.frame? i = some f → f.bindings.Bound V

namespace Stack.Bound

variable {s : Stack}

/-- A stack on which nothing has run is bound by any vocabulary. -/
theorem initial : Bound V .initial := by
  intro i f hf
  have hi : i < 1 := lt_depth_of_frame? hf
  obtain rfl : i = 0 := by omega
  obtain rfl : Frame.outermost = f := Option.some.inj hf
  exact .builtins

/-- What is found under a name is allowed there. -/
theorem lookup? (h : s.Bound V) {name : String} {v : Value} (hv : s.lookup? name = some v) :
    V.Allows name v := by
  simp only [Stack.lookup?, Option.bind_eq_bind, Option.bind_eq_some_iff] at hv
  obtain ⟨i, -, f, hf, hv⟩ := hv
  exact h i f hf name v hv

/-- A name of the vocabulary may be bound to a value within it. -/
theorem bind (h : s.Bound V) {name : String} {v : Value} (hname : V.binder name) (hv : v.Within V) :
    (s.bind name v).Bound V := by
  intro i f hf
  rw [frame?_bind] at hf
  split at hf
  · obtain ⟨g, hg, rfl⟩ := Option.map_eq_some_iff.mp hf
    exact (h i g hg).insert (.inl ⟨hname, hv⟩)
  · exact h i f hf

/-- A frame goes on top if its own bindings are allowed. -/
theorem push (h : s.Bound V) {f : Frame} (hf : f.bindings.Bound V) : (s.push f).Bound V := by
  intro i g hg
  rw [frame?_push] at hg
  split at hg
  · exact Option.some.inj hg ▸ hf
  · exact h i g hg

/-- Taking a frame off leaves no new bindings. -/
theorem pop (h : s.Bound V) : s.pop.Bound V := fun i f hf => h i f (frame?_of_pop hf)

end Stack.Bound

/-- The frame of a call binds the parameters to the arguments. -/
theorem Routine.Within.bound_calleeFrame {r : Routine} (hr : r.Within V) {args : List Value}
    (hargs : ∀ v ∈ args, v.Within V) (s : Stack) (parent : Nat) :
    (s.calleeFrame r args parent).bindings.Bound V := by
  refine .ofList fun e he => .inl ?_
  obtain ⟨hname, hvalue⟩ := List.of_mem_zip he
  obtain ⟨x, hx, hname⟩ := List.mem_map.mp hname
  exact ⟨hname ▸ (hr.params x hx).2, hargs e.2 hvalue⟩

end BraceScript
