import BraceScript.Feed
import BraceScript.Tree

/-!
# Proofs/Placed — moving every position in a datum

Tokens, errors and trees carry positions.  `place f` moves each of them by `f` and leaves everything
else; it is one operation over all these types, so that a law "the same up to positions" is an
equation between moved data.  `bare` moves all positions to one place, and so forgets them.
-/

namespace BraceScript

/-- Data that may hold positions. -/
class Placed (α : Type) where
  /-- The datum with every position moved. -/
  place (f : Position → Position) : α → α

export Placed (place)

/-- A datum without its positions: all are moved to the start. -/
def bare {α : Type} [Placed α] (a : α) : α := place (fun _ => .start) a

variable {α β : Type} [Placed α] [Placed β]

/-- Forgetting positions is moving them all to one place. -/
theorem bare_def (a : α) : bare a = place (fun _ => .start) a := rfl

instance : Placed Position := ⟨id⟩

instance : Placed Unit := ⟨fun _ => id⟩

instance : Placed BinaryOp := ⟨fun _ => id⟩

instance : Placed (Option α) := ⟨fun f => Option.map (place f)⟩

instance : Placed (List α) := ⟨fun f => List.map (place f)⟩

instance : Placed (α × β) := ⟨fun f => Prod.map (place f) (place f)⟩

instance : Placed Token := ⟨fun f t => ⟨t.lexeme, f t.position⟩⟩

instance : Placed SyntaxError := ⟨fun f e => ⟨e.fault, f e.position⟩⟩

instance : Placed (Except α β) where
  place f
    | .ok b => .ok (place f b)
    | .error a => .error (place f a)

instance : Placed Name := ⟨fun f x => ⟨x.text, f x.position⟩⟩

mutual

/-- An expression with every position moved. -/
def Expr.place (f : Position → Position) : Expr → Expr
  | .number n p => .number n (f p)
  | .bool b p => .bool b (f p)
  | .var x => .var (Placed.place f x)
  | .unary op p e => .unary op (f p) (e.place f)
  | .binary op p a b => .binary op (f p) (a.place f) (b.place f)
  | .call x es => .call (Placed.place f x) (Expr.placeAll f es)

/-- Expressions with every position moved. -/
def Expr.placeAll (f : Position → Position) : List Expr → List Expr
  | [] => []
  | e :: es => e.place f :: Expr.placeAll f es

end

instance : Placed Expr := ⟨Expr.place⟩

instance : Placed Call := ⟨fun f c => ⟨place f c.callee, place f c.args⟩⟩

mutual

/-- A statement with every position moved. -/
def Statement.place (f : Position → Position) : Statement → Statement
  | .assign x e => .assign (Placed.place f x) (e.place f)
  | .lambda x xs b => .lambda (Placed.place f x) (Placed.place f xs) (Statement.placeAll f b)
  | .define x xs b => .define (Placed.place f x) (Placed.place f xs) (Statement.placeAll f b)
  | .call x es => .call (Placed.place f x) (Placed.place f es)
  | .branch e yes no => .branch (e.place f) (Statement.placeAll f yes) (Statement.placeAll f no)
  | .loop e b => .loop (e.place f) (Statement.placeAll f b)
  | .result p e => .result (f p) (e.place f)

/-- Statements with every position moved. -/
def Statement.placeAll (f : Position → Position) : List Statement → List Statement
  | [] => []
  | s :: ss => s.place f :: Statement.placeAll f ss

end

instance : Placed Statement := ⟨Statement.place⟩

instance : Placed Program := ⟨fun f p => ⟨place f p.name, place f p.body⟩⟩

section Laws

variable (f : Position → Position)

@[simp] theorem place_nil : place f ([] : List α) = [] := rfl

@[simp] theorem place_cons (a : α) (as : List α) : place f (a :: as) = place f a :: place f as :=
  rfl

/-- Lists are moved item by item, so also part by part. -/
@[simp] theorem place_append (as bs : List α) : place f (as ++ bs) = place f as ++ place f bs :=
  List.map_append

/-- Moving leaves the number of items. -/
@[simp] theorem length_place (as : List α) : (place f as).length = as.length := List.length_map _

/-- Moving an outcome moves the result in it. -/
@[simp] theorem place_ok (b : β) : place f (.ok b : Except α β) = .ok (place f b) := rfl

/-- Moving a failed outcome moves its error. -/
@[simp] theorem place_error (a : α) : place f (.error a : Except α β) = .error (place f a) := rfl

/-- Without their places tokens are their lexemes. -/
theorem bare_map_ok (ts : List Token) :
    bare (ts.map (.ok : Token → Item)) = (ts.map Token.lexeme).map fun l => .ok ⟨l, .start⟩ := by
  rw [List.map_map]
  exact List.map_map

/-- The list function that goes with `Expr.place` is the one for lists. -/
theorem placeAll_expr : ∀ es : List Expr, Expr.placeAll f es = place f es
  | [] => rfl
  | e :: es => congrArg (e.place f :: ·) (placeAll_expr es)

/-- The list function that goes with `Statement.place` is the one for lists. -/
theorem placeAll_statement : ∀ ss : List Statement, Statement.placeAll f ss = place f ss
  | [] => rfl
  | s :: ss => congrArg (s.place f :: ·) (placeAll_statement ss)

/-- A literal keeps its number. -/
@[simp] theorem place_number (n : Number) (p : Position) :
    place f (.number n p : Expr) = .number n (f p) := rfl

@[simp] theorem place_bool (b : Bool) (p : Position) : place f (.bool b p : Expr) = .bool b (f p) :=
  rfl

/-- A variable stands at its name. -/
@[simp] theorem place_var (x : Name) : place f (.var x : Expr) = .var (place f x) := rfl

/-- A sign is moved, and its operand with it. -/
@[simp] theorem place_unary (op : UnaryOp) (p : Position) (e : Expr) :
    place f (.unary op p e : Expr) = .unary op (f p) (place f e) := rfl

/-- An operator is moved between its operands. -/
@[simp] theorem place_binary (op : BinaryOp) (p : Position) (a b : Expr) :
    place f (.binary op p a b : Expr) = .binary op (f p) (place f a) (place f b) := rfl

/-- A call stands at its name; the arguments have places of their own. -/
@[simp] theorem place_call (x : Name) (es : List Expr) :
    place f (.call x es : Expr) = .call (place f x) (place f es) :=
  congrArg (Expr.call _) (placeAll_expr f es)

@[simp] theorem place_assign (x : Name) (e : Expr) :
    place f (.assign x e : Statement) = .assign (place f x) (place f e) := rfl

@[simp] theorem place_perform (x : Name) (es : List Expr) :
    place f (.call x es : Statement) = .call (place f x) (place f es) := rfl

@[simp] theorem place_result (p : Position) (e : Expr) :
    place f (.result p e : Statement) = .result (f p) (place f e) := rfl

/-- A function without a name of its own stands at the name that it is assigned to. -/
@[simp] theorem place_lambda (x : Name) (xs : List Name) (b : Block) :
    place f (.lambda x xs b : Statement) = .lambda (place f x) (place f xs) (place f b) :=
  congrArg (Statement.lambda _ _) (placeAll_statement f b)

/-- A definition has the places of its name, of its parameters and of its body. -/
@[simp] theorem place_define (x : Name) (xs : List Name) (b : Block) :
    place f (.define x xs b : Statement) = .define (place f x) (place f xs) (place f b) :=
  congrArg (Statement.define _ _) (placeAll_statement f b)

/-- Both blocks of a branch are moved, whichever is run. -/
@[simp] theorem place_branch (e : Expr) (yes no : Block) :
    place f (.branch e yes no : Statement) = .branch (place f e) (place f yes) (place f no) := by
  rw [← placeAll_statement f yes, ← placeAll_statement f no]
  rfl

@[simp] theorem place_loop (e : Expr) (b : Block) :
    place f (.loop e b : Statement) = .loop (place f e) (place f b) :=
  congrArg (Statement.loop _) (placeAll_statement f b)

end Laws

/-! ## Moving nothing -/

/-- Data that stay as they are when no position is moved. -/
class LawfulPlaced (α : Type) [Placed α] : Prop where
  place_id : ∀ a : α, place id a = a

export LawfulPlaced (place_id)

instance : LawfulPlaced Token := ⟨fun _ => rfl⟩

instance : LawfulPlaced SyntaxError := ⟨fun _ => rfl⟩

instance : LawfulPlaced Name := ⟨fun _ => rfl⟩

instance [LawfulPlaced α] : LawfulPlaced (List α) := ⟨fun as => by
  rw [show place id as = as.map (place id) from rfl, funext (f := place id) place_id, List.map_id']⟩

instance [LawfulPlaced α] [LawfulPlaced β] : LawfulPlaced (Except α β) := ⟨fun r => by
  cases r with
  | ok b => rw [place_ok, place_id]
  | error a => rw [place_error, place_id]⟩

mutual

/-- Moving every position to itself changes no expression. -/
theorem Expr.place_id : ∀ e : Expr, e.place id = e
  | .number _ _ => rfl
  | .bool _ _ => rfl
  | .var _ => rfl
  | .unary op p e => congrArg (Expr.unary op p) (Expr.place_id e)
  | .binary op p a b => by rw [Expr.place, Expr.place_id a, Expr.place_id b, id]
  | .call x es => congrArg (Expr.call x) (Expr.placeAll_id es)

theorem Expr.placeAll_id : ∀ es : List Expr, Expr.placeAll id es = es
  | [] => rfl
  | e :: es => by rw [Expr.placeAll, Expr.place_id e, Expr.placeAll_id es]

end

instance : LawfulPlaced Expr := ⟨Expr.place_id⟩

instance : LawfulPlaced Call := ⟨fun c => congrArg (Call.mk c.callee) (place_id c.args)⟩

mutual

/-- Moving every position to itself changes no statement. -/
theorem Statement.place_id : ∀ s : Statement, s.place id = s
  | .assign x e => congrArg (Statement.assign x) (Expr.place_id e)
  | .lambda x xs b => by
    rw [Statement.place, Statement.placeAll_id b, LawfulPlaced.place_id x, LawfulPlaced.place_id xs]
  | .define x xs b => by
    rw [Statement.place, Statement.placeAll_id b, LawfulPlaced.place_id x, LawfulPlaced.place_id xs]
  | .call x es => congrArg (Statement.call x) (LawfulPlaced.place_id es)
  | .branch e yes no => by
    rw [Statement.place, Expr.place_id, Statement.placeAll_id yes, Statement.placeAll_id no]
  | .loop e b => by rw [Statement.place, Expr.place_id, Statement.placeAll_id b]
  | .result p e => congrArg (Statement.result p) (Expr.place_id e)

theorem Statement.placeAll_id : ∀ ss : List Statement, Statement.placeAll id ss = ss
  | [] => rfl
  | s :: ss => by rw [Statement.placeAll, Statement.place_id s, Statement.placeAll_id ss]

end

instance : LawfulPlaced Statement := ⟨Statement.place_id⟩

instance : LawfulPlaced Program := ⟨fun p => congrArg (Program.mk p.name) (place_id p.body)⟩

end BraceScript
